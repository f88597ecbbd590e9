import RpiVm.Lib.Channel

/-!
# Systems whose runs all end alike

When a label has one step at most and steps with different labels commute, a single run
to a state where no step is left decides all: every other run can be continued to that
state, in as many steps altogether. Two machines joined by channels are such a system, so
that what they do in one order of steps they do in every order.
-/

namespace Transition

variable {σ α : Type*} {Step : σ → α → σ → Prop}

/-- No step is left. -/
def Terminal (Step : σ → α → σ → Prop) (s : σ) : Prop := ∀ a t, ¬ Step s a t

/-- Steps with one label agree, and steps with two labels can be taken in either order. -/
structure Commuting (Step : σ → α → σ → Prop) : Prop where
  /-- A label has one step at most. -/
  deterministic : ∀ {s t t' : σ} {a : α}, Step s a t → Step s a t' → t' = t
  /-- A step is still there behind a step with another label. -/
  diamond : ∀ {s t u : σ} {a b : α}, a ≠ b → Step s a t → Step s b u →
    ∃ v, Step t b v ∧ Step u a v

/-- Behind any first step a run that ends is one step shorter. -/
theorem Commuting.strip (h : Commuting Step) {s s' t : σ} {a : α} {as : List α}
    (hrun : Run Step s as t) (hterm : Terminal Step t) (hstep : Step s a s') :
    ∃ bs, Run Step s' bs t ∧ bs.length + 1 = as.length := by
  induction hrun generalizing s' with
  | nil => exact absurd hstep (hterm _ _)
  | @cons s s₁ t b as hfirst hrest ih =>
    by_cases hab : a = b
    · subst hab
      obtain rfl := h.deterministic hfirst hstep
      exact ⟨as, hrest, rfl⟩
    · obtain ⟨d, hd, hd'⟩ := h.diamond hab hstep hfirst
      obtain ⟨bs, hbs, hlen⟩ := ih hterm hd'
      exact ⟨b :: bs, .cons hd hbs, by simp [← hlen]⟩

/-- Where one run ends, every other run can be continued to. -/
theorem Commuting.confluent (h : Commuting Step) {s t u : σ} {as bs : List α}
    (hrun : Run Step s as t) (hterm : Terminal Step t) (hother : Run Step s bs u) :
    ∃ cs, Run Step u cs t ∧ bs.length + cs.length = as.length := by
  induction hother generalizing as with
  | nil => exact ⟨as, hrun, by simp⟩
  | cons hstep _ ih =>
    obtain ⟨as', hrun', hlen⟩ := h.strip hrun hterm hstep
    obtain ⟨cs, hcs, hlen'⟩ := ih hrun'
    exact ⟨cs, hcs, by rw [List.length_cons]; omega⟩

end Transition

namespace Channel

open Transition

variable {α σ τ : Type*} {M : Machine α σ} {N : Machine α τ}

/-- Two machines joined by channels. -/
theorem Net.commuting (M : Machine α σ) (N : Machine α τ) : Commuting (Net.Step M N) where
  deterministic := by
    intro s t t' a h h'
    cases h with
    | leftSend hM =>
      cases h' with
      | leftSend hM' =>
        obtain ⟨rfl, rfl⟩ := Action.send.inj (hM.symm.trans hM')
        rfl
      | leftRecv hM' => cases hM.symm.trans hM'
    | leftRecv hM =>
      cases h' with
      | leftSend hM' => cases hM.symm.trans hM'
      | leftRecv hM' =>
        obtain rfl := Action.recv.inj (hM.symm.trans hM')
        rfl
    | rightSend hN =>
      cases h' with
      | rightSend hN' =>
        obtain ⟨rfl, rfl⟩ := Action.send.inj (hN.symm.trans hN')
        rfl
      | rightRecv hN' => cases hN.symm.trans hN'
    | rightRecv hN =>
      cases h' with
      | rightSend hN' => cases hN.symm.trans hN'
      | rightRecv hN' =>
        obtain rfl := Action.recv.inj (hN.symm.trans hN')
        rfl
  diamond := by
    intro s t u a b hab h h'
    cases h with
    | leftSend hM =>
      cases h' with
      | leftSend | leftRecv => exact absurd rfl hab
      | rightSend hN => exact ⟨_, .rightSend hN, .leftSend hM⟩
      | rightRecv hN => exact ⟨_, .rightRecv hN, .leftSend hM⟩
    | leftRecv hM =>
      cases h' with
      | leftSend | leftRecv => exact absurd rfl hab
      | rightSend hN => exact ⟨_, .rightSend hN, .leftRecv hM⟩
      | rightRecv hN => exact ⟨_, .rightRecv hN, .leftRecv hM⟩
    | rightSend hN =>
      cases h' with
      | rightSend | rightRecv => exact absurd rfl hab
      | leftSend hM => exact ⟨_, .leftSend hM, .rightSend hN⟩
      | leftRecv hM => exact ⟨_, .leftRecv hM, .rightSend hN⟩
    | rightRecv hN =>
      cases h' with
      | rightSend | rightRecv => exact absurd rfl hab
      | leftSend hM => exact ⟨_, .leftSend hM, .rightRecv hN⟩
      | leftRecv hM => exact ⟨_, .leftRecv hM, .rightRecv hN⟩

end Channel
