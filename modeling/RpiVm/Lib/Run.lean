import Mathlib

/-!
# Runs of a labelled transition relation

A run performs a list of labelled steps. An invariant of the steps holds along
every run, and a property equivalent to another at each reachable step is
equivalent to it over whole runs.
-/

namespace Transition

variable {σ α : Type*} {Step : σ → α → σ → Prop}

/-- A run from one state to another that performs the given labels in order. -/
inductive Run (Step : σ → α → σ → Prop) : σ → List α → σ → Prop
  | nil (s : σ) : Run Step s [] s
  | cons {s s' s'' : σ} {a : α} {as : List α} :
      Step s a s' → Run Step s' as s'' → Run Step s (a :: as) s''

/-- A state that some run reaches from an initial one. -/
def Reachable (Step : σ → α → σ → Prop) (Init : σ → Prop) (s : σ) : Prop :=
  ∃ s₀ as, Init s₀ ∧ Run Step s₀ as s

/-- Every step that a list of labels takes has a property of the states around it. -/
def EveryStep (Step : σ → α → σ → Prop) (P : σ → α → σ → Prop) (s : σ) (as : List α) : Prop :=
  ∀ pre a post s₁ s₂, as = pre ++ a :: post → Run Step s pre s₁ → Step s₁ a s₂ → P s₁ a s₂

/-- What every step preserves, every run preserves. -/
theorem Run.invariant {I : σ → Prop} (hstep : ∀ s a s', I s → Step s a s' → I s')
    {s s' : σ} {as : List α} (hrun : Run Step s as s') (hs : I s) : I s' := by
  induction hrun with
  | nil => exact hs
  | cons h _ ih => exact ih (hstep _ _ _ hs h)

/-- What holds initially and is preserved by every step holds of reachable states. -/
theorem Reachable.invariant {I Init : σ → Prop} (hinit : ∀ s, Init s → I s)
    (hstep : ∀ s a s', I s → Step s a s' → I s') {s : σ} (hs : Reachable Step Init s) : I s := by
  obtain ⟨s₀, as, h₀, hrun⟩ := hs
  exact hrun.invariant hstep (hinit s₀ h₀)

/-- Runs compose. -/
theorem Run.append {s s' s'' : σ} {as bs : List α} (h : Run Step s as s')
    (h' : Run Step s' bs s'') : Run Step s (as ++ bs) s'' := by
  induction h with
  | nil => exact h'
  | cons hstep _ ih => exact .cons hstep (ih h')

/-- A run may end with one more step. -/
theorem Run.snoc {s s' s'' : σ} {as : List α} {a : α} (h : Run Step s as s')
    (hstep : Step s' a s'') : Run Step s (as ++ [a]) s'' :=
  h.append (.cons hstep (.nil _))

/-- A run splits where its list of labels does. -/
theorem Run.split {s s'' : σ} {as bs : List α} (h : Run Step s (as ++ bs) s'') :
    ∃ s', Run Step s as s' ∧ Run Step s' bs s'' := by
  induction as generalizing s with
  | nil => exact ⟨s, .nil s, h⟩
  | cons a as ih =>
    cases h with
    | cons hstep htail =>
      obtain ⟨s', hpre, hpost⟩ := ih htail
      exact ⟨s', .cons hstep hpre, hpost⟩

/-- A reachable state stays reachable. -/
theorem Reachable.step {Init : σ → Prop} {s s' : σ} {a : α} (hs : Reachable Step Init s)
    (hstep : Step s a s') : Reachable Step Init s' := by
  obtain ⟨s₀, as, h₀, hrun⟩ := hs
  exact ⟨s₀, as ++ [a], h₀, hrun.snoc hstep⟩

/-- A reachable state stays reachable along a run. -/
theorem Reachable.run {Init : σ → Prop} {s s' : σ} {as : List α} (hs : Reachable Step Init s)
    (hrun : Run Step s as s') : Reachable Step Init s' := by
  obtain ⟨s₀, bs, h₀, hrun₀⟩ := hs
  exact ⟨s₀, bs ++ as, h₀, hrun₀.append hrun⟩

/-- When runs have a length at most, each is part of one after which no step is left. -/
theorem Run.exists_terminal {s₀ s : σ} {as : List α} {n : ℕ}
    (hbound : ∀ bs t, Run Step s₀ bs t → bs.length ≤ n) (hrun : Run Step s₀ as s) :
    ∃ bs t, Run Step s bs t ∧ ∀ a t', ¬ Step t a t' := by
  induction hk : n - as.length using Nat.strong_induction_on generalizing s as with
  | _ k ih =>
    by_cases hterm : ∀ a t', ¬ Step s a t'
    · exact ⟨[], s, .nil s, hterm⟩
    · push Not at hterm
      obtain ⟨a, t, hstep⟩ := hterm
      have hlonger := hrun.snoc hstep
      have hle := hbound _ _ hlonger
      rw [List.length_append, List.length_singleton] at hle
      obtain ⟨bs, t', hrest, hend⟩ :=
        ih (n - (as ++ [a]).length) (by simp; omega) hlonger rfl
      exact ⟨a :: bs, t', .cons hstep hrest, hend⟩

/-- Initial states are reachable. -/
theorem Reachable.init {Init : σ → Prop} {s : σ} (hs : Init s) : Reachable Step Init s :=
  ⟨s, [], hs, .nil s⟩

/-- Fewer steps reach fewer states. -/
theorem Reachable.mono {Step' : σ → α → σ → Prop} {Init : σ → Prop} {s : σ}
    (hs : Reachable Step Init s) (hsub : ∀ s a s', Step s a s' → Step' s a s') :
    Reachable Step' Init s := by
  obtain ⟨s₀, as, h₀, hrun⟩ := hs
  refine ⟨s₀, as, h₀, ?_⟩
  clear h₀
  induction hrun with
  | nil s => exact .nil s
  | cons h _ ih => exact .cons (hsub _ _ _ h) ih

/-- Properties that agree at every reachable step agree over whole runs. -/
theorem everyStep_congr {Init : σ → Prop} {P Q : σ → α → σ → Prop}
    (hPQ : ∀ s a s', Reachable Step Init s → Step s a s' → (P s a s' ↔ Q s a s'))
    {s : σ} (hs : Reachable Step Init s) (as : List α) :
    EveryStep Step P s as ↔ EveryStep Step Q s as := by
  constructor
  · intro h pre a post s₁ s₂ has hrun hstep
    exact (hPQ _ _ _ (hs.run hrun) hstep).mp (h pre a post s₁ s₂ has hrun hstep)
  · intro h pre a post s₁ s₂ has hrun hstep
    exact (hPQ _ _ _ (hs.run hrun) hstep).mpr (h pre a post s₁ s₂ has hrun hstep)

/-- A property of states that the steps of a run preserve holds at its end. -/
theorem EveryStep.invariant {I : σ → Prop} {s s' : σ} {as : List α}
    (h : EveryStep Step (fun s₁ _ s₂ => I s₁ → I s₂) s as) (hrun : Run Step s as s')
    (hs : I s) : I s' := by
  induction hrun with
  | nil => exact hs
  | @cons s s₁ s'' a as hstep _ ih =>
    refine ih ?_ (h [] a as s s₁ rfl (.nil s) hstep hs)
    intro pre b post t₁ t₂ has hpre ht
    exact h (a :: pre) b post t₁ t₂ (by rw [has]; rfl) (.cons hstep hpre) ht

/-- Where some step towards an aim is always left, as a measure tells, the aim can be
reached. -/
theorem Run.exists_of_progress {β : Type*} [LT β] [WellFoundedLT β] {I : β → σ → Prop}
    {Aim : σ → Prop} (hprogress : ∀ m s, I m s → ¬ Aim s → ∃ a s' m', Step s a s' ∧ I m' s' ∧ m' < m)
    {m : β} {s : σ} (h : I m s) : ∃ as s', Run Step s as s' ∧ Aim s' := by
  induction m using WellFoundedLT.induction generalizing s with
  | _ m ih =>
    by_cases haim : Aim s
    · exact ⟨[], s, .nil s, haim⟩
    · obtain ⟨a, s', m', hstep, h', hlt⟩ := hprogress m s h haim
      obtain ⟨as, t, hrun, ht⟩ := ih m' hlt h'
      exact ⟨a :: as, t, .cons hstep hrun, ht⟩

/-! ## Refinement -/

/-- A relation that each concrete step keeps, with an abstract step or with none, carries
every concrete run over to an abstract one. -/
theorem Run.simulate {τ β : Type*} {Step' : τ → β → τ → Prop} {R : σ → τ → Prop}
    (hstep : ∀ s a s' t, R s t → Step s a s' → R s' t ∨ ∃ b t', Step' t b t' ∧ R s' t')
    {s s' : σ} {t : τ} {as : List α} (hrun : Run Step s as s') (h : R s t) :
    ∃ bs t', Run Step' t bs t' ∧ R s' t' := by
  induction hrun generalizing t with
  | nil => exact ⟨[], t, .nil t, h⟩
  | cons hfirst _ ih =>
    obtain hsame | ⟨b, t₁, hb, hnext⟩ := hstep _ _ _ _ h hfirst
    · exact ih hsame
    · obtain ⟨bs, t', hrest, h'⟩ := ih hnext
      exact ⟨b :: bs, t', .cons hb hrest, h'⟩

/-- A relation under which each abstract step is matched by concrete ones carries every
abstract run back to a concrete one. -/
theorem Run.lift {τ β : Type*} {Step' : τ → β → τ → Prop} {R : σ → τ → Prop}
    (hstep : ∀ s t b t', R s t → Step' t b t' → ∃ as s', Run Step s as s' ∧ R s' t')
    {s : σ} {t t' : τ} {bs : List β} (hrun : Run Step' t bs t') (h : R s t) :
    ∃ as s', Run Step s as s' ∧ R s' t' := by
  induction hrun generalizing s with
  | nil => exact ⟨[], s, .nil s, h⟩
  | cons hfirst _ ih =>
    obtain ⟨as, s₁, hrun₁, h₁⟩ := hstep _ _ _ _ h hfirst
    obtain ⟨as', s', hrest, h'⟩ := ih h₁
    exact ⟨as ++ as', s', hrun₁.append hrest, h'⟩

end Transition
