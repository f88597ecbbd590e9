import RpiVm.Lib.Run

/-!
# Two machines and the channels between them

A machine sends, receives or has stopped. Two machines are joined by two channels
that lose nothing and keep the order: in every order of steps, what one has received
is the first part of what the other has sent. A channel that replaces a symbol is
part of the machine that sends.
-/

namespace Channel

open Transition

variable {α σ τ : Type*}

/-- What a machine does next. -/
inductive Action (α σ : Type*) where
  /-- Send a symbol. -/
  | send (a : α) (next : σ)
  /-- Wait for a symbol. -/
  | recv (next : α → σ)
  /-- Nothing more. -/
  | halt

/-- A machine: what it does in each state. -/
abbrev Machine (α σ : Type*) := σ → Action α σ

/-! ## Histories of one machine -/

/-- A machine comes from one state to another, having received and sent symbols. -/
inductive Trace (M : Machine α σ) (s : σ) : List α → List α → σ → Prop
  | nil : Trace M s [] [] s
  | send {R Q : List α} {t u : σ} {a : α} :
      Trace M s R Q t → M t = .send a u → Trace M s R (Q ++ [a]) u
  | recv {R Q : List α} {t : σ} {f : α → σ} (a : α) :
      Trace M s R Q t → M t = .recv f → Trace M s (R ++ [a]) Q (f a)

/-! ## A machine that reads from a list -/

section

variable {M : Machine α σ} {s t t' : σ} {L R R' Q Q' : List α}

/-- A trace starts with the first step of the machine. -/
theorem Trace.head (h : Trace M s R Q t) :
    (R = [] ∧ Q = [] ∧ t = s) ∨ (∃ a u Q₁, M s = .send a u ∧ Q = a :: Q₁ ∧ Trace M u R Q₁ t) ∨
      ∃ a f R₁, M s = .recv f ∧ R = a :: R₁ ∧ Trace M (f a) R₁ Q t := by
  induction h with
  | nil => exact .inl ⟨rfl, rfl, rfl⟩
  | send _ hM ih =>
    obtain ⟨rfl, rfl, rfl⟩ | ⟨a, u, Q₁, hs, rfl, h⟩ | ⟨a, f, R₁, hs, rfl, h⟩ := ih
    · exact .inr (.inl ⟨_, _, [], hM, rfl, .nil⟩)
    · exact .inr (.inl ⟨a, u, _, hs, rfl, h.send hM⟩)
    · exact .inr (.inr ⟨a, f, R₁, hs, rfl, h.send hM⟩)
  | recv b _ hM ih =>
    obtain ⟨rfl, rfl, rfl⟩ | ⟨a, u, Q₁, hs, rfl, h⟩ | ⟨a, f, R₁, hs, rfl, h⟩ := ih
    · exact .inr (.inr ⟨b, _, [], hM, rfl, .nil⟩)
    · exact .inr (.inl ⟨a, u, Q₁, hs, rfl, h.recv b hM⟩)
    · exact .inr (.inr ⟨a, f, _, hs, rfl, h.recv b hM⟩)

/-- A machine has taken all it will of a list of symbols, of which it takes one after the
other: it has stopped, or waits behind the last. -/
structure Done (M : Machine α σ) (s : σ) (L R Q : List α) (t : σ) : Prop where
  /-- The history. -/
  trace : Trace M s R Q t
  /-- What has been received comes first in the list. -/
  read : R <+: L
  /-- No step is left. -/
  stuck : M t = .halt ∨ (∃ f, M t = .recv f) ∧ R = L

/-- Every trace on a list goes on to where the machine is done. -/
theorem Trace.rest (h : Trace M s R Q t) (hread : R <+: L) (hdone : Done M s L R' Q' t') :
    ∃ R₁ Q₁, R' = R ++ R₁ ∧ Q' = Q ++ Q₁ ∧ Trace M t R₁ Q₁ t' := by
  induction h with
  | nil => exact ⟨R', Q', rfl, rfl, hdone.trace⟩
  | send _ hM ih =>
    obtain ⟨R₁, Q₁, rfl, rfl, hrest⟩ := ih hread
    obtain ⟨rfl, rfl, rfl⟩ | ⟨a, u, Q₂, hs, rfl, hrest⟩ | ⟨a, f, R₂, hs, rfl, hrest⟩ := hrest.head
    · obtain hhalt | ⟨⟨f, hrecv⟩, _⟩ := hdone.stuck
      · cases hM.symm.trans hhalt
      · cases hM.symm.trans hrecv
    · obtain ⟨rfl, rfl⟩ := Action.send.inj (hM.symm.trans hs)
      exact ⟨R₁, Q₂, rfl, by simp, hrest⟩
    · cases hM.symm.trans hs
  | @recv R Q u f a _ hM ih =>
    obtain ⟨R₁, Q₁, rfl, rfl, hrest⟩ := ih ((List.prefix_append _ _).trans hread)
    obtain ⟨rfl, rfl, rfl⟩ | ⟨a', u', Q₂, hs, rfl, hrest⟩ | ⟨a', f', R₂, hs, rfl, hrest⟩ := hrest.head
    · obtain hhalt | ⟨_, rfl⟩ := hdone.stuck
      · cases hM.symm.trans hhalt
      · have hle := hread.length_le
        simp at hle
    · cases hM.symm.trans hs
    · obtain rfl := Action.recv.inj (hM.symm.trans hs)
      -- both symbols are the next of the list
      obtain ⟨L₁, hL₁⟩ := hread
      obtain ⟨L₂, hL₂⟩ := hdone.read
      have hsame : R ++ a :: L₁ = R ++ a' :: (R₂ ++ L₂) := by simpa using hL₁.trans hL₂.symm
      obtain ⟨rfl, _⟩ := List.cons.inj (List.append_cancel_left hsame)
      exact ⟨R₂, Q₁, by simp, rfl, hrest⟩

/-- Where a machine is done is determined by the list. -/
theorem Done.unique (h : Done M s L R Q t) (h' : Done M s L R' Q' t') :
    R' = R ∧ Q' = Q ∧ t' = t := by
  obtain ⟨R₁, Q₁, rfl, rfl, hrest⟩ := h.trace.rest h.read h'
  obtain ⟨rfl, rfl, rfl⟩ | ⟨a, u, Q₂, hs, rfl, _⟩ | ⟨a, f, R₂, hs, rfl, _⟩ := hrest.head
  · simp
  · obtain hhalt | ⟨⟨f, hrecv⟩, _⟩ := h.stuck
    · cases hs.symm.trans hhalt
    · cases hs.symm.trans hrecv
  · obtain hhalt | ⟨_, rfl⟩ := h.stuck
    · cases hs.symm.trans hhalt
    · have hle := h'.read.length_le
      simp at hle

/-- A machine that sends only so many symbols gets done with every list. -/
theorem Trace.exists_done {k : ℕ} (hbound : ∀ R Q t, Trace M s R Q t → R <+: L → Q.length ≤ k)
    (h : Trace M s R Q t) (hread : R <+: L) : ∃ R' Q' t', Done M s L R' Q' t' := by
  induction hd : L.length + k - (R.length + Q.length) using Nat.strong_induction_on
    generalizing R Q t with
  | _ d ih =>
    cases hM : M t with
    | halt => exact ⟨R, Q, t, h, hread, .inl hM⟩
    | send a u =>
      have hnext := h.send hM
      have hle := hread.length_le
      have hlt := hbound _ _ _ hnext hread
      refine ih _ ?_ hnext hread rfl
      rw [List.length_append, List.length_singleton] at hlt ⊢
      omega
    | recv f =>
      obtain ⟨rest, hrest⟩ := hread
      cases rest with
      | nil => exact ⟨R, Q, t, h, ⟨[], hrest⟩, .inr ⟨⟨f, hM⟩, by simpa using hrest⟩⟩
      | cons a rest =>
        have hread' : R ++ [a] <+: L := ⟨rest, by simpa using hrest⟩
        have hle := hread'.length_le
        have hsent := hbound _ _ _ h ⟨a :: rest, hrest⟩
        refine ih _ ?_ (h.recv a hM) hread' rfl
        rw [List.length_append, List.length_singleton] at hle ⊢
        omega

end

/-! ## Two machines -/

/-- Two machines with the symbols under way in each direction. -/
@[ext] structure Net (α σ τ : Type*) where
  /-- The state of the left machine. -/
  left : σ
  /-- The state of the right machine. -/
  right : τ
  /-- Under way from left to right. -/
  toRight : List α
  /-- Under way from right to left. -/
  toLeft : List α

/-- Which machine takes a step. -/
inductive Side where
  | left
  | right
  deriving DecidableEq, Repr

/-- One step of one machine. -/
inductive Net.Step (M : Machine α σ) (N : Machine α τ) : Net α σ τ → Side → Net α σ τ → Prop
  | leftSend {s s' : σ} {t : τ} {x y : List α} {a : α} : M s = .send a s' →
      Net.Step M N ⟨s, t, x, y⟩ .left ⟨s', t, x ++ [a], y⟩
  | leftRecv {s : σ} {t : τ} {x y : List α} {a : α} {f : α → σ} : M s = .recv f →
      Net.Step M N ⟨s, t, x, a :: y⟩ .left ⟨f a, t, x, y⟩
  | rightSend {s : σ} {t t' : τ} {x y : List α} {a : α} : N t = .send a t' →
      Net.Step M N ⟨s, t, x, y⟩ .right ⟨s, t', x, y ++ [a]⟩
  | rightRecv {s : σ} {t : τ} {x y : List α} {a : α} {f : α → τ} : N t = .recv f →
      Net.Step M N ⟨s, t, a :: x, y⟩ .right ⟨s, f a, x, y⟩

variable {M : Machine α σ} {N : Machine α τ}

/-! ## What arrives was sent -/

/-- The histories of both machines: what each has sent is what the other has
received, and then what is under way. -/
structure Net.Histories (M : Machine α σ) (N : Machine α τ) (s : σ) (t : τ) (c : Net α σ τ)
    (Rl Ql Rr Qr : List α) : Prop where
  /-- The history of the left machine. -/
  left : Trace M s Rl Ql c.left
  /-- The history of the right machine. -/
  right : Trace N t Rr Qr c.right
  /-- From left to right. -/
  toRight : Ql = Rr ++ c.toRight
  /-- From right to left. -/
  toLeft : Qr = Rl ++ c.toLeft

/-- One step extends the histories by one symbol. -/
theorem Net.Histories.step {s : σ} {t : τ} {c c' : Net α σ τ} {side : Side} {Rl Ql Rr Qr : List α}
    (h : Net.Histories M N s t c Rl Ql Rr Qr) (hstep : Net.Step M N c side c') :
    ∃ Rl' Ql' Rr' Qr', Net.Histories M N s t c' Rl' Ql' Rr' Qr' ∧
      Rl'.length + Ql'.length + Rr'.length + Qr'.length =
        Rl.length + Ql.length + Rr.length + Qr.length + 1 := by
  obtain ⟨hl, hr, hx, hy⟩ := h
  cases hstep with
  | leftSend hM =>
    exact ⟨_, _, _, _, ⟨.send hl hM, hr, by rw [hx, List.append_assoc], hy⟩, by simp; omega⟩
  | leftRecv hM =>
    exact ⟨_, _, _, _, ⟨.recv _ hl hM, hr, hx, by rw [hy]; simp⟩, by simp; omega⟩
  | rightSend hN =>
    exact ⟨_, _, _, _, ⟨hl, .send hr hN, hx, by rw [hy, List.append_assoc]⟩, by simp; omega⟩
  | rightRecv hN =>
    exact ⟨_, _, _, _, ⟨hl, .recv _ hr hN, by rw [hx]; simp, hy⟩, by simp; omega⟩

/-- Along every run from empty channels the machines have such histories, with one
symbol for each step. -/
theorem Net.histories {s : σ} {t : τ} {c : Net α σ τ} {sides : List Side}
    (hrun : Run (Net.Step M N) ⟨s, t, [], []⟩ sides c) :
    ∃ Rl Ql Rr Qr, Net.Histories M N s t c Rl Ql Rr Qr ∧
      Rl.length + Ql.length + Rr.length + Qr.length = sides.length := by
  have hextend : ∀ {c₀ : Net α σ τ} {Rl Ql Rr Qr : List α}, Run (Net.Step M N) c₀ sides c →
      Net.Histories M N s t c₀ Rl Ql Rr Qr → ∃ Rl' Ql' Rr' Qr',
        Net.Histories M N s t c Rl' Ql' Rr' Qr' ∧
          Rl'.length + Ql'.length + Rr'.length + Qr'.length =
            Rl.length + Ql.length + Rr.length + Qr.length + sides.length := by
    intro c₀ Rl Ql Rr Qr hrun₀ h₀
    clear hrun
    induction hrun₀ generalizing Rl Ql Rr Qr with
    | nil => exact ⟨Rl, Ql, Rr, Qr, h₀, rfl⟩
    | cons hstep _ ih =>
      obtain ⟨_, _, _, _, h₁, hlen₁⟩ := h₀.step hstep
      obtain ⟨Rl', Ql', Rr', Qr', h', hlen'⟩ := ih h₁
      exact ⟨Rl', Ql', Rr', Qr', h', by rw [hlen', hlen₁, List.length_cons]; omega⟩
  obtain ⟨Rl, Ql, Rr, Qr, h, hlen⟩ := hextend hrun ⟨.nil, .nil, rfl, rfl⟩
  exact ⟨Rl, Ql, Rr, Qr, h, by simpa using hlen⟩

/-! ## A channel that alters symbols -/

/-- A machine behind a channel that makes `g i a` of its symbol `a` with number `i`:
the state of the machine, and the number of symbols sent. -/
def altering (g : ℕ → α → α) (M : Machine α σ) : Machine α (σ × ℕ) := fun s =>
  match M s.1 with
  | .send a t => .send (g s.2 a) (t, s.2 + 1)
  | .recv f => .recv fun a => (f a, s.2)
  | .halt => .halt

/-- Such a machine has a history of its own, and its symbols arrive altered. -/
theorem Trace.of_altering {g : ℕ → α → α} {s : σ} {u : σ × ℕ} {R Q : List α}
    (h : Trace (altering g M) (s, 0) R Q u) :
    ∃ Q', Trace M s R Q' u.1 ∧ Q'.length = u.2 ∧ Q = Q'.mapIdx g := by
  induction h with
  | nil => exact ⟨[], .nil, rfl, rfl⟩
  | @send R Q t u b _ hM ih =>
    obtain ⟨Q', htrace, hlen, rfl⟩ := ih
    unfold altering at hM
    split at hM
    · rename_i a t' ha
      obtain ⟨rfl, rfl⟩ := Action.send.inj hM
      refine ⟨Q' ++ [a], .send htrace ha, by simp [hlen], ?_⟩
      rw [List.mapIdx_concat, hlen]
    · cases hM
    · cases hM
  | @recv R Q t f b _ hM ih =>
    obtain ⟨Q', htrace, hlen, rfl⟩ := ih
    unfold altering at hM
    split at hM
    · cases hM
    · rename_i f' hf
      obtain rfl := Action.recv.inj hM
      exact ⟨Q', .recv b htrace hf, hlen, rfl⟩
    · cases hM

/-- The machine behind the channel stops when the machine does. -/
theorem altering_eq_halt {g : ℕ → α → α} {s : σ × ℕ} :
    altering g M s = .halt ↔ M s.1 = .halt := by
  unfold altering
  split <;> simp_all

/-- The machine behind the channel waits when the machine does. -/
theorem altering_eq_recv {g : ℕ → α → α} {s : σ × ℕ} :
    (∃ f, altering g M s = .recv f) ↔ ∃ f, M s.1 = .recv f := by
  unfold altering
  split <;> simp_all

end Channel
