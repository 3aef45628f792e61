import Mathlib

/-! # Stateful computations that may stop with an error

An `Effect` reads and writes a state and either returns a value or stops with
an error. The state reached when it stops is kept, because a thread that
panics leaves its earlier writes in memory that other threads share.

`wp` is the weakest precondition: `x.wp post fail s` says that `x`, started in
`s`, ends in `post` when it returns and in `fail` when it stops.
-/

namespace BitcoinClient

/-- A sequence of two fallible steps that returns has returned at both. -/
theorem except_bind_eq_ok {ε α β : Type} {x : Except ε α} {f : α → Except ε β} {result : β} :
    (x >>= f) = .ok result ↔ ∃ value, x = .ok value ∧ f value = .ok result := by
  cases x with
  | error error => simp [bind, Except.bind]
  | ok value => simp [bind, Except.bind]

theorem except_bind_eq_error {ε α β : Type} {x : Except ε α} {f : α → Except ε β} {error : ε} :
    (x >>= f) = .error error ↔
      x = .error error ∨ ∃ value, x = .ok value ∧ f value = .error error := by
  cases x with
  | error other => simp [bind, Except.bind]
  | ok value => simp [bind, Except.bind]

/-- A computation over the state `σ` that returns an `α` or stops with an `ε`. -/
abbrev Effect (ε σ α : Type) := EStateM ε σ α

namespace Effect

variable {ε σ α β : Type}

def wp (x : Effect ε σ α) (post : α → σ → Prop) (fail : ε → σ → Prop) (s : σ) : Prop :=
  match x s with
  | .ok value s' => post value s'
  | .error error s' => fail error s'

variable {x : Effect ε σ α} {post : α → σ → Prop} {fail : ε → σ → Prop} {s : σ}

theorem wp_of_ok {value : α} {s' : σ} (hrun : x s = .ok value s') :
    x.wp post fail s ↔ post value s' := by
  rw [wp, hrun]

theorem wp_of_error {error : ε} {s' : σ} (hrun : x s = .error error s') :
    x.wp post fail s ↔ fail error s' := by
  rw [wp, hrun]

instance [∀ value s', Decidable (post value s')] [∀ error s', Decidable (fail error s')] :
    Decidable (x.wp post fail s) :=
  match hrun : x s with
  | .ok value s' => decidable_of_iff (post value s') (wp_of_ok hrun).symm
  | .error error s' => decidable_of_iff (fail error s') (wp_of_error hrun).symm

@[simp] theorem wp_pure (value : α) :
    wp (pure value : Effect ε σ α) post fail s ↔ post value s := Iff.rfl

@[simp] theorem wp_throw (error : ε) :
    wp (throw error : Effect ε σ α) post fail s ↔ fail error s := Iff.rfl

@[simp] theorem wp_bind (x : Effect ε σ α) (f : α → Effect ε σ β) {post : β → σ → Prop} :
    wp (x >>= f) post fail s ↔ x.wp (fun value => wp (f value) post fail) fail s := by
  change wp (EStateM.bind x f) post fail s ↔ _
  unfold wp EStateM.bind
  cases x s <;> rfl

@[simp] theorem wp_map (x : Effect ε σ α) (f : α → β) {post : β → σ → Prop} :
    wp (f <$> x) post fail s ↔ x.wp (fun value => post (f value)) fail s := by
  change wp (EStateM.map f x) post fail s ↔ _
  unfold wp EStateM.map
  cases x s <;> rfl

@[simp] theorem wp_ite {cond : Prop} [Decidable cond] (x y : Effect ε σ α) :
    wp (if cond then x else y) post fail s ↔
      (cond → x.wp post fail s) ∧ (¬cond → y.wp post fail s) := by
  split <;> simp_all

/-- Take the outcome of a computation, an error or not, as a value. -/
def attempt {ε' : Type} (x : Effect ε σ α) : Effect ε' σ (Except ε α) := fun s =>
  match x s with
  | .ok value s' => .ok (.ok value) s'
  | .error error s' => .ok (.error error) s'

/-- Rule of consequence. -/
theorem wp_mono {post' : α → σ → Prop} {fail' : ε → σ → Prop} (h : x.wp post fail s)
    (hpost : ∀ value s', post value s' → post' value s')
    (hfail : ∀ error s', fail error s' → fail' error s') : x.wp post' fail' s := by
  unfold wp at h ⊢
  cases hrun : x s with
  | ok value s' =>
      rw [hrun] at h
      exact hpost value s' h
  | error error s' =>
      rw [hrun] at h
      exact hfail error s' h

theorem wp_true : x.wp (fun _ _ => True) (fun _ _ => True) s := by
  unfold wp
  split <;> trivial

/-- Two facts about one computation hold together. -/
theorem wp_and {post' both : α → σ → Prop} {fail' bothFail : ε → σ → Prop}
    (h : x.wp post fail s) (h' : x.wp post' fail' s)
    (hpost : ∀ value s', post value s' → post' value s' → both value s')
    (hfail : ∀ error s', fail error s' → fail' error s' → bothFail error s') :
    x.wp both bothFail s := by
  unfold wp at h h' ⊢
  cases hrun : x s with
  | ok value s' =>
      rw [hrun] at h h'
      exact hpost value s' h h'
  | error error s' =>
      rw [hrun] at h h'
      exact hfail error s' h h'

/-- What holds of the actual outcome is a weakest precondition. -/
theorem wp_run : x.wp (fun value s' => x s = .ok value s') (fun error s' => x s = .error error s')
    s := by
  unfold wp
  cases x s <;> rfl

/-- A computation returns a value if and only if that is a weakest precondition. -/
theorem wp_eq_iff {result : α} :
    x.wp (fun value _ => value = result) (fun _ _ => False) s ↔ ∃ s', x s = .ok result s' := by
  unfold wp
  cases x s with
  | ok value s' => simp
  | error error s' => simp

/-- A computation that cannot stop returns. -/
theorem exists_ok_of_wp (h : x.wp post (fun _ _ => False) s) :
    ∃ value s', x s = .ok value s' ∧ post value s' := by
  unfold wp at h
  cases hrun : x s with
  | ok value s' =>
      rw [hrun] at h
      exact ⟨value, s', rfl, h⟩
  | error error s' =>
      rw [hrun] at h
      exact h.elim

end Effect

end BitcoinClient
