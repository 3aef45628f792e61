import Mathlib.Logic.Relation

/-! # Runs of a transition system

`next` is the step of a system for every event, where the event applies. A run takes events
in any order, as long as each of them meets `guard` in the state it is taken in.
-/

namespace BitcoinClient

namespace Transition

variable {σ κ : Type} (next : σ → κ → Option σ) (guard : σ → κ → Prop)

/-- One step of a run. -/
def Step (s s' : σ) : Prop := ∃ event, guard s event ∧ next s event = some s'

/-- The states that runs reach. -/
def Reachable (start : σ) : σ → Prop := Relation.ReflTransGen (Step next guard) start

/-- Take the given events in order; `none` when one of them does not apply or does not meet
the guard where it is taken. -/
def run [∀ s event, Decidable (guard s event)] (s : σ) : List κ → Option σ
  | [] => some s
  | event :: later =>
    if guard s event then (next s event).bind fun s => run s later else none

variable {next guard} {start s : σ}

/-- What holds at the start and is kept by every step holds in every state that is reached. -/
theorem Reachable.invariant (invariant : σ → Prop) (hstart : invariant start)
    (hstep : ∀ s s' event, invariant s → guard s event → next s event = some s' → invariant s')
    (hreach : Reachable next guard start s) : invariant s := by
  induction hreach with
  | refl => exact hstart
  | tail _ hnext ih =>
      obtain ⟨event, hguard, hevent⟩ := hnext
      exact hstep _ _ event ih hguard hevent

/-- A weaker guard allows more runs. -/
theorem Reachable.mono {guard' : σ → κ → Prop}
    (hguard : ∀ s event, guard s event → guard' s event) (hreach : Reachable next guard start s) :
    Reachable next guard' start s := by
  refine Relation.ReflTransGen.mono ?_ _ _ hreach
  rintro s s' ⟨event, hmeets, hnext⟩
  exact ⟨event, hguard s event hmeets, hnext⟩

/-- When runs of a second system match every step of the first one, they match its runs. -/
theorem Reachable.simulation {σ' κ' : Type} {next' : σ' → κ' → Option σ'} {guard' : σ' → κ' → Prop}
    {start' : σ'} (relation : σ → σ' → Prop) (hstart : relation start start')
    (hstep : ∀ s t s' event, Reachable next guard start s → relation s t → guard s event →
      next s event = some s' → ∃ t', Reachable next' guard' t t' ∧ relation s' t')
    (hreach : Reachable next guard start s) :
    ∃ t, Reachable next' guard' start' t ∧ relation s t := by
  induction hreach with
  | refl => exact ⟨start', Relation.ReflTransGen.refl, hstart⟩
  | tail hbefore hnext ih =>
      obtain ⟨event, hguard, hevent⟩ := hnext
      obtain ⟨t, hreach', hrelation⟩ := ih
      obtain ⟨t', hmatch, hrelation'⟩ := hstep _ t _ event hbefore hrelation hguard hevent
      exact ⟨t', hreach'.trans hmatch, hrelation'⟩

/-- Steps that lower a rank come to an end. -/
theorem not_forever {ρ : Type} {lower : ρ → ρ → Prop} (hwf : WellFounded lower)
    (step : σ → σ → Prop) (ranked : σ → ρ → Prop)
    (hstep : ∀ s s' r, ranked s r → step s s' → ∃ r', ranked s' r' ∧ lower r' r)
    (run : Nat → σ) {r : ρ} (h : ranked (run 0) r) : ¬ ∀ i, step (run i) (run (i + 1)) := by
  intro hrun
  induction r using hwf.induction generalizing run with
  | h r ih =>
      obtain ⟨r', hranked, hlower⟩ := hstep _ _ _ h (hrun 0)
      exact ih r' hlower (fun i => run (i + 1)) hranked fun i => hrun (i + 1)

/-- A replayed list of events is a run. -/
theorem reachable_of_run [∀ s event, Decidable (guard s event)] {events : List κ} {final : σ}
    (hrun : run next guard s events = some final) : Reachable next guard s final := by
  induction events generalizing s with
  | nil =>
      cases hrun
      exact Relation.ReflTransGen.refl
  | cons event later ih =>
      unfold run at hrun
      split at hrun
      next hguard =>
        obtain ⟨s', hnext, hlater⟩ := Option.bind_eq_some_iff.mp hrun
        exact (ih hlater).head ⟨event, hguard, hnext⟩
      next => cases hrun

theorem run_append [∀ s event, Decidable (guard s event)] (earlier later : List κ) :
    run next guard s (earlier ++ later) =
      (run next guard s earlier).bind fun s' => run next guard s' later := by
  induction earlier generalizing s with
  | nil => rfl
  | cons event rest ih =>
      simp only [List.cons_append, run]
      split
      · rw [Option.bind_assoc]
        congr 1
        funext s'
        exact ih
      · rfl

/-- What the events of a replay keep holds at its end. -/
theorem run_invariant [∀ s event, Decidable (guard s event)] (invariant : σ → Prop)
    {events : List κ} {final : σ} (hstart : invariant s)
    (hstep : ∀ event ∈ events, ∀ s s', invariant s → next s event = some s' → invariant s')
    (hrun : run next guard s events = some final) : invariant final := by
  induction events generalizing s with
  | nil =>
      cases hrun
      exact hstart
  | cons event later ih =>
      obtain ⟨_, hlater⟩ := Option.ite_none_right_eq_some.mp hrun
      obtain ⟨s', hnext, hrest⟩ := Option.bind_eq_some_iff.mp hlater
      apply ih (hstep event List.mem_cons_self s s' hstart hnext) _ hrest
      exact fun other hother => hstep other (List.mem_cons_of_mem _ hother)

/-- Every step of a replay meets its guard. -/
theorem guard_of_run [∀ s event, Decidable (guard s event)] {earlier later : List κ} {event : κ}
    {final s' : σ} (hrun : run next guard s (earlier ++ event :: later) = some final)
    (hearlier : run next (fun _ _ => True) s earlier = some s') : guard s' event := by
  induction earlier generalizing s with
  | nil =>
      cases hearlier
      exact (Option.ite_none_right_eq_some.mp hrun).1
  | cons first rest ih =>
      obtain ⟨_, hlater⟩ := Option.ite_none_right_eq_some.mp hrun
      obtain ⟨s₁, hnext, hrest⟩ := Option.bind_eq_some_iff.mp hlater
      apply ih hrest
      rw [run, if_pos trivial, hnext] at hearlier
      exact hearlier

/-- What a replay computes is reached. -/
theorem exists_reachable (next : σ → κ → Option σ) (guard : σ → κ → Prop)
    [∀ s event, Decidable (guard s event)] (start : σ) (events : List κ) (check : σ → Bool)
    (hrun : (run next guard start events).any check = true) :
    ∃ final, Reachable next guard start final ∧ check final = true := by
  cases hfinal : run next guard start events with
  | none =>
      rw [hfinal] at hrun
      cases hrun
  | some final =>
      rw [hfinal] at hrun
      exact ⟨final, reachable_of_run hfinal, hrun⟩

end Transition

end BitcoinClient
