import Mathlib
import BitcoinClient.Foundation.Effect

/-! # Threads over a shared memory

Each thread is a small machine: its local state determines, for every external
choice, the next atomic action on the shared memory. A run interleaves the
actions of all threads in any order.

Safety is proved thread by thread (`Reachable.rely_guarantee`): a step keeps
the shared invariant and establishes the thread's own assertion, and its effect
on the memory (`rely`) cannot falsify the assertions of the other threads.
A `guard` restricts a run to steps with some property; it may read the whole
configuration before the step.
-/

namespace BitcoinClient

/-- The threads' common program. `σ` is the memory, `ε` what a thread stops
with, `τ` the local states and `κ` the external choices. -/
structure Machine (σ ε τ κ : Type) where
  /-- The next atomic action, or `none` where the choice does not apply. -/
  step : τ → κ → Option (Effect ε σ τ)
  /-- The local state of a thread that stopped. -/
  crash : ε → τ

/-- The shared memory and the local state of every thread. -/
structure Config (σ τ ι : Type) where
  shared : σ
  threads : ι → τ

namespace Machine

variable {σ ε τ κ ι : Type} [DecidableEq ι] (machine : Machine σ ε τ κ)

/-- Thread `who` takes its next action under `choice`. -/
def next (config : Config σ τ ι) (who : ι) (choice : κ) : Option (Config σ τ ι) :=
  (machine.step (config.threads who) choice).map fun action =>
    match action config.shared with
    | .ok thread shared => ⟨shared, Function.update config.threads who thread⟩
    | .error error shared => ⟨shared, Function.update config.threads who (machine.crash error)⟩

/-- Take the given steps in order; `none` when one of them does not apply or is not
allowed where it is taken. -/
def run (allowed : Config σ τ ι → ι → κ → Bool) (config : Config σ τ ι) :
    List (ι × κ) → Option (Config σ τ ι)
  | [] => some config
  | (who, choice) :: rest =>
    if allowed config who choice then
      (machine.next config who choice).bind fun config => run allowed config rest
    else none

/-- The configurations that runs from `start` reach by steps that meet `guard`. -/
inductive Reachable (guard : Config σ τ ι → ι → κ → Prop) (start : Config σ τ ι) :
    Config σ τ ι → Prop
  | start : Reachable guard start start
  | step {config config' : Config σ τ ι} {who : ι} {choice : κ} :
      Reachable guard start config → guard config who choice →
      machine.next config who choice = some config' → Reachable guard start config'

variable {machine} {guard : Config σ τ ι → ι → κ → Prop} {start config : Config σ τ ι}

/-- One step, taken apart: the action of the thread and its two outcomes. -/
theorem next_wp {config config' : Config σ τ ι} {who : ι} {choice : κ}
    (hnext : machine.next config who choice = some config') :
    ∃ action, machine.step (config.threads who) choice = some action ∧
      ∀ {post : τ → σ → Prop} {fail : ε → σ → Prop}, action.wp post fail config.shared →
        ∃ thread, config'.threads = Function.update config.threads who thread ∧
          (post thread config'.shared ∨
            ∃ error, thread = machine.crash error ∧ fail error config'.shared) := by
  obtain ⟨action, haction, hconfig⟩ := Option.map_eq_some_iff.mp hnext
  refine ⟨action, haction, ?_⟩
  intro post fail hwp
  unfold Effect.wp at hwp
  cases hrun : action config.shared with
  | ok thread shared =>
      rw [hrun] at hwp hconfig
      subst hconfig
      exact ⟨thread, rfl, Or.inl hwp⟩
  | error error shared =>
      rw [hrun] at hwp hconfig
      subst hconfig
      exact ⟨_, rfl, Or.inr ⟨error, rfl, hwp⟩⟩

namespace Reachable

/-- An invariant of the whole configuration. -/
theorem invariant (invariant : Config σ τ ι → Prop) (hstart : invariant start)
    (hstep : ∀ config config' who choice, machine.Reachable guard start config →
      invariant config → guard config who choice →
      machine.next config who choice = some config' → invariant config')
    (hreach : machine.Reachable guard start config) : invariant config := by
  induction hreach with
  | start => exact hstart
  | step hreach hguard hnext ih => exact hstep _ _ _ _ hreach ih hguard hnext

/-- The thread-modular rule. `shared` is the invariant of the memory, `thread`
the assertion of each thread about the memory and its own local state, and `rely`
how the steps of others may change the memory while the thread is in that state. -/
theorem rely_guarantee (shared : σ → Prop) (thread : ι → σ → τ → Prop)
    (rely : ι → τ → σ → σ → Prop)
    (hstart : shared start.shared ∧ ∀ who, thread who start.shared (start.threads who))
    (hstep : ∀ config who choice action, machine.Reachable guard start config →
      guard config who choice → shared config.shared →
      (∀ other, thread other config.shared (config.threads other)) →
      machine.step (config.threads who) choice = some action →
      action.wp
        (fun next s => shared s ∧ thread who s next ∧
          ∀ other, other ≠ who → rely other (config.threads other) config.shared s)
        (fun error s => shared s ∧ thread who s (machine.crash error) ∧
          ∀ other, other ≠ who → rely other (config.threads other) config.shared s) config.shared)
    (hrely : ∀ who s s' state, rely who state s s' → shared s → shared s' → thread who s state →
      thread who s' state)
    (hreach : machine.Reachable guard start config) :
    shared config.shared ∧ ∀ who, thread who config.shared (config.threads who) := by
  refine Reachable.invariant (fun config => shared config.shared ∧
    ∀ who, thread who config.shared (config.threads who)) hstart ?_ hreach
  intro config config' who choice hreach ⟨hshared, hthreads⟩ hguard hnext
  obtain ⟨action, haction, houtcome⟩ := next_wp hnext
  obtain ⟨next, hnextThreads, hpost⟩ :=
    houtcome (hstep config who choice action hreach hguard hshared hthreads haction)
  have hown : shared config'.shared ∧ thread who config'.shared next ∧
      ∀ other, other ≠ who → rely other (config.threads other) config.shared config'.shared := by
    rcases hpost with hpost | ⟨error, rfl, hfail⟩
    · exact hpost
    · exact hfail
  refine ⟨hown.1, fun other => ?_⟩
  rw [hnextThreads]
  by_cases heq : other = who
  · subst heq
    rw [Function.update_self]
    exact hown.2.1
  · rw [Function.update_of_ne heq]
    exact hrely other _ _ _ (hown.2.2 other heq) hshared hown.1 (hthreads other)

/-- Fewer restrictions reach at least as much. -/
theorem mono {guard' : Config σ τ ι → ι → κ → Prop}
    (hguard : ∀ config who choice, guard config who choice → guard' config who choice)
    (hreach : machine.Reachable guard start config) : machine.Reachable guard' start config := by
  induction hreach with
  | start => exact .start
  | step _ hmeets hnext ih => exact ih.step (hguard _ _ _ hmeets) hnext

end Reachable

/-- A replayed list of steps is a run. -/
theorem reachable_of_run {allowed : Config σ τ ι → ι → κ → Bool} {steps : List (ι × κ)}
    {final : Config σ τ ι}
    (hallowed : ∀ config who choice, allowed config who choice = true → guard config who choice)
    (hreach : machine.Reachable guard start config)
    (hrun : machine.run allowed config steps = some final) :
    machine.Reachable guard start final := by
  induction steps generalizing config with
  | nil =>
      obtain rfl : config = final := Option.some.inj hrun
      exact hreach
  | cons step rest ih =>
      obtain ⟨who, choice⟩ := step
      unfold run at hrun
      split at hrun
      next hstep =>
        obtain ⟨config', hnext, hrest⟩ := Option.bind_eq_some_iff.mp hrun
        exact ih (hreach.step (hallowed config who choice hstep) hnext) hrest
      next => cases hrun

/-- What a replay from the start computes is reached by a run. -/
theorem exists_reachable {allowed : Config σ τ ι → ι → κ → Bool} {steps : List (ι × κ)}
    {check : Config σ τ ι → Bool}
    (hallowed : ∀ config who choice, allowed config who choice = true → guard config who choice)
    (hrun : (machine.run allowed start steps).any check = true) :
    ∃ config, machine.Reachable guard start config ∧ check config = true := by
  cases hconfig : machine.run allowed start steps with
  | none =>
      rw [hconfig] at hrun
      cases hrun
  | some config =>
      rw [hconfig] at hrun
      exact ⟨config, reachable_of_run hallowed .start hconfig, hrun⟩

end Machine

end BitcoinClient
