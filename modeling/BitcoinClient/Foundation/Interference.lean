import BitcoinClient.Foundation.Program

/-! # One thread and its environment

A thread behaves the same whoever runs beside it. `Alone` follows one thread of a machine
while the memory changes between its steps in any way that `env` allows; every run of many
threads is such a run for each of them (`Reachable.alone`). A contract then has to be
checked for one thread only, against `env` in place of the other threads
(`Alone.meets`).

The other extreme are rounds that run without interference: they keep every contract that
their programs meet (`Reachable.roundsMeet`).
-/

namespace BitcoinClient

namespace Machine

variable {σ ε τ κ ι : Type} {machine : Machine σ ε τ κ} {env : σ → σ → Prop}

/-- The memories and local states that a thread comes to, from the first ones, by its own
steps and by changes of the memory that `env` allows. -/
inductive Alone (machine : Machine σ ε τ κ) (env : σ → σ → Prop) (s₀ : σ) (thread₀ : τ) :
    σ → τ → Prop
  | start : Alone machine env s₀ thread₀ s₀ thread₀
  | step {s s' : σ} {thread next : τ} {choice : κ} {action : Effect ε σ τ} :
      Alone machine env s₀ thread₀ s thread → machine.step thread choice = some action →
      action s = .ok next s' → Alone machine env s₀ thread₀ s' next
  | crash {s s' : σ} {thread : τ} {choice : κ} {action : Effect ε σ τ} {error : ε} :
      Alone machine env s₀ thread₀ s thread → machine.step thread choice = some action →
      action s = .error error s' → Alone machine env s₀ thread₀ s' (machine.crash error)
  | disturb {s s' : σ} {thread : τ} :
      Alone machine env s₀ thread₀ s thread → env s s' → Alone machine env s₀ thread₀ s' thread

/-- A property of the memory and the local state that steps and disturbances keep. -/
theorem Alone.invariant {s₀ s : σ} {thread₀ thread : τ} (invariant : σ → τ → Prop)
    (hstart : invariant s₀ thread₀)
    (hstep : ∀ s thread choice action, invariant s thread →
      machine.step thread choice = some action →
      action.wp (fun next s' => invariant s' next)
        (fun error s' => invariant s' (machine.crash error)) s)
    (henv : ∀ s s' thread, invariant s thread → env s s' → invariant s' thread)
    (h : machine.Alone env s₀ thread₀ s thread) : invariant s thread := by
  induction h with
  | start => exact hstart
  | step _ haction hrun ih => exact (Effect.wp_of_ok hrun).mp (hstep _ _ _ _ ih haction)
  | crash _ haction hrun ih => exact (Effect.wp_of_error hrun).mp (hstep _ _ _ _ ih haction)
  | disturb _ hchange ih => exact henv _ _ _ ih hchange

/-- Seen from one thread, the steps of the others are disturbances. -/
theorem Reachable.alone [DecidableEq ι] {guard : Config σ τ ι → ι → κ → Prop}
    {start config : Config σ τ ι} {who : ι}
    (henv : ∀ config config' other choice, machine.Reachable guard start config → other ≠ who →
      guard config other choice → machine.next config other choice = some config' →
      env config.shared config'.shared)
    (hreach : machine.Reachable guard start config) :
    machine.Alone env start.shared (start.threads who) config.shared (config.threads who) := by
  induction hreach with
  | start => exact .start
  | @step config config' other choice hreach hguard hnext ih =>
      obtain ⟨action, haction, hconfig⟩ := Option.map_eq_some_iff.mp hnext
      by_cases heq : other = who
      · subst heq
        cases hrun : action config.shared with
        | ok thread shared =>
            rw [hrun] at hconfig
            subst hconfig
            simp only [Function.update_self]
            exact ih.step haction hrun
        | error error shared =>
            rw [hrun] at hconfig
            subst hconfig
            simp only [Function.update_self]
            exact ih.crash haction hrun
      · have hthread : config'.threads who = config.threads who := by
          subst hconfig
          cases action config.shared with
          | ok thread shared => exact Function.update_of_ne (Ne.symm heq) _ _
          | error error shared => exact Function.update_of_ne (Ne.symm heq) _ _
        rw [hthread]
        exact ih.disturb (henv config config' other choice hreach heq hguard hnext)

end Machine

namespace Program

variable {Op : Type} {Result : Op → Type} {Task α ε σ κ ι : Type}
  {semantics : (op : Op) → Effect ε σ (Result op)} {contract : Contract Op σ}
  {body : Task → κ → Option (Program Op Result Task)}

/-- A thread whose rounds meet a contract keeps it in every environment that the contract
allows for. -/
theorem Alone.meets {env : σ → σ → Prop} {s₀ s : σ} {task₀ : Task}
    {thread : Thread ε Op Result Task} (fail : ε → Prop) (loop : Task → σ → Prop)
    (hrefl : ∀ op s, contract.rely op s s)
    (htrans : ∀ op s s' s'', contract.rely op s s' → contract.rely op s' s'' →
      contract.rely op s s'')
    (hstart : contract.inv s₀ ∧ loop task₀ s₀)
    (hstable : ∀ task s s', contract.rely none s s' → contract.inv s → contract.inv s' →
      loop task s → loop task s')
    (henv : ∀ s s', contract.inv s → env s s' → contract.inv s' ∧ ∀ op, contract.rely op s s')
    (hbody : ∀ task choice program s, contract.inv s → loop task s →
      body task choice = some program → program.Meets semantics contract loop s)
    (hop : ∀ op s, contract.inv s → contract.pre op s → contract.allowed op s ∧
      (semantics op).wp (fun _ s' => contract.inv s') (fun error s' => fail error ∧ contract.inv s')
        s)
    (h : (loopMachine semantics body).Alone env s₀ (.ok (.done task₀)) s thread) :
    contract.inv s ∧ thread.Meets semantics contract fail loop s := by
  refine Machine.Alone.invariant
    (fun s thread => contract.inv s ∧ thread.Meets semantics contract fail loop s) hstart ?_ ?_ h
  · -- The thread's own step starts a round or performs the operation it waits for.
    rintro s thread choice action ⟨hinv, hmeets⟩ haction
    cases thread with
    | error error => cases haction
    | ok program =>
        cases program with
        | done task =>
            obtain ⟨program, hprogram, rfl⟩ := Option.map_eq_some_iff.mp haction
            exact ⟨hinv, hbody task choice program s hinv hmeets hprogram⟩
        | perform op next =>
            obtain rfl := Option.some.inj haction
            obtain ⟨hpre, hnext⟩ := hmeets s (hrefl _ _) hinv
            obtain ⟨hallowed, hkeeps⟩ := hop op s hinv hpre
            rw [Effect.wp_bind]
            refine Effect.wp_and (hnext hallowed) hkeeps ?_ ?_
            · exact fun result s' hrest hinv' => ⟨hinv', hrest hinv'⟩
            · exact fun error s' _ hkept => ⟨hkept.2, hkept.1⟩
  · -- A step of the environment keeps what the thread relies on.
    rintro s s' thread ⟨hinv, hmeets⟩ hchange
    obtain ⟨hinv', hrely⟩ := henv s s' hinv hchange
    refine ⟨hinv', ?_⟩
    cases thread with
    | error error => exact hmeets
    | ok program =>
        cases program with
        | done task => exact hstable task s s' (hrely none) hinv hinv' hmeets
        | perform op next =>
            exact fun s'' hrely' hinv'' => hmeets s'' (htrans _ _ _ _ (hrely _) hrely') hinv''

/-- What every round is made of, whatever its operations return, does not depend on the
environment. -/
theorem Alone.all {env : σ → σ → Prop} {s₀ s : σ} {task₀ : Task} {program : Program Op Result Task}
    {P : Op → Prop} {Q : Task → Prop} (hstart : Q task₀)
    (hbody : ∀ task choice program, Q task → body task choice = some program → program.All P Q)
    (h : (loopMachine semantics body).Alone env s₀ (.ok (.done task₀)) s (.ok program)) :
    program.All P Q := by
  refine Machine.Alone.invariant (fun _ (thread : Thread ε Op Result Task) =>
    ∀ program, thread = .ok program → program.All P Q) ?_ ?_ (fun _ _ _ hall _ => hall) h program
      rfl
  · rintro program ⟨⟩
    exact hstart
  · intro s thread choice action hall haction
    cases thread with
    | error error => cases haction
    | ok program =>
        cases program with
        | done task =>
            obtain ⟨program, hprogram, rfl⟩ := Option.map_eq_some_iff.mp haction
            rintro _ ⟨⟩
            exact hbody task choice program (hall _ rfl) hprogram
        | perform op next =>
            obtain rfl := Option.some.inj haction
            rw [Effect.wp_bind]
            refine Effect.wp_mono Effect.wp_true ?_ fun _ _ _ => nofun
            rintro result s' _ _ ⟨⟩
            exact (hall _ rfl).2 result

/-! ## Rounds without interference -/

/-- A program that meets a contract keeps its invariant when it runs without interference. -/
theorem Meets.wp_run {post : α → σ → Prop} {fail : ε → Prop} {program : Program Op Result α} {s : σ}
    (hrefl : ∀ op s, contract.rely op s s)
    (hop : ∀ op s, contract.inv s → contract.pre op s → contract.allowed op s ∧
      (semantics op).wp (fun _ s' => contract.inv s') (fun error s' => fail error ∧ contract.inv s')
        s)
    (hinv : contract.inv s) (h : program.Meets semantics contract post s) :
    (program.run semantics).wp (fun value s' => contract.inv s' ∧ post value s')
      (fun error s' => fail error ∧ contract.inv s') s := by
  induction program generalizing s with
  | done value => exact ⟨hinv, h⟩
  | perform op next ih =>
      obtain ⟨hpre, hnext⟩ := h s (hrefl _ s) hinv
      obtain ⟨hallowed, hkeeps⟩ := hop op s hinv hpre
      rw [run_perform, Effect.wp_bind]
      refine Effect.wp_and (hnext hallowed) hkeeps ?_ ?_
      · exact fun result s' hrest hinv' => ih result hinv' (hrest hinv')
      · exact fun _ _ _ hkept => hkept

/-- Rounds that take turns keep the invariant of a contract that their programs meet. -/
theorem Reachable.roundsMeet [DecidableEq ι] {guard : Config σ (Except ε Task) ι → ι → κ → Prop}
    {start config : Config σ (Except ε Task) ι} (fail : ε → Prop)
    (hrefl : ∀ op s, contract.rely op s s) (hstart : contract.inv start.shared)
    (hbody : ∀ config who choice task program, guard config who choice →
      contract.inv config.shared → body task choice = some program →
      program.Meets semantics contract (fun _ _ => True) config.shared)
    (hop : ∀ op s, contract.inv s → contract.pre op s → contract.allowed op s ∧
      (semantics op).wp (fun _ s' => contract.inv s') (fun error s' => fail error ∧ contract.inv s')
        s)
    (hreach : (roundMachine semantics body).Reachable guard start config) :
    contract.inv config.shared := by
  refine Machine.Reachable.invariant (fun config => contract.inv config.shared) hstart ?_ hreach
  intro config config' who choice _ hinv hguard hround
  obtain ⟨task, program, _, hprogram, houtcome⟩ := round_wp hround
  obtain ⟨thread, _, hthread⟩ := houtcome
    (Meets.wp_run hrefl hop hinv (hbody config who choice task program hguard hinv hprogram))
  cases thread with
  | ok task' => exact hthread.1
  | error error => exact hthread.2

end Program

end BitcoinClient
