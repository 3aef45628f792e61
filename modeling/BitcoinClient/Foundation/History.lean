import BitcoinClient.Foundation.Program

/-! # Runs that keep a history

A history variable records what the operations of a run did to the memory. It does not
influence the run: a run with a history takes the same steps as one without
(`next_recording`), and every run can be given one (`Reachable.exists_recorded`). A log that
a thread keeps beside its task is forgotten in the same way (`next_mapTasks`).
-/

namespace BitcoinClient

namespace Machine

variable {σ σ' ε τ τ' κ ι : Type} [DecidableEq ι] {machine : Machine σ ε τ κ}
  {machine' : Machine σ' ε τ' κ} {view : Config σ τ ι → Config σ' τ' ι}

/-- A run is a run of the other machine where both take the same steps up to `view`. -/
theorem Reachable.map_view
    (hnext : ∀ config who choice,
      (machine.next config who choice).map view = machine'.next (view config) who choice)
    {guard : Config σ τ ι → ι → κ → Prop} {guard' : Config σ' τ' ι → ι → κ → Prop}
    (hguard : ∀ config who choice, guard config who choice → guard' (view config) who choice)
    {start config : Config σ τ ι} (hreach : machine.Reachable guard start config) :
    machine'.Reachable guard' (view start) (view config) := by
  induction hreach with
  | start => exact .start
  | @step config _ who choice _ hstep hconfig ih =>
      have hview := hnext config who choice
      rw [hconfig] at hview
      exact ih.step (hguard config who choice hstep) hview.symm

/-- Every run of the other machine is the view of a run. -/
theorem Reachable.exists_view
    (hnext : ∀ config who choice,
      (machine.next config who choice).map view = machine'.next (view config) who choice)
    {guard : Config σ' τ' ι → ι → κ → Prop} {start : Config σ τ ι} {config : Config σ' τ' ι}
    (hreach : machine'.Reachable guard (view start) config) :
    ∃ viewed, view viewed = config ∧
      machine.Reachable (fun config => guard (view config)) start viewed := by
  induction hreach with
  | start => exact ⟨start, rfl, .start⟩
  | step _ hguard hconfig ih =>
      obtain ⟨viewed, rfl, hviewed⟩ := ih
      have hview := (hnext viewed _ _).trans hconfig
      obtain ⟨next, hstep, rfl⟩ := Option.map_eq_some_iff.mp hview
      exact ⟨next, rfl, hviewed.step hguard hstep⟩

end Machine

namespace Program

variable {Op : Type} {Result : Op → Type} {Task ε σ γ κ ι : Type} [DecidableEq ι]

/-- The operations with a history. `record` extends it after an operation that returned,
with the memory before that operation. -/
def recording (semantics : (op : Op) → Effect ε σ (Result op))
    (record : (op : Op) → Result op → σ → γ → γ) (op : Op) : Effect ε (σ × γ) (Result op) :=
  fun s =>
    match semantics op s.1 with
    | .ok result s' => .ok result (s', record op result s.1 s.2)
    | .error error s' => .error error (s', s.2)

/-- A configuration without its history. -/
def forget {τ : Type} (config : Config (σ × γ) τ ι) : Config σ τ ι :=
  ⟨config.shared.1, config.threads⟩

variable {semantics : (op : Op) → Effect ε σ (Result op)}
  {record : (op : Op) → Result op → σ → γ → γ}
  {body : Task → κ → Option (Program Op Result Task)}

theorem wp_recording {op : Op} {s : σ} {history : γ} {post : Result op → σ × γ → Prop}
    {fail : ε → σ × γ → Prop} :
    (recording semantics record op).wp post fail (s, history) ↔
      (semantics op).wp (fun result s' => post result (s', record op result s history))
        (fun error s' => fail error (s', history)) s := by
  unfold Effect.wp recording
  dsimp only
  cases semantics op s <;> rfl

/-- Without its history a program does what it always does. -/
theorem wp_run_recording {α : Type} (program : Program Op Result α) {s : σ} {history : γ}
    {post : α → σ → Prop} {fail : ε → σ → Prop} :
    (program.run (recording semantics record)).wp (fun value s' => post value s'.1)
      (fun error s' => fail error s'.1) (s, history) ↔ (program.run semantics).wp post fail s := by
  induction program generalizing s history with
  | done value => rfl
  | perform op next ih =>
      rw [run_perform, run_perform, Effect.wp_bind, Effect.wp_bind, wp_recording]
      constructor
      · exact fun h => Effect.wp_mono h (fun result _ hnext => (ih result).mp hnext) fun _ _ h => h
      · exact fun h => Effect.wp_mono h (fun result _ hnext => (ih result).mpr hnext) fun _ _ h => h

/-- Without the histories both machines take the same step. -/
theorem next_recording (semantics : (op : Op) → Effect ε σ (Result op))
    (record : (op : Op) → Result op → σ → γ → γ)
    (body : Task → κ → Option (Program Op Result Task))
    (config : Config (σ × γ) (Thread ε Op Result Task) ι) (who : ι) (choice : κ) :
    ((loopMachine (recording semantics record) body).next config who choice).map forget =
      (loopMachine semantics body).next (forget config) who choice := by
  obtain ⟨⟨s, history⟩, threads⟩ := config
  unfold Machine.next forget loopMachine
  cases hthread : threads who with
  | error error => simp only [hthread, Option.map_none]
  | ok program =>
      cases program with
      | done task =>
          simp only [hthread, Option.map_map]
          cases body task choice <;> rfl
      | perform op next =>
          simp only [hthread, Option.map_some, bind, EStateM.bind, recording]
          cases semantics op s <;> rfl

/-- A run with a history is a run, with the same restrictions on its steps. -/
theorem Reachable.forget_guard {guard : Config (σ × γ) (Thread ε Op Result Task) ι → ι → κ → Prop}
    {guard' : Config σ (Thread ε Op Result Task) ι → ι → κ → Prop}
    (hguard : ∀ config who choice, guard config who choice →
      guard' (Program.forget config) who choice)
    {start config : Config (σ × γ) (Thread ε Op Result Task) ι}
    (hreach : (loopMachine (recording semantics record) body).Reachable guard start config) :
    (loopMachine semantics body).Reachable guard' (Program.forget start)
      (Program.forget config) :=
  hreach.map_view (next_recording semantics record body) hguard

/-- A run with a history is a run. -/
theorem Reachable.forget {guard : Config (σ × γ) (Thread ε Op Result Task) ι → ι → κ → Prop}
    {start config : Config (σ × γ) (Thread ε Op Result Task) ι}
    (hreach : (loopMachine (recording semantics record) body).Reachable guard start config) :
    (loopMachine semantics body).Reachable (fun _ _ _ => True) (forget start)
      (forget config) :=
  Reachable.forget_guard (fun _ _ _ _ => trivial) hreach

/-- Every run has a history. -/
theorem Reachable.exists_recorded {guard : Config σ (Thread ε Op Result Task) ι → ι → κ → Prop}
    {start : Config (σ × γ) (Thread ε Op Result Task) ι}
    {config : Config σ (Thread ε Op Result Task) ι}
    (hreach : (loopMachine semantics body).Reachable guard (Program.forget start) config) :
    ∃ recorded, Program.forget recorded = config ∧
      (loopMachine (recording semantics record) body).Reachable
        (fun config => guard (Program.forget config)) start recorded :=
  hreach.exists_view (next_recording semantics record body)

/-! ## Tasks with a log -/

section Log

variable {Logged : Type}

/-- A configuration whose tasks are seen through `erase`. -/
def mapTasks (erase : Logged → Task) (config : Config σ (Thread ε Op Result Logged) ι) :
    Config σ (Thread ε Op Result Task) ι :=
  ⟨config.shared, fun who => (config.threads who).map fun program => erase <$> program⟩

variable {erase : Logged → Task} {logged : Logged → κ → Option (Program Op Result Logged)}

/-- Threads with logs take the steps of the threads without them. -/
theorem next_mapTasks (semantics : (op : Op) → Effect ε σ (Result op))
    (hbody : ∀ task choice, (logged task choice).map (fun program => erase <$> program) =
      body (erase task) choice)
    (config : Config σ (Thread ε Op Result Logged) ι) (who : ι) (choice : κ) :
    ((loopMachine semantics logged).next config who choice).map (mapTasks erase) =
      (loopMachine semantics body).next (mapTasks erase config) who choice := by
  obtain ⟨s, threads⟩ := config
  have hupdate : ∀ (s' : σ) (thread : Thread ε Op Result Logged),
      mapTasks erase ⟨s', Function.update threads who thread⟩ =
        ⟨s', Function.update (mapTasks erase ⟨s, threads⟩).threads who
          (thread.map fun program => erase <$> program)⟩ := by
    intro s' thread
    exact congrArg (Config.mk s') (Function.comp_update
      (fun thread : Thread ε Op Result Logged => thread.map fun program => erase <$> program)
      threads who thread)
  have hthread : (mapTasks erase ⟨s, threads⟩).threads who =
      (threads who).map fun program => erase <$> program := rfl
  have hshared : (mapTasks erase ⟨s, threads⟩).shared = s := rfl
  unfold Machine.next
  rw [hthread, hshared]
  dsimp only
  cases threads who with
  | error error => rfl
  | ok program =>
      cases program with
      | done task =>
          change _ = Option.map _ (Option.map _ (body (erase task) choice))
          rw [← hbody]
          cases hprogram : logged task choice with
          | none => simp only [loopMachine, hprogram, Option.map_none]
          | some program =>
              simp only [loopMachine, hprogram, Option.map_some]
              exact congrArg some (hupdate s (.ok program))
      | perform op next =>
          change Option.map _ (Option.map _ (some _)) = Option.map _ (some _)
          simp only [Option.map_some, Option.some.injEq, bind, EStateM.bind]
          cases semantics op s with
          | ok result s' => exact hupdate s' _
          | error error s' => exact hupdate s' _

end Log

/-- What every round keeps, whatever its operations return, holds of all tasks of a run. -/
theorem Reachable.tasks {property : Task → Prop}
    {guard : Config σ (Thread ε Op Result Task) ι → ι → κ → Prop}
    {start config : Config σ (Thread ε Op Result Task) ι}
    (hstart : ∀ who, ∃ task, start.threads who = .ok (.done task) ∧ property task)
    (hbody : ∀ task choice program, property task → body task choice = some program →
      program.All (fun _ => True) property)
    (hreach : (loopMachine semantics body).Reachable guard start config) {who : ι} {task : Task}
    (hthread : config.threads who = .ok (.done task)) : property task := by
  let contract : Contract Op σ :=
    ⟨fun _ => True, fun _ _ => True, fun _ _ => True, fun _ _ _ => True⟩
  have hmeets := (Reachable.meets contract (fun _ => True) (fun task _ => property task)
    (fun _ _ => trivial) (fun _ _ _ _ _ _ => trivial) ⟨trivial, hstart⟩
    (fun _ _ _ _ _ _ => id) ?_ ?_ hreach).2 who
  · rw [hthread] at hmeets
    exact hmeets
  · intro config who choice task program _ _ _ hproperty hprogram
    exact (hbody task choice program hproperty hprogram).meets (fun _ _ _ => trivial)
      fun _ _ => id
  · intro config who choice op next _ _ _ _
    refine ⟨trivial, Effect.wp_mono Effect.wp_true ?_ ?_⟩
    · exact fun _ _ _ => ⟨trivial, fun _ _ => trivial⟩
    · exact fun _ _ _ => ⟨trivial, trivial, fun _ _ => trivial⟩

end Program

/-- What holds of each entry of a history after those before it, with one more entry. -/
theorem forall_entry_concat {α : Type} {property : List α → α → Prop} {history : List α}
    {last : α}
    (h : ∀ earlier entry later, history = earlier ++ entry :: later → property earlier entry)
    (hlast : property history last) :
    ∀ earlier entry later, history ++ [last] = earlier ++ entry :: later →
      property earlier entry := by
  intro earlier entry later heq
  rcases List.eq_nil_or_concat later with rfl | ⟨later, final, rfl⟩
  · obtain ⟨rfl, hentry⟩ := List.append_inj' heq rfl
    exact List.singleton_inj.mp hentry ▸ hlast
  · rw [List.concat_eq_append, ← List.cons_append, ← List.append_assoc] at heq
    exact h earlier entry later (List.append_inj' heq rfl).1

end BitcoinClient
