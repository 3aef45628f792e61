import BitcoinClient.Foundation.Program

/-! # Where the values of a program come from

A program hands on what it has been given. Which values its operations give it, and which it
gives them, is a matter of the values alone, so that programs are put together without a look at
the memory. Behind a round the memory holds no other values than those that the threads were
given.
-/

namespace BitcoinClient

namespace Program

variable {ε σ κ ι Op Task α β : Type} {Result : Op → Type} {gives : Op → Prop}
  {gets : (op : Op) → Result op → Prop}

/-- As long as it gets nothing else from its operations, the program gives them, and returns,
nothing but what it may. -/
def HandsOn (gives : Op → Prop) (gets : (op : Op) → Result op → Prop) (returns : α → Prop) :
    Program Op Result α → Prop
  | done value => returns value
  | perform op next =>
    gives op ∧ ∀ result, gets op result → (next result).HandsOn gives gets returns

@[simp] theorem handsOn_done {returns : α → Prop} (value : α) :
    (done value : Program Op Result α).HandsOn gives gets returns ↔ returns value := Iff.rfl

@[simp] theorem handsOn_perform {returns : α → Prop} (op : Op)
    (next : Result op → Program Op Result α) :
    (perform op next).HandsOn gives gets returns ↔
      gives op ∧ ∀ result, gets op result → (next result).HandsOn gives gets returns := Iff.rfl

theorem handsOn_call {returns : β → Prop} {op : Op} {f : Result op → Program Op Result β}
    (hgives : gives op)
    (hnext : ∀ result, gets op result → (f result).HandsOn gives gets returns) :
    (call op >>= f).HandsOn gives gets returns := ⟨hgives, hnext⟩

@[simp] theorem handsOn_bind {returns : β → Prop} (program : Program Op Result α)
    (f : α → Program Op Result β) : (program >>= f).HandsOn gives gets returns ↔
      program.HandsOn gives gets fun value => (f value).HandsOn gives gets returns := by
  induction program with
  | done value => rfl
  | perform op next ih =>
      rw [perform_bind, handsOn_perform, handsOn_perform]
      exact and_congr_right fun _ => forall_congr' fun result => imp_congr_right fun _ => ih result

theorem HandsOn.mono {returns returns' : α → Prop} {program : Program Op Result α}
    (h : program.HandsOn gives gets returns) (hvalue : ∀ value, returns value → returns' value) :
    program.HandsOn gives gets returns' := by
  induction program with
  | done value => exact hvalue value h
  | perform op next ih => exact ⟨h.1, fun result hresult => ih result (h.2 result hresult)⟩

/-- A program that gives nothing away, whatever it gets. -/
theorem All.handsOn {P : Op → Prop} {returns : α → Prop} {program : Program Op Result α}
    (h : program.All P returns) (hop : ∀ op, P op → gives op) :
    program.HandsOn gives gets returns := by
  induction program with
  | done value => exact h
  | perform op next ih => exact ⟨hop op h.1, fun result _ => ih result (h.2 result)⟩

theorem handsOn_foldlM (returns : β → Prop) {f : β → α → Program Op Result β} {items : List α}
    {init : β} (hinit : returns init)
    (hstep : ∀ item ∈ items, ∀ value, returns value → (f value item).HandsOn gives gets returns) :
    (items.foldlM f init).HandsOn gives gets returns := by
  induction items generalizing init with
  | nil => exact hinit
  | cons item rest ih =>
      rw [List.foldlM_cons, handsOn_bind]
      refine (hstep item List.mem_cons_self init hinit).mono fun value hvalue => ?_
      exact ih hvalue fun other hother => hstep other (List.mem_cons_of_mem _ hother)

/-! ## Rounds -/

section Rounds

variable {semantics : (op : Op) → Effect ε σ (Result op)} {inv : σ → Prop}

/-- By itself it keeps what its operations keep, and gets from them what they give. -/
theorem HandsOn.wp_run {returns : α → Prop} {program : Program Op Result α}
    (h : program.HandsOn gives gets returns)
    (hop : ∀ op s, inv s → gives op →
      (semantics op).wp (fun result s' => inv s' ∧ gets op result) (fun _ s' => inv s') s)
    {s : σ} (hinv : inv s) :
    (program.run semantics).wp (fun value s' => inv s' ∧ returns value) (fun _ s' => inv s') s := by
  induction program generalizing s with
  | done value => exact ⟨hinv, h⟩
  | perform op next ih =>
      rw [run_perform, Effect.wp_bind]
      refine Effect.wp_mono (hop op s hinv h.1) (fun result s' hfirst => ?_) fun _ _ h => h
      exact ih result (h.2 result hfirst.2) hfirst.1

/-- When the program of a round keeps the memory and returns nothing but what a thread may keep
from round to round, the memory and the threads are like that behind the round. -/
theorem round_keeps [DecidableEq ι] {body : Task → κ → Option (Program Op Result Task)}
    {config config' : Config σ (Except ε Task) ι} {who : ι} {choice : κ} {loop : Task → Prop}
    (hround : (roundMachine semantics body).next config who choice = some config')
    (hloop : ∀ who task, config.threads who = .ok task → loop task)
    (hbody : ∀ task program, config.threads who = .ok task → body task choice = some program →
      (program.run semantics).wp (fun task s => inv s ∧ loop task) (fun _ s => inv s)
        config.shared) :
    inv config'.shared ∧ ∀ who task, config'.threads who = .ok task → loop task := by
  obtain ⟨task, program, htask, hprogram, houtcome⟩ := round_wp hround
  obtain ⟨thread, hthreads, hthread⟩ := houtcome (hbody task program htask hprogram)
  have hown : inv config'.shared ∧ ∀ task', thread = .ok task' → loop task' := by
    cases thread with
    | error error =>
        refine ⟨hthread, fun task' heq => ?_⟩
        cases heq
    | ok next =>
        refine ⟨hthread.1, fun task' heq => ?_⟩
        cases heq
        exact hthread.2
  refine ⟨hown.1, fun other task' hother => ?_⟩
  rw [hthreads] at hother
  by_cases heq : other = who
  · subst heq
    rw [Function.update_self] at hother
    exact hown.2 task' hother
  · rw [Function.update_of_ne heq] at hother
    exact hloop other task' hother

end Rounds

end Program

end BitcoinClient
