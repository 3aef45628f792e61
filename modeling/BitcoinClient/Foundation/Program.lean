import BitcoinClient.Foundation.SharedMemory

/-! # Programs that act on a shared memory one operation at a time

A program is a tree of operations: each is performed on the memory in one
atomic step, and its result selects the rest. `run` performs the operations in
a row. In a `loopMachine` other threads may act between any two of them.

`Meets` is the weakest precondition under interference. A `Contract` says what
an operation requires of the memory (`pre`) and which changes by other threads a
program must tolerate while the operation is its next one (`rely`). Whole runs
then need each operation to be justified only once (`Reachable.meetsEach`).
-/

namespace BitcoinClient

inductive Program (Op : Type) (Result : Op → Type) (α : Type) : Type where
  | done (value : α)
  | perform (op : Op) (next : Result op → Program Op Result α)

namespace Program

variable {Op : Type} {Result : Op → Type} {α β γ : Type} {ε σ : Type}

protected def bind : Program Op Result α → (α → Program Op Result β) → Program Op Result β
  | done value, f => f value
  | perform op next, f => perform op fun result => (next result).bind f

instance : Monad (Program Op Result) where
  pure := done
  bind := Program.bind

/-- The program that performs one operation. -/
def call (op : Op) : Program Op Result (Result op) := perform op done

@[simp] theorem pure_eq_done (value : α) : (pure value : Program Op Result α) = done value := rfl

@[simp] theorem done_bind (value : α) (f : α → Program Op Result β) :
    (done value : Program Op Result α) >>= f = f value := rfl

@[simp] theorem perform_bind (op : Op) (next : Result op → Program Op Result α)
    (f : α → Program Op Result β) :
    perform op next >>= f = perform op fun result => next result >>= f := rfl

@[simp] theorem call_bind (op : Op) (f : Result op → Program Op Result β) :
    call op >>= f = perform op f := rfl

theorem bind_done (program : Program Op Result α) : program >>= done = program := by
  induction program with
  | done value => rfl
  | perform op next ih =>
      rw [perform_bind]
      congr 1
      funext result
      exact ih result

protected theorem bind_assoc (program : Program Op Result α) (f : α → Program Op Result β)
    (g : β → Program Op Result γ) :
    program >>= f >>= g = program >>= fun value => f value >>= g := by
  induction program with
  | done value => rfl
  | perform op next ih =>
      simp only [perform_bind]
      congr 1
      funext result
      exact ih result

instance : LawfulMonad (Program Op Result) :=
  LawfulMonad.mk' _ bind_done (fun _ _ => rfl) Program.bind_assoc

/-- The operation a program performs next. -/
def pending : Program Op Result α → Option Op
  | done _ => none
  | perform op _ => some op

/-! ## Running without interference -/

section Run

variable (semantics : (op : Op) → Effect ε σ (Result op))

/-- Perform all operations in a row. -/
def run : Program Op Result α → Effect ε σ α
  | done value => pure value
  | perform op next => semantics op >>= fun result => (next result).run

@[simp] theorem run_done (value : α) :
    (done value : Program Op Result α).run semantics = pure value := rfl

@[simp] theorem run_perform (op : Op) (next : Result op → Program Op Result α) :
    (perform op next).run semantics = semantics op >>= fun result => (next result).run semantics :=
  rfl

@[simp] theorem run_bind (program : Program Op Result α) (f : α → Program Op Result β) :
    (program >>= f).run semantics =
      program.run semantics >>= fun value => (f value).run semantics := by
  induction program with
  | done value => simp
  | perform op next ih => simp [ih]

end Run

/-! ## The operations and results of a program -/

/-- All operations of the program satisfy `P`, and all its results `Q`. -/
def All (P : Op → Prop) (Q : α → Prop) : Program Op Result α → Prop
  | done value => Q value
  | perform op next => P op ∧ ∀ result, (next result).All P Q

@[simp] theorem all_done {P : Op → Prop} {Q : α → Prop} (value : α) :
    (done value : Program Op Result α).All P Q ↔ Q value := Iff.rfl

@[simp] theorem all_perform {P : Op → Prop} {Q : α → Prop} (op : Op)
    (next : Result op → Program Op Result α) :
    (perform op next).All P Q ↔ P op ∧ ∀ result, (next result).All P Q := Iff.rfl

@[simp] theorem all_bind {P : Op → Prop} {Q : β → Prop} (program : Program Op Result α)
    (f : α → Program Op Result β) :
    (program >>= f).All P Q ↔ program.All P fun value => (f value).All P Q := by
  induction program with
  | done value => rfl
  | perform op next ih => simp only [perform_bind, all_perform, ih]

theorem All.mono {P P' : Op → Prop} {Q Q' : α → Prop} {program : Program Op Result α}
    (h : program.All P Q) (hop : ∀ op, P op → P' op) (hvalue : ∀ value, Q value → Q' value) :
    program.All P' Q' := by
  induction program with
  | done value => exact hvalue value h
  | perform op next ih => exact ⟨hop op h.1, fun result => ih result (h.2 result)⟩

theorem all_foldlM {P : Op → Prop} {f : β → α → Program Op Result β} {items : List α} {init : β}
    (h : ∀ value item, (f value item).All P fun _ => True) :
    (items.foldlM f init).All P fun _ => True := by
  induction items generalizing init with
  | nil => trivial
  | cons item rest ih =>
      rw [List.foldlM_cons, all_bind]
      exact (h init item).mono (fun _ => id) fun _ _ => ih

theorem all_forM {P : Op → Prop} {f : α → Program Op Result PUnit} {items : List α}
    (h : ∀ item, (f item).All P fun _ => True) : (items.forM f).All P fun _ => True := by
  induction items with
  | nil => trivial
  | cons item rest ih =>
      change (f item >>= fun _ => rest.forM f).All P _
      rw [all_bind]
      exact (h item).mono (fun _ => id) fun _ _ => ih

/-- Programs put together from operations in `P` and parts in `S`. -/
inductive Composed (P : Op → Prop) (S : (α : Type) → Program Op Result α → Prop) :
    {α : Type} → Program Op Result α → Prop
  | done {α : Type} (value : α) : Composed P S (done value)
  | call {op : Op} (hop : P op) : Composed P S (call op)
  | part {α : Type} {program : Program Op Result α} (hpart : S α program) : Composed P S program
  | bind {α β : Type} {program : Program Op Result α} {f : α → Program Op Result β}
      (hfirst : Composed P S program) (hrest : ∀ value, Composed P S (f value)) :
      Composed P S (program >>= f)

theorem Composed.mono {P P' : Op → Prop} {S : (α : Type) → Program Op Result α → Prop}
    {program : Program Op Result α} (h : Composed P S program) (hop : ∀ op, P op → P' op) :
    Composed P' S program := by
  induction h with
  | done value => exact .done value
  | call hcall => exact .call (hop _ hcall)
  | part hpart => exact .part hpart
  | bind _ _ ihFirst ihRest => exact .bind ihFirst ihRest

theorem Composed.foldlM {P : Op → Prop} {S : (α : Type) → Program Op Result α → Prop}
    {f : β → α → Program Op Result β} (h : ∀ value item, Composed P S (f value item))
    (items : List α) (init : β) : Composed P S (items.foldlM f init) := by
  induction items generalizing init with
  | nil => exact .done init
  | cons item rest ih =>
      rw [List.foldlM_cons]
      exact .bind (h init item) ih

theorem Composed.forM {P : Op → Prop} {S : (α : Type) → Program Op Result α → Prop}
    {f : α → Program Op Result PUnit} (h : ∀ item, Composed P S (f item)) (items : List α) :
    Composed P S (items.forM f) := by
  induction items with
  | nil => exact .done PUnit.unit
  | cons item rest ih => exact .bind (h item) fun _ => ih

/-- What holds of the operations and of all parts holds of the whole. -/
theorem Composed.all {P Q : Op → Prop} {S : (α : Type) → Program Op Result α → Prop}
    {program : Program Op Result α} (h : Composed P S program) (hop : ∀ op, P op → Q op)
    (hpart : ∀ {α : Type} (program : Program Op Result α), S α program →
      program.All Q fun _ => True) : program.All Q fun _ => True := by
  induction h with
  | done value => trivial
  | call hcall => exact ⟨hop _ hcall, fun _ => trivial⟩
  | part h => exact hpart _ h
  | bind _ _ ihFirst ihRest =>
      rw [all_bind]
      exact ihFirst.mono (fun _ => id) fun value _ => ihRest value

/-- A run only does to the memory what its operations do. -/
theorem All.wp_run {semantics : (op : Op) → Effect ε σ (Result op)} {P : Op → Prop} {Q : α → Prop}
    {program : Program Op Result α} (h : program.All P Q) (relation : σ → σ → Prop)
    (hrefl : ∀ s, relation s s)
    (htrans : ∀ s s' s'', relation s s' → relation s' s'' → relation s s'')
    (hop : ∀ op, P op → ∀ s, (semantics op).wp (fun _ s' => relation s s')
      (fun _ s' => relation s s') s) (s : σ) :
    (program.run semantics).wp (fun value s' => Q value ∧ relation s s')
      (fun _ s' => relation s s') s := by
  induction program generalizing s with
  | done value => exact ⟨h, hrefl s⟩
  | perform op next ih =>
      rw [run_perform, Effect.wp_bind]
      refine Effect.wp_mono (hop op h.1 s) (fun result s' hfirst => ?_) fun _ _ h => h
      refine Effect.wp_mono (ih result (h.2 result) s') ?_ ?_
      · exact fun value s'' hrest => ⟨hrest.1, htrans _ _ _ hfirst hrest.2⟩
      · exact fun _ s'' hrest => htrans _ _ _ hfirst hrest

/-! ## Running under interference -/

/-- What the threads of a memory promise and expect. -/
structure Contract (Op σ : Type) where
  inv : σ → Prop
  /-- What a thread has to know when it performs an operation. -/
  pre : Op → σ → Prop
  /-- What the schedule guarantees when an operation is performed. -/
  allowed : Op → σ → Prop
  /-- What other threads may do while an operation, or none, is pending. -/
  rely : Option Op → σ → σ → Prop

variable {semantics : (op : Op) → Effect ε σ (Result op)} {contract : Contract Op σ}

/-- Started in the memory `s`, the program meets every precondition and ends in
`post`, whatever the contract lets other threads do in between. -/
def Meets (semantics : (op : Op) → Effect ε σ (Result op)) (contract : Contract Op σ)
    (post : α → σ → Prop) : Program Op Result α → σ → Prop
  | done value, s => post value s
  | perform op next, s => ∀ s', contract.rely (some op) s s' → contract.inv s' →
      contract.pre op s' ∧ (contract.allowed op s' →
        (semantics op).wp (fun result s'' => contract.inv s'' →
          (next result).Meets semantics contract post s'') (fun _ _ => True) s')

variable {post : α → σ → Prop} {s : σ}

@[simp] theorem meets_done (value : α) :
    (done value : Program Op Result α).Meets semantics contract post s ↔ post value s := Iff.rfl

theorem meets_perform (op : Op) (next : Result op → Program Op Result α) :
    (perform op next).Meets semantics contract post s ↔
      ∀ s', contract.rely (some op) s s' → contract.inv s' →
        contract.pre op s' ∧ (contract.allowed op s' →
          (semantics op).wp (fun result s'' => contract.inv s'' →
            (next result).Meets semantics contract post s'') (fun _ _ => True) s') := Iff.rfl

@[simp] theorem meets_bind (program : Program Op Result α) (f : α → Program Op Result β)
    {post : β → σ → Prop} : (program >>= f).Meets semantics contract post s ↔
      program.Meets semantics contract
        (fun value => (f value).Meets semantics contract post) s := by
  induction program generalizing s with
  | done value => rfl
  | perform op next ih => simp only [perform_bind, meets_perform, ih]

/-- The rule for one operation. -/
theorem meets_call {op : Op} {f : Result op → Program Op Result α}
    (h : ∀ s', contract.rely (some op) s s' → contract.inv s' →
      contract.pre op s' ∧ (contract.allowed op s' →
        (semantics op).wp (fun result s'' => contract.inv s'' →
          (f result).Meets semantics contract post s'') (fun _ _ => True) s')) :
    (call op >>= f).Meets semantics contract post s := h

/-- Rule of consequence. -/
theorem Meets.mono {program : Program Op Result α} {post' : α → σ → Prop}
    (h : program.Meets semantics contract post s)
    (hpost : ∀ value s, post value s → post' value s) :
    program.Meets semantics contract post' s := by
  induction program generalizing s with
  | done value => exact hpost value s h
  | perform op next ih =>
      intro s' hrely hinv
      obtain ⟨hpre, hnext⟩ := h s' hrely hinv
      refine ⟨hpre, fun hallowed => ?_⟩
      exact Effect.wp_mono (hnext hallowed)
        (fun result s'' hmeets hinv'' => ih result (hmeets hinv''))
        fun _ _ h => h

/-- What holds of all results holds of those under the contract. -/
theorem Meets.and_all {P : Op → Prop} {Q : α → Prop} {program : Program Op Result α}
    (h : program.Meets semantics contract post s) (hall : program.All P Q) :
    program.Meets semantics contract (fun value s => post value s ∧ Q value) s := by
  induction program generalizing s with
  | done value => exact ⟨h, hall⟩
  | perform op next ih =>
      intro s' hrely hinv
      obtain ⟨hpre, hnext⟩ := h s' hrely hinv
      refine ⟨hpre, fun hallowed => ?_⟩
      refine Effect.wp_mono (hnext hallowed) (fun result s'' hmeets hinv'' => ?_) fun _ _ h => h
      exact ih result (hmeets hinv'') (hall.2 result)

/-- The invariant rule for a loop over a list. -/
theorem meets_foldlM {f : β → α → Program Op Result β} {items : List α} {init : β}
    {invariant : β → σ → Prop} (hinit : invariant init s)
    (hstep : ∀ item ∈ items, ∀ value s, invariant value s →
      (f value item).Meets semantics contract invariant s) :
    (items.foldlM f init).Meets semantics contract invariant s := by
  induction items generalizing init s with
  | nil => exact hinit
  | cons item rest ih =>
      rw [List.foldlM_cons, meets_bind]
      refine (hstep item List.mem_cons_self init s hinit).mono fun value s hvalue => ?_
      exact ih hvalue fun other hother => hstep other (List.mem_cons_of_mem _ hother)

/-- The invariant rule for a loop that returns nothing. -/
theorem meets_forM {f : α → Program Op Result PUnit} {items : List α} {invariant : σ → Prop}
    (hinit : invariant s)
    (hstep : ∀ item ∈ items, ∀ s, invariant s →
      (f item).Meets semantics contract (fun _ => invariant) s) :
    (items.forM f).Meets semantics contract (fun _ => invariant) s := by
  induction items generalizing s with
  | nil => exact hinit
  | cons item rest ih =>
      change (f item >>= fun _ => rest.forM f).Meets semantics contract _ s
      rw [meets_bind]
      refine (hstep item List.mem_cons_self s hinit).mono fun _ s hkept => ?_
      exact ih hkept fun other hother => hstep other (List.mem_cons_of_mem _ hother)

/-- Operations without preconditions meet every contract. -/
theorem All.meets {P : Op → Prop} {Q : α → Prop} {program : Program Op Result α}
    (h : program.All P Q) (hpre : ∀ op, P op → ∀ s, contract.pre op s)
    (hpost : ∀ value s, Q value → post value s) :
    program.Meets semantics contract post s := by
  induction program generalizing s with
  | done value => exact hpost value s h
  | perform op next ih =>
      intro s' _ _
      refine ⟨hpre op h.1 s', fun _ => ?_⟩
      exact Effect.wp_mono Effect.wp_true (fun result _ _ _ => ih result (h.2 result))
        fun _ _ h => h

/-- It is enough that the parts meet the contract. -/
theorem Composed.meets {P : Op → Prop} {S : (α : Type) → Program Op Result α → Prop}
    {program : Program Op Result α} (h : Composed P S program)
    (hop : ∀ op, P op → ∀ s, contract.pre op s)
    (hpart : ∀ {α : Type} (program : Program Op Result α), S α program → ∀ s,
      program.Meets semantics contract (fun _ _ => True) s) (s : σ) :
    program.Meets semantics contract (fun _ _ => True) s := by
  induction h generalizing s with
  | done value => trivial
  | call hcall =>
      exact fun s' _ _ => ⟨hop _ hcall s', fun _ => Effect.wp_mono Effect.wp_true
        (fun _ _ _ _ => trivial) fun _ _ h => h⟩
  | part h => exact hpart _ h s
  | bind _ _ ihFirst ihRest =>
      rw [meets_bind]
      exact (ihFirst s).mono fun value s _ => ihRest value s

/-! ## Returning under interference -/

/-- Started in the memory `s`, the program returns and ends in `post`, whatever steps of
`env` follow each of its operations. -/
def Returns (semantics : (op : Op) → Effect ε σ (Result op)) (env : σ → σ → Prop)
    (post : α → σ → Prop) : Program Op Result α → σ → Prop
  | done value, s => post value s
  | perform op next, s => (semantics op).wp
      (fun result s' => ∀ s'', env s' s'' → (next result).Returns semantics env post s'')
      (fun _ _ => False) s

section Returns

variable {env : σ → σ → Prop}

/-- The rule for one operation. -/
theorem returns_call {op : Op} {f : Result op → Program Op Result α} :
    (call op >>= f).Returns semantics env post s ↔ (semantics op).wp
      (fun result s' => ∀ s'', env s' s'' → (f result).Returns semantics env post s'')
      (fun _ _ => False) s := Iff.rfl

@[simp] theorem returns_bind (program : Program Op Result α) (f : α → Program Op Result β)
    {post : β → σ → Prop} : (program >>= f).Returns semantics env post s ↔
      program.Returns semantics env (fun value => (f value).Returns semantics env post) s := by
  induction program generalizing s with
  | done value => rfl
  | perform op next ih =>
      simp only [perform_bind, Returns, ih]

/-- Rule of consequence. -/
theorem Returns.mono {program : Program Op Result α} {post' : α → σ → Prop}
    (h : program.Returns semantics env post s)
    (hpost : ∀ value s, post value s → post' value s) :
    program.Returns semantics env post' s := by
  induction program generalizing s with
  | done value => exact hpost value s h
  | perform op next ih =>
      exact Effect.wp_mono h (fun result s' hnext s'' henv => ih result (hnext s'' henv))
        fun _ _ hfail => hfail

end Returns

/-! ## Threads that repeat a program -/

section Loop

variable {Task κ ι : Type} [DecidableEq ι]

/-- The state of a thread: in the middle of a round, or stopped with an error. A
round that is done leaves the task of the next one. -/
abbrev Thread (ε Op : Type) (Result : Op → Type) (Task : Type) :=
  Except ε (Program Op Result Task)

/-- Threads that repeat `body`; an external choice starts each round. -/
def loopMachine (semantics : (op : Op) → Effect ε σ (Result op))
    (body : Task → κ → Option (Program Op Result Task)) :
    Machine σ ε (Thread ε Op Result Task) κ where
  step
    | .error _, _ => none
    | .ok (done task), choice => (body task choice).map fun program => pure (.ok program)
    | .ok (perform op next), _ => some do
        let result ← semantics op
        pure (.ok (next result))
  crash := .error

/-- A step of a thread begins a round or performs the operation that comes next. -/
theorem next_cases {semantics : (op : Op) → Effect ε σ (Result op)}
    {body : Task → κ → Option (Program Op Result Task)}
    {config config' : Config σ (Thread ε Op Result Task) ι} {who : ι} {choice : κ}
    (hnext : (loopMachine semantics body).next config who choice = some config') :
    (∃ task program, config.threads who = .ok (.done task) ∧ body task choice = some program ∧
      config' = ⟨config.shared, Function.update config.threads who (.ok program)⟩) ∨
    ∃ op next, config.threads who = .ok (.perform op next) ∧
      ∀ {post : Result op → σ → Prop} {fail : ε → σ → Prop},
        (semantics op).wp post fail config.shared →
          (∃ result s, post result s ∧
            config' = ⟨s, Function.update config.threads who (.ok (next result))⟩) ∨
          ∃ error s, fail error s ∧
            config' = ⟨s, Function.update config.threads who (.error error)⟩ := by
  obtain ⟨action, haction, hconfig⟩ := Option.map_eq_some_iff.mp hnext
  cases hthread : config.threads who with
  | error error =>
      rw [hthread] at haction
      cases haction
  | ok program =>
      rw [hthread] at haction
      cases program with
      | done task =>
          obtain ⟨program, hprogram, rfl⟩ := Option.map_eq_some_iff.mp haction
          exact Or.inl ⟨task, program, rfl, hprogram, hconfig.symm⟩
      | perform op next =>
          obtain rfl := Option.some.inj haction
          refine Or.inr ⟨op, next, rfl, fun {post fail} hwp => ?_⟩
          unfold Effect.wp at hwp
          simp only [bind, EStateM.bind] at hconfig
          cases hrun : semantics op config.shared with
          | ok result s =>
              rw [hrun] at hwp hconfig
              exact Or.inl ⟨result, s, hwp, hconfig.symm⟩
          | error error s =>
              rw [hrun] at hwp hconfig
              exact Or.inr ⟨error, s, hwp, hconfig.symm⟩

/-- The operation that a thread performs next. -/
def Thread.pending : Thread ε Op Result Task → Option Op
  | .error _ => none
  | .ok program => program.pending

/-- What a contract says about a thread. -/
def Thread.Meets (semantics : (op : Op) → Effect ε σ (Result op)) (contract : Contract Op σ)
    (fail : ε → Prop) (loop : Task → σ → Prop) (s : σ) : Thread ε Op Result Task → Prop
  | .error error => fail error
  | .ok program => program.Meets semantics contract loop s

/-- The precondition of the pending operation holds. -/
theorem Thread.Meets.pre {fail : ε → Prop} {loop : Task → σ → Prop}
    {thread : Thread ε Op Result Task} {op : Op} (h : thread.Meets semantics contract fail loop s)
    (hrefl : contract.rely (some op) s s) (hinv : contract.inv s)
    (hpending : thread.pending = some op) : contract.pre op s := by
  cases thread with
  | error error => cases hpending
  | ok program =>
      cases program with
      | done task => cases hpending
      | perform op next =>
          obtain rfl := Option.some.inj hpending
          exact (h s hrefl hinv).1

variable {body : Task → κ → Option (Program Op Result Task)}
  {guard : Config σ (Thread ε Op Result Task) ι → ι → κ → Prop}
  {start config : Config σ (Thread ε Op Result Task) ι}

/-- Every run keeps the contracts of the threads when each round of `body` meets that of
its thread (`hbody`) and each operation keeps the invariant and disturbs no other thread
(`hop`). -/
theorem Reachable.meetsEach (inv : σ → Prop) (contract : ι → Contract Op σ)
    (fail : ι → ε → Prop) (loop : ι → Task → σ → Prop)
    (hinv : ∀ who s, (contract who).inv s ↔ inv s)
    (hrefl : ∀ who op s, (contract who).rely op s s)
    (htrans : ∀ who op s s' s'', (contract who).rely op s s' → (contract who).rely op s' s'' →
      (contract who).rely op s s'')
    (hstart : inv start.shared ∧ ∀ who, ∃ task,
      start.threads who = .ok (.done task) ∧ loop who task start.shared)
    (hstable : ∀ who task s s', (contract who).rely none s s' → inv s → inv s' →
      loop who task s → loop who task s')
    (hbody : ∀ config who choice task program, guard config who choice →
      config.threads who = .ok (.done task) → inv config.shared →
      loop who task config.shared → body task choice = some program →
      program.Meets semantics (contract who) (loop who) config.shared)
    (hop : ∀ config who choice op next, guard config who choice →
      config.threads who = .ok (.perform op next) → inv config.shared →
      (contract who).pre op config.shared → (contract who).allowed op config.shared ∧
      (semantics op).wp
        (fun _ s => inv s ∧ ∀ other, other ≠ who →
          (contract other).rely (config.threads other).pending config.shared s)
        (fun error s => fail who error ∧ inv s ∧ ∀ other, other ≠ who →
          (contract other).rely (config.threads other).pending config.shared s) config.shared)
    (hreach : (loopMachine semantics body).Reachable guard start config) :
    inv config.shared ∧ ∀ who,
      (config.threads who).Meets semantics (contract who) (fail who) (loop who) config.shared := by
  refine Machine.Reachable.rely_guarantee inv
    (fun who s thread => thread.Meets semantics (contract who) (fail who) (loop who) s)
    (fun who thread => (contract who).rely thread.pending) ?_ ?_ ?_ hreach
  · refine ⟨hstart.1, fun who => ?_⟩
    obtain ⟨task, hthread, hloop⟩ := hstart.2 who
    rw [hthread]
    exact hloop
  · intro config who choice action _ hguard hinv' hthreads haction
    cases hthread : config.threads who with
    | error error =>
        rw [hthread] at haction
        cases haction
    | ok program =>
        have hmeets := hthreads who
        rw [hthread] at haction hmeets
        cases program with
        -- A new round of the thread.
        | done task =>
            obtain ⟨program, hprogram, rfl⟩ := Option.map_eq_some_iff.mp haction
            exact ⟨hinv', hbody config who choice task program hguard hthread hinv' hmeets hprogram,
              fun other _ => hrefl _ _ _⟩
        | perform op next =>
            obtain rfl := Option.some.inj haction
            obtain ⟨hpre, hnext⟩ := hmeets config.shared (hrefl _ _ _) ((hinv _ _).mpr hinv')
            obtain ⟨hallowed, hkeeps⟩ := hop config who choice op next hguard hthread hinv' hpre
            rw [Effect.wp_bind]
            refine Effect.wp_and (hnext hallowed) hkeeps ?_ ?_
            · intro result s hrest hkept
              exact ⟨hkept.1, hrest ((hinv _ _).mpr hkept.1), hkept.2⟩
            · intro error s _ hkept
              exact ⟨hkept.2.1, hkept.1, hkept.2.2⟩
  · intro who s s' thread hrely hinvS hinvS' hmeets
    cases thread with
    | error error => exact hmeets
    | ok program =>
        cases program with
        | done task => exact hstable who task s s' hrely hinvS hinvS' hmeets
        | perform op next =>
            -- The environment may act before the operation and after these steps of others.
            intro s'' hrely' hinv''
            exact hmeets s'' (htrans _ _ _ _ _ hrely hrely') hinv''

/-- Every run keeps a contract that all threads share. -/
theorem Reachable.meets (contract : Contract Op σ) (fail : ε → Prop) (loop : Task → σ → Prop)
    (hrefl : ∀ op s, contract.rely op s s)
    (htrans : ∀ op s s' s'', contract.rely op s s' → contract.rely op s' s'' →
      contract.rely op s s'')
    (hstart : contract.inv start.shared ∧ ∀ who, ∃ task,
      start.threads who = .ok (.done task) ∧ loop task start.shared)
    (hstable : ∀ task s s', contract.rely none s s' → contract.inv s → contract.inv s' →
      loop task s → loop task s')
    (hbody : ∀ config who choice task program, guard config who choice →
      config.threads who = .ok (.done task) → contract.inv config.shared →
      loop task config.shared → body task choice = some program →
      program.Meets semantics contract loop config.shared)
    (hop : ∀ config who choice op next, guard config who choice →
      config.threads who = .ok (.perform op next) → contract.inv config.shared →
      contract.pre op config.shared → contract.allowed op config.shared ∧
      (semantics op).wp
        (fun _ s => contract.inv s ∧ ∀ other, other ≠ who →
          contract.rely (config.threads other).pending config.shared s)
        (fun error s => fail error ∧ contract.inv s ∧ ∀ other, other ≠ who →
          contract.rely (config.threads other).pending config.shared s) config.shared)
    (hreach : (loopMachine semantics body).Reachable guard start config) :
    contract.inv config.shared ∧
      ∀ who, (config.threads who).Meets semantics contract fail loop config.shared :=
  meetsEach contract.inv (fun _ => contract) (fun _ => fail) (fun _ => loop)
    (fun _ _ => Iff.rfl) (fun _ => hrefl) (fun _ => htrans) hstart (fun _ => hstable) hbody hop
    hreach

/-- The same threads where each round runs without interference. -/
def roundMachine (semantics : (op : Op) → Effect ε σ (Result op))
    (body : Task → κ → Option (Program Op Result Task)) : Machine σ ε (Except ε Task) κ where
  step
    | .error _, _ => none
    | .ok task, choice => (body task choice).map fun program => .ok <$> program.run semantics
  crash := .error

/-- A round that does not fail. -/
theorem round_of_run {config : Config σ (Except ε Task) ι} {who : ι} {choice : κ}
    {task task' : Task}
    {program : Program Op Result Task} {shared : σ} (hthread : config.threads who = .ok task)
    (hbody : body task choice = some program)
    (hrun : program.run semantics config.shared = .ok task' shared) :
    (roundMachine semantics body).next config who choice =
      some ⟨shared, Function.update config.threads who (.ok task')⟩ := by
  simp only [Machine.next, roundMachine, hthread, hbody, Option.map_some, Functor.map, EStateM.map,
    hrun]

/-- One round, taken apart: the program of the thread and its two outcomes. -/
theorem round_wp {config config' : Config σ (Except ε Task) ι} {who : ι} {choice : κ}
    (hround : (roundMachine semantics body).next config who choice = some config') :
    ∃ task program, config.threads who = .ok task ∧ body task choice = some program ∧
      ∀ {post : Task → σ → Prop} {fail : ε → σ → Prop},
        (program.run semantics).wp post fail config.shared →
        ∃ thread, config'.threads = Function.update config.threads who thread ∧
          match thread with
          | .ok task' => post task' config'.shared
          | .error error => fail error config'.shared := by
  obtain ⟨action, haction, houtcome⟩ := Machine.next_wp hround
  cases hthread : config.threads who with
  | error error =>
      rw [hthread] at haction
      cases haction
  | ok task =>
      rw [hthread] at haction
      obtain ⟨program, hprogram, rfl⟩ := Option.map_eq_some_iff.mp haction
      refine ⟨task, program, rfl, hprogram, fun {post fail} hwp => ?_⟩
      have hlifted : (Except.ok <$> program.run semantics : Effect ε σ (Except ε Task)).wp
          (fun thread s => ∃ task', thread = .ok task' ∧ post task' s) fail config.shared :=
        (Effect.wp_map _ _).mpr
          (Effect.wp_mono hwp (fun task' _ h => ⟨task', rfl, h⟩) fun _ _ h => h)
      obtain ⟨thread, hthreads, ⟨task', rfl, hpost⟩ | ⟨error, rfl, hfail⟩⟩ := houtcome hlifted
      · exact ⟨_, hthreads, hpost⟩
      · exact ⟨_, hthreads, hfail⟩

/-- A configuration between rounds, seen as one of the `loopMachine`. -/
def betweenRounds (config : Config σ (Except ε Task) ι) :
    Config σ (Thread ε Op Result Task) ι :=
  ⟨config.shared, fun who => (config.threads who).map done⟩

/-- A program that is left alone performs `run`. -/
theorem exists_steps_of_run (semantics : (op : Op) → Effect ε σ (Result op))
    (body : Task → κ → Option (Program Op Result Task)) (program : Program Op Result Task)
    (shared : σ)
    (threads : ι → Thread ε Op Result Task) (who : ι) (choice : κ) :
    ∃ count, (loopMachine semantics body).run (fun _ _ _ => true)
      ⟨shared, Function.update threads who (.ok program)⟩ (List.replicate count (who, choice)) =
        match program.run semantics shared with
        | .ok task shared => some ⟨shared, Function.update threads who (.ok (.done task))⟩
        | .error error shared => some ⟨shared, Function.update threads who (.error error)⟩ := by
  induction program generalizing shared threads with
  | done task => exact ⟨0, rfl⟩
  | perform op next ih =>
      have hstep : (loopMachine semantics body).next
          ⟨shared, Function.update threads who (.ok (.perform op next))⟩ who choice =
            match semantics op shared with
            | .ok result shared => some ⟨shared, Function.update threads who (.ok (next result))⟩
            | .error error shared => some ⟨shared, Function.update threads who (.error error)⟩ := by
        simp only [Machine.next, loopMachine, Function.update_self, Option.map_some,
          Function.update_idem, bind, EStateM.bind, pure, EStateM.pure]
        cases semantics op shared <;> rfl
      have hrun : (perform op next).run semantics shared =
          match semantics op shared with
          | .ok result shared => (next result).run semantics shared
          | .error error shared => .error error shared := by
        simp only [run_perform, bind, EStateM.bind]
        cases semantics op shared <;> rfl
      rw [hrun]
      cases hop : semantics op shared with
      | error error shared' =>
          refine ⟨1, ?_⟩
          simp [Machine.run, hstep, hop]
      | ok result shared' =>
          obtain ⟨count, hrest⟩ := ih result shared' threads
          refine ⟨count + 1, ?_⟩
          simp only [List.replicate_succ, Machine.run, hstep, hop, Option.bind_some]
          exact hrest

/-- Each round is a sequence of steps of one thread. -/
theorem run_of_round {config config' : Config σ (Except ε Task) ι} {who : ι} {choice : κ}
    (hround : (roundMachine semantics body).next config who choice = some config') :
    ∃ count, (loopMachine semantics body).run (fun _ _ _ => true) (betweenRounds config)
      (List.replicate count (who, choice)) = some (betweenRounds config') := by
  obtain ⟨action, haction, hconfig⟩ := Option.map_eq_some_iff.mp hround
  cases hthread : config.threads who with
  | error error =>
      rw [hthread] at haction
      cases haction
  | ok task =>
      rw [hthread] at haction
      obtain ⟨program, hprogram, rfl⟩ := Option.map_eq_some_iff.mp haction
      have hhead : (betweenRounds config : Config σ (Thread ε Op Result Task) ι).threads who =
          .ok (.done task) := by
        simp [betweenRounds, hthread, Except.map]
      obtain ⟨count, hcount⟩ := exists_steps_of_run semantics body
        program config.shared (betweenRounds config).threads who choice
      -- The first step fetches the program of the round, the others perform it.
      have hfirst : (loopMachine semantics body).next (betweenRounds config) who choice =
          some ⟨config.shared,
            Function.update (betweenRounds config).threads who (.ok program)⟩ := by
        simp only [Machine.next, loopMachine, hhead, hprogram, Option.map_some, pure,
          EStateM.pure]
        rfl
      have hthreads : ∀ result : Except ε Task,
          (fun other => (Function.update config.threads who result other).map
            (done : Task → Program Op Result Task)) =
          Function.update (betweenRounds config).threads who (result.map done) := by
        intro result
        funext other
        by_cases heq : other = who
        · subst heq
          simp
        · simp [Function.update_of_ne heq, betweenRounds]
      refine ⟨count + 1, ?_⟩
      simp only [List.replicate_succ, Machine.run, hfirst, Option.bind_some, hcount]
      subst hconfig
      simp only [Functor.map, EStateM.map]
      cases program.run semantics config.shared with
      | ok task' shared => simp only [betweenRounds, hthreads]; rfl
      | error error shared => simp only [betweenRounds, hthreads]; rfl

/-- What whole rounds reach is reached by single operations. -/
theorem Reachable.betweenRounds {guard : Config σ (Except ε Task) ι → ι → κ → Prop}
    {start config : Config σ (Except ε Task) ι}
    (hreach : (roundMachine semantics body).Reachable guard start config) :
    (loopMachine semantics body).Reachable (fun _ _ _ => True) (betweenRounds start)
      (betweenRounds config) := by
  induction hreach with
  | start => exact .start
  | step _ _ hround ih =>
      obtain ⟨count, hsteps⟩ := run_of_round hround
      exact Machine.reachable_of_run (fun _ _ _ _ => trivial) ih hsteps

end Loop

end Program

end BitcoinClient
