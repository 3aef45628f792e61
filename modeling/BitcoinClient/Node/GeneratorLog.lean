import BitcoinClient.Foundation.History
import BitcoinClient.Node.Gossip

/-! # The generator agrees with the checks

A log beside the variables of `generator_loop` keeps the ledger state that the loop read
last, the transactions generated on it, and all transactions generated so far. Without the
log the threads are those of the node (`loggedBody_erases`). `check_tx_state` accepts the
transactions of the log on the state that was read, and it ends in the state that the
generator has computed itself (`generator_agrees`).
-/

namespace BitcoinClient

open NodeProgram (call)

/-- What `generator_loop` has done so far. -/
structure GeneratorLog where
  /-- The ledger state that was read last. -/
  base : State := ⟨∅⟩
  /-- The transactions generated on `base`, in order. -/
  recent : List SignedTransaction := []
  /-- All transactions, in order. -/
  all : List SignedTransaction := []

namespace GeneratorLog

/-- After `refresh` a moved tip means that its state was read. -/
def refresh (log : GeneratorLog) (before after : Generator) : GeneratorLog :=
  if after.prevTip = before.prevTip then log
  else { log with base := after.state, recent := [] }

/-- After the generation of transactions. -/
def add (log : GeneratorLog) (transactions : List SignedTransaction) : GeneratorLog :=
  { log with recent := log.recent ++ transactions, all := log.all ++ transactions }

end GeneratorLog

section Definitions

variable (C : Crypto) (build : Build) (geneLoop : GeneLoop)

/-- What an iteration on the local ledger state generates. -/
def GeneLoop.generated (iteration : HashMap.Iteration (H256 × UInt8) (UInt32 × Address))
    (state : State) : List SignedTransaction :=
  let (inputs, balance) := geneLoop.getTxBalance iteration state
  if balance = 0 then [] else [geneLoop.newSignedTransaction C inputs balance]

/-- The ledger state on which the next iteration generates, when it gets so far. -/
def Generator.upcoming (s : Shared) (generator : Generator) : Option State :=
  let signal := s.generatorControl.head?
  match generator.operatingState with
  | .run _ =>
    if signal.elim generator.operatingState generator.operatingState.react = .shutDown then none
    else if generator.prevTip = s.blockchain.value.tip then some generator.state
    else s.blockState.value.get s.blockchain.value.tip
  | _ => none

/-- The transactions that the thread makes in its next round. -/
def IdleNode.generates {workers requests : Nat} (node : IdleNode workers requests)
    (who : ThreadId workers requests)
    (iteration : HashMap.Iteration (H256 × UInt8) (UInt32 × Address)) : List SignedTransaction :=
  match node.threads who with
  | .ok (.generator generator) =>
    (generator.upcoming node.shared).elim [] (geneLoop.generated C iteration)
  | _ => []

/-- The transaction spends one coin that the state holds for the generator. -/
def GeneLoop.Spends (state : State) (st : SignedTransaction) : Prop :=
  ∃ input value, state.states.get input.outpoint = some (value, geneLoop.addr) ∧ value ≠ 0 ∧
    st = geneLoop.newSignedTransaction C [input] value

/-- The transaction has one input, and its outputs are positive and add up to it. No
subtraction on the way to them underflows. -/
def GeneLoop.Splits (state : State) (st : SignedTransaction) : Prop :=
  ∃ input value, st.transaction.input = [input] ∧
    state.states.get input.outpoint = some (value, geneLoop.addr) ∧
    (∀ output ∈ st.transaction.output, 0 < output.value) ∧
    (st.transaction.output.map fun output => output.value.toNat).sum = value.toNat ∧
    value / 3 ≤ value ∧ (value - value / 3) / 2 ≤ value - value / 3

/-- In either build `check_tx_state` accepts what was generated since the last look at
`block_state`, and ends in the local state. -/
structure GeneratorLog.Agrees (log : GeneratorLog) (state : State) : Prop where
  accepted : ∀ build, checkTxs C build log.base log.recent = .ok state
  splits : ∀ earlier st later, log.recent = earlier ++ st :: later →
    ∃ before, (∀ build, checkTxs C build log.base earlier = .ok before) ∧
      geneLoop.Splits before st

/-- `GeneLoop.start` with the log. -/
def GeneLoop.startLogged : NodeProgram (Generator × GeneratorLog) := do
  let generator ← GeneLoop.start
  pure (generator, { base := generator.state })

/-- `GeneLoop.round` with the log. -/
def GeneLoop.roundLogged (generator : Generator) (log : GeneratorLog)
    (iteration : HashMap.Iteration (H256 × UInt8) (UInt32 × Address)) :
    NodeProgram (Option (Generator × GeneratorLog)) :=
  match generator.operatingState with
  | .paused => do
    let signal ← call .generatorSignal
    let operatingState := signal.elim generator.operatingState generator.operatingState.react
    pure (some ({ generator with operatingState }, log))
  | .shutDown => pure none
  | .run _ => do
    let signal ← call .generatorSignal
    let operatingState := signal.elim generator.operatingState generator.operatingState.react
    if operatingState = .shutDown then
      pure none
    else do
      let refreshed ← GeneLoop.refresh { generator with operatingState }
      let log := log.refresh generator refreshed
      let generated := geneLoop.generated C iteration refreshed.state
      let generator ← geneLoop.generate C refreshed iteration
      pure (some (generator, log.add generated))

/-- The tasks of the threads other than the generator. -/
def Task.offGenerator : Task → Bool
  | .generatorStart | .generator _ => false
  | _ => true

/-- `nodeBody` with the log of the generator. -/
def loggedBody : Task × GeneratorLog → Choice → Option (NodeProgram (Task × GeneratorLog))
  | (.generatorStart, _), .go => some do
    let (generator, log) ← GeneLoop.startLogged
    pure (.generator generator, log)
  | (.generator generator, log), .generate iteration => some do
    let next ← geneLoop.roundLogged C generator log iteration
    pure (next.elim (.exited, log) fun (generator, log) => (.generator generator, log))
  | (task, log), choice => (nodeBody C build geneLoop task choice).map fun program => do
    let task ← program
    pure (task, log)

/-- The threads of the node with the log of the generator. -/
def loggedMachine :
    Machine Shared Panic (Program.Thread Panic Op Op.Result (Task × GeneratorLog)) Choice :=
  Program.loopMachine (Op.action C build) (loggedBody C build geneLoop)

end Definitions

/-- A running node with the log of its generator. -/
abbrev LoggedNode (workers requests : Nat) :=
  Config Shared (Program.Thread Panic Op Op.Result (Task × GeneratorLog))
    (ThreadId workers requests)

/-- The threads of `main` over any memory. -/
def LoggedNode.start (shared : Shared) (workers requests : Nat) : LoggedNode workers requests :=
  ⟨shared, fun who => .ok (.done (.start who, {}))⟩

/-- The node itself. -/
def LoggedNode.node {workers requests : Nat} (node : LoggedNode workers requests) :
    Node workers requests :=
  Program.mapTasks Prod.fst node

/-- The generator between two iterations, with its log. -/
def LoggedNode.generator {workers requests : Nat} (node : LoggedNode workers requests) :
    Option (Generator × GeneratorLog) :=
  match node.threads .generator with
  | .ok (.done (.generator generator, log)) => some (generator, log)
  | _ => none

theorem LoggedNode.generator_eq_some {workers requests : Nat} {node : LoggedNode workers requests}
    {generator : Generator} {log : GeneratorLog} : node.generator = some (generator, log) ↔
      node.threads .generator = .ok (.done (.generator generator, log)) := by
  unfold LoggedNode.generator
  generalize node.threads .generator = thread
  rcases thread with error | (⟨task, log'⟩ | ⟨op, next⟩)
  · simp
  · cases task <;> simp
  · simp

/-! ## The log does not influence the node -/

variable {C : Crypto} {build : Build} {geneLoop : GeneLoop}

theorem GeneLoop.startLogged_erases :
    Prod.fst <$> GeneLoop.startLogged = GeneLoop.start := by
  rw [GeneLoop.startLogged, map_bind]
  exact bind_pure _

theorem GeneLoop.roundLogged_erases (generator : Generator) (log : GeneratorLog)
    (iteration : HashMap.Iteration (H256 × UInt8) (UInt32 × Address)) :
    (fun next => next.map Prod.fst) <$> geneLoop.roundLogged C generator log iteration =
      geneLoop.round C generator iteration := by
  obtain ⟨operatingState, prevTip, state⟩ := generator
  cases operatingState with
  | paused => rfl
  | shutDown => rfl
  | run interval =>
      simp only [roundLogged, round, map_bind]
      congr 1
      funext signal
      split
      next => rfl
      next => simp only [map_bind, map_pure, Option.map_some]

/-- The other threads have nothing to log. -/
theorem loggedBody_offGenerator {task : Task} (htask : task.offGenerator = true)
    (log : GeneratorLog) (choice : Choice) :
    loggedBody C build geneLoop (task, log) choice =
      (nodeBody C build geneLoop task choice).map
        fun program => program >>= fun task => pure (task, log) := by
  cases task with
  | generatorStart => cases htask
  | generator generator => cases htask
  | _ => rfl

/-- Without the logs the threads are those of the node. -/
theorem loggedBody_erases (task : Task × GeneratorLog) (choice : Choice) :
    (loggedBody C build geneLoop task choice).map (fun program => Prod.fst <$> program) =
      nodeBody C build geneLoop task.1 choice := by
  obtain ⟨task, log⟩ := task
  have hother : ((nodeBody C build geneLoop task choice).map fun program => do
      let task ← program
      pure (task, log)).map (fun program => Prod.fst <$> program) =
        nodeBody C build geneLoop task choice := by
    have hforget : ∀ program : NodeProgram Task, Prod.fst <$> (do
        let task ← program
        pure (task, log)) = program := by
      intro program
      simp only [map_bind, map_pure, bind_pure]
    rw [Option.map_map]
    cases nodeBody C build geneLoop task choice with
    | none => rfl
    | some program => exact congrArg some (hforget program)
  cases task with
  | generatorStart =>
      cases choice with
      | go =>
          simp only [loggedBody, nodeBody, Option.map_some, ← GeneLoop.startLogged_erases, map_bind,
            map_pure, bind_map_left]
      | _ => exact hother
  | generator generator =>
      cases choice with
      | generate iteration =>
          simp only [loggedBody, nodeBody, Option.map_some, map_bind, map_pure, bind_map_left,
            ← geneLoop.roundLogged_erases generator log iteration]
          congr 2
          funext next
          cases next <;> rfl
      | _ => exact hother
  | _ => exact hother

theorem LoggedNode.reachable {workers requests : Nat} {start node : LoggedNode workers requests}
    {guard : LoggedNode workers requests → ThreadId workers requests → Choice → Prop}
    {guard' : Node workers requests → ThreadId workers requests → Choice → Prop}
    (hguard : ∀ node who choice, guard node who choice → guard' node.node who choice)
    (hreach : (loggedMachine C build geneLoop).Reachable guard start node) :
    (nodeMachine C build geneLoop).Reachable guard' start.node node.node :=
  hreach.map_view (Program.next_mapTasks (Op.action C build) loggedBody_erases) hguard

/-- Every run of the node has a log. -/
theorem Node.exists_logged {workers requests : Nat} {start : LoggedNode workers requests}
    {node : Node workers requests}
    {guard : Node workers requests → ThreadId workers requests → Choice → Prop}
    (hreach : (nodeMachine C build geneLoop).Reachable guard start.node node) :
    ∃ logged : LoggedNode workers requests, logged.node = node ∧
      (loggedMachine C build geneLoop).Reachable
        (fun node : LoggedNode workers requests => guard node.node) start logged :=
  hreach.exists_view (Program.next_mapTasks (Op.action C build) loggedBody_erases)

/-! ## One transaction -/

theorem Output.passCheck_pos {balance : UInt32} (hbalance : balance ≠ 0)
    (peerAddrs : Address × Address) :
    ∀ output ∈ Output.passCheck balance peerAddrs, 0 < output.value := by
  unfold Output.passCheck
  dsimp only
  split
  next =>
    intro output hmem
    rw [List.mem_singleton.mp hmem]
    exact UInt32.pos_iff_ne_zero.mpr hbalance
  next hshares =>
    obtain ⟨h1, h2, h3⟩ := not_or.mp hshares |>.imp_right not_or.mp
    simp only [List.forall_mem_cons, UInt32.pos_iff_ne_zero]
    exact ⟨h1, h2, h3, List.forall_mem_nil _⟩

/-- The shares are computed without an underflow. -/
theorem Output.passCheck_le (balance : UInt32) :
    balance / 3 ≤ balance ∧ (balance - balance / 3) / 2 ≤ balance - balance / 3 := by
  simp only [UInt32.le_iff_toNat_le, UInt32.toNat_div]
  exact ⟨Nat.div_le_self _ _, Nat.div_le_self _ _⟩

theorem Output.passCheck_sum (balance : UInt32) (peerAddrs : Address × Address) :
    ((Output.passCheck balance peerAddrs).map fun output => output.value.toNat).sum =
      balance.toNat := by
  obtain ⟨hthird, hhalf⟩ := Output.passCheck_le balance
  have hfirst := UInt32.toNat_sub_of_le _ _ hthird
  have hsecond := UInt32.toNat_sub_of_le _ _ hhalf
  rw [UInt32.le_iff_toNat_le] at hthird hhalf
  unfold Output.passCheck
  dsimp only
  split
  next => simp
  next =>
    simp only [List.map_cons, List.map_nil, List.sum_cons, List.sum_nil]
    omega

/-- An iteration spends a coin of the local state, or it generates nothing. -/
theorem GeneLoop.generated_cases
    (iteration : HashMap.Iteration (H256 × UInt8) (UInt32 × Address)) (state : State) :
    geneLoop.generated C iteration state = [] ∨
      ∃ st, geneLoop.generated C iteration state = [st] ∧ geneLoop.Spends C state st := by
  unfold generated getTxBalance
  cases hfind : (iteration.entries state.states).find? fun entry => entry.2.2 = geneLoop.addr with
  | none => exact Or.inl rfl
  | some entry =>
      obtain ⟨⟨txHash, index⟩, value, address⟩ := entry
      have hown := List.find?_some hfind
      obtain rfl : address = geneLoop.addr := of_decide_eq_true hown
      have hget := (iteration.enumerates state.states).mem_iff.mp (List.mem_of_find?_eq_some hfind)
      by_cases hvalue : value = 0
      · exact Or.inl (if_pos hvalue)
      · exact Or.inr ⟨_, if_neg hvalue, ⟨txHash, index⟩, value, hget, hvalue, rfl⟩

theorem GeneLoop.Spends.splits {state : State} {st : SignedTransaction}
    (h : geneLoop.Spends C state st) : geneLoop.Splits state st := by
  obtain ⟨input, value, hcoin, hvalue, rfl⟩ := h
  exact ⟨input, value, rfl, hcoin, Output.passCheck_pos hvalue _, Output.passCheck_sum _ _,
    Output.passCheck_le value⟩

/-- `check_tx_state` accepts the transaction and executes it, with exact sums. -/
theorem GeneLoop.Spends.checkTx
    (hsign : ∀ key t, verify C t key.publicKey (sign C t key) = true)
    (haddr : geneLoop.addr = .fromPublicKeyBytes C geneLoop.publicKey.publicKey)
    {state : State} {st : SignedTransaction} (h : geneLoop.Spends C state st) (build : Build) :
    checkTx C build state st = .ok (state.execute C st) := by
  obtain ⟨input, value, hcoin, _, rfl⟩ := h
  obtain ⟨sumInput, haddInput, hsumInput⟩ : ∃ sum, addU32 build 0 value = some sum ∧
      sum.toNat = (0 : UInt32).toNat + value.toNat :=
    addU32_of_lt build (by simp [value.toNat_lt])
  have hinput : sumInputs C build state geneLoop.publicKey.publicKey 0 [input] = .ok sumInput := by
    simp only [sumInputs, hcoin, haddr, ne_eq, not_true_eq_false, if_false, haddInput]
  have hvalues : (((Output.passCheck value geneLoop.peerAddrs).map Output.value).map
      UInt32.toNat).sum = value.toNat := by
    rw [List.map_map]
    exact Output.passCheck_sum value geneLoop.peerAddrs
  obtain ⟨sumOutput, houtput, hsumOutput⟩ : ∃ sum, sumU32 build 0
      ((Output.passCheck value geneLoop.peerAddrs).map Output.value) = some sum ∧
      sum.toNat = (0 : UInt32).toNat + _ :=
    sumU32_of_lt build (by rw [hvalues]; simp [value.toNat_lt])
  have hle : ¬ sumInput < sumOutput := by
    rw [UInt32.lt_iff_toNat_lt, hsumInput, hsumOutput, hvalues]
    exact Nat.lt_irrefl _
  unfold BitcoinClient.checkTx
  simp only [newSignedTransaction, SignedTransaction.signedBy, Transaction.passCheck, hsign,
    if_true, hinput, houtput, if_neg hle]

/-! ## The iterations -/

namespace GeneratorLog

variable {log : GeneratorLog} {state : State}

/-- Nothing has been generated on the state that was just read. -/
theorem Agrees.begin (h : log.recent = []) : log.Agrees C geneLoop log.base := by
  refine ⟨fun build => ?_, fun earlier st later heq => ?_⟩
  · rw [h]
    rfl
  · rw [h] at heq
    exact absurd heq.symm (List.append_ne_nil_of_right_ne_nil _ (List.cons_ne_nil _ _))

/-- One more iteration on the same tip. -/
theorem Agrees.add (hsign : ∀ key t, verify C t key.publicKey (sign C t key) = true)
    (haddr : geneLoop.addr = .fromPublicKeyBytes C geneLoop.publicKey.publicKey)
    (h : log.Agrees C geneLoop state)
    (iteration : HashMap.Iteration (H256 × UInt8) (UInt32 × Address)) :
    (log.add (geneLoop.generated C iteration state)).Agrees C geneLoop
      ((geneLoop.generated C iteration state).foldl (State.execute C) state) := by
  rcases geneLoop.generated_cases iteration state with hnone | ⟨st, hst, hspends⟩
  · rw [hnone, GeneratorLog.add, List.append_nil, List.append_nil]
    exact h
  · rw [hst]
    refine ⟨fun build => ?_, forall_entry_concat h.splits ⟨state, h.accepted, hspends.splits⟩⟩
    have hrecent := h.accepted build
    change checkTxs C build log.base (log.recent ++ [st]) = .ok (state.execute C st)
    rw [checkTxs, List.foldlM_append, ← checkTxs, hrecent]
    change checkTxs C build state [st] = _
    rw [checkTxs, List.foldlM_cons, hspends.checkTx hsign haddr build]
    rfl

end GeneratorLog

/-- What an iteration leaves in the variables of the loop. -/
theorem GeneLoop.generate_result (generator : Generator)
    (iteration : HashMap.Iteration (H256 × UInt8) (UInt32 × Address)) :
    (geneLoop.generate C generator iteration).All (fun op => op.isFree = true) fun next =>
      next.state = (geneLoop.generated C iteration generator.state).foldl (State.execute C)
        generator.state := by
  unfold generate generated
  dsimp only
  by_cases hbalance : (geneLoop.getTxBalance iteration generator.state).2 = 0
  · rw [if_pos hbalance, if_pos hbalance]
    exact rfl
  · rw [if_neg hbalance, if_neg hbalance]
    refine ⟨rfl, fun known => ?_⟩
    cases known with
    | true => exact ⟨rfl, fun _ => rfl⟩
    | false => exact ⟨rfl, fun _ => ⟨rfl, fun _ => rfl⟩⟩

/-- The state that the loop starts over from when the tip has moved. -/
theorem GeneLoop.refresh_state (generator : Generator) (s : Shared) :
    ((GeneLoop.refresh generator).run C build).wp
      (fun refreshed _ => (if generator.prevTip = s.blockchain.value.tip then some generator.state
        else s.blockState.value.get s.blockchain.value.tip) = some refreshed.state)
      (fun _ _ => True) s := by
  simp only [refresh, call, Program.call_bind, Program.run_perform, Effect.wp_bind, Op.action,
    wp_readTip]
  refine ⟨fun _ => trivial, fun _ => ?_⟩
  by_cases htip : generator.prevTip = s.blockchain.value.tip
  · rw [if_pos htip, if_pos htip]
    rfl
  · rw [if_neg htip, if_neg htip]
    simp only [Program.run_perform, Effect.wp_bind, Op.action, wp_readBlockState]
    refine ⟨fun _ => trivial, fun _ => ?_⟩
    cases s.blockState.value.get s.blockchain.value.tip with
    | none => trivial
    | some state => rfl

/-- What is foreseen for an iteration is what it logs. -/
theorem GeneLoop.roundLogged_upcoming (generator : Generator) (log : GeneratorLog)
    (iteration : HashMap.Iteration (H256 × UInt8) (UInt32 × Address)) (s : Shared) :
    ((geneLoop.roundLogged C generator log iteration).run C build).wp
      (fun result _ => ∀ next ∈ result, next.2.all = log.all ++
        (generator.upcoming s).elim [] (geneLoop.generated C iteration))
      (fun _ _ => True) s := by
  obtain ⟨operatingState, prevTip, state⟩ := generator
  cases operatingState with
  | paused =>
      intro result hresult
      obtain rfl := Option.some.inj hresult
      exact (List.append_nil _).symm
  | shutDown => exact fun result hresult => (Option.some_ne_none result hresult.symm).elim
  | run interval =>
      simp only [roundLogged, Generator.upcoming, call, Program.call_bind, Program.run_perform,
        Effect.wp_bind, Op.action, wp_generatorSignal]
      split
      next => exact fun result hresult => (Option.some_ne_none result hresult.symm).elim
      next =>
        rw [Program.run_bind, Effect.wp_bind]
        refine Effect.wp_mono (GeneLoop.refresh_state _ _) (fun refreshed s' hrefreshed => ?_)
          fun _ _ _ => trivial
        rw [Program.run_bind, Effect.wp_bind]
        refine Effect.wp_mono Effect.wp_true (fun next s'' _ result hresult => ?_)
          fun _ _ _ => trivial
        obtain rfl := Option.some.inj hresult
        dsimp only at hrefreshed ⊢
        rw [hrefreshed, Option.elim_some, GeneratorLog.add, GeneratorLog.refresh]
        split <;> rfl

/-- A tip that has not moved keeps the log, and one that has begins a new one. -/
theorem GeneLoop.refresh_agrees {log : GeneratorLog} (before generator : Generator)
    (hbefore : before.prevTip = generator.prevTip) (h : log.Agrees C geneLoop generator.state) :
    (GeneLoop.refresh generator).All (fun _ => True) fun refreshed =>
      (log.refresh before refreshed).Agrees C geneLoop refreshed.state := by
  simp only [refresh, call, Program.call_bind, Program.all_perform]
  refine ⟨trivial, fun (tip : H256) => ?_⟩
  by_cases htip : generator.prevTip = tip
  · rw [if_pos htip]
    change (log.refresh before generator).Agrees C geneLoop generator.state
    rw [GeneratorLog.refresh, if_pos hbefore.symm]
    exact h
  · rw [if_neg htip]
    refine ⟨trivial, fun (state : State) => ?_⟩
    change (log.refresh before { generator with prevTip := tip, state }).Agrees C geneLoop state
    rw [GeneratorLog.refresh, if_neg fun heq => htip (hbefore.symm.trans heq.symm)]
    exact .begin rfl

/-- An iteration keeps the agreement, whatever the memory holds. -/
theorem GeneLoop.roundLogged_agrees
    (hsign : ∀ key t, verify C t key.publicKey (sign C t key) = true)
    (haddr : geneLoop.addr = .fromPublicKeyBytes C geneLoop.publicKey.publicKey)
    {generator : Generator} {log : GeneratorLog} (h : log.Agrees C geneLoop generator.state)
    (iteration : HashMap.Iteration (H256 × UInt8) (UInt32 × Address)) :
    (geneLoop.roundLogged C generator log iteration).All (fun _ => True) fun next =>
      ∀ result ∈ next, result.2.Agrees C geneLoop result.1.state := by
  obtain ⟨operatingState, prevTip, state⟩ := generator
  cases operatingState with
  | paused =>
      refine ⟨trivial, fun signal result hresult => ?_⟩
      obtain rfl := Option.some.inj hresult
      exact h
  | shutDown => exact fun result hresult => (Option.some_ne_none result hresult.symm).elim
  | run interval =>
      simp only [roundLogged, call, Program.call_bind, Program.all_perform]
      refine ⟨trivial, fun (signal : Option ControlSignal) => ?_⟩
      by_cases hshutDown : signal.elim (OperatingState.run interval)
          (OperatingState.run interval).react = .shutDown
      · rw [if_pos hshutDown]
        exact fun result hresult => (Option.some_ne_none result hresult.symm).elim
      · rw [if_neg hshutDown, Program.all_bind]
        have hrefresh := GeneLoop.refresh_agrees ⟨.run interval, prevTip, state⟩
          ⟨signal.elim (.run interval) (OperatingState.run interval).react, prevTip, state⟩ rfl h
        refine hrefresh.mono (fun _ => id) fun refreshed hrefreshed => ?_
        rw [Program.all_bind]
        refine (geneLoop.generate_result refreshed iteration).mono (fun _ _ => trivial) ?_
        intro next hnext result hresult
        obtain rfl := Option.some.inj hresult
        dsimp only
        rw [hnext]
        exact hrefreshed.add hsign haddr iteration

/-- What the loop knows between two iterations. -/
def Agreeing (C : Crypto) (geneLoop : GeneLoop) : Task × GeneratorLog → Prop
  | (.generator generator, log) => log.Agrees C geneLoop generator.state
  | _ => True

theorem nodeBody_offGenerator {task : Task} {choice : Choice} {program : NodeProgram Task}
    (htask : task.offGenerator = true)
    (hbody : nodeBody C build geneLoop task choice = some program) :
    program.All (fun _ => True) fun task => task.offGenerator = true := by
  have hany : ∀ {α : Type} (program : NodeProgram α),
      program.All (fun _ => True) fun _ => True := by
    intro α program
    induction program with
    | done value => trivial
    | perform op next ih => exact ⟨trivial, ih⟩
  unfold nodeBody at hbody
  split at hbody
  all_goals cases hbody
  next => exact (Program.all_bind _ _).mpr ((hany _).mono (fun _ => id) fun _ _ => rfl)
  next => rfl
  next =>
    refine (Program.all_bind _ _).mpr ((hany _).mono (fun _ => id) fun miner _ => ?_)
    cases miner <;> rfl
  next => exact (Program.all_bind _ _).mpr ((hany _).mono (fun _ => id) fun _ _ => rfl)
  next => cases htask
  next => cases htask
  next => exact (Program.all_bind _ _).mpr ((hany _).mono (fun _ => id) fun _ _ => rfl)

theorem loggedBody_agrees (hsign : ∀ key t, verify C t key.publicKey (sign C t key) = true)
    (haddr : geneLoop.addr = .fromPublicKeyBytes C geneLoop.publicKey.publicKey)
    {task : Task × GeneratorLog} {choice : Choice} {program : NodeProgram (Task × GeneratorLog)}
    (h : Agreeing C geneLoop task)
    (hbody : loggedBody C build geneLoop task choice = some program) :
    program.All (fun _ => True) (Agreeing C geneLoop) := by
  obtain ⟨task, log⟩ := task
  by_cases htask : task.offGenerator = true
  · rw [loggedBody_offGenerator htask] at hbody
    obtain ⟨plain, hplain, rfl⟩ := Option.map_eq_some_iff.mp hbody
    rw [Program.all_bind]
    refine (nodeBody_offGenerator htask hplain).mono (fun _ => id) fun task htask => ?_
    cases task with
    | generatorStart => trivial
    | generator generator => cases htask
    | _ => trivial
  cases task with
  | generatorStart =>
      cases choice with
      | go =>
          obtain rfl := Option.some.inj hbody
          exact ⟨trivial, fun _ => ⟨trivial, fun _ => .begin rfl⟩⟩
      | _ => cases hbody
  | generator generator =>
      cases choice with
      | generate iteration =>
          obtain rfl := Option.some.inj hbody
          rw [Program.all_bind]
          refine (GeneLoop.roundLogged_agrees hsign haddr h iteration).mono (fun _ => id) ?_
          intro next hnext
          cases next with
          | none => trivial
          | some result => exact hnext result rfl
      | _ => cases hbody
  | _ => exact absurd rfl htask

/-- At any time between two iterations `check_tx_state` accepts what the generator has
generated since it last read the ledger state of the tip, and ends in its local state.
`GeneLoop.new` gives every generator the address of its own key. -/
theorem generator_agrees (C : Crypto) (build : Build) (geneLoop : GeneLoop)
    (hsign : ∀ key t, verify C t key.publicKey (sign C t key) = true)
    (haddr : geneLoop.addr = .fromPublicKeyBytes C geneLoop.publicKey.publicKey)
    (shared : Shared) (workers requests : Nat) (node : LoggedNode workers requests)
    (hreach : (loggedMachine C build geneLoop).Reachable (fun _ _ _ => True)
      (LoggedNode.start shared workers requests) node)
    (generator : Generator) (log : GeneratorLog)
    (hgenerator : node.generator = some (generator, log)) :
    log.Agrees C geneLoop generator.state := by
  have hthread := LoggedNode.generator_eq_some.mp hgenerator
  refine Program.Reachable.tasks (fun who => ⟨_, rfl, ?_⟩)
    (fun task choice program => loggedBody_agrees hsign haddr) hreach hthread
  cases who <;> trivial

/-- The ledger state of the genesis block, in its only order. -/
noncomputable def initialIteration : HashMap.Iteration (H256 × UInt8) (UInt32 × Address) :=
  .ofOrder (State.new .sample Crypto.sampleKey).states
    [((.hex 0, 0), (100, .fromPublicKeyBytes .sample Crypto.sampleKey.publicKey))]
    (by decide +kernel)

noncomputable def startGenerator : List (ThreadId 1 1 × Choice) :=
  [(.api 0, .request (.txGeneratorStart 0)), (.api 0, .go), (.generator, .go), (.generator, .go),
    (.generator, .go), (.generator, .generate initialIteration), (.generator, .go)]

/-- The API starts the generator, which spends the initial coin. -/
noncomputable def generateFirst : List (ThreadId 1 1 × Choice) :=
  startGenerator ++ List.replicate 6 (.generator, .generate initialIteration)

/-- The initial coin, split into two coins of its owner. -/
def splitInitialCoin : SignedTransaction :=
  .signedBy .sample Crypto.sampleKey ⟨[⟨.hex 0, 0⟩],
    [⟨sampleGeneLoop.addr, 60⟩, ⟨sampleGeneLoop.addr, 40⟩]⟩

/-- The state in which both coins are there. -/
def splitState : State := (State.new .sample Crypto.sampleKey).execute .sample splitInitialCoin

def spendFirstShare : SignedTransaction :=
  sampleGeneLoop.newSignedTransaction .sample [⟨splitInitialCoin.hash .sample, 0⟩] 60

def spendSecondShare : SignedTransaction :=
  sampleGeneLoop.newSignedTransaction .sample [⟨splitInitialCoin.hash .sample, 1⟩] 40

noncomputable def bothShares : HashMap.Iteration (H256 × UInt8) (UInt32 × Address) :=
  .ofOrder splitState.states
    [((splitInitialCoin.hash .sample, 0), (60, sampleGeneLoop.addr)),
      ((splitInitialCoin.hash .sample, 1), (40, sampleGeneLoop.addr))] (by decide +kernel)

/-- What the first transaction leaves: its outputs, which belong to others, and the second coin. -/
noncomputable def secondShare : HashMap.Iteration (H256 × UInt8) (UInt32 × Address) :=
  .ofOrder (splitState.execute .sample spendFirstShare).states
    [((spendFirstShare.hash .sample, 0), (20, sampleGeneLoop.peerAddrs.1)),
      ((spendFirstShare.hash .sample, 1), (20, sampleGeneLoop.peerAddrs.2)),
      ((splitInitialCoin.hash .sample, 1), (40, sampleGeneLoop.addr)),
      ((spendFirstShare.hash .sample, 2), (20, sampleGeneLoop.peerAddrs.2))] (by decide +kernel)

/-- The generator starts on the block that splits the coin, and the tip stays there. -/
noncomputable def generateTwice : List (ThreadId 1 1 × Choice) :=
  (.network 0, .deliver 0 (.blocks [blockOf Blockchain.genesis splitInitialCoin])) ::
    List.replicate 7 (.network 0, .go) ++ startGenerator ++
    List.replicate 6 (.generator, .generate bothShares) ++
    List.replicate 6 (.generator, .generate secondShare)

theorem generator_agrees_splitInitialCoin :
    ∃ (node : LoggedNode 1 1) (generator : Generator) (log : GeneratorLog),
      node.generator = some (generator, log) ∧ log.base = splitState ∧
      log.recent = [spendFirstShare, spendSecondShare] ∧
      log.Agrees .sample sampleGeneLoop generator.state := by
  have hrun : ((loggedMachine .sample .release sampleGeneLoop).run (fun _ _ _ => true)
      (LoggedNode.start (Shared.initial .sample Crypto.sampleKey) 1 1) generateTwice).any
        (fun node : LoggedNode 1 1 => node.generator.any fun result => decide
          (result.2.base = splitState ∧ result.2.recent = [spendFirstShare, spendSecondShare])) =
        true := by
    decide +kernel
  obtain ⟨node, hreach, hcheck⟩ := Machine.exists_reachable (fun _ _ _ _ => trivial) hrun
  obtain ⟨⟨generator, log⟩, hgenerator, hlog⟩ := (Option.any_eq_true _ _).mp hcheck
  obtain ⟨hbase, hrecent⟩ := of_decide_eq_true hlog
  exact ⟨node, generator, log, hgenerator, hbase, hrecent,
    generator_agrees .sample .release sampleGeneLoop sample_signs rfl _ 1 1 node hreach
      generator log hgenerator⟩

end BitcoinClient
