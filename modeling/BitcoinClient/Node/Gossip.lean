import BitcoinClient.Node.Peers
import BitcoinClient.Node.ProofOfWork
import BitcoinClient.Node.ValueSums

/-! # Gossip of transactions

A node announces the transactions that enter its mempool. The other node collects the
announced hashes and drops them, so that it never asks for a transaction and each node
is left alone. An announced transaction is then in the mempool of the other node exactly
when a step of its own brings it there (`gossip_delivers_iff`).
-/

namespace BitcoinClient

/-- How transactions enter the mempool of a node that does not mine. -/
inductive GossipAction (workers requests : Nat) where
  /-- A message of a third node. -/
  | receive (who : Fin workers) (peer : PeerId) (transactions : List SignedTransaction)
  | requestGenerator (i : Fin requests) (theta : UInt64)
  | startGenerator
  | generate (iteration : HashMap.Iteration (H256 × UInt8) (UInt32 × Address))

variable {workers requests workers' requests' : Nat}

def GossipAction.round : GossipAction workers requests → ThreadId workers requests × Choice
  | receive who peer transactions => (.network who, .deliver peer (.transactions transactions))
  | requestGenerator i theta => (.api i, .request (.txGeneratorStart theta))
  | startGenerator => (.generator, .go)
  | generate iteration => (.generator, .generate iteration)

section Definitions

variable (C : Crypto) (build : Build) (geneLoop : GeneLoop)

/-- A node that does not mine and whose only peer is the other node. -/
abbrev gossipNode (workers requests : Nat) :
    Party (IdleNode workers requests) Message (Fin workers) (GossipAction workers requests) :=
  peerNode C build geneLoop GossipAction.round

/-- What the generator makes out of its local state. -/
def Generator.generated (generator : Generator)
    (iteration : HashMap.Iteration (H256 × UInt8) (UInt32 × Address)) : List SignedTransaction :=
  match generator.operatingState with
  | .run _ =>
    let (inputs, balance) := geneLoop.getTxBalance iteration generator.state
    if balance = 0 then [] else [geneLoop.newSignedTransaction C inputs balance]
  | .paused | .shutDown => []

/-- The transactions that a step of its own brings to a node. -/
def GossipAction.brings (node : IdleNode workers requests) :
    GossipAction workers requests → List SignedTransaction
  | receive _ _ transactions => transactions.filter fun st => st.Signed C
  | generate iteration =>
    match node.threads .generator with
    | .ok (.generator generator) => generator.generated C geneLoop iteration
    | _ => []
  | requestGenerator .. | startGenerator => []

/-- The transactions that a fresh node gets from third nodes and from its generator. -/
def broughtTo (icoKey : Ed25519KeyPair) (actions : List (GossipAction workers requests)) :
    List SignedTransaction :=
  (gossipNode C build geneLoop workers requests).collect (GossipAction.brings C geneLoop)
    (IdleNode.start C icoKey workers requests) actions

/-- The hashes of all `NewTransactionHashes` broadcasts. -/
def announcedTransactions (sent : List Sent) : List H256 :=
  sent.flatMap fun message =>
    match message with
    | .broadcast (.newTransactionHashes hashes) => hashes
    | _ => []

/-- Every announced transaction is in the mempool of the other node. -/
def Delivered (left : IdleNode workers requests) (right : IdleNode workers' requests') : Prop :=
  ∀ hash ∈ announcedTransactions left.shared.sent,
    right.shared.mempool.value.trans.containsKey hash = true

/-- Only transactions whose signatures verify are in the mempool. -/
def MempoolSigned (s : Shared) : Prop :=
  ∀ hash st, s.mempool.value.trans.get hash = some st → st.Signed C

/-- The mempool gains the transactions, and nothing but hashes of transactions is sent. -/
structure Gossiped (transactions : List SignedTransaction) (s s' : Shared) : Prop where
  blockchain : s'.blockchain = s.blockchain
  blockState : s'.blockState = s.blockState
  poisoned : s'.mempool.poisoned = s.mempool.poisoned
  control : .exit ∈ s'.generatorControl → .exit ∈ s.generatorControl
  keys : ∀ hash, s'.mempool.value.trans.containsKey hash = true ↔
    s.mempool.value.trans.containsKey hash = true ∨
      hash ∈ transactions.map (SignedTransaction.hash C)
  contents : ∀ hash st, s'.mempool.value.trans.get hash = some st →
    s.mempool.value.trans.get hash = some st ∨ st ∈ transactions
  sent : ∃ new, s'.sent = s.sent ++ new ∧
    ∀ message ∈ new, ∃ hashes, message = .broadcast (.newTransactionHashes hashes)

/-- The generator has not begun, or it works on the state of the tip. -/
inductive Generates (tip : H256) : Except Panic Task → Prop
  | start : Generates tip (.ok .generatorStart)
  | loop {generator : Generator} : generator.prevTip = tip →
      generator.operatingState ≠ .shutDown → Generates tip (.ok (.generator generator))

/-- What a node that only gossips keeps. -/
structure Gossiping (node : IdleNode workers requests) : Prop where
  blockchain : node.shared.blockchain.poisoned = false
  blockState : node.shared.blockState.poisoned = false
  mempool : node.shared.mempool.poisoned = false
  control : .exit ∉ node.shared.generatorControl
  tip : ∃ state, node.shared.blockState.value.get node.shared.blockchain.value.tip = some state
  generator : Generates node.shared.blockchain.value.tip (node.threads .generator)
  signed : MempoolSigned C node.shared

end Definitions

variable {C : Crypto} {build : Build} {geneLoop : GeneLoop} {s s' s'' : Shared}
  {transactions transactions' : List SignedTransaction}

/-! ## Changes of the mempool -/

namespace Gossiped

theorem refl (s : Shared) : Gossiped C [] s s where
  blockchain := rfl
  blockState := rfl
  poisoned := rfl
  control := id
  keys hash := by rw [List.map_nil, iff_false_intro List.not_mem_nil, or_false]
  contents _ _ := Or.inl
  sent := ⟨[], (List.append_nil _).symm, List.forall_mem_nil _⟩

theorem trans (h : Gossiped C transactions s s') (h' : Gossiped C transactions' s' s'') :
    Gossiped C (transactions ++ transactions') s s'' where
  blockchain := h'.blockchain.trans h.blockchain
  blockState := h'.blockState.trans h.blockState
  poisoned := h'.poisoned.trans h.poisoned
  control hexit := h.control (h'.control hexit)
  keys hash := by rw [h'.keys, h.keys, List.map_append, List.mem_append, or_assoc]
  contents hash st hget := by
    rw [List.mem_append, ← or_assoc]
    exact (h'.contents hash st hget).imp_left (h.contents hash st)
  sent := by
    obtain ⟨new, hnew, hall⟩ := h.sent
    obtain ⟨new', hnew', hall'⟩ := h'.sent
    refine ⟨new ++ new', ?_, List.forall_mem_append.mpr ⟨hall, hall'⟩⟩
    rw [hnew', hnew, List.append_assoc]

/-- A transaction whose hash is a key already changes nothing. -/
theorem known {st : SignedTransaction}
    (hknown : s.mempool.value.trans.containsKey (st.hash C) = true) : Gossiped C [st] s s where
  blockchain := rfl
  blockState := rfl
  poisoned := rfl
  control := id
  keys hash := by
    refine (or_iff_left_of_imp fun hmem => ?_).symm
    rw [List.mem_singleton.mp hmem]
    exact hknown
  contents _ _ := Or.inl
  sent := ⟨[], (List.append_nil _).symm, List.forall_mem_nil _⟩

theorem insert (h : s.mempool.poisoned = false) (st : SignedTransaction) :
    Gossiped C [st] s { s with mempool :=
      ⟨⟨s.mempool.value.trans.insert (st.hash C) st⟩, false⟩ } where
  blockchain := rfl
  blockState := rfl
  poisoned := h.symm
  control := id
  keys hash := by
    rw [HashMap.containsKey_insert, List.map_singleton, List.mem_singleton, or_comm]
  contents hash other hget := by
    rcases HashMap.of_get_insert hget with ⟨_, rfl⟩ | hget
    · exact .inr List.mem_cons_self
    · exact .inl hget
  sent := ⟨[], (List.append_nil _).symm, List.forall_mem_nil _⟩

theorem announce (s : Shared) (hashes : List H256) :
    Gossiped C [] s { s with sent := s.sent ++ [.broadcast (.newTransactionHashes hashes)] } where
  blockchain := rfl
  blockState := rfl
  poisoned := rfl
  control := id
  keys := (refl s).keys
  contents _ _ := Or.inl
  sent := ⟨[_], rfl, fun _ hmem => ⟨hashes, List.mem_singleton.mp hmem⟩⟩

/-- Only the queue of the control signals changes. -/
theorem signal {control : List ControlSignal} (h : .exit ∈ control → .exit ∈ s.generatorControl) :
    Gossiped C [] s { s with generatorControl := control } where
  blockchain := rfl
  blockState := rfl
  poisoned := rfl
  control := h
  keys := (refl s).keys
  contents _ _ := Or.inl
  sent := ⟨[], (List.append_nil _).symm, List.forall_mem_nil _⟩

/-- The other node gets announcements only. -/
theorem toPartner (h : Gossiped C transactions s s') :
    ∀ message ∈ (s'.sent.drop s.sent.length).filterMap Sent.toPartner,
      ∃ hashes, message = .newTransactionHashes hashes := by
  obtain ⟨new, hnew, hall⟩ := h.sent
  rw [hnew, List.drop_left]
  intro message hmem
  obtain ⟨sent, hsent, hpartner⟩ := List.mem_filterMap.mp hmem
  obtain ⟨hashes, rfl⟩ := hall sent hsent
  exact ⟨hashes, (Option.some.inj hpartner).symm⟩

theorem gossiping {node next : IdleNode workers requests} (h : Gossiping C node)
    (hgossiped : Gossiped C transactions node.shared next.shared)
    (hsigned : ∀ st ∈ transactions, st.Signed C)
    (hgenerator : Generates next.shared.blockchain.value.tip (next.threads .generator)) :
    Gossiping C next where
  blockchain := hgossiped.blockchain ▸ h.blockchain
  blockState := hgossiped.blockState ▸ h.blockState
  mempool := hgossiped.poisoned ▸ h.mempool
  control hexit := h.control (hgossiped.control hexit)
  tip := by
    rw [hgossiped.blockchain, hgossiped.blockState]
    exact h.tip
  generator := hgenerator
  signed hash st hget :=
    (hgossiped.contents hash st hget).elim (h.signed hash st) (hsigned st)

end Gossiped

/-! ## The programs -/

theorem storeTransaction_gossips (h : s.mempool.poisoned = false) (newTrans : List H256)
    (transaction : SignedTransaction) :
    ((storeTransaction C newTrans transaction).run C build).wp
      (fun _ s' => Gossiped C ([transaction].filter fun st => st.Signed C) s s')
      (fun _ _ => False) s := by
  unfold storeTransaction
  by_cases hsigned : transaction.Signed C
  · have hverify : verify C _ _ _ = true := hsigned
    rw [if_pos hverify, List.filter_singleton, decide_eq_true hsigned]
    simp only [NodeProgram.call, Program.call_bind, Program.run_perform, Op.action, Effect.wp_bind,
      wp_mempoolContains, h, cond_true]
    refine ⟨Bool.noConfusion, fun _ => ?_⟩
    cases hknown : s.mempool.value.trans.containsKey (transaction.hash C) with
    | true => exact .known hknown
    | false =>
        simp only [Bool.false_eq_true, if_false, Program.run_perform, Op.action, Effect.wp_bind,
          wp_mempoolInsert, h]
        exact ⟨False.elim, fun _ => Gossiped.insert h transaction⟩
  · have hverify : ¬ verify C _ _ _ = true := hsigned
    rw [if_neg hverify, List.filter_singleton, decide_eq_false hsigned]
    exact .refl s

theorem storeTransactions_foldlM (h : s.mempool.poisoned = false) (newTrans : List H256)
    (transactions : List SignedTransaction) :
    (NodeProgram.run C build (transactions.foldlM (storeTransaction C) newTrans)).wp
      (fun _ s' => Gossiped C (transactions.filter fun st => st.Signed C) s s')
      (fun _ _ => False) s := by
  induction transactions generalizing s newTrans with
  | nil => exact .refl s
  | cons transaction rest ih =>
      rw [List.foldlM_cons, NodeProgram.run, Program.run_bind, Effect.wp_bind]
      refine Effect.wp_mono (storeTransaction_gossips h newTrans transaction) ?_ fun _ _ h => h
      intro newTrans s' hfirst
      refine Effect.wp_mono (ih (hfirst.poisoned.trans h) newTrans) ?_ fun _ _ h => h
      intro _ s'' hrest
      rw [← List.singleton_append, List.filter_append]
      exact hfirst.trans hrest

/-- The arm for `Transactions`. -/
theorem storeTransactions_gossips (h : s.mempool.poisoned = false)
    (transactions : List SignedTransaction) :
    ((storeTransactions C transactions).run C build).wp
      (fun _ s' => Gossiped C (transactions.filter fun st => st.Signed C) s s')
      (fun _ _ => False) s := by
  rw [storeTransactions, NodeProgram.run, Program.run_bind, Effect.wp_bind]
  refine Effect.wp_mono (storeTransactions_foldlM h [] transactions) ?_ fun _ _ h => h
  intro newTrans s' hstored
  by_cases hnew : newTrans.length > 0
  · rw [if_pos hnew]
    have hannounced := hstored.trans (.announce s' newTrans)
    rw [List.append_nil] at hannounced
    exact hannounced
  · rw [if_neg hnew]
    exact hstored

theorem generate_gossips (h : s.mempool.poisoned = false) (generator : Generator)
    (interval : UInt64) (iteration : HashMap.Iteration (H256 × UInt8) (UInt32 × Address)) :
    ((geneLoop.generate C generator iteration).run C build).wp
      (fun generator' s' => generator'.prevTip = generator.prevTip ∧
        generator'.operatingState = generator.operatingState ∧
        Gossiped C (Generator.generated C geneLoop
          { generator with operatingState := .run interval } iteration) s s')
      (fun _ _ => False) s := by
  unfold GeneLoop.generate Generator.generated
  dsimp only
  by_cases hbalance : (geneLoop.getTxBalance iteration generator.state).2 = 0
  · rw [if_pos hbalance, if_pos hbalance]
    exact ⟨rfl, rfl, .refl s⟩
  · rw [if_neg hbalance, if_neg hbalance]
    simp only [NodeProgram.call, Program.call_bind, Program.run_perform, Op.action, Effect.wp_bind,
      wp_mempoolContains, h]
    refine ⟨Bool.noConfusion, fun _ => ?_⟩
    cases hknown : s.mempool.value.trans.containsKey
        ((geneLoop.newSignedTransaction C (geneLoop.getTxBalance iteration generator.state).1
          (geneLoop.getTxBalance iteration generator.state).2).hash C) with
    | true => exact ⟨rfl, rfl, (Gossiped.known hknown).trans (.announce s _)⟩
    | false =>
        simp only [Bool.false_eq_true, if_false, Program.run_perform, Op.action, Effect.wp_bind,
          wp_mempoolInsert, wp_send, h]
        exact ⟨False.elim, fun _ => ⟨rfl, rfl, (Gossiped.insert h _).trans (.announce _ _)⟩⟩

theorem react_ne_shutDown {operatingState : OperatingState} {signals : List ControlSignal}
    (hstate : operatingState ≠ .shutDown) (hsignals : .exit ∉ signals) :
    signals.head?.elim operatingState operatingState.react ≠ .shutDown := by
  cases signals with
  | nil => exact hstate
  | cons signal rest =>
      cases signal with
      | start interval => exact OperatingState.noConfusion
      | update => exact hstate
      | exit => exact absurd List.mem_cons_self hsignals

/-- An iteration of the generator while the tip is the one it knows. -/
theorem generatorRound_gossips (hchain : s.blockchain.poisoned = false)
    (hmempool : s.mempool.poisoned = false) (hcontrol : .exit ∉ s.generatorControl)
    {generator : Generator} (htip : generator.prevTip = s.blockchain.value.tip)
    (hstate : generator.operatingState ≠ .shutDown)
    (iteration : HashMap.Iteration (H256 × UInt8) (UInt32 × Address)) :
    ((geneLoop.round C generator iteration).run C build).wp
      (fun result s' => ∃ generator', result = some generator' ∧
        generator'.prevTip = generator.prevTip ∧ generator'.operatingState ≠ .shutDown ∧
        Gossiped C (generator.generated C geneLoop iteration) s s') (fun _ _ => False) s := by
  have hreact := react_ne_shutDown hstate hcontrol
  have hsignal : Gossiped C [] s { s with generatorControl := s.generatorControl.tail } :=
    .signal List.mem_of_mem_tail
  obtain ⟨operatingState, prevTip, state⟩ := generator
  cases operatingState with
  | shutDown => exact absurd rfl hstate
  | paused => exact ⟨_, rfl, rfl, hreact, hsignal⟩
  | run interval =>
      simp only [GeneLoop.round, NodeProgram.call, Program.call_bind, Program.run_perform,
        Op.action, Effect.wp_bind, wp_generatorSignal, if_neg hreact, Program.run_bind,
        GeneLoop.refresh,
        wp_readTip, hchain]
      refine ⟨Bool.noConfusion, fun _ => ?_⟩
      rw [if_pos htip]
      simp only [Program.pure_eq_done, Program.run_done, Effect.wp_pure, Effect.wp_bind]
      have hmempool' := hsignal.poisoned.trans hmempool
      refine Effect.wp_mono (generate_gossips hmempool' _ interval iteration) ?_ fun _ _ h => h
      rintro generator' s' ⟨hprev, hoperating, hgossiped⟩
      exact ⟨generator', rfl, hprev, hoperating ▸ hreact, hsignal.trans hgossiped⟩

/-- What the generator does before its loop. -/
theorem generatorStart_gossips (hchain : s.blockchain.poisoned = false)
    (hstates : s.blockState.poisoned = false)
    (htip : ∃ state, s.blockState.value.get s.blockchain.value.tip = some state) :
    (GeneLoop.start.run C build).wp
      (fun generator s' => generator.prevTip = s.blockchain.value.tip ∧
        generator.operatingState ≠ .shutDown ∧ Gossiped C [] s s') (fun _ _ => False) s := by
  obtain ⟨state, hstate⟩ := htip
  simp only [GeneLoop.start, NodeProgram.call, Program.call_bind, Program.run_perform, Op.action,
    Effect.wp_bind, wp_readTip, wp_readBlockState, hchain, hstates, hstate]
  exact ⟨Bool.noConfusion, fun _ =>
    ⟨Bool.noConfusion, fun _ => ⟨rfl, OperatingState.noConfusion, .refl s⟩⟩⟩

/-! ## The rounds -/

/-- A round of the node's own leaves the generator at work on the state of the tip. -/
theorem gossipRound_gossips {node : IdleNode workers requests} (h : Gossiping C node)
    (action : GossipAction workers requests) {task : Task} {program : NodeProgram Task}
    (hthread : node.threads action.round.1 = .ok task)
    (hbody : nodeBody C build geneLoop task action.round.2 = some program) :
    (program.run C build).wp
      (fun task' s' => Gossiped C (action.brings C geneLoop node) node.shared s' ∧
        (action.round.1 = .generator → Generates s'.blockchain.value.tip (.ok task')))
      (fun _ _ => False) node.shared := by
  cases action with
  | receive who peer transactions =>
      cases task with
      | network orphanBlocks =>
          obtain rfl := Option.some.inj hbody
          rw [NodeProgram.run, Program.run_bind, Effect.wp_bind]
          simp only [handleMessage, Program.run_bind, Effect.wp_bind]
          refine Effect.wp_mono (storeTransactions_gossips h.mempool transactions) ?_ fun _ _ h => h
          intro _ s' hgossiped
          refine ⟨hgossiped, fun hwho => ?_⟩
          cases hwho
      | _ => cases hbody
  | requestGenerator i theta =>
      cases task with
      | api =>
          obtain rfl := Option.some.inj hbody
          refine ⟨.signal fun hexit => ?_, fun hwho => ?_⟩
          · refine (List.mem_append.mp hexit).elim id fun hstart => ?_
            exact ControlSignal.noConfusion (List.mem_singleton.mp hstart)
          · cases hwho
      | _ => cases hbody
  | startGenerator =>
      have hgenerator : Generates _ (.ok task) := hthread ▸ h.generator
      cases hgenerator with
      | start =>
          obtain rfl := Option.some.inj hbody
          rw [NodeProgram.run, Program.run_bind, Effect.wp_bind]
          refine Effect.wp_mono (generatorStart_gossips h.blockchain h.blockState h.tip) ?_
            fun _ _ h => h
          rintro generator s' ⟨hprev, hoperating, hgossiped⟩
          refine ⟨hgossiped, fun _ => .loop ?_ hoperating⟩
          rw [hprev, hgossiped.blockchain]
      | loop hprev hoperating => cases hbody
  | generate iteration =>
      have hgenerator : Generates _ (.ok task) := hthread ▸ h.generator
      cases hgenerator with
      | start => cases hbody
      | loop hprev hoperating =>
          obtain rfl := Option.some.inj hbody
          rw [NodeProgram.run, Program.run_bind, Effect.wp_bind]
          refine Effect.wp_mono (generatorRound_gossips h.blockchain h.mempool h.control hprev
            hoperating iteration) ?_ fun _ _ h => h
          rintro _ s' ⟨generator', rfl, hprev', hoperating', hgossiped⟩
          refine ⟨?_, fun _ => .loop ?_ hoperating'⟩
          · have hgenerating : node.threads .generator = .ok (.generator _) := hthread
            rw [GossipAction.brings, hgenerating]
            exact hgossiped
          · rw [hprev', hprev, hgossiped.blockchain]

theorem Generator.generated_signed
    (hsign : ∀ key t, verify C t key.publicKey (sign C t key) = true) (generator : Generator)
    (iteration : HashMap.Iteration (H256 × UInt8) (UInt32 × Address)) :
    ∀ st ∈ generator.generated C geneLoop iteration, st.Signed C := by
  obtain ⟨operatingState, prevTip, state⟩ := generator
  cases operatingState with
  | paused => exact List.forall_mem_nil _
  | shutDown => exact List.forall_mem_nil _
  | run interval =>
      dsimp only [generated]
      by_cases hbalance : (geneLoop.getTxBalance iteration state).2 = 0
      · rw [if_pos hbalance]
        exact List.forall_mem_nil _
      · rw [if_neg hbalance]
        exact fun st hmem => List.mem_singleton.mp hmem ▸ hsign _ _

/-- What a node brings in by itself is signed. -/
theorem GossipAction.brings_signed (hsign : ∀ key t, verify C t key.publicKey (sign C t key) = true)
    {node : IdleNode workers requests} (h : Gossiping C node)
    (action : GossipAction workers requests) :
    ∀ st ∈ action.brings C geneLoop node, st.Signed C := by
  cases action with
  | receive who peer transactions =>
      exact fun st hmem => of_decide_eq_true (List.mem_filter.mp hmem).2
  | requestGenerator i theta => exact List.forall_mem_nil _
  | startGenerator => exact List.forall_mem_nil _
  | generate iteration =>
      have hgenerator := h.generator
      unfold brings
      generalize node.threads .generator = thread at hgenerator ⊢
      cases hgenerator with
      | start => exact List.forall_mem_nil _
      | loop _ _ => exact Generator.generated_signed hsign _ iteration

/-- A step of its own keeps a node gossiping and brings in what it is said to. -/
theorem gossipNode_act (hsign : ∀ key t, verify C t key.publicKey (sign C t key) = true)
    {node next : IdleNode workers requests} {action : GossipAction workers requests}
    {sent : List Message} (h : Gossiping C node)
    (hact : (gossipNode C build geneLoop workers requests).act node action = some (next, sent)) :
    Gossiping C next ∧ Gossiped C (action.brings C geneLoop node) node.shared next.shared ∧
      ∀ message ∈ sent, ∃ hashes, message = .newTransactionHashes hashes := by
  obtain ⟨_, hround, heq⟩ := Option.map_eq_some_iff.mp hact
  obtain ⟨rfl, rfl⟩ := Prod.mk.inj heq
  obtain ⟨task, program, hthread, hbody, hwp⟩ := Program.round_wp hround
  obtain ⟨thread, hthreads, hpost⟩ := hwp (gossipRound_gossips h action hthread hbody)
  cases thread with
  | error error => exact hpost.elim
  | ok task' =>
      obtain ⟨hgossiped, hgenerates⟩ := hpost
      refine ⟨hgossiped.gossiping h (action.brings_signed hsign h) ?_, hgossiped,
        hgossiped.toPartner⟩
      rw [hthreads]
      by_cases hwho : action.round.1 = .generator
      · rw [← hwho, Function.update_self]
        exact hgenerates hwho
      · rw [Function.update_of_ne (Ne.symm hwho), hgossiped.blockchain]
        exact h.generator

/-- An announcement changes nothing and is not answered. -/
theorem gossipNode_handle {node next : IdleNode workers requests} {who : Fin workers}
    {hashes : List H256} {sent : List Message}
    (hhandle : (gossipNode C build geneLoop workers requests).handle node who
      (.newTransactionHashes hashes) = some (next, sent)) : next = node ∧ sent = [] := by
  obtain ⟨orphanBlocks, hthread⟩ := peerNode_handle_thread hhandle
  have hround : (nodeRounds C build geneLoop).next node (.network who)
      (.deliver partner (.newTransactionHashes hashes)) =
      some ⟨node.shared,
        Function.update node.threads (.network who) (.ok (.network orphanBlocks))⟩ :=
    Program.round_of_run hthread rfl rfl
  rw [← hthread, Function.update_eq_self] at hround
  simp only [peerNode, IdleNode.round, hround, Option.map_some, List.drop_length,
    List.filterMap_nil] at hhandle
  obtain ⟨rfl, rfl⟩ := Prod.mk.inj (Option.some.inj hhandle)
  exact ⟨rfl, rfl⟩

/-- Both nodes ignore what the other one announces. -/
theorem gossipNode_ignores (hsign : ∀ key t, verify C t key.publicKey (sign C t key) = true) :
    (gossipNode C build geneLoop workers requests).Ignores (Gossiping C)
      (fun message => ∃ hashes, message = .newTransactionHashes hashes) where
  handle := by
    rintro node who _ next sent _ ⟨hashes, rfl⟩ hhandle
    exact gossipNode_handle hhandle
  act node action next sent h hact := by
    obtain ⟨hnext, _, hsent⟩ := gossipNode_act hsign h hact
    exact ⟨hnext, hsent⟩

theorem gossiping_start (icoKey : Ed25519KeyPair) :
    Gossiping C (IdleNode.start C icoKey workers requests) where
  blockchain := rfl
  blockState := rfl
  mempool := rfl
  control := List.not_mem_nil
  tip := ⟨_, HashMap.get_insert_self _ _ _⟩
  generator := .start
  signed hash st hget := absurd ((HashMap.get_empty hash).symm.trans hget).symm
    (Option.some_ne_none st)

/-- The mempool of a fresh node that is left alone. -/
theorem alone_gossips (hsign : ∀ key t, verify C t key.publicKey (sign C t key) = true)
    {icoKey : Ed25519KeyPair} {actions : List (GossipAction workers requests)}
    {node : IdleNode workers requests}
    (halone : (gossipNode C build geneLoop workers requests).alone
      (IdleNode.start C icoKey workers requests) actions = some node) :
    Gossiping C node ∧ Gossiped C (broughtTo C build geneLoop icoKey actions)
      (Shared.initial C icoKey) node.shared := by
  refine Party.alone_collect
    (fun transactions node next => Gossiped C transactions node.shared next.shared)
    (fun _ => .refl _) .trans (fun h hact => ?_) (gossiping_start icoKey) halone
  obtain ⟨hnext, hgossiped, _⟩ := gossipNode_act hsign h hact
  exact ⟨hnext, hgossiped⟩

/-- Two fresh nodes gossip. When no message is in flight, the transactions that the first one
announced are in the mempool of the second one if and only if all of them are among those that
its own steps bring it. Only transactions with valid signatures enter a mempool. -/
theorem gossip_delivers_iff (C : Crypto) (build : Build) (geneLoop geneLoop' : GeneLoop)
    (icoKey : Ed25519KeyPair) (workers requests workers' requests' : Nat)
    (hsign : ∀ key t, verify C t key.publicKey (sign C t key) = true)
    (steps : List (Exchange.Step (Fin workers) (GossipAction workers requests)
      (Fin workers') (GossipAction workers' requests')))
    (final : Exchange (IdleNode workers requests) (IdleNode workers' requests') Message)
    (hrun : Exchange.run (gossipNode C build geneLoop workers requests)
      (gossipNode C build geneLoop' workers' requests')
      { left := IdleNode.start C icoKey workers requests
        right := IdleNode.start C icoKey workers' requests' } steps = some final) :
    (final.Quiet → (Delivered final.left final.right ↔
      ∀ hash ∈ announcedTransactions final.left.shared.sent,
        hash ∈ (broughtTo C build geneLoop' icoKey
          (steps.filterMap Exchange.Step.rightAction)).map (SignedTransaction.hash C))) ∧
      MempoolSigned C final.left.shared ∧ MempoolSigned C final.right.shared := by
  obtain ⟨hleft, hright⟩ := Exchange.run_alone (gossipNode_ignores hsign)
    (gossipNode_ignores hsign) hrun (gossiping_start icoKey) (gossiping_start icoKey)
    (List.forall_mem_nil _)
  obtain ⟨hgossipingLeft, _⟩ := alone_gossips hsign hleft
  obtain ⟨hgossipingRight, hgossiped⟩ := alone_gossips hsign hright
  refine ⟨fun _ => forall₂_congr fun hash _ => ?_, hgossipingLeft.signed, hgossipingRight.signed⟩
  rw [hgossiped.keys]
  exact or_iff_right (Bool.eq_false_iff.mp (HashMap.containsKey_empty hash))

/-- A fresh node whose generator can be started. -/
abbrev sampleGossipNode := gossipNode .sample .release sampleGeneLoop 1 1

def sampleGossip
    (steps : List (Exchange.Step (Fin 1) (GossipAction 1 1) (Fin 1) (GossipAction 1 1))) :
    Option (Exchange (IdleNode 1 1) (IdleNode 1 1) Message) :=
  Exchange.run sampleGossipNode sampleGossipNode
    { left := IdleNode.start .sample Crypto.sampleKey 1 1
      right := IdleNode.start .sample Crypto.sampleKey 1 1 } steps

theorem sample_signs (key : Ed25519KeyPair) (t : Transaction) :
    verify .sample t key.publicKey (sign .sample t key) = true :=
  beq_self_eq_true _

/-- A third node sends the same transaction to both nodes, and they announce it to each other. -/
theorem gossip_delivers_iff_moveInitialCoin :
    ∃ final, sampleGossip [.actLeft (.receive 0 7 [moveInitialCoin]),
        .actRight (.receive 0 7 [moveInitialCoin]), .handleRight 0, .handleLeft 0] = some final ∧
      announcedTransactions final.left.shared.sent = [moveInitialCoin.hash .sample] ∧
      Delivered final.left final.right ∧ MempoolSigned .sample final.right.shared := by
  have hrun : (sampleGossip [.actLeft (.receive 0 7 [moveInitialCoin]),
      .actRight (.receive 0 7 [moveInitialCoin]), .handleRight 0, .handleLeft 0]).any
        (fun final => decide (final.toLeft = [] ∧ final.toRight = [] ∧
          announcedTransactions final.left.shared.sent =
            [moveInitialCoin.hash .sample])) = true := by
    decide +kernel
  obtain ⟨final, hfinal, hcheck⟩ := (Option.any_eq_true _ _).mp hrun
  obtain ⟨htoLeft, htoRight, hannounced⟩ := of_decide_eq_true hcheck
  have hdelivers := gossip_delivers_iff .sample .release sampleGeneLoop sampleGeneLoop
    Crypto.sampleKey 1 1 1 1 sample_signs _ final hfinal
  refine ⟨final, hfinal, hannounced, ?_, hdelivers.2.2⟩
  rw [hdelivers.1 ⟨htoLeft, htoRight⟩, hannounced]
  decide +kernel

/-- The first node announces a transaction, the second one handles the announcement, and no
message is left. -/
theorem not_gossip_delivers :
    ¬ ∀ steps final, sampleGossip steps = some final → final.Quiet →
      Delivered final.left final.right := by
  intro hall
  have hrun : (sampleGossip [.actLeft (.receive 0 7 [moveInitialCoin]), .handleRight 0]).any
      (fun final => decide (final.toLeft = [] ∧ final.toRight = [] ∧
        moveInitialCoin.hash .sample ∈ announcedTransactions final.left.shared.sent ∧
        final.right.shared.mempool.value.trans.containsKey (moveInitialCoin.hash .sample) =
          false)) = true := by decide +kernel
  obtain ⟨final, hfinal, hcheck⟩ := (Option.any_eq_true _ _).mp hrun
  obtain ⟨htoLeft, htoRight, hannounced, hmissing⟩ := of_decide_eq_true hcheck
  have hdelivered := hall _ final hfinal ⟨htoLeft, htoRight⟩ _ hannounced
  exact Bool.noConfusion (hmissing.symm.trans hdelivered)

end BitcoinClient
