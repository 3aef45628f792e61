import BitcoinClient.Node.NetworkAgreement

/-! # The contents of the blocks in a network

A node that is given any blocks stores some whose transactions their headers do not commit
to, and with several workers some whose ledger state is not that of their transactions. In a
network all blocks come from miners, and each node has one worker: every block has the Merkle
root of its transactions, and its ledger state is what they make of that of its parent.
-/

namespace BitcoinClient

/-! ## Rounds that take turns -/

section Rounds

variable {σ τ ι κ ε Task Op : Type} {Result : Op → Type} [DecidableEq ι]

/-- Steps of one thread with one choice are a run when the choice is allowed. -/
theorem Machine.reachable_of_replicate {machine : Machine σ ε τ κ} {allowed : ι → κ → Prop}
    {start config final : Config σ τ ι} {who : ι} {choice : κ} {count : Nat}
    (hallowed : allowed who choice)
    (hreach : machine.Reachable (fun _ who choice => allowed who choice) start config)
    (hrun : machine.run (fun _ _ _ => true) config (List.replicate count (who, choice)) =
      some final) :
    machine.Reachable (fun _ who choice => allowed who choice) start final := by
  induction count generalizing config with
  | zero =>
      obtain rfl := Option.some.inj hrun
      exact hreach
  | succ count ih =>
      rw [List.replicate_succ, Machine.run, if_pos rfl] at hrun
      obtain ⟨config', hnext, hrest⟩ := Option.bind_eq_some_iff.mp hrun
      exact ih (hreach.step hallowed hnext) hrest

/-- Whole rounds under allowed choices are single operations under allowed choices. -/
theorem Program.reachable_of_rounds {semantics : (op : Op) → Effect ε σ (Result op)}
    {body : Task → κ → Option (Program Op Result Task)} {allowed : ι → κ → Prop}
    {start config : Config σ (Except ε Task) ι}
    (hreach : (roundMachine semantics body).Reachable (fun _ who choice => allowed who choice)
      start config) :
    (loopMachine semantics body).Reachable (fun _ who choice => allowed who choice)
      (betweenRounds start) (betweenRounds config) := by
  induction hreach with
  | start => exact .start
  | step _ hmeets hround ih =>
      obtain ⟨count, hsteps⟩ := run_of_round hround
      exact Machine.reachable_of_replicate hmeets ih hsteps

end Rounds

variable {n requests : Nat} {C : Crypto} {build : Build} {geneLoop : Fin n → GeneLoop}
  {links : Links n} {icoKey : Ed25519KeyPair} {mining : Mining C n}
  {network following : NodeNetwork n requests} {who : Fin n} {block : Block}

/-- Only a network worker receives anything. -/
theorem nodeBody_own {geneLoop : GeneLoop} {task : Task} {choice : Choice}
    {program : NodeProgram Task} (hbody : nodeBody C build geneLoop task choice = some program)
    (htask : ∀ orphanBlocks, task ≠ .network orphanBlocks) (peer : PeerId) (message : Message) :
    choice ≠ .deliver peer message := by
  rintro rfl
  cases task with
  | network orphanBlocks => exact htask orphanBlocks rfl
  | _ => cases hbody

/-- The threads that act by themselves receive nothing in their rounds. -/
theorem round_of_act {guard : NodeNetwork n requests → NodeEvent n requests → Prop}
    (hreach : NodeNetwork.ReachableBy C build geneLoop links guard icoKey network)
    {action : ThreadId 1 requests × Choice}
    (hnext : network.next (nodeProtocol C build geneLoop links) (.act who action) =
      some following) :
    ∃ node, (nodeRounds C build (geneLoop who)).next (network.state who) action.1 action.2 =
        some node ∧
      (∀ peer message, action.2 ≠ .deliver peer message) ∧
      following = network.put who node
        (links.route who (node.shared.sent.drop (network.state who).shared.sent.length)) := by
  obtain ⟨node, sent, hact, rfl⟩ := Network.next_act.mp hnext
  obtain ⟨hthread, hturn⟩ := act_eq_some.mp hact
  obtain ⟨hround, rfl⟩ := nodeTurn_eq_some.mp hturn
  obtain ⟨task, program, htask, hbody, -⟩ := Program.round_wp hround
  have hkinds := node_kinds (node_reachable hreach who) (hthread 0)
  have hown := nodeBody_own hbody fun orphanBlocks heq => hkinds orphanBlocks (heq ▸ htask)
  exact ⟨node, hround, hown, rfl⟩

/-- A node that has received no other blocks than those with the Merkle root of their
transactions. -/
def ReceivesCommitted (C : Crypto) (geneLoop : GeneLoop) (icoKey : Ed25519KeyPair)
    (node : IdleNode 1 requests) : Prop :=
  (nodeRounds C .release geneLoop).Reachable
    (fun _ _ choice => ∀ block ∈ choice.blocks, Commits C block)
    (IdleNode.start C icoKey 1 requests) node

/-- It stores no others, either. -/
theorem ReceivesCommitted.commits {geneLoop : GeneLoop} {node : IdleNode 1 requests}
    (h : ReceivesCommitted C geneLoop icoKey node) {hash : H256} {height : UInt32}
    (hget : node.shared.blockchain.value.blocks.get hash = some (block, height))
    (hgenesis : block ≠ Blockchain.genesis) : Commits C block := by
  have hreach : (nodeMachine C .release geneLoop).Reachable
      (fun _ _ choice => ∀ block ∈ choice.blocks, Commits C block)
      (Node.start C icoKey 1 requests) (Program.betweenRounds node) :=
    Program.reachable_of_rounds h
  have hinv := (node_chainInvariant (Commits C) (fun _ => True) (fun _ hcommits _ => hcommits)
    (fun _ _ _ hguard => ⟨hguard, fun _ _ => trivial⟩) hreach).1
  exact ((hinv.stored hash block height hget).2.resolve_left hgenesis).admissible

/-- No block of the network is another one when all nodes are such nodes. -/
theorem NetworkInvariant.commits (h : NetworkInvariant links icoKey mining network)
    (hreceives : ∀ who, ReceivesCommitted C (geneLoop who) icoKey (network.state who))
    (hfound : network.Contains block) (hgenesis : block ≠ Blockchain.genesis) :
    Commits C block := by
  obtain ⟨who, height, _, hget⟩ := h.exists_miner hfound hgenesis
  exact (hreceives who).commits hget hgenesis

/-- In a network every node receives such blocks only. -/
theorem receivesCommitted_of_reachable
    (hreach : network.Reachable .release geneLoop links icoKey mining) (who : Fin n) :
    ReceivesCommitted C (geneLoop who) icoKey (network.state who) := by
  induction hreach generalizing who with
  | refl => exact .start
  | @tail before after hbefore hstep ih =>
      obtain ⟨event, _, hnext⟩ := hstep
      have hinv := networkInvariant_of_reachable hbefore
      obtain ⟨hmoves, hothers⟩ := Network.moves_of_next hnext
      by_cases heq : who = event.who
      · subst heq
        cases event with
        | deliver source target i =>
            obtain ⟨message, next, sent, hmessage, hhandle, rfl⟩ := Network.next_deliver.mp hnext
            rw [Network.Event.who, Network.put_state_self]
            refine (ih target).step (fun block hblock => ?_) (nodeTurn_eq_some.mp hhandle).1
            have hmem : message ∈ before.channel source target := List.mem_of_getElem? hmessage
            cases message with
            | blocks received =>
                have hmined := (hinv.justified source target _ hmem block hblock).1.mem
                apply hinv.commits ih (.sent hmem hblock)
                rintro rfl
                exact mining.hashesDistinct.genesis _ hmined rfl
            | _ => cases hblock
        | act who action =>
            obtain ⟨next, hround, hown, rfl⟩ := round_of_act hbefore hnext
            rw [Network.Event.who, Network.put_state_self]
            refine (ih who).step ?_ hround
            cases hchoice : action.2 with
            | deliver peer message => exact absurd hchoice (hown peer message)
            | _ => exact List.forall_mem_nil _
      · rw [hothers who heq]
        exact ih who

/-! ## Two nodes with transactions -/

/-- The generators of the first two nodes. -/
def configuredGeneLoop (who : Fin 2) : GeneLoop :=
  (GeneLoop.new .sample who.val).get (by revert who; decide +kernel)

/-- The key of the first node, which the initial coin belongs to. -/
def configuredKey : Ed25519KeyPair := (configuredGeneLoop 0).publicKey

/-- What the first node makes of the initial coin. -/
def firstGenerated : SignedTransaction :=
  (configuredGeneLoop 0).newSignedTransaction .sample [⟨.hex 0, 0⟩] 100

/-- What the second node makes of its share. -/
def secondGenerated : SignedTransaction :=
  (configuredGeneLoop 1).newSignedTransaction .sample [⟨firstGenerated.hash .sample, 0⟩] 33

/-- The block that each node mines. -/
def generatedBlock : Fin 2 → Block
  | 0 => blockOf Blockchain.genesis firstGenerated
  | 1 => blockOf (blockOf Blockchain.genesis firstGenerated) secondGenerated

def generatedMining : Mining .sample 2 where
  blocks who := {block | block = generatedBlock who}
  distinct := by
    have hdistinct : ∀ who other : Fin 2, (generatedBlock who).hash .sample =
        (generatedBlock other).hash .sample → who = other := by
      decide +kernel
    rintro who other _ rfl _ rfl heq
    obtain rfl := hdistinct who other heq
    exact ⟨rfl, rfl⟩
  genesis := by
    rintro who _ rfl
    revert who
    decide +kernel

instance (network : NodeNetwork 2 1) : Decidable (network.MinesIn generatedMining) :=
  inferInstanceAs (Decidable (∀ who : Fin 2,
    ∀ block ∈ (network.state who).shared.finishedBlockChan, block = generatedBlock who))

/-- The initial coin, and the shares that it is split into. -/
noncomputable def initialCoins : HashMap.Iteration (H256 × UInt8) (UInt32 × Address) :=
  .ofOrder (State.new .sample configuredKey).states
    [((.hex 0, 0), (100, (configuredGeneLoop 0).addr))] (by decide +kernel)

noncomputable def firstCoins : HashMap.Iteration (H256 × UInt8) (UInt32 × Address) :=
  .ofOrder ((State.new .sample configuredKey).execute .sample firstGenerated).states
    (State.outputEntries (firstGenerated.hash .sample) firstGenerated.transaction.output)
    (by decide +kernel)

/-- The generator of the node is started and spends a coin. -/
def generateOn (who : Fin 2) (coins : HashMap.Iteration (H256 × UInt8) (UInt32 × Address)) :
    List (NodeEvent 2 1) :=
  [.act who (.generator, .go), .act who (.api 0, .request (.txGeneratorStart 0)),
    .act who (.generator, .generate coins), .act who (.generator, .generate coins)]

/-- The miner of the node is started and mines the transaction. -/
noncomputable def mineOn (who : Fin 2) (st : SignedTransaction) : List (NodeEvent 2 1) :=
  [.act who (.api 0, .request (.minerStart 0)), .act who (.miner, .mine 0 0 (onlyTransaction st)),
    .act who (.miner, .mine 0 0 (onlyTransaction st)), .act who (.minerWorker, .go)]

/-- The first node mines its transaction, and the second one spends its share. -/
noncomputable def sharedCoin : List (NodeEvent 2 1) :=
  generateOn 0 initialCoins ++ mineOn 0 firstGenerated ++
    [.deliver 0 1 1, .deliver 1 0 0, .deliver 0 1 1] ++ generateOn 1 firstCoins

/-- The state of the two nodes after these events. -/
noncomputable abbrev configuredRun (guard : NodeNetwork 2 1 → NodeEvent 2 1 → Prop)
    [∀ network event, Decidable (guard network event)] (events : List (NodeEvent 2 1)) :
    Option (NodeNetwork 2 1) :=
  Transition.run (fun network => network.next
      (nodeProtocol .sample .release configuredGeneLoop pairLinks))
    guard (.start .sample configuredKey 2 1) events

/-! ## Every run -/

/-- Every block of the network, apart from the genesis block, has proof of work and the Merkle
root of its transactions, and on the node that mined it the ledger state is that of its
transactions on its parent's. -/
theorem networkBlocks_valid (C : Crypto) (n requests : Nat) (geneLoop : Fin n → GeneLoop)
    (links : Links n) (icoKey : Ed25519KeyPair) (mining : Mining C n)
    (network : NodeNetwork n requests)
    (hreach : network.Reachable .release geneLoop links icoKey mining) (block : Block)
    (hfound : network.Contains block) (hgenesis : block ≠ Blockchain.genesis) :
    WellMined C block ∧ Commits C block ∧ ∃ who parent state, block ∈ mining.blocks who ∧
      (network.memory who).blockState.value.get block.head.parent = some parent ∧
      checkTxs C .release parent block.cont.st = .ok state ∧
      (network.memory who).blockState.value.get (block.hash C) = some state := by
  have hinv := networkInvariant_of_reachable hreach
  have hfree := mining.hashesDistinct
  have hcommits := hinv.commits (receivesCommitted_of_reachable hreach) hfound hgenesis
  obtain ⟨who, height, hblock, hget⟩ := hinv.exists_miner hfound hgenesis
  have hchain := (node_keeps hreach who).1
  have hwork := ((hchain.stored _ _ _ hget).2.resolve_left hgenesis).wellMined
  have hholds := HashMap.containsKey_of_get hget
  obtain ⟨entry, hentry, hmined⟩ := (hinv.participates who).exists_entry hfree hholds
  obtain ⟨_, parent, hparent, hextend⟩ := hfree.entry_cases ⟨who, hblock⟩ hmined
  -- The parent is stored with the entry that the block extends.
  have hstored := (hinv.participates who).parent hchain hfree ⟨who, hblock⟩ hholds
  obtain ⟨parent', hparentEntry, hparentMined⟩ := (hinv.participates who).exists_entry hfree hstored
  obtain rfl := hfree.unique hparentMined hparent
  obtain ⟨_, state, _, hcheck, _, rfl⟩ := admission_extend_eq_some.mp hextend
  exact ⟨hwork, hcommits, who, parent'.state, state, hblock,
    (Shared.entry_eq_some.mp hparentEntry).2, hcheck, (Shared.entry_eq_some.mp hentry).2⟩

/-- The second node has stored the block of the first one. -/
theorem networkBlocks_valid_generatedBlock : ∃ network : NodeNetwork 2 1,
    (network.memory 1).Holds ((generatedBlock 0).hash .sample) ∧
      WellMined .sample (generatedBlock 0) ∧ Commits .sample (generatedBlock 0) ∧
      ∃ who parent state, generatedBlock 0 ∈ generatedMining.blocks who ∧
        (network.memory who).blockState.value.get (generatedBlock 0).head.parent = some parent ∧
        checkTxs .sample .release parent [firstGenerated] = .ok state ∧
        (network.memory who).blockState.value.get ((generatedBlock 0).hash .sample) =
          some state := by
  have hrun : (configuredRun (fun network _ => network.MinesIn generatedMining) sharedCoin).any
      (fun network =>
        decide ((network.memory 1).blockchain.value.blocks.get ((generatedBlock 0).hash .sample) =
          some (generatedBlock 0, 1))) = true := by
    decide +kernel
  obtain ⟨network, hreach, hcheck⟩ := Transition.exists_reachable _ _ _ _ _ hrun
  have hget := of_decide_eq_true hcheck
  exact ⟨network, HashMap.containsKey_of_get hget, networkBlocks_valid .sample 2 1
    configuredGeneLoop pairLinks configuredKey generatedMining network hreach (generatedBlock 0)
    (.stored hget) (by decide +kernel)⟩

end BitcoinClient
