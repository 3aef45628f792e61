import BitcoinClient.Node.ForkedCoins
import BitcoinClient.Node.MinedBlock
import BitcoinClient.Node.MinedTransactions

/-! # Transactions that are mined again

The miner chooses transactions without a look at the block tree, keeps them until it
finishes a block, and reads the parent of that block at every attempt. It mines nothing
that the parent's chain already has as long as no transaction is on the tip's chain when
the miner chooses it, and none gets there while the miner holds it.
-/

namespace BitcoinClient

open NodeProgram (call)

/-- The transaction is in a block on the chain from the genesis block to `hash`. -/
inductive OnChain (C : Crypto) (blocks : HashMap H256 (Block × UInt32)) (txHash : H256) :
    H256 → Prop
  | here {hash : H256} {entry : Block × UInt32} (hget : blocks.get hash = some entry)
      (hcontains : entry.1.Contains C txHash) : OnChain C blocks txHash hash
  | up {hash : H256} {entry : Block × UInt32} (hget : blocks.get hash = some entry)
      (hne : hash ≠ Blockchain.genesis.hash C)
      (hparent : OnChain C blocks txHash entry.1.head.parent) : OnChain C blocks txHash hash

/-- The transactions that the miner has chosen and not yet put into a finished block. -/
def recordHeld (op : Op) (result : op.Result) (_ : Shared) (held : List SignedTransaction) :
    List SignedTransaction :=
  match op, result with
  | .iterateMempool .., entries => held ++ entries.map Prod.snd
  | .finishBlock _, _ => []
  | _, _ => held

/-- The operations that change what the miner holds. -/
def Op.changesHeld : Op → Bool
  | iterateMempool .. | finishBlock _ => true
  | _ => false

variable (C : Crypto) (build : Build)

/-- The parents of the stored blocks are stored, and nothing the miner holds is confirmed. -/
structure HeldInvariant (s : Shared × List SignedTransaction) : Prop where
  tip : s.1.blockchain.value.blocks.containsKey s.1.blockchain.value.tip = true
  closed : ∀ hash entry, s.1.blockchain.value.blocks.get hash = some entry →
    hash ≠ Blockchain.genesis.hash C →
    s.1.blockchain.value.blocks.containsKey entry.1.head.parent = true
  fresh : ∀ st ∈ s.2, ¬ OnChain C s.1.blockchain.value.blocks (st.hash C) s.1.blockchain.value.tip

/-- The chains of the stored blocks gain no transaction. -/
def ChainsKept (s s' : Shared) : Prop :=
  ∀ hash, s.blockchain.value.blocks.containsKey hash = true →
    s'.blockchain.value.blocks.containsKey hash = true ∧
    ∀ txHash, OnChain C s'.blockchain.value.blocks txHash hash →
      OnChain C s.blockchain.value.blocks txHash hash

/-- The operation chooses no transaction of the tip's chain, replaces no stored block by
another, and does not put a transaction that the miner holds on the tip's chain. -/
structure LeavesUnconfirmed (op : Op) (s : Shared × List SignedTransaction) : Prop where
  choosing : ∀ entry ∈ op.choosing s.1,
    ¬ OnChain C s.1.blockchain.value.blocks (entry.2.hash C) s.1.blockchain.value.tip
  replacing : ∀ block ∈ op.inserting,
    ∀ entry ∈ s.1.blockchain.value.blocks.get (block.hash C), entry.1 = block
  inserting : ∀ block ∈ op.inserting, ∀ next, s.1.blockchain.value.insert C build block = .ok next →
    ∀ st ∈ s.2, ¬ OnChain C next.blocks (st.hash C) next.tip

variable {workers requests : Nat}

/-- What the threads promise about the transactions that the miner holds. -/
def heldContract (who : ThreadId workers requests) :
    Program.Contract Op (Shared × List SignedTransaction) where
  inv := HeldInvariant C
  pre op s := (op.changesHeld = true → who = .miner) ∧ ∀ block, op = .finishBlock block →
    ∀ st ∈ block.cont.st,
      ¬ OnChain C s.1.blockchain.value.blocks (st.hash C) block.head.parent
  allowed op s := LeavesUnconfirmed C build op s
  rely _ s s' := ChainsKept C s.1 s'.1 ∧ (who = .miner → s'.2 = s.2)

/-- What a thread knows between two rounds. -/
def heldLoop (who : ThreadId workers requests) : Task → Shared × List SignedTransaction → Prop
  | .miner miner, s => who = .miner ∧ miner.transaction = s.2
  | _, _ => True

/-- What an operation keeps. -/
structure HeldKept (op : Op) (s s' : Shared × List SignedTransaction) : Prop where
  inv : HeldInvariant C s'
  chains : ChainsKept C s.1 s'.1
  held : op.changesHeld = false → s'.2 = s.2

variable {C build} {s : Shared} {held : List SignedTransaction} {who : ThreadId workers requests}

/-- The genesis block has no transactions. -/
theorem not_onChain_new (txHash hash : H256) :
    ¬ OnChain C (Blockchain.new C).blocks txHash hash := by
  have hgenesis : ∀ {hash entry}, (Blockchain.new C).blocks.get hash = some entry →
      hash = Blockchain.genesis.hash C ∧ entry = (Blockchain.genesis, 0) := by
    intro hash entry hget
    rw [Blockchain.new, HashMap.get_insert, HashMap.get_empty] at hget
    split at hget
    next heq => exact ⟨heq, (Option.some.inj hget).symm⟩
    next => cases hget
  intro h
  cases h with
  | here hget hcontains =>
      obtain ⟨-, rfl⟩ := hgenesis hget
      obtain ⟨_, hmem, -⟩ := hcontains
      cases hmem
  | up hget hne => exact hne (hgenesis hget).1

theorem held_initial (icoKey : Ed25519KeyPair) :
    HeldInvariant C (Shared.initial C icoKey, []) where
  tip := HashMap.containsKey_of_get (HashMap.get_insert_self _ _ _)
  closed hash entry hget hne := by
    simp only [Shared.initial, Blockchain.new, HashMap.get_insert, if_neg hne] at hget
    cases hget
  fresh := nofun

/-- A chain of stored blocks stays as it is while they are. -/
theorem OnChain.of_kept {blocks blocks' : HashMap H256 (Block × UInt32)} {txHash hash : H256}
    (hclosed : ∀ hash entry, blocks.get hash = some entry → hash ≠ Blockchain.genesis.hash C →
      blocks.containsKey entry.1.head.parent = true)
    (hkept : ∀ hash entry, blocks.get hash = some entry →
      ∃ entry', blocks'.get hash = some entry' ∧ entry'.1 = entry.1)
    (h : OnChain C blocks' txHash hash) (hstored : blocks.containsKey hash = true) :
    OnChain C blocks txHash hash := by
  induction h with
  | here hget hcontains =>
      obtain ⟨entry, hentry⟩ := HashMap.containsKey_iff.mp hstored
      obtain ⟨entry', hentry', hsame⟩ := hkept _ entry hentry
      obtain rfl := Option.some.inj (hget.symm.trans hentry')
      exact .here hentry (hsame ▸ hcontains)
  | up hget hne _ ih =>
      obtain ⟨entry, hentry⟩ := HashMap.containsKey_iff.mp hstored
      obtain ⟨entry', hentry', hsame⟩ := hkept _ entry hentry
      obtain rfl := Option.some.inj (hget.symm.trans hentry')
      rw [hsame] at ih
      exact .up hentry hne (ih (hclosed _ entry hentry hne))

theorem ChainsKept.of_eq {s' : Shared} (h : s'.blockchain.value = s.blockchain.value) :
    ChainsKept C s s' := by
  intro hash hstored
  rw [h]
  exact ⟨hstored, fun _ => id⟩

theorem ChainsKept.trans {s' s'' : Shared} (h : ChainsKept C s s') (h' : ChainsKept C s' s'') :
    ChainsKept C s s'' := by
  intro hash hstored
  obtain ⟨hstored', hchain⟩ := h hash hstored
  obtain ⟨hstored'', hchain'⟩ := h' hash hstored'
  exact ⟨hstored'', fun txHash honChain => hchain txHash (hchain' txHash honChain)⟩

/-- An operation that leaves the block tree and the held transactions alone. -/
theorem HeldKept.frame {op : Op} {s' : Shared} (h : HeldInvariant C (s, held))
    (hblocks : s'.blockchain.value = s.blockchain.value) :
    HeldKept C op (s, held) (s', held) := by
  refine ⟨⟨?_, ?_, ?_⟩, .of_eq hblocks, fun _ => rfl⟩
  · rw [hblocks]
    exact h.tip
  · rw [hblocks]
    exact h.closed
  · rw [hblocks]
    exact h.fresh

theorem HeldKept.insert {block : Block} {next : Blockchain} (h : HeldInvariant C (s, held))
    (hallowed : LeavesUnconfirmed C build (.insertBlock block) (s, held))
    (hinsert : s.blockchain.value.insert C build block = .ok next) :
    HeldKept C (.insertBlock block) (s, held)
      ({ s with blockchain := { s.blockchain with value := next } }, held) := by
  obtain ⟨_, _, _, _, _, hparent, -, -, hblocks, -⟩ := Blockchain.insert_ok hinsert
  have hstored : ∀ hash, s.blockchain.value.blocks.containsKey hash = true →
      next.blocks.containsKey hash = true :=
    fun _ hstored => (Blockchain.containsKey_of_insert hinsert).mpr (Or.inr hstored)
  have hkept : ∀ hash entry, s.blockchain.value.blocks.get hash = some entry →
      ∃ entry', next.blocks.get hash = some entry' ∧ entry'.1 = entry.1 := by
    intro hash entry hget
    rcases Blockchain.get_of_insert hinsert hget with hget' | ⟨rfl, height, hget'⟩
    · exact ⟨entry, hget', rfl⟩
    · exact ⟨_, hget', (hallowed.replacing block rfl entry hget).symm⟩
  refine ⟨⟨?_, fun hash entry hget hne => ?_, hallowed.inserting block rfl next hinsert⟩,
    fun hash hmem => ⟨hstored hash hmem, fun _ honChain => ?_⟩, fun _ => rfl⟩
  · exact Blockchain.tip_of_insert hinsert
  · change next.blocks.get hash = some entry at hget
    rw [hblocks] at hget
    rcases HashMap.of_get_insert hget with ⟨_, rfl⟩ | hget
    · exact hstored _ (HashMap.containsKey_of_get hparent)
    · exact hstored _ (h.closed hash entry hget hne)
  · exact honChain.of_kept h.closed hkept hmem

/-- No allowed operation confirms what the miner holds. -/
theorem held_kept (op : Op) (h : HeldInvariant C (s, held))
    (hallowed : LeavesUnconfirmed C build op (s, held)) :
    (Program.recording (Op.action C build) recordHeld op).wp
      (fun _ s' => HeldKept C op (s, held) s') (fun _ s' => HeldKept C op (s, held) s')
      (s, held) := by
  rw [Program.wp_recording]
  cases op with
  | insertBlock block =>
      simp only [Op.action, wp_insertBlock]
      refine ⟨fun _ => .frame h rfl, fun _ => ?_⟩
      cases hinsert : s.blockchain.value.insert C build block with
      | error reason => exact .frame h rfl
      | ok next => exact .insert h hallowed hinsert
  | iterateMempool iteration limit =>
      simp only [Op.action, iterateMempool, wp_withMempool]
      refine ⟨fun _ => .frame h rfl, fun _ => ⟨⟨h.tip, h.closed, fun st hmem => ?_⟩, .of_eq rfl,
        fun hchanges => Bool.noConfusion hchanges⟩⟩
      rcases List.mem_append.mp hmem with hmem | hmem
      · exact h.fresh st hmem
      · obtain ⟨entry, hentry, rfl⟩ := List.mem_map.mp hmem
        exact hallowed.choosing entry hentry
  | finishBlock block =>
      exact ⟨⟨h.tip, h.closed, List.forall_mem_nil _⟩, .of_eq rfl,
        fun hchanges => Bool.noConfusion hchanges⟩
  | _ =>
      refine Effect.wp_mono (Op.wp_frame C build _) (fun _ s' hframe => ?_) fun _ s' hframe => ?_
      · exact .frame h (hframe.blocks rfl)
      · exact .frame h (hframe.1.blocks rfl)

/-! ## The rounds meet the contract -/

/-- A program that meets the contract about held transactions. -/
abbrev NodeProgram.HeldMeets {α : Type} (C : Crypto) (build : Build) (program : NodeProgram α)
    (who : ThreadId workers requests) (post : α → Shared × List SignedTransaction → Prop)
    (s : Shared × List SignedTransaction) : Prop :=
  Program.Meets (Program.recording (Op.action C build) recordHeld) (heldContract C build who) post
    program s

/-- The rule for an operation that leaves the held transactions alone. -/
theorem held_call {α : Type} {op : Op} {f : op.Result → NodeProgram α}
    {post : α → Shared × List SignedTransaction → Prop} {s : Shared × List SignedTransaction}
    (hop : op.changesHeld = false)
    (hnext : ∀ result s', (heldContract C build who).rely (some op) s s' →
      (f result).HeldMeets C build who post s') :
    (call op >>= f).HeldMeets C build who post s := by
  intro s' hrely hinv
  refine ⟨⟨fun hchanges => ?_, fun block heq => ?_⟩, fun hallowed => ?_⟩
  · rw [hop] at hchanges
    cases hchanges
  · subst heq
    cases hop
  · obtain ⟨shared, held⟩ := s'
    refine Effect.wp_mono (held_kept op hinv hallowed) (fun result s'' hkept _ => ?_)
      fun _ _ _ => trivial
    exact hnext result s'' ⟨hrely.1.trans hkept.chains,
      fun hwho => (hkept.held hop).trans (hrely.2 hwho)⟩

/-- While the miner removes transactions it holds none. -/
theorem removal_heldMeets {items : List H256} {s : Shared × List SignedTransaction}
    (hwho : who = .miner) (hempty : s.2 = []) :
    NodeProgram.HeldMeets C build (items.forM fun item => call (.mempoolRemove item)) who
      (fun _ s => s.2 = []) s := by
  refine Program.meets_forM ?_ fun item _ s hs => ?_
  · exact hempty
  · exact held_call (f := .done) rfl fun _ s' hrely => (hrely.2 hwho).trans hs

/-- A block is built from what the miner holds, on a tip whose chain has none of it. -/
theorem mineBlock_heldMeets (miner : Miner) (nonce : UInt32) (timestamp : BitVec 128)
    {s : Shared × List SignedTransaction} (hwho : who = .miner) (hheld : miner.transaction = s.2) :
    (mineBlock C miner nonce timestamp).HeldMeets C build who
      (fun miner s => miner.transaction = s.2) s := by
  obtain ⟨tree, root, htree, hroot⟩ :=
    MerkleTree.new_root_ok (C := C) (SignedTransaction.hash C) miner.transaction
  simp only [mineBlock, htree, NodeProgram.ofExcept, Program.done_bind, hroot]
  have hpre : ∀ s₁, (heldContract C build who).pre .readTip s₁ :=
    fun _ => ⟨fun hchanges => Bool.noConfusion hchanges, fun _ heq => Op.noConfusion heq⟩
  refine Program.meets_call fun s₁ hrely₁ hinv₁ => ⟨hpre s₁, fun hallowed₁ => ?_⟩
  have hheld₁ : miner.transaction = s₁.2 := hheld.trans (hrely₁.2 hwho).symm
  obtain ⟨shared, held⟩ := s₁
  rw [Program.wp_recording]
  simp only [Op.action, wp_readTip]
  refine ⟨fun _ => trivial, fun _ _ => ?_⟩
  split
  next =>
    refine Program.meets_call fun s₂ hrely₂ _ => ⟨⟨fun _ => hwho, ?_⟩, fun _ _ => ?_⟩
    · rintro block ⟨⟩ st hst honChain
      refine hinv₁.fresh st (hheld₁ ▸ hst) ?_
      exact (hrely₂.1 _ hinv₁.tip).2 _ honChain
    · refine (Program.meets_bind _ _).mpr ((removal_heldMeets hwho rfl).mono ?_)
      exact fun _ _ hempty => hempty.symm
  next => exact hheld₁

theorem selectTransactions_heldMeets (miner : Miner)
    (iteration : HashMap.Iteration H256 SignedTransaction) {s : Shared × List SignedTransaction}
    (hwho : who = .miner) (hheld : miner.transaction = s.2) :
    (selectTransactions miner iteration).HeldMeets C build who
      (fun miner s => miner.transaction = s.2) s := by
  unfold selectTransactions
  split
  next =>
    refine Program.meets_call fun s' hrely _ => ⟨⟨fun _ => hwho, nofun⟩, fun _ => ?_⟩
    have hheld' : miner.transaction = s'.2 := hheld.trans (hrely.2 hwho).symm
    obtain ⟨shared, held⟩ := s'
    rw [Program.wp_recording]
    simp only [Op.action, iterateMempool, wp_withMempool]
    refine ⟨fun _ => trivial, fun _ _ => ?_⟩
    exact congrArg (· ++ _) hheld'
  next => exact hheld

theorem minerRound_heldMeets {miner : Miner} (nonce : UInt32) (timestamp : BitVec 128)
    (iteration : HashMap.Iteration H256 SignedTransaction) {s : Shared × List SignedTransaction}
    (hwho : who = .miner) (hheld : miner.transaction = s.2) :
    (minerRound C miner nonce timestamp iteration).HeldMeets C build who
      (fun result s => ∀ miner ∈ result, miner.transaction = s.2) s := by
  unfold minerRound
  split
  next =>
    refine held_call rfl fun signal s' hrely => ?_
    rintro miner ⟨⟩
    exact hheld.trans (hrely.2 hwho).symm
  next => exact nofun
  next =>
    refine held_call rfl fun signal s' hrely => ?_
    simp only
    split
    next => exact nofun
    next =>
      refine (Program.meets_bind _ _).mpr (Program.Meets.mono
        (selectTransactions_heldMeets _ iteration hwho ?_) fun miner s'' hselected => ?_)
      · exact hheld.trans (hrely.2 hwho).symm
      refine (Program.meets_bind _ _).mpr
        ((mineBlock_heldMeets miner nonce timestamp hwho hselected).mono fun miner s hmined => ?_)
      rintro _ ⟨⟩
      exact hmined

theorem offMiner_keepsHeld (op : Op) (hop : op.OffMiner C) : op.changesHeld = false := by
  cases op with
  | iterateMempool iteration limit => cases hop
  | finishBlock block => cases hop
  | _ => rfl

theorem minerWorkerRound_keepsHeld :
    (minerWorkerRound C build).All (fun op => op.changesHeld = false) fun _ => True := by
  unfold minerWorkerRound call
  simp only [Program.call_bind, Program.all_perform]
  refine ⟨rfl, fun finished => ?_⟩
  cases finished with
  | none => trivial
  | some block =>
      refine (Program.all_bind _ _).mpr ((admitBlock_offMiner block).mono offMiner_keepsHeld ?_)
      intro admitted _
      cases admitted with
      | false => trivial
      | true => exact ⟨rfl, fun _ => trivial⟩

/-- The other threads leave what the miner holds alone. -/
theorem nodeBody_keepsHeld {geneLoop : GeneLoop} {task : Task} {choice : Choice}
    {program : NodeProgram Task} (htask : ∀ miner, task ≠ .miner miner)
    (hbody : nodeBody C build geneLoop task choice = some program) :
    program.All (fun op => op.changesHeld = false) fun task => ∀ miner, task ≠ .miner miner := by
  by_cases hworker : task = .minerWorker
  · subst hworker
    cases choice with
    | go =>
        obtain rfl := Option.some.inj hbody
        refine (Program.all_bind _ _).mpr (minerWorkerRound_keepsHeld.mono (fun _ => id) ?_)
        exact fun _ _ => nofun
    | _ => cases hbody
  · have hoffMiner : task.offMiner = true := by
      cases task with
      | miner miner => exact absurd rfl (htask miner)
      | minerWorker => exact absurd rfl hworker
      | _ => rfl
    refine (nodeBody_offMiner hoffMiner hbody).mono offMiner_keepsHeld fun task htask => ?_
    rintro miner rfl
    cases htask

theorem heldLoop_of_ne {task : Task} (h : ∀ miner, task ≠ .miner miner)
    (s : Shared × List SignedTransaction) : heldLoop who task s := by
  cases task with
  | miner miner => exact absurd rfl (h miner)
  | _ => trivial

/-- Every round of every thread meets the contract. -/
theorem nodeBody_heldMeets {geneLoop : GeneLoop} {task : Task} {choice : Choice}
    {program : NodeProgram Task} {s : Shared × List SignedTransaction} (hloop : heldLoop who task s)
    (hbody : nodeBody C build geneLoop task choice = some program) :
    program.HeldMeets C build who (heldLoop who) s := by
  by_cases htask : ∃ miner, task = .miner miner
  · obtain ⟨miner, rfl⟩ := htask
    cases choice with
    | mine nonce timestamp iteration =>
        obtain rfl := Option.some.inj hbody
        refine (Program.meets_bind _ _).mpr
          ((minerRound_heldMeets nonce timestamp iteration hloop.1 hloop.2).mono ?_)
        intro result _ hresult
        cases result with
        | none => trivial
        | some miner => exact ⟨hloop.1, hresult miner rfl⟩
    | _ => cases hbody
  · refine (nodeBody_keepsHeld (fun miner heq => htask ⟨miner, heq⟩) hbody).meets ?_ ?_
    · intro op hop s
      refine ⟨fun hchanges => ?_, fun block heq => ?_⟩
      · rw [hop] at hchanges
        cases hchanges
      · subst heq
        cases hop
    · exact fun task s h => heldLoop_of_ne h s

/-- No step brings a transaction that the miner chooses or holds onto the tip's chain. -/
def KeepsUnconfirmed (C : Crypto) (build : Build)
    (node : RecordedNode (List SignedTransaction) workers requests)
    (who : ThreadId workers requests) (_ : Choice) : Prop :=
  ∀ op ∈ (node.threads who).pending, LeavesUnconfirmed C build op node.shared

theorem node_heldInvariant {geneLoop : GeneLoop} {icoKey : Ed25519KeyPair}
    {node : RecordedNode (List SignedTransaction) workers requests}
    (hreach : (recordedMachine C build geneLoop recordHeld).Reachable (KeepsUnconfirmed C build)
      (RecordedNode.start C icoKey [] workers requests) node) :
    HeldInvariant C node.shared ∧ ∀ who, (node.threads who).Meets
      (Program.recording (Op.action C build) recordHeld) (heldContract C build who)
      (fun _ => True) (heldLoop who) node.shared := by
  refine Program.Reachable.meetsEach (HeldInvariant C) (heldContract C build) (fun _ _ => True)
    heldLoop (fun _ _ => Iff.rfl) ?_ ?_ ?_ ?_ ?_ ?_ hreach
  · exact fun _ _ _ => ⟨.of_eq rfl, fun _ => rfl⟩
  · intro who op s s' s'' h h'
    exact ⟨h.1.trans h'.1, fun hwho => (h'.2 hwho).trans (h.2 hwho)⟩
  · refine ⟨held_initial icoKey, fun who => ⟨.start who, rfl, ?_⟩⟩
    cases who with
    | miner => exact ⟨rfl, rfl⟩
    | _ => trivial
  · intro who task s s' hrely _ _ hloop
    cases task with
    | miner miner => exact ⟨hloop.1, hloop.2.trans (hrely.2 hloop.1).symm⟩
    | _ => trivial
  · exact fun node who choice task program _ _ _ hloop hbody => nodeBody_heldMeets hloop hbody
  · intro node who choice op next hguard hthread hinv hpre
    have hallowed := hguard op (by rw [hthread]; rfl)
    have hothers : ∀ s', HeldKept C op node.shared s' → ∀ other, other ≠ who →
        (heldContract C build other).rely (node.threads other).pending node.shared s' := by
      refine fun s' hkept other hother => ⟨hkept.chains, fun hminer => hkept.held ?_⟩
      rw [Bool.eq_false_iff]
      exact fun hchanges => hother (hminer.trans (hpre.1 hchanges).symm)
    refine ⟨hallowed, Effect.wp_mono (held_kept op hinv hallowed) ?_ ?_⟩
    · exact fun _ s' h => ⟨h.inv, hothers s' h⟩
    · exact fun _ s' h => ⟨trivial, h.inv, hothers s' h⟩

/-- While no transaction that the miner chooses or holds is on the tip's chain, no block
that it sends has a transaction of its parent's chain. -/
theorem finishedBlocks_unconfirmed (C : Crypto) (build : Build) (geneLoop : GeneLoop)
    (icoKey : Ed25519KeyPair) (workers requests : Nat)
    (node : RecordedNode (List SignedTransaction) workers requests)
    (hreach : (recordedMachine C build geneLoop recordHeld).Reachable (KeepsUnconfirmed C build)
      (RecordedNode.start C icoKey [] workers requests) node)
    (who : ThreadId workers requests) (block : Block) (hblock : block ∈ node.node.finishing who)
    (st : SignedTransaction) (hst : st ∈ block.cont.st) :
    ¬ OnChain C node.shared.1.blockchain.value.blocks (st.hash C) block.head.parent := by
  obtain ⟨hinv, hthreads⟩ := node_heldInvariant hreach
  have hpre := (hthreads who).pre ⟨.of_eq rfl, fun _ => rfl⟩ hinv
    (Node.finishing_eq_some.mp hblock)
  exact hpre.2 block rfl st hst

/-- The block tree with one block on the genesis block. -/
def forkedBlockchain : Blockchain where
  blocks := (Blockchain.new .sample).blocks.insert ((forkBlock 0).hash .sample) (forkBlock 0, 1)
  tip := (forkBlock 0).hash .sample

theorem OnChain.exists_contains {blocks : HashMap H256 (Block × UInt32)} {txHash hash : H256}
    (h : OnChain C blocks txHash hash) :
    ∃ key entry, blocks.get key = some entry ∧ entry.1.Contains C txHash := by
  induction h with
  | here hget hcontains => exact ⟨_, _, hget, hcontains⟩
  | up _ _ _ ih => exact ih

/-- No other transaction is on its chains. -/
theorem not_onChain_forked {txHash : H256} (hne : txHash ≠ moveInitialCoin.hash .sample)
    (hash : H256) : ¬ OnChain .sample forkedBlockchain.blocks txHash hash := by
  intro h
  obtain ⟨key, entry, hget, hcontains⟩ := h.exists_contains
  rcases HashMap.of_get_insert hget with ⟨_, rfl⟩ | hget
  · obtain ⟨st, hst, hhash⟩ := hcontains
    obtain rfl := List.mem_singleton.mp hst
    exact hne hhash.symm
  · exact not_onChain_new txHash key (.here hget hcontains)

/-- One transaction is confirmed before the other one arrives, which spends its output. -/
noncomputable def confirmThenMine : List (ThreadId 1 1 × Choice) :=
  (.network 0, .deliver 0 (.blocks [forkBlock 0])) :: List.replicate 7 (.network 0, .go) ++
    startMiner ++ (mineArrived spendMovedCoin).take 8

/-- The miner holds nothing before the block is stored, and finds only the second transaction
after that. -/
def ConfirmsFirst (node : RecordedNode (List SignedTransaction) 1 1) (who : ThreadId 1 1) : Prop :=
  (node.shared.1.blockchain.value = Blockchain.new .sample ∧ node.shared.2 = [] ∧
    ∀ block ∈ node.node.inserting who, block = forkBlock 0) ∨
  (node.shared.1.blockchain.value = forkedBlockchain ∧ node.node.inserting who = none ∧
    ∀ entry ∈ node.shared.1.mempool.value.trans.entries, entry.2 = spendMovedCoin)

instance (node : RecordedNode (List SignedTransaction) 1 1) (who : ThreadId 1 1) :
    Decidable (ConfirmsFirst node who) :=
  inferInstanceAs (Decidable (_ ∨ _))

theorem ConfirmsFirst.keepsUnconfirmed {node : RecordedNode (List SignedTransaction) 1 1}
    {who : ThreadId 1 1} (h : ConfirmsFirst node who) (choice : Choice) :
    KeepsUnconfirmed .sample .release node who choice := by
  intro op hop
  have hinserting : node.node.inserting who = op.inserting := by
    rw [Node.inserting, RecordedNode.node, Program.forget]
    dsimp only
    rw [hop]
    rfl
  rw [ConfirmsFirst, hinserting] at h
  rcases h with ⟨hnew, hheld, hblocks⟩ | ⟨hforked, hnone, hmempool⟩
  · refine ⟨fun entry _ => ?_, fun block hblock entry hentry => ?_, fun _ _ _ _ st hst => ?_⟩
    · rw [hnew]
      exact not_onChain_new _ _
    · obtain rfl := hblocks block hblock
      have habsent : (Blockchain.new .sample).blocks.get ((forkBlock 0).hash .sample) = none := by
        decide +kernel
      rw [hnew, habsent] at hentry
      cases hentry
    · rw [hheld] at hst
      cases hst
  · refine ⟨fun entry hentry => ?_, fun block hblock => ?_, fun block hblock => ?_⟩
    · have hchosen : entry.2 = spendMovedCoin := by
        cases op with
        | iterateMempool iteration limit =>
            have hmem : entry ∈ ((iteration.entries node.shared.1.mempool.value.trans : List _) :
                Multiset (H256 × SignedTransaction)) := List.mem_of_mem_take hentry
            rw [iteration.enumerates] at hmem
            obtain ⟨other, hother, rfl⟩ := Multiset.mem_map.mp hmem
            exact hmempool other hother
        | _ => cases hentry
      rw [hforked, hchosen]
      exact not_onChain_forked (by decide +kernel) _
    · rw [hnone] at hblock
      cases hblock
    · rw [hnone] at hblock
      cases hblock

/-- The miner is about to send the second one on top of the first one. -/
theorem finishedBlocks_unconfirmed_confirmThenMine :
    ∃ (node : RecordedNode (List SignedTransaction) 1 1) (block : Block),
      block ∈ node.node.finishing .miner ∧ block.cont.st = [spendMovedCoin] ∧
      OnChain .sample node.shared.1.blockchain.value.blocks (moveInitialCoin.hash .sample)
        block.head.parent ∧
      ¬ OnChain .sample node.shared.1.blockchain.value.blocks (spendMovedCoin.hash .sample)
        block.head.parent := by
  have hrun : ((recordedMachine .sample .release sampleGeneLoop recordHeld).run
      (fun (node : RecordedNode (List SignedTransaction) 1 1) who _ => decide
        (ConfirmsFirst node who))
      (RecordedNode.start .sample Crypto.sampleKey [] 1 1) confirmThenMine).any
      (fun node : RecordedNode (List SignedTransaction) 1 1 => (node.node.finishing .miner).any
        fun block => decide (block.cont.st = [spendMovedCoin] ∧
          node.shared.1.blockchain.value.blocks.get block.head.parent = some (forkBlock 0, 1))) =
      true := by
    decide +kernel
  obtain ⟨node, hreach, hcheck⟩ := Machine.exists_reachable (fun node who choice hallowed =>
    (of_decide_eq_true hallowed : ConfirmsFirst node who).keepsUnconfirmed choice) hrun
  obtain ⟨block, hblock, hmem⟩ := (Option.any_eq_true _ _).mp hcheck
  obtain ⟨hcontent, hget⟩ := of_decide_eq_true hmem
  refine ⟨node, block, hblock, hcontent, .here hget ⟨moveInitialCoin, List.mem_cons_self, rfl⟩, ?_⟩
  refine finishedBlocks_unconfirmed .sample .release sampleGeneLoop Crypto.sampleKey 1 1 node hreach
    .miner block hblock spendMovedCoin ?_
  rw [hcontent]
  exact List.mem_singleton_self _

/-- A transaction is confirmed by a block of a peer and stays in the mempool, from which
the miner takes it. -/
theorem not_finishedBlocks_unconfirmed :
    ¬ ∀ node : RecordedNode (List SignedTransaction) 1 1,
      (recordedMachine .sample .release sampleGeneLoop recordHeld).Reachable (fun _ _ _ => True)
        (RecordedNode.start .sample Crypto.sampleKey [] 1 1) node →
      ∀ who, ∀ block ∈ node.node.finishing who, ∀ st ∈ block.cont.st,
        ¬ OnChain .sample node.shared.1.blockchain.value.blocks (st.hash .sample)
          block.head.parent := by
  intro hall
  have hrun : ((recordedMachine .sample .release sampleGeneLoop recordHeld).run
      (fun _ _ _ => true) (RecordedNode.start .sample Crypto.sampleKey [] 1 1)
      ((.network 0, .deliver 0 (.blocks [forkBlock 0])) ::
        List.replicate 7 (.network 0, .go) ++
        startMiner ++ (mineArrived moveInitialCoin).take 8)).any
      (fun node : RecordedNode (List SignedTransaction) 1 1 => (node.node.finishing .miner).any
        fun block => decide (moveInitialCoin ∈ block.cont.st ∧
          node.shared.1.blockchain.value.blocks.get block.head.parent = some (forkBlock 0, 1))) =
      true := by
    decide +kernel
  obtain ⟨node, hreach, hcheck⟩ := Machine.exists_reachable (fun _ _ _ _ => trivial) hrun
  obtain ⟨block, hblock, hmem⟩ := (Option.any_eq_true _ _).mp hcheck
  obtain ⟨hst, hget⟩ := of_decide_eq_true hmem
  refine hall node hreach .miner block hblock _ hst (.here hget ?_)
  exact ⟨moveInitialCoin, List.mem_cons_self, rfl⟩

end BitcoinClient
