import BitcoinClient.Node.OffMiner
import BitcoinClient.Node.ProofOfWork

/-! # The miner's own chain

The miner reads the parent of a block from the block tree, which only moves when its
worker inserts the block before. The blocks it finishes form a chain as long as each of
them is built on the present tip and finished after the last one was inserted.
-/

namespace BitcoinClient

open NodeProgram (call)

/-- The blocks that were sent on `finished_block_chan`, oldest first. -/
structure Finished where
  blocks : List Block := []
  /-- Whether the last of them has been inserted since. -/
  inserted : Bool := true

def Finished.record (op : Op) (_ : op.Result) (_ : Shared) (finished : Finished) : Finished :=
  match op with
  | .finishBlock block => ⟨finished.blocks ++ [block], false⟩
  | .insertBlock block =>
    { finished with
      inserted := finished.inserted || decide (finished.blocks.getLast? = some block) }
  | _ => finished

variable (C : Crypto)

/-- The finished blocks are a chain, which ends in the tip or is about to move it. -/
structure OwnChain (s : Shared) (finished : Finished) : Prop where
  chain : finished.blocks.IsChain fun block next => next.head.parent = block.hash C
  settled : finished.inserted = true →
    s.finishedBlockChan = [] ∧
      ∀ block ∈ finished.blocks.getLast?, s.blockchain.value.tip = block.hash C
  waiting : finished.inserted = false → ∃ block ∈ finished.blocks.getLast?,
    block.head.parent = s.blockchain.value.tip ∧
      (s.finishedBlockChan = [block] ∨ s.finishedBlockChan = [])

/-- The worker has the last block, which is not inserted yet. -/
structure Finished.Taken (block : Block) (s : Shared × Finished) : Prop where
  last : s.2.blocks.getLast? = some block
  waiting : s.2.inserted = false
  queue : s.1.finishedBlockChan = []

variable {workers requests : Nat}

/-- What the threads promise about the finished blocks. -/
def ownContract (who : ThreadId workers requests) : Program.Contract Op (Shared × Finished) where
  inv s := OwnChain C s.1 s.2
  pre op s :=
    match op with
    | .insertBlock block => who = .minerWorker ∧ Finished.Taken block s
    | _ => True
  allowed op s :=
    match op with
    | .finishBlock block =>
      s.2.inserted = true ∧ block.head.parent = s.1.blockchain.value.tip
    | .insertBlock block =>
      ∀ parent ∈ s.1.blockchain.value.blocks.get block.head.parent, parent.2.toNat + 1 < 2 ^ 32
    | _ => True
  rely _ s s' := who = .minerWorker → ∀ block, Finished.Taken block s → Finished.Taken block s'

/-- No block arrives from the network, and the miner finishes a block on the present tip
and after its last block was inserted. -/
structure ExtendsOwn (node : RecordedNode Finished workers requests)
    (who : ThreadId workers requests) (choice : Choice) : Prop where
  blocks : choice.blocks = []
  finishing : ∀ block ∈ node.node.finishing who, node.shared.2.inserted = true ∧
    block.head.parent = node.shared.1.blockchain.value.tip
  inserting : ∀ block ∈ node.node.inserting who,
    ∀ parent ∈ node.shared.1.blockchain.value.blocks.get block.head.parent,
      parent.2.toNat + 1 < 2 ^ 32

variable {C} {build : Build} {s : Shared} {finished : Finished} {who : ThreadId workers requests}

theorem ownChain_initial (icoKey : Ed25519KeyPair) : OwnChain C (Shared.initial C icoKey) {} where
  chain := .nil
  settled _ := ⟨rfl, nofun⟩
  waiting := nofun

/-- A block on the tip becomes the tip. -/
theorem Blockchain.insert_tip {blockchain next : Blockchain} {block : Block}
    (hparent : block.head.parent = blockchain.tip)
    (hfit : ∀ parent ∈ blockchain.blocks.get block.head.parent, parent.2.toNat + 1 < 2 ^ 32)
    (hinsert : blockchain.insert C build block = .ok next) : next.tip = block.hash C := by
  obtain ⟨parent, parentHeight, height, tipBlock, tipHeight, hget, hheight, htip, -, hnext⟩ :=
    insert_ok hinsert
  rw [hparent, htip] at hget
  obtain ⟨rfl, rfl⟩ := Prod.mk.inj (Option.some.inj hget)
  have hlt : tipHeight.toNat + (1 : UInt32).toNat < 2 ^ 32 := hfit _ (hparent ▸ htip)
  obtain ⟨sum, hsum, hexact⟩ := addU32_of_lt build hlt
  have heq : height = sum := Option.some.inj (hheight.symm.trans hsum)
  have hgreater : height > tipHeight := by
    rw [gt_iff_lt, UInt32.lt_iff_toNat_lt, heq, hexact]
    exact Nat.lt_succ_self _
  rw [hnext, if_pos hgreater]

/-- An operation that neither inserts nor finishes a block. -/
theorem own_frame {op : Op} (h : OwnChain C s finished) (hblocks : op.writesBlocks = false)
    (hqueue : op.usesQueue = false) {s' : Shared} (hframe : op.Frame s s') :
    OwnChain C s' finished ∧
      ∀ block, Finished.Taken block (s, finished) → Finished.Taken block (s', finished) := by
  have htip := hframe.blocks hblocks
  have hchan := hframe.queue hqueue
  refine ⟨⟨h.chain, ?_, ?_⟩, fun block htaken => ⟨htaken.last, htaken.waiting, ?_⟩⟩
  · rw [htip, hchan]
    exact h.settled
  · rw [htip, hchan]
    exact h.waiting
  · exact hchan.trans htaken.queue

/-- Every operation keeps the chain, and only the worker inserts what it has taken. -/
theorem own_op (op : Op) (h : OwnChain C s finished)
    (hpre : (ownContract C who).pre op (s, finished))
    (hallowed : (ownContract C who).allowed op (s, finished)) :
    (Program.recording (Op.action C build) Finished.record op).wp
      (fun _ s' => OwnChain C s'.1 s'.2 ∧ (who ≠ .minerWorker →
        ∀ block, Finished.Taken block (s, finished) → Finished.Taken block s'))
      (fun _ s' => OwnChain C s'.1 s'.2 ∧ (who ≠ .minerWorker →
        ∀ block, Finished.Taken block (s, finished) → Finished.Taken block s'))
      (s, finished) := by
  rw [Program.wp_recording]
  cases op with
  | insertBlock block =>
      obtain ⟨hwho, htaken⟩ := hpre
      simp only [Op.action, wp_insertBlock]
      refine ⟨fun _ => ⟨h, fun _ _ => id⟩, fun _ => ?_⟩
      cases hinsert : s.blockchain.value.insert C build block with
      | error reason => exact ⟨⟨h.chain, h.settled, h.waiting⟩, fun hother => absurd hwho hother⟩
      | ok next =>
          -- The block that the worker took is the last one that the miner finished.
          obtain ⟨last, hlast, hparent, -⟩ := h.waiting htaken.waiting
          have hsame : block = last := Option.some.inj (htaken.last.symm.trans hlast)
          subst hsame
          refine ⟨⟨h.chain, fun _ => ⟨htaken.queue, fun other hother => ?_⟩, ?_⟩,
            fun hother => absurd hwho hother⟩
          · have hsame : block = other := Option.some.inj (htaken.last.symm.trans hother)
            exact hsame ▸ Blockchain.insert_tip hparent hallowed hinsert
          · intro hwaiting
            simp [Finished.record, htaken.last] at hwaiting
  | finishBlock block =>
      obtain ⟨hinserted, hparent⟩ := hallowed
      -- The miner builds on the tip, and the last finished block is the tip.
      obtain ⟨hempty, htip⟩ := h.settled hinserted
      refine ⟨⟨?_, fun hfalse => Bool.noConfusion hfalse,
        fun _ => ⟨block, ?_, hparent, Or.inl ?_⟩⟩, fun _ other htaken => ?_⟩
      · refine List.isChain_append.mpr ⟨h.chain, .singleton _, fun last hlast next hnext => ?_⟩
        have hsame : block = next := Option.some.inj hnext
        exact hsame ▸ hparent.trans (htip last hlast)
      · exact List.getLast?_concat
      · change s.finishedBlockChan ++ [block] = [block]
        rw [hempty, List.nil_append]
      · exact Bool.noConfusion (hinserted.symm.trans htaken.waiting)
  | takeFinishedBlock =>
      refine ⟨⟨h.chain, fun hinserted => ?_, fun hwaiting => ?_⟩, fun _ block htaken => ?_⟩
      · obtain ⟨hempty, htip⟩ := h.settled hinserted
        exact ⟨congrArg List.tail hempty, htip⟩
      · obtain ⟨block, hlast, hparent, hqueue⟩ := h.waiting hwaiting
        refine ⟨block, hlast, hparent, Or.inr ?_⟩
        rcases hqueue with hqueue | hqueue
        · exact congrArg List.tail hqueue
        · exact congrArg List.tail hqueue
      · exact ⟨htaken.last, htaken.waiting, congrArg List.tail htaken.queue⟩
  | _ =>
      refine Effect.wp_mono (Op.wp_frame C build _) (fun _ s' hframe => ?_) fun _ s' hframe => ?_
      · obtain ⟨hkept, hrely⟩ := own_frame h rfl rfl hframe
        exact ⟨hkept, fun _ => hrely⟩
      · obtain ⟨hkept, hrely⟩ := own_frame h rfl rfl hframe.1
        exact ⟨hkept, fun _ => hrely⟩

/-! ## The rounds meet the contract -/

/-- A program of the worker that meets the contract about finished blocks. -/
abbrev NodeProgram.OwnMeets {α : Type} (C : Crypto) (build : Build) (program : NodeProgram α)
    (who : ThreadId workers requests) (post : α → Shared × Finished → Prop)
    (s : Shared × Finished) : Prop :=
  Program.Meets (Program.recording (Op.action C build) Finished.record) (ownContract C who) post
    program s

/-- The rule for an operation between taking a block and inserting it. -/
theorem own_call {α : Type} {op : Op} {f : op.Result → NodeProgram α}
    {post : α → Shared × Finished → Prop} {block : Block} {s : Shared × Finished}
    (htaken : Finished.Taken block s) (hwho : who = .minerWorker)
    (hblocks : op.writesBlocks = false) (hqueue : op.usesQueue = false)
    (hnext : ∀ result s, Finished.Taken block s → (f result).OwnMeets C build who post s) :
    (call op >>= f).OwnMeets C build who post s := by
  intro s' hrely hinv
  have htaken' := hrely hwho block htaken
  obtain ⟨shared, finished⟩ := s'
  have hrecord : ∀ result, Finished.record op result shared finished = finished := by
    intro result
    cases op with
    | insertBlock block => cases hblocks
    | finishBlock block => cases hqueue
    | _ => rfl
  refine ⟨?_, fun _ => ?_⟩
  · cases op with
    | insertBlock block => cases hblocks
    | _ => trivial
  · rw [Program.wp_recording]
    refine Effect.wp_mono (Op.wp_frame C build op) (fun result s'' hframe _ => ?_)
      fun _ _ _ => trivial
    rw [hrecord]
    exact hnext result _ ((own_frame hinv hblocks hqueue hframe).2 block htaken')

theorem admitBlock_ownMeets {block : Block} {s : Shared × Finished}
    (htaken : Finished.Taken block s) (hwho : who = .minerWorker) :
    (admitBlock C build block).OwnMeets C build who (fun _ _ => True) s := by
  unfold admitBlock checkTxState
  rw [NodeProgram.OwnMeets, Program.meets_bind]
  refine own_call htaken hwho rfl rfl fun state s₁ htaken₁ => ?_
  split
  next => trivial
  next => exact fun _ _ _ => ⟨trivial, fun _ => trivial⟩
  next =>
    refine own_call htaken₁ hwho rfl rfl fun _ s₂ htaken₂ => ?_
    refine Program.meets_call fun s₃ hrely _ => ⟨⟨hwho, hrely hwho block htaken₂⟩, fun _ => ?_⟩
    exact Effect.wp_mono Effect.wp_true (fun _ _ _ _ => trivial) fun _ _ h => h

/-- The worker inserts the block that it took from the queue. -/
theorem minerWorkerRound_ownMeets (hwho : who = .minerWorker) (s : Shared × Finished) :
    (minerWorkerRound C build).OwnMeets C build who (fun _ _ => True) s := by
  unfold minerWorkerRound
  refine Program.meets_call fun s₁ _ hinv => ⟨trivial, fun _ => ?_⟩
  obtain ⟨shared, finished⟩ := s₁
  rw [Program.wp_recording]
  intro _
  cases hhead : shared.finishedBlockChan.head? with
  | none => trivial
  | some block =>
      have htaken : Finished.Taken block
          ({ shared with finishedBlockChan := shared.finishedBlockChan.tail }, finished) := by
        cases hinserted : finished.inserted with
        | true =>
            rw [(hinv.settled hinserted).1] at hhead
            cases hhead
        | false =>
            obtain ⟨last, hlast, -, hqueue | hqueue⟩ := hinv.waiting hinserted
            · rw [hqueue] at hhead
              obtain rfl : last = block := Option.some.inj hhead
              exact ⟨hlast, hinserted, congrArg List.tail hqueue⟩
            · rw [hqueue] at hhead
              cases hhead
      refine (Program.meets_bind _ _).mpr ((admitBlock_ownMeets htaken hwho).mono ?_)
      intro admitted s' _
      cases admitted with
      | false => trivial
      | true =>
          refine Program.meets_call (f := .done) fun _ _ _ => ⟨trivial, fun _ => ?_⟩
          exact Effect.wp_mono Effect.wp_true (fun _ _ _ _ => trivial) fun _ _ h => h

/-- Every round of every thread meets the contract when no block arrives. -/
theorem nodeBody_ownMeets {geneLoop : GeneLoop} {task : Task} {choice : Choice}
    {program : NodeProgram Task} (hblocks : choice.blocks = [])
    (hloop : task = .minerWorker ↔ who = .minerWorker)
    (hbody : nodeBody C build geneLoop task choice = some program) (s : Shared × Finished) :
    program.OwnMeets C build who (fun task _ => task = .minerWorker ↔ who = .minerWorker) s := by
  by_cases hwho : who = .minerWorker
  · obtain rfl := hloop.mpr hwho
    cases choice with
    | go =>
        obtain rfl := Option.some.inj hbody
        refine (Program.meets_bind _ _).mpr ((minerWorkerRound_ownMeets hwho s).mono ?_)
        exact fun _ _ _ => ⟨fun _ => hwho, fun _ => rfl⟩
    | _ => cases hbody
  · refine (nodeBody_readsBlocks (mt hloop.mp hwho) hblocks hbody).meets ?_ ?_
    · intro op hop s
      cases op with
      | insertBlock block => cases hop
      | _ => trivial
    · exact fun task _ htask => ⟨fun heq => absurd heq htask, fun heq => absurd heq hwho⟩

/-- When no block arrives, and the miner finishes each block on the present tip and only
after its last one was inserted, every block it finishes extends the one before. -/
theorem finishedBlocks_chain (C : Crypto) (build : Build) (geneLoop : GeneLoop)
    (icoKey : Ed25519KeyPair) (workers requests : Nat)
    (node : RecordedNode Finished workers requests)
    (hreach : (recordedMachine C build geneLoop Finished.record).Reachable ExtendsOwn
      (RecordedNode.start C icoKey {} workers requests) node) :
    node.shared.2.blocks.IsChain fun block next => next.head.parent = block.hash C := by
  refine (Program.Reachable.meetsEach (fun s => OwnChain C s.1 s.2) (ownContract C)
    (fun _ _ => True) (fun who task _ => task = .minerWorker ↔ who = .minerWorker)
    (fun _ _ => Iff.rfl) (fun _ _ _ _ _ => id) ?_ ?_ (fun _ _ _ _ _ _ _ => id) ?_ ?_
    hreach).1.chain
  · exact fun _ _ _ _ _ h h' hwho block htaken => h' hwho block (h hwho block htaken)
  · refine ⟨ownChain_initial icoKey, fun who => ⟨.start who, rfl, ?_⟩⟩
    cases who <;> simp [Task.start]
  · intro node who choice task program hguard _ _ hloop hbody
    exact nodeBody_ownMeets hguard.blocks hloop hbody _
  · intro node who choice op next hguard hthread hinv hpre
    have hallowed : (ownContract C who).allowed op node.shared := by
      cases op with
      | finishBlock block =>
          apply hguard.finishing
          rw [Node.finishing, RecordedNode.node, Program.forget, hthread]
          rfl
      | insertBlock block =>
          apply hguard.inserting
          rw [Node.inserting, RecordedNode.node, Program.forget, hthread]
          rfl
      | _ => trivial
    refine ⟨hallowed, Effect.wp_mono (own_op op hinv hpre hallowed) ?_ ?_⟩
    · exact fun _ s' h =>
        ⟨h.1, fun other hother hwho => h.2 fun heq => hother (hwho.trans heq.symm)⟩
    · exact fun _ s' h => ⟨trivial, h.1, fun other hother hwho =>
        h.2 fun heq => hother (hwho.trans heq.symm)⟩

/-- The only order of a mempool without transactions. -/
noncomputable def emptyIteration : HashMap.Iteration H256 SignedTransaction :=
  .ofOrder ∅ [] rfl

/-- The API starts the miner, and the miner finishes a first block. -/
noncomputable def mineFirst : List (ThreadId 0 1 × Choice) :=
  [(.api 0, .request (.minerStart 0)), (.api 0, .go), (.miner, .mine 0 0 emptyIteration),
    (.miner, .go)] ++ List.replicate 5 (.miner, .mine 1 0 emptyIteration)

theorem finishedBlocks_chain_twoBlocks :
    ∃ node : RecordedNode Finished 0 1, node.shared.2.blocks.length = 2 ∧
      node.shared.2.blocks.IsChain fun block next => next.head.parent = block.hash .sample := by
  have hrun : ((recordedMachine .sample .release sampleGeneLoop Finished.record).run
      (fun (node : RecordedNode Finished 0 1) who choice => decide (choice.blocks = [] ∧
        (∀ block ∈ node.node.finishing who, node.shared.2.inserted = true ∧
          block.head.parent = node.shared.1.blockchain.value.tip) ∧
        ∀ block ∈ node.node.inserting who,
          ∀ parent ∈ node.shared.1.blockchain.value.blocks.get block.head.parent,
            parent.2.toNat + 1 < 2 ^ 32))
      (RecordedNode.start .sample Crypto.sampleKey {} 0 1)
      (mineFirst ++ List.replicate 6 (.minerWorker, .go) ++
        List.replicate 5 (.miner, .mine 2 0 emptyIteration))).any
      (fun node : RecordedNode Finished 0 1 => node.shared.2.blocks.length == 2) = true := by
    decide +kernel
  have hguard : ∀ (node : RecordedNode Finished 0 1) who choice, (choice.blocks = [] ∧
      (∀ block ∈ node.node.finishing who, node.shared.2.inserted = true ∧
        block.head.parent = node.shared.1.blockchain.value.tip) ∧
      ∀ block ∈ node.node.inserting who,
        ∀ parent ∈ node.shared.1.blockchain.value.blocks.get block.head.parent,
          parent.2.toNat + 1 < 2 ^ 32) → ExtendsOwn node who choice :=
    fun _ _ _ h => ⟨h.1, h.2.1, h.2.2⟩
  obtain ⟨node, hreach, hcheck⟩ := Machine.exists_reachable
    (fun node who choice hallowed => hguard node who choice (of_decide_eq_true hallowed)) hrun
  exact ⟨node, eq_of_beq hcheck,
    finishedBlocks_chain .sample .release sampleGeneLoop Crypto.sampleKey 0 1 node hreach⟩

/-- A miner whose worker has not run builds its second block on the genesis block, too. -/
theorem not_finishedBlocks_chain :
    ¬ ∀ node : RecordedNode Finished 0 1,
      (recordedMachine .sample .release sampleGeneLoop Finished.record).Reachable
        (fun _ _ choice => choice.blocks = []) (RecordedNode.start .sample Crypto.sampleKey {} 0 1)
        node →
      node.shared.2.blocks.IsChain fun block next => next.head.parent = block.hash .sample := by
  intro hall
  have hrun : ((recordedMachine .sample .release sampleGeneLoop Finished.record).run
      (fun (_ : RecordedNode Finished 0 1) _ choice => decide (choice.blocks = []))
      (RecordedNode.start .sample Crypto.sampleKey {} 0 1)
      (mineFirst ++ List.replicate 5 (.miner, .mine 2 0 emptyIteration))).any
      (fun node : RecordedNode Finished 0 1 => decide (¬ node.shared.2.blocks.IsChain
        fun block next => next.head.parent = block.hash .sample)) = true := by
    decide +kernel
  obtain ⟨node, hreach, hcheck⟩ := Machine.exists_reachable
    (fun _ _ _ hallowed => of_decide_eq_true hallowed) hrun
  exact of_decide_eq_true hcheck (hall node hreach)

end BitcoinClient
