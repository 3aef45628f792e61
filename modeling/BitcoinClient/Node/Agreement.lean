import BitcoinClient.Node.ProofOfWork
import BitcoinClient.Node.Rounds

/-! # Agreement of ledger states and block contents

Between its test for a hash and its insert a worker gives up the locks, and only
the header is hashed. Two workers that handle the same header with different
transactions can therefore leave the state of one block beside the content of the
other. They disagree only after one of them replaced a different state that the
other had written: as long as no write does that, an entry of `block_state` never
changes, and it is the state of the content that is inserted next to it.
-/

namespace BitcoinClient

variable (C : Crypto) (build : Build)

/-- The state under a block's hash is that of its content on its parent's state. -/
def Executed (states : HashMap H256 State) (block : Block) : Prop :=
  ∃ parent state, states.get block.head.parent = some parent ∧
    checkTxs C build parent block.cont.st = .ok state ∧ states.get (block.hash C) = some state

/-- No entry of `block_state` is lost or changed. -/
def StatesKept (s s' : Shared) : Prop :=
  ∀ hash state, s.blockState.value.get hash = some state →
    s'.blockState.value.get hash = some state

/-- What the threads promise about stored contents. -/
def agreementContract : Program.Contract Op Shared where
  inv s := ∀ hash block height, s.blockchain.value.blocks.get hash = some (block, height) →
    block = Blockchain.genesis ∨ (block.hash C = hash ∧ Executed C build s.blockState.value block)
  pre op s :=
    match op with
    | .insertBlock block => Executed C build s.blockState.value block
    | _ => True
  allowed op s :=
    match op with
    | .writeBlockState hash state =>
      s.blockState.value.get hash = none ∨ s.blockState.value.get hash = some state
    | _ => True
  rely _ := StatesKept

/-- The next step of the thread does not replace a ledger state by a different one. -/
def ReplacesNoState {workers requests : Nat} (node : Node workers requests)
    (who : ThreadId workers requests) (_ : Choice) : Prop :=
  ∀ write ∈ node.writing who, node.shared.blockState.value.get write.1 = none ∨
    node.shared.blockState.value.get write.1 = some write.2

variable {C build} {s s' : Shared}

theorem Executed.mono {block : Block} (h : Executed C build s.blockState.value block)
    (hkept : StatesKept s s') : Executed C build s'.blockState.value block := by
  obtain ⟨parent, state, hparent, hcheck, hstate⟩ := h
  exact ⟨parent, state, hkept _ _ hparent, hcheck, hkept _ _ hstate⟩

/-- A write of a new entry, or of the same one, keeps all entries. -/
theorem StatesKept.insert {hash : H256} {state : State}
    (h : s.blockState.value.get hash = none ∨ s.blockState.value.get hash = some state) :
    ∀ other kept, s.blockState.value.get other = some kept →
      (s.blockState.value.insert hash state).get other = some kept := by
  intro other kept hget
  rw [HashMap.get_insert]
  split
  next heq =>
    subst heq
    rcases h with hnone | hsome
    · rw [hget] at hnone
      cases hnone
    · exact hsome.symm.trans hget
  next => exact hget

theorem agreement_initial (icoKey : Ed25519KeyPair) :
    (agreementContract C build).inv (Shared.initial C icoKey) := by
  intro hash block height hget
  simp only [Shared.initial, Blockchain.new, HashMap.get_insert, HashMap.get_empty,
    Option.ite_none_right_eq_some, Option.some.injEq, Prod.mk.injEq] at hget
  exact Or.inl hget.2.1.symm

/-- The inserted content has the state that is stored for its hash. -/
theorem agreement_insert {block : Block} {next : Blockchain}
    (hinv : (agreementContract C build).inv s) (hblock : Executed C build s.blockState.value block)
    (hinsert : s.blockchain.value.insert C build block = .ok next) :
    (agreementContract C build).inv
      { s with blockchain := { s.blockchain with value := next } } := by
  obtain ⟨_, _, height, _, _, _, _, _, hblocks, _⟩ := Blockchain.insert_ok hinsert
  intro hash block' height' hget
  change next.blocks.get hash = _ at hget
  rw [hblocks] at hget
  rcases HashMap.of_get_insert hget with ⟨rfl, heq⟩ | hget
  · cases heq
    exact Or.inr ⟨rfl, hblock⟩
  · exact hinv hash block' height' hget

theorem agreement_op (op : Op) (hinv : (agreementContract C build).inv s)
    (hpre : (agreementContract C build).pre op s)
    (hallowed : (agreementContract C build).allowed op s) :
    (op.action C build).wp (fun _ s' => (agreementContract C build).inv s' ∧ StatesKept s s')
      (fun _ s' => (agreementContract C build).inv s' ∧ StatesKept s s') s := by
  have hframe : ∀ s', op.writesBlocks = false → op.writesStates = false → op.Frame s s' →
      (agreementContract C build).inv s' ∧ StatesKept s s' := by
    intro s' hblocks hstates h
    constructor
    · intro hash block height hget
      rw [h.blocks hblocks] at hget
      rw [h.states hstates]
      exact hinv hash block height hget
    · intro hash state hget
      rwa [h.states hstates]
  cases op with
  | insertBlock block =>
      simp only [Op.action, wp_insertBlock]
      refine ⟨fun _ => ⟨hinv, fun _ _ => id⟩, fun _ => ?_⟩
      split
      next next hinsert => exact ⟨agreement_insert hinv hpre hinsert, fun _ _ => id⟩
      next => exact ⟨hinv, fun _ _ => id⟩
  | writeBlockState hash state =>
      simp only [Op.action, wp_writeBlockState]
      refine ⟨fun _ => ⟨hinv, fun _ _ => id⟩, fun _ => ?_⟩
      refine ⟨fun other block height hget => ?_, StatesKept.insert hallowed⟩
      exact (hinv other block height hget).imp_right fun h =>
        ⟨h.1, h.2.mono (StatesKept.insert hallowed)⟩
  | _ =>
      exact Effect.wp_mono (Op.wp_frame C build _) (fun _ s' h => hframe s' rfl rfl h)
        fun _ s' h => hframe s' rfl rfl h.1

/-- Both workers admit a block only with the state of its content in place. -/
theorem admitBlock_agrees (block : Block) (s : Shared) :
    (admitBlock C build block).Meets (Op.action C build) (agreementContract C build)
      (fun _ _ => True) s := by
  unfold admitBlock checkTxState
  rw [Program.meets_bind]
  refine Program.meets_call fun s₁ _ _ => ⟨trivial, fun _ => ?_⟩
  simp only [Op.action, wp_readBlockState]
  refine ⟨fun _ => trivial, fun _ => ?_⟩
  split
  next parent hparent =>
    intro _
    split
    next => trivial
    next => exact fun _ _ _ => ⟨trivial, fun _ => trivial⟩
    next state hcheck =>
      refine Program.meets_call fun s₂ hkept₂ _ => ⟨trivial, fun hallowed => ?_⟩
      simp only [Op.action, wp_writeBlockState]
      refine ⟨fun _ => trivial, fun _ _ => ?_⟩
      refine Program.meets_call fun s₃ hkept₃ _ => ⟨?_, fun _ => ?_⟩
      · have hparent₃ := hkept₃ _ _ (StatesKept.insert hallowed _ _ (hkept₂ _ _ hparent))
        exact ⟨parent, state, hparent₃, hcheck, hkept₃ _ _ (HashMap.get_insert_self _ _ _)⟩
      · exact Effect.wp_mono Effect.wp_true (fun _ _ _ _ => trivial) fun _ _ h => h
  next => trivial

/-- Rounds meet the contract because blocks are inserted in no other way. -/
theorem part_agrees {α : Type} {program : NodeProgram α} (h : IsPart C build α program)
    (s : Shared) :
    program.Meets (Op.action C build) (agreementContract C build) (fun _ _ => True) s := by
  have hpre : ∀ op : Op, op.isFree = true → ∀ s, (agreementContract C build).pre op s := by
    intro op hfree s
    cases op with
    | insertBlock block => cases hfree
    | _ => trivial
  cases h with
  | admitBlock block => exact admitBlock_agrees block s
  | answerGetTransactions peer hashes =>
      exact (answerGetTransactions_free peer hashes).meets hpre fun _ _ _ => trivial
  | storeTransaction newTrans trans =>
      exact (storeTransaction_free newTrans trans).meets hpre fun _ _ _ => trivial
  | generate geneLoop generator iteration =>
      exact (generate_free geneLoop generator iteration).meets hpre fun _ _ _ => trivial

/-- While no thread replaces a ledger state by a different one, every stored block but
the genesis block agrees with its state, at idle threads and busy ones. -/
theorem storedBlocks_agree (C : Crypto) (build : Build) (geneLoop : GeneLoop)
    (icoKey : Ed25519KeyPair) (workers requests : Nat) (node : Node workers requests)
    (hreach : (nodeMachine C build geneLoop).Reachable ReplacesNoState
      (Node.start C icoKey workers requests) node)
    (hash : H256) (block : Block) (height : UInt32)
    (hstored : node.shared.blockchain.value.blocks.get hash = some (block, height))
    (hgenesis : block ≠ Blockchain.genesis) :
    ∃ parent state, node.shared.blockState.value.get block.head.parent = some parent ∧
      checkTxs C build parent block.cont.st = .ok state ∧
      node.shared.blockState.value.get hash = some state := by
  have hinv : (agreementContract C build).inv node.shared := by
    refine (Program.Reachable.meets (agreementContract C build) (fun _ => True)
      (fun _ _ => True) (fun _ _ _ _ => id)
      (fun _ _ _ _ h h' hash state hget => h' hash state (h hash state hget)) ?_
      (fun _ _ _ _ _ _ => id) ?_ ?_ hreach).1
    · exact ⟨agreement_initial icoKey, fun who => ⟨.start who, rfl, trivial⟩⟩
    · intro node who choice task program _ _ _ _ hbody
      refine (nodeBody_composed hbody).meets ?_ (fun _ => part_agrees) _
      intro op hplain s
      cases op with
      | insertBlock block => cases hplain
      | _ => trivial
    · intro node who choice op next hguard hthread hinv hpre
      have hallowed : (agreementContract C build).allowed op node.shared := by
        cases op with
        | writeBlockState hash state =>
            apply hguard (hash, state)
            rw [Node.writing, hthread]
            rfl
        | _ => trivial
      refine ⟨hallowed, Effect.wp_mono (agreement_op op hinv hpre hallowed) ?_ ?_⟩
      · exact fun _ _ h => ⟨h.1, fun _ _ => h.2⟩
      · exact fun _ _ h => ⟨trivial, h.1, fun _ _ => h.2⟩
  obtain rfl | ⟨rfl, hexecuted⟩ := hinv hash block height hstored
  · exact absurd rfl hgenesis
  · exact hexecuted

/-- A block with the header of `uncommittedBlock` that moves the initial coin. -/
def movingBlock : Block := ⟨uncommittedBlock.head, ⟨[moveInitialCoin]⟩⟩

/-- Both workers test for the hash before either stores it. The second one replaces
the state that the first one wrote and inserts before it. -/
def raceForOneHash (first second : Block) : List (ThreadId 2 0 × Choice) :=
  [(.network 0, .deliver 0 (.blocks [first])), (.network 1, .deliver 1 (.blocks [second]))] ++
  List.replicate 5 (.network 0, .go) ++ List.replicate 7 (.network 1, .go) ++
  List.replicate 2 (.network 0, .go)

/-- With one content for both of them the state that is replaced is the same. -/
theorem storedBlocks_agree_movingBlock : ∃ (node : Node 2 0) (parent state : State),
    node.shared.blockchain.value.blocks.get (movingBlock.hash .sample) = some (movingBlock, 1) ∧
      node.shared.blockState.value.get movingBlock.head.parent = some parent ∧
      checkTxs .sample .release parent [moveInitialCoin] = .ok state ∧
      node.shared.blockState.value.get (movingBlock.hash .sample) = some state := by
  have hrun : ((nodeMachine .sample .release sampleGeneLoop).run
      (fun (node : Node 2 0) who _ => decide (∀ write ∈ node.writing who,
        node.shared.blockState.value.get write.1 = none ∨
          node.shared.blockState.value.get write.1 = some write.2))
      (Node.start .sample Crypto.sampleKey 2 0) (raceForOneHash movingBlock movingBlock)).any
        (fun node : Node 2 0 => decide (node.shared.blockchain.value.blocks.get
          (movingBlock.hash .sample) = some (movingBlock, 1))) = true := by
    decide +kernel
  obtain ⟨node, hreach, hcheck⟩ :=
    Machine.exists_reachable (fun _ _ _ hallowed => of_decide_eq_true hallowed) hrun
  have hstored := of_decide_eq_true hcheck
  obtain ⟨parent, state, hagrees⟩ := storedBlocks_agree .sample .release sampleGeneLoop
    Crypto.sampleKey 2 0 node hreach _ _ _ hstored (by decide +kernel)
  exact ⟨node, parent, state, hstored, hagrees⟩

/-- With two workers a block is stored beside the state of another content. -/
theorem not_storedBlocks_agree :
    ¬ ∀ node : Node 2 0, (nodeMachine .sample .release sampleGeneLoop).Reachable
      (fun _ _ _ => True) (Node.start .sample Crypto.sampleKey 2 0) node →
      (∀ i, node.isIdle (.network i) = true) →
      ∀ hash block height, node.shared.blockchain.value.blocks.get hash = some (block, height) →
        block ≠ Blockchain.genesis →
        ∃ parent state, node.shared.blockState.value.get block.head.parent = some parent ∧
          checkTxs .sample .release parent block.cont.st = .ok state ∧
          node.shared.blockState.value.get hash = some state := by
  intro hall
  let hash := uncommittedBlock.hash .sample
  have hrun : ((nodeMachine .sample .release sampleGeneLoop).run (fun _ _ _ => true)
      (Node.start .sample Crypto.sampleKey 2 0)
        (raceForOneHash uncommittedBlock movingBlock)).any (fun node : Node 2 0 => decide (
          (∀ i, node.isIdle (.network i) = true) ∧
          node.shared.blockchain.value.blocks.get hash = some (uncommittedBlock, 1) ∧
          node.shared.blockState.value.get uncommittedBlock.head.parent =
            some (State.new .sample Crypto.sampleKey) ∧
          node.shared.blockState.value.get hash ≠
            some (State.new .sample Crypto.sampleKey))) = true := by decide +kernel
  obtain ⟨node, hreach, hcheck⟩ := Machine.exists_reachable (fun _ _ _ _ => trivial) hrun
  obtain ⟨hidle, hstored, hparent, hstate⟩ := of_decide_eq_true hcheck
  obtain ⟨parent, state, hparent', htxs, hstate'⟩ :=
    hall node hreach hidle hash uncommittedBlock 1 hstored (by decide +kernel)
  -- The stored content has no transactions, so its state is the parent's.
  obtain rfl : parent = state := Except.ok.inj htxs
  exact hstate (hstate'.trans (hparent'.symm.trans hparent))

end BitcoinClient
