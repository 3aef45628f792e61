import BitcoinClient.Foundation.Interference
import BitcoinClient.Node.ChainPrograms
import BitcoinClient.Node.OffMiner
import BitcoinClient.Node.StoredContent

/-! # The books of the miner

The miner keeps two vectors side by side: the transactions that it tries to mine and their
hashes, by which it removes them from the mempool once a block with them is queued. They
are filled together and cleared together, and nothing that happens to the mempool or the
block tree in between gets them out of step: other threads may change the shared memory
between any two steps of the miner, as long as the mempool keeps every transaction under
its hash.
-/

namespace BitcoinClient

open NodeProgram (call)

/-- What the miner does to the queue of mined blocks and to the mempool. -/
inductive MinerEvent where
  | sent (block : Block)
  | removed (hash : H256)
deriving DecidableEq

/-- The event that an operation is. -/
def Op.minerEvent : Op → Option MinerEvent
  | finishBlock block => some (.sent block)
  | mempoolRemove hash => some (.removed hash)
  | _ => none

def MinerEvent.record (op : Op) (_ : op.Result) (_ : Shared) (events : List MinerEvent) :
    List MinerEvent :=
  events ++ op.minerEvent.toList

section Definitions

variable (C : Crypto)

/-- A block is sent, and then exactly its transactions are removed. -/
def Block.minedEvents (block : Block) : List MinerEvent :=
  .sent block :: block.cont.st.map fun st => .removed (st.hash C)

/-- What the miner promises about a block that it sends. -/
structure FinishedBlock (block : Block) : Prop where
  commits : Commits C block
  size : block.cont.st.length ≤ blockSize
  distinct : block.cont.st.Nodup
  work : block.hash C ≤ block.head.difficulty

/-- Everything that the blocks sent so far call for has been done. -/
def BooksClosed (events : List MinerEvent) : Prop :=
  ∃ blocks : List Block, (∀ block ∈ blocks, FinishedBlock C block) ∧
    events = blocks.flatMap (Block.minedEvents C)

/-- Possibly in the middle of the removals for the last block. -/
def BooksOpen (events : List MinerEvent) : Prop :=
  ∃ blocks : List Block, (∀ block ∈ blocks, FinishedBlock C block) ∧
    events <+: blocks.flatMap (Block.minedEvents C)

/-- The two vectors of the miner agree. -/
structure Miner.Balanced (miner : Miner) : Prop where
  hashes : miner.toRemove = miner.transaction.map (SignedTransaction.hash C)
  distinct : miner.toRemove.Nodup
  size : miner.toRemove.length ≤ blockSize

/-- The mempool keeps every transaction under its hash. -/
def MempoolAddressed (s : Shared) : Prop :=
  ∀ hash st, s.mempool.value.trans.get hash = some st → st.hash C = hash

/-- What the threads beside the miner may do to the memory. -/
def OtherThreads (s s' : Shared × List MinerEvent) : Prop :=
  MempoolAddressed C s'.1 ∧ s'.2 = s.2

/-- What the miner does, in terms of the memory. -/
def minerContract : Program.Contract Op (Shared × List MinerEvent) where
  inv s := MempoolAddressed C s.1 ∧ BooksOpen C s.2
  pre op s := BooksOpen C (s.2 ++ op.minerEvent.toList) ∧ ∀ hash st, op ≠ .mempoolInsert hash st
  allowed _ _ := True
  rely _ s s' := s'.2 = s.2

/-- What the miner knows between two iterations. -/
def booksLoop : Task → Shared × List MinerEvent → Prop
  | .miner miner, s => miner.Balanced C ∧ BooksClosed C s.2
  | .exited, _ => True
  | _, _ => False

end Definitions

variable {C : Crypto} {build : Build}

theorem BooksClosed.isOpen {events : List MinerEvent} (h : BooksClosed C events) :
    BooksOpen C events := by
  obtain ⟨blocks, hblocks, rfl⟩ := h
  exact ⟨blocks, hblocks, List.prefix_rfl⟩

theorem BooksOpen.of_prefix {events events' : List MinerEvent} (h : BooksOpen C events')
    (hstart : events <+: events') : BooksOpen C events := by
  obtain ⟨blocks, hblocks, hevents⟩ := h
  exact ⟨blocks, hblocks, hstart.trans hevents⟩

/-- Every block that was sent is one of those. -/
theorem BooksOpen.finished {events : List MinerEvent} {block : Block} (h : BooksOpen C events)
    (hsent : .sent block ∈ events) : FinishedBlock C block := by
  obtain ⟨blocks, hblocks, hstart⟩ := h
  obtain ⟨other, hother, hmem⟩ := List.mem_flatMap.mp (hstart.subset hsent)
  rcases List.mem_cons.mp hmem with heq | hmem
  · exact MinerEvent.sent.inj heq ▸ hblocks other hother
  · obtain ⟨_, _, heq⟩ := List.mem_map.mp hmem
    cases heq

theorem BooksClosed.send {events : List MinerEvent} {block : Block} (h : BooksClosed C events)
    (hblock : FinishedBlock C block) : BooksClosed C (events ++ block.minedEvents C) := by
  obtain ⟨blocks, hblocks, rfl⟩ := h
  refine ⟨blocks ++ [block], fun other hmem => ?_, by simp⟩
  rcases List.mem_append.mp hmem with hmem | hmem
  · exact hblocks other hmem
  · exact List.mem_singleton.mp hmem ▸ hblock

/-- The empty vectors agree. -/
theorem Miner.Balanced.cleared (operatingState : OperatingState) :
    Miner.Balanced C ⟨operatingState, [], []⟩ :=
  ⟨rfl, List.nodup_nil, Nat.zero_le _⟩

theorem Miner.Balanced.nodup {miner : Miner} (h : miner.Balanced C) : miner.transaction.Nodup :=
  List.Nodup.of_map _ (h.hashes ▸ h.distinct)

theorem Miner.Balanced.length_le {miner : Miner} (h : miner.Balanced C) :
    miner.transaction.length ≤ blockSize := by
  have hsize := h.size
  rwa [h.hashes, List.length_map] at hsize

/-- No operation of the miner disturbs the mempool's keys. -/
theorem mempoolAddressed_kept {op : Op} {s : Shared} (h : MempoolAddressed C s)
    (hop : ∀ hash st, op ≠ .mempoolInsert hash st) :
    (op.action C build).wp (fun _ s' => MempoolAddressed C s') (fun _ s' => MempoolAddressed C s')
      s := by
  have hsame : ∀ s', s'.mempool.value = s.mempool.value → MempoolAddressed C s' := by
    intro s' hmempool hash st hget
    rw [hmempool] at hget
    exact h hash st hget
  cases op with
  | mempoolInsert hash st => exact absurd rfl (hop hash st)
  | mempoolRemove hash =>
      simp only [Op.action, wp_mempoolRemove]
      exact ⟨fun _ => h, fun _ => HashMap.forall_remove h⟩
  | mempoolContains hash =>
      simp only [Op.action, wp_mempoolContains]
      exact ⟨fun _ => h, fun _ => h⟩
  | mempoolGet hash =>
      simp only [Op.action, wp_mempoolGet]
      refine ⟨fun _ => h, fun _ => ?_⟩
      split
      next => exact h
      next => exact hsame _ rfl
  | iterateMempool iteration limit =>
      simp only [Op.action, iterateMempool, wp_withMempool]
      exact ⟨fun _ => h, fun _ => h⟩
  | _ =>
      refine Effect.wp_mono (Op.wp_frame C build _) (fun _ s' hframe => ?_) fun _ s' hframe => ?_
      · exact hsame s' (congrArg _ (hframe.mempool rfl))
      · exact hsame s' (congrArg _ (hframe.1.mempool rfl))

/-- An operation that the contract allows keeps the invariant and adds its event. -/
theorem miner_op (op : Op) {s : Shared × List MinerEvent} (hinv : (minerContract C).inv s)
    (hpre : (minerContract C).pre op s) :
    (Program.recording (Op.action C build) MinerEvent.record op).wp
      (fun _ s' => (minerContract C).inv s' ∧ s'.2 = s.2 ++ op.minerEvent.toList)
      (fun _ s' => (minerContract C).inv s' ∧ s'.2 = s.2) s := by
  obtain ⟨shared, events⟩ := s
  rw [Program.wp_recording]
  refine Effect.wp_mono (mempoolAddressed_kept hinv.1 hpre.2) ?_ ?_
  · exact fun _ s' haddressed => ⟨⟨haddressed, hpre.1⟩, rfl⟩
  · exact fun _ s' haddressed => ⟨⟨haddressed, hinv.2⟩, rfl⟩

/-! ## One iteration -/

/-- A program that meets the miner's contract. -/
abbrev NodeProgram.MinerMeets {α : Type} (C : Crypto) (build : Build)
    (post : α → Shared × List MinerEvent → Prop) (program : NodeProgram α)
    (s : Shared × List MinerEvent) : Prop :=
  Program.Meets (Program.recording (Op.action C build) MinerEvent.record) (minerContract C) post
    program s

/-- The rule for one operation. `info` is what its result says about the transactions that
are to be removed. -/
theorem miner_perform {α : Type} {op : Op} {next : op.Result → NodeProgram α}
    {post : α → Shared × List MinerEvent → Prop} {s : Shared × List MinerEvent}
    (info : op.Result → Prop) (hbooks : BooksOpen C (s.2 ++ op.minerEvent.toList))
    (hop : ∀ hash st, op ≠ .mempoolInsert hash st)
    (hinfo : ∀ s', MempoolAddressed C s' →
      (op.action C build).wp (fun result _ => info result) (fun _ _ => True) s')
    (hnext : ∀ result s', info result → s'.2 = s.2 ++ op.minerEvent.toList →
      NodeProgram.MinerMeets C build post (next result) s') :
    NodeProgram.MinerMeets C build post (call op >>= next) s := by
  intro s' hrely hinv
  have hpre : (minerContract C).pre op s' := ⟨hrely ▸ hbooks, hop⟩
  refine ⟨hpre, fun _ => ?_⟩
  have hresult : (Program.recording (Op.action C build) MinerEvent.record op).wp
      (fun result _ => info result) (fun _ _ => True) s' :=
    Program.wp_recording.mpr (hinfo s'.1 hinv.1)
  refine Effect.wp_and (miner_op op hinv hpre) hresult ?_ fun _ _ _ _ => trivial
  intro result s'' hkept hinfo _
  exact hnext result s'' hinfo (hkept.2.trans (congrArg (· ++ _) hrely))

/-- The rule for an operation that is no event. -/
theorem miner_perform_any {α : Type} {op : Op} {next : op.Result → NodeProgram α}
    {post : α → Shared × List MinerEvent → Prop} {s : Shared × List MinerEvent}
    (hbooks : BooksOpen C s.2) (hevent : op.minerEvent = none)
    (hop : ∀ hash st, op ≠ .mempoolInsert hash st)
    (hnext : ∀ result s', s'.2 = s.2 → NodeProgram.MinerMeets C build post (next result) s') :
    NodeProgram.MinerMeets C build post (call op >>= next) s := by
  have hsame : s.2 ++ op.minerEvent.toList = s.2 := by
    rw [hevent]
    exact List.append_nil _
  refine miner_perform (fun _ => True) ?_ hop (fun _ _ => Effect.wp_true) ?_
  · rw [hsame]
    exact hbooks
  · exact fun result s' _ hevents => hnext result s' (hevents.trans hsame)

/-- The loop that removes what was mined. -/
theorem removal_minerMeets {items : List H256} {s : Shared × List MinerEvent}
    (hbooks : BooksOpen C (s.2 ++ items.map .removed)) :
    NodeProgram.MinerMeets C build (fun _ s' => s'.2 = s.2 ++ items.map .removed)
      (items.forM fun item => call (.mempoolRemove item)) s := by
  induction items generalizing s with
  | nil => exact (List.append_nil s.2).symm
  | cons item rest ih =>
      change NodeProgram.MinerMeets C build _
        (call (.mempoolRemove item) >>= fun _ => rest.forM fun item => call (.mempoolRemove item)) s
      rw [List.map_cons, List.append_cons] at hbooks
      refine miner_perform (fun _ => True) (hbooks.of_prefix (List.prefix_append _ _)) nofun
        (fun _ _ => Effect.wp_true) fun _ s' _ hevents => ?_
      have hevents' : s'.2 = s.2 ++ [.removed item] := hevents
      refine Program.Meets.mono (ih (hevents' ▸ hbooks)) fun _ s'' hrest => ?_
      rw [hrest, hevents', List.append_assoc]
      rfl

/-- A block that meets the difficulty is sent, and its transactions are removed. -/
theorem mineBlock_minerMeets {miner : Miner} (nonce : UInt32) (timestamp : BitVec 128)
    {s : Shared × List MinerEvent} (hbalanced : miner.Balanced C) (hbooks : BooksClosed C s.2) :
    NodeProgram.MinerMeets C build (fun miner s => miner.Balanced C ∧ BooksClosed C s.2)
      (mineBlock C miner nonce timestamp) s := by
  obtain ⟨tree, root, htree, hroot⟩ :=
    MerkleTree.new_root_ok (C := C) (SignedTransaction.hash C) miner.transaction
  simp only [mineBlock, htree, NodeProgram.ofExcept, Program.done_bind, hroot]
  refine miner_perform_any hbooks.isOpen rfl (fun _ _ heq => by cases heq)
    fun parent s₁ hevents₁ => ?_
  have hbooks₁ : BooksClosed C s₁.2 := hevents₁ ▸ hbooks
  split
  next hwork =>
    have hfinished : FinishedBlock C
        ⟨⟨parent, nonce, Blockchain.genesisDifficulty, timestamp, root⟩, ⟨miner.transaction⟩⟩ :=
      ⟨⟨tree, htree, hroot⟩, hbalanced.length_le, hbalanced.nodup, hwork⟩
    have hclosed := hbooks₁.send hfinished
    have hsplit : ∀ block : Block, block.cont.st = miner.transaction →
        s₁.2 ++ block.minedEvents C = s₁.2 ++ [.sent block] ++ miner.toRemove.map .removed := by
      intro block hcontent
      rw [Block.minedEvents, hcontent, hbalanced.hashes, List.map_map, List.append_cons]
      rfl
    rw [hsplit _ rfl] at hclosed
    refine miner_perform (fun _ => True) (hclosed.isOpen.of_prefix (List.prefix_append _ _))
      (fun _ _ heq => by cases heq) (fun _ _ => Effect.wp_true) fun _ s₂ _ hevents₂ => ?_
    rw [NodeProgram.MinerMeets, Program.meets_bind]
    have hevents₂' : s₂.2 = s₁.2 ++ [.sent _] := hevents₂
    refine Program.Meets.mono (removal_minerMeets (hevents₂' ▸ hclosed.isOpen))
      fun _ s₃ hevents₃ => ?_
    refine ⟨.cleared _, ?_⟩
    rw [hevents₃, hevents₂']
    exact hclosed
  next => exact ⟨hbalanced, hbooks₁⟩

/-- The mempool's keys are the hashes of what is copied from it, each met once. -/
theorem selectTransactions_minerMeets {miner : Miner}
    (iteration : HashMap.Iteration H256 SignedTransaction) {s : Shared × List MinerEvent}
    (hbalanced : miner.Balanced C) (hbooks : BooksClosed C s.2) :
    NodeProgram.MinerMeets C build (fun miner s => miner.Balanced C ∧ BooksClosed C s.2)
      (selectTransactions miner iteration) s := by
  unfold selectTransactions
  split
  next hempty =>
    have hremove : miner.toRemove = [] := List.length_eq_zero_iff.mp hempty
    have htransaction : miner.transaction = [] := by
      rw [← List.map_eq_nil_iff, ← hbalanced.hashes, hremove]
    refine miner_perform (fun entries => entries.map Prod.fst =
        entries.map (fun entry => entry.2.hash C) ∧ (entries.map Prod.fst).Nodup ∧
        entries.length ≤ blockSize) ?_ nofun (fun s' haddressed => ?_) ?_
    · exact (List.append_nil s.2).symm ▸ hbooks.isOpen
    · simp only [Op.action, iterateMempool, wp_withMempool]
      refine ⟨fun _ => trivial, fun _ => ⟨?_, ?_, List.length_take_le _ _⟩⟩
      · refine List.map_congr_left fun entry hentry => ?_
        have hget := (HashMap.Enumerates.mem_iff (iteration.enumerates _)).mp
          (List.mem_of_mem_take hentry)
        exact (haddressed _ _ hget).symm
      · have hnodup := (iteration.enumerates s'.mempool.value.trans).nodup_keys
        exact hnodup.sublist ((List.take_sublist _ _).map _)
    · rintro entries s' ⟨hkeys, hnodup, hlength⟩ hevents
      refine ⟨⟨?_, ?_, ?_⟩, ?_⟩
      · simp only [hremove, htransaction, List.nil_append, List.map_map]
        exact hkeys
      · simpa only [hremove, List.nil_append] using hnodup
      · simpa only [hremove, List.nil_append, List.length_map] using hlength
      · exact hevents.trans (List.append_nil s.2) ▸ hbooks
  next => exact ⟨hbalanced, hbooks⟩

theorem minerRound_minerMeets {miner : Miner} (nonce : UInt32) (timestamp : BitVec 128)
    (iteration : HashMap.Iteration H256 SignedTransaction) {s : Shared × List MinerEvent}
    (hbalanced : miner.Balanced C) (hbooks : BooksClosed C s.2) :
    NodeProgram.MinerMeets C build
      (fun result s => ∀ miner ∈ result, miner.Balanced C ∧ BooksClosed C s.2)
      (minerRound C miner nonce timestamp iteration) s := by
  have hturn : ∀ operatingState, Miner.Balanced C { miner with operatingState } :=
    fun _ => ⟨hbalanced.hashes, hbalanced.distinct, hbalanced.size⟩
  unfold minerRound
  split
  next =>
    refine miner_perform_any hbooks.isOpen rfl nofun fun signal s' hevents => ?_
    rintro miner ⟨⟩
    exact ⟨hturn _, hevents ▸ hbooks⟩
  next => exact nofun
  next =>
    refine miner_perform_any hbooks.isOpen rfl nofun fun signal s₁ hevents₁ => ?_
    simp only
    split
    next => exact nofun
    next =>
      rw [NodeProgram.MinerMeets, Program.meets_bind]
      refine Program.Meets.mono (selectTransactions_minerMeets iteration (hturn _)
        (hevents₁ ▸ hbooks)) fun selected s₂ hselected => ?_
      rw [Program.meets_bind]
      refine Program.Meets.mono (mineBlock_minerMeets nonce timestamp hselected.1 hselected.2)
        fun mined s₃ hmined => ?_
      rintro _ ⟨⟩
      exact hmined

/-! ## Whole runs -/

/-- The miner keeps its books in every environment that keeps the mempool's keys. -/
theorem alone_minerContract {geneLoop : GeneLoop} {s₀ s : Shared × List MinerEvent}
    {thread : Program.Thread Panic Op Op.Result Task} (haddressed : MempoolAddressed C s₀.1)
    (hevents : s₀.2 = [])
    (h : (recordedMachine C build geneLoop MinerEvent.record).Alone (OtherThreads C) s₀
      (.ok (.done (.miner {}))) s thread) :
    (minerContract C).inv s ∧ thread.Meets
      (Program.recording (Op.action C build) MinerEvent.record) (minerContract C) (fun _ => True)
      (booksLoop C) s := by
  have hclosed : BooksClosed C s₀.2 := ⟨[], nofun, hevents⟩
  have hstart : booksLoop C (.miner {}) s₀ := ⟨.cleared _, hclosed⟩
  refine Program.Alone.meets (fun _ => True) (booksLoop C) (fun _ _ => rfl)
    (fun _ _ _ _ h h' => h'.trans h) ⟨⟨haddressed, hclosed.isOpen⟩, hstart⟩ ?_ ?_ ?_ ?_ h
  · intro task s s' hrely _ _ hloop
    cases task with
    | miner miner =>
        have hsame : s'.2 = s.2 := hrely
        exact ⟨hloop.1, hsame ▸ hloop.2⟩
    | exited => trivial
    | _ => exact hloop
  · intro s s' hinv hchange
    exact ⟨⟨hchange.1, hchange.2 ▸ hinv.2⟩, fun _ => hchange.2⟩
  · intro task choice program s _ hloop hbody
    cases task with
    | miner miner =>
        cases choice with
        | mine nonce timestamp iteration =>
            cases hbody
            refine (Program.meets_bind _ _).mpr (Program.Meets.mono
              (minerRound_minerMeets nonce timestamp iteration hloop.1 hloop.2) ?_)
            intro result s' hresult
            cases result with
            | none => trivial
            | some next => exact hresult next rfl
        | _ => cases hbody
    | exited => cases hbody
    | _ => exact hloop.elim
  · intro op s hinv hpre
    refine ⟨trivial, Effect.wp_mono (miner_op op hinv hpre) ?_ ?_⟩
    · exact fun _ _ hkept => hkept.1
    · exact fun _ _ hkept => ⟨trivial, hkept.1⟩

/-- At the start of every iteration the miner's two vectors agree, without repetition and
within the block size, and everything that was sent had its transactions removed. At any
time what it has done is the beginning of such a list: well-formed blocks, each followed
by the removal of its transactions. -/
theorem minerLoop_keepsBooks (C : Crypto) (build : Build) (geneLoop : GeneLoop) (s₀ : Shared)
    (haddressed : MempoolAddressed C s₀) (s : Shared) (events : List MinerEvent)
    (thread : Program.Thread Panic Op Op.Result Task)
    (h : (recordedMachine C build geneLoop MinerEvent.record).Alone (OtherThreads C) (s₀, [])
      (.ok (.done (.miner {}))) (s, events) thread) :
    (∀ miner, thread = .ok (.done (.miner miner)) →
      miner.toRemove = miner.transaction.map (SignedTransaction.hash C) ∧ miner.toRemove.Nodup ∧
      miner.toRemove.length ≤ blockSize ∧ BooksClosed C events) ∧
    BooksOpen C events ∧ ∀ block, .sent block ∈ events → FinishedBlock C block := by
  obtain ⟨hinv, hmeets⟩ := alone_minerContract haddressed rfl h
  refine ⟨?_, hinv.2, fun block => hinv.2.finished⟩
  rintro miner rfl
  have hloop : miner.Balanced C ∧ BooksClosed C events := hmeets
  exact ⟨hloop.1.hashes, hloop.1.distinct, hloop.1.size, hloop.2⟩

/-- The memory of a node that holds one transaction and was told to mine. -/
def coinToMine : Shared :=
  { Shared.initial .sample Crypto.sampleKey with
    mempool := ⟨⟨(∅ : HashMap _ _).insert (moveInitialCoin.hash .sample) moveInitialCoin⟩, false⟩
    minerControl := [.start 0] }

theorem minerLoop_keepsBooks_moveInitialCoin :
    ∃ events, BooksOpen .sample events ∧
      events.getLast? = some (.removed (moveInitialCoin.hash .sample)) := by
  have hrun : ((recordedMachine .sample .release sampleGeneLoop MinerEvent.record).run
      (fun _ _ _ => true) (⟨(coinToMine, []), fun _ => .ok (.done (.miner {}))⟩ : Config _ _ Unit)
      (List.replicate 8 ((), .mine 0 0 (onlyTransaction moveInitialCoin)))).any
        (fun config => decide (config.shared.2.getLast? =
          some (.removed (moveInitialCoin.hash .sample)))) = true := by
    decide +kernel
  obtain ⟨⟨⟨s, events⟩, threads⟩, hreach, hcheck⟩ :=
    Machine.exists_reachable (fun _ _ _ _ => trivial) hrun
  have halone : (recordedMachine .sample .release sampleGeneLoop MinerEvent.record).Alone
      (OtherThreads .sample) (coinToMine, []) (.ok (.done (.miner {}))) (s, events) (threads ()) :=
    hreach.alone fun _ _ other _ _ hne => absurd (Subsingleton.elim other ()) hne
  refine ⟨events, ?_, of_decide_eq_true hcheck⟩
  refine (minerLoop_keepsBooks .sample .release sampleGeneLoop coinToMine ?_ s events _ halone).2.1
  intro hash st hget
  have hget' : (HashMap.insert (∅ : HashMap _ _) (moveInitialCoin.hash .sample) moveInitialCoin).get
      hash = some st := hget
  rw [HashMap.get_insert, HashMap.get_empty] at hget'
  split at hget'
  next heq => rw [heq, ← Option.some.inj hget']
  next => cases hget'

/-! ## The miner of a node -/

section Node

variable {geneLoop : GeneLoop} {icoKey : Ed25519KeyPair} {workers requests : Nat}

/-- The threads other than the miner neither queue a block nor remove a transaction. -/
theorem nodeBody_silent {task : Task} {choice : Choice} {program : NodeProgram Task}
    (htask : ∀ miner, task ≠ .miner miner)
    (hbody : nodeBody C build geneLoop task choice = some program) :
    program.All (fun op => op.minerEvent = none) fun task => ∀ miner, task ≠ .miner miner := by
  have hop : ∀ op : Op, op.OffMiner C → op.minerEvent = none := by
    intro op hop
    cases op with
    | finishBlock block => exact hop.elim
    | mempoolRemove hash => exact hop.elim
    | _ => rfl
  cases task with
  | minerWorker =>
      cases choice with
      | go =>
          cases hbody
          refine ⟨rfl, fun finished => ?_⟩
          cases finished with
          | none => exact nofun
          | some block =>
              change Program.All _ _ (((admitBlock C build block) >>= fun admitted => _) >>= _)
              rw [Program.bind_assoc, Program.all_bind]
              refine (admitBlock_offMiner block).mono hop fun admitted _ => ?_
              cases admitted with
              | false => exact nofun
              | true => exact ⟨rfl, fun _ => nofun⟩
      | _ => cases hbody
  | miner miner => exact absurd rfl (htask miner)
  | _ =>
      refine (nodeBody_offMiner rfl hbody).mono hop ?_
      rintro task htask miner rfl
      cases htask

/-- What another thread of the node does next is no event of the miner. -/
theorem node_silent {node : RecordedNode (List MinerEvent) workers requests}
    (hreach : (recordedMachine C build geneLoop MinerEvent.record).Reachable (fun _ _ _ => True)
      (RecordedNode.start C icoKey [] workers requests) node)
    {who : ThreadId workers requests} (hwho : who ≠ .miner) {program : NodeProgram Task}
    (hthread : node.threads who = .ok program) :
    program.All (fun op => op.minerEvent = none) fun task => ∀ miner, task ≠ .miner miner := by
  have halone : (recordedMachine C build geneLoop MinerEvent.record).Alone (fun _ _ => True)
      (Shared.initial C icoKey, []) (.ok (.done (.start who))) node.shared (node.threads who) :=
    hreach.alone fun _ _ _ _ _ _ _ _ => trivial
  rw [hthread] at halone
  refine Program.Alone.all ?_ (fun task choice program => nodeBody_silent) halone
  intro miner
  cases who with
  | miner => exact absurd rfl hwho
  | _ => exact nofun

/-- A step of another thread keeps the mempool's keys and adds no event. -/
theorem node_otherThreads {config config' : RecordedNode (List MinerEvent) workers requests}
    {other : ThreadId workers requests} {choice : Choice}
    (hsign : ∀ t, verify C t geneLoop.publicKey.publicKey (sign C t geneLoop.publicKey) = true)
    (hreach : (recordedMachine C build geneLoop MinerEvent.record).Reachable (fun _ _ _ => True)
      (RecordedNode.start C icoKey [] workers requests) config) (hother : other ≠ .miner)
    (hnext : (recordedMachine C build geneLoop MinerEvent.record).next config other choice =
      some config') : OtherThreads C config.shared config'.shared := by
  refine ⟨?_, ?_⟩
  · have hreach' := Program.Reachable.forget (hreach.step trivial hnext)
    have hstore : StoreInvariant C build False config'.shared.1 :=
      node_storeInvariant hsign (fun _ _ _ _ => False.elim) hreach'
    exact fun hash st hget => (hstore.addressed.transactions hash st hget).1
  · rcases Program.next_cases hnext with ⟨_, _, _, _, rfl⟩ | ⟨op, next, hthread, houtcome⟩
    · rfl
    · have hevent : op.minerEvent = none := (node_silent hreach hother hthread).1
      have hsame : (Program.recording (Op.action C build) MinerEvent.record op).wp
          (fun _ s => s.2 = config.shared.2) (fun _ s => s.2 = config.shared.2) config.shared := by
        refine Program.wp_recording.mpr
          (Effect.wp_mono Effect.wp_true (fun _ _ _ => ?_) fun _ _ _ => rfl)
        rw [MinerEvent.record, hevent]
        exact List.append_nil _
      rcases houtcome hsame with ⟨_, _, hpost, rfl⟩ | ⟨_, _, hfail, rfl⟩
      · exact hpost
      · exact hfail

/-- The miner of a running node keeps its books: the other threads are an environment that
keeps the mempool's keys. -/
theorem node_minerBooks {node : RecordedNode (List MinerEvent) workers requests}
    (hsign : ∀ t, verify C t geneLoop.publicKey.publicKey (sign C t geneLoop.publicKey) = true)
    (hreach : (recordedMachine C build geneLoop MinerEvent.record).Reachable (fun _ _ _ => True)
      (RecordedNode.start C icoKey [] workers requests) node) :
    BooksOpen C node.shared.2 ∧
      ∀ miner, node.threads .miner = .ok (.done (.miner miner)) → miner.Balanced C := by
  have haddressed : MempoolAddressed C (Shared.initial C icoKey) := by
    intro hash st hget
    simp [Shared.initial, Mempool.new] at hget
  have halone : (recordedMachine C build geneLoop MinerEvent.record).Alone (OtherThreads C)
      (Shared.initial C icoKey, []) (.ok (.done (.miner {}))) node.shared (node.threads .miner) :=
    hreach.alone fun _ _ _ _ hconfig hother _ hnext => node_otherThreads hsign hconfig hother hnext
  obtain ⟨hinv, hmeets⟩ := alone_minerContract haddressed rfl halone
  refine ⟨hinv.2, fun miner hthread => ?_⟩
  rw [hthread] at hmeets
  exact hmeets.1

end Node

end BitcoinClient
