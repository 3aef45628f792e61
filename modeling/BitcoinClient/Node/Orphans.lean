import BitcoinClient.Network.Admission
import BitcoinClient.Node.ProofOfWork

/-! # Orphans with several network workers

Each worker searches its own orphan buffer for the children of the blocks that it
stores itself. Between rounds no orphan has its parent in the tree as long as no thread
stores a block that an orphan of another worker waits for; when one does, the orphan
stays behind.
-/

namespace BitcoinClient

variable (C : Crypto) (build : Build)

/-- The orphan buffer, where the task has one. -/
def Task.orphanBlocks : Task → List Block
  | .network orphanBlocks => orphanBlocks
  | _ => []

/-- The orphan buffer of a thread that is running. -/
def IdleNode.orphanBlocks {workers requests : Nat} (node : IdleNode workers requests)
    (who : ThreadId workers requests) : List Block :=
  match node.threads who with
  | .ok task => task.orphanBlocks
  | .error _ => []

/-- The blocks that a message can make a worker store, its orphans included. -/
def candidates (s : Shared) (orphanBlocks blocks : List Block) : Set Block :=
  {block | block ∈ orphanBlocks ∨ (block ∈ blocks ∧ block.hash C ≤ block.head.difficulty ∧
    s.blockchain.value.blocks.containsKey (block.hash C) = false)}

/-- The hashes that a round of the task can add to the tree: what a message and the
orphans derive from the stored blocks, or the next mined block if it is valid. -/
def Task.Stores (s : Shared) : Task → Choice → H256 → Prop
  | .network orphanBlocks, .deliver _ (.blocks blocks), hash =>
    ∃ entry, (admission C build).Derives s.entry (candidates C s orphanBlocks blocks) hash entry
  | .minerWorker, _, hash => ∃ block parent state, s.finishedBlockChan.head? = some block ∧
    block.hash C = hash ∧ s.blockState.value.get block.head.parent = some parent ∧
    checkTxs C build parent block.cont.st = .ok state
  | _, _, _ => False

/-- The round of the thread stores no block that an orphan of another thread waits for. -/
def StoresNoAwaited {workers requests : Nat} (node : IdleNode workers requests)
    (who : ThreadId workers requests) (choice : Choice) : Prop :=
  ∀ task hash, node.threads who = .ok task → task.Stores C build node.shared choice hash →
    node.shared.blockchain.value.blocks.containsKey hash = false →
    ∀ other, other ≠ who → ∀ orphan ∈ node.orphanBlocks other, orphan.head.parent ≠ hash

/-- No orphan has its parent in the tree. -/
def OrphansWait (s : Shared) (orphanBlocks : List Block) : Prop :=
  ∀ orphan ∈ orphanBlocks, s.blockchain.value.blocks.containsKey orphan.head.parent = false

/-- The tree only gains hashes with the property. -/
def Gains (s s' : Shared) (new : H256 → Prop) : Prop :=
  ∀ hash, s'.blockchain.value.blocks.containsKey hash = true →
    s.blockchain.value.blocks.containsKey hash = true ∨ new hash

variable {C build} {s : Shared}

/-- Operations that do not write to the tree add nothing to it. -/
theorem run_keeps_blocks {α : Type} {Q : α → Prop} {program : NodeProgram α}
    (h : program.All (fun op => op.writesBlocks = false) Q) :
    (program.run C build).wp (fun value s' => Q value ∧ s'.blockchain.value = s.blockchain.value)
      (fun _ s' => s'.blockchain.value = s.blockchain.value) s := by
  refine h.wp_run (fun s s' => s'.blockchain.value = s.blockchain.value) (fun _ => rfl) ?_ ?_ s
  · exact fun _ _ _ hfirst hrest => hrest.trans hfirst
  · exact fun op hop s => Effect.wp_mono (Op.wp_frame C build op)
      (fun _ _ hframe => hframe.blocks hop) fun _ _ hframe => hframe.1.blocks hop

theorem Op.writesBlocks_of_free {op : Op} (h : op.isFree = true) : op.writesBlocks = false := by
  cases op with
  | insertBlock block => cases h
  | _ => rfl

theorem Op.writesBlocks_of_plain {op : Op} (h : op.isPlain = true) : op.writesBlocks = false := by
  cases op with
  | insertBlock block => cases h
  | _ => rfl

/-- What a round does to the tree and to the buffer of its thread. -/
def RoundKeeps (C : Crypto) (build : Build) (s : Shared) (task : Task) (choice : Choice)
    (program : NodeProgram Task) : Prop :=
  (program.run C build).wp
    (fun task' s' => Gains s s' (task.Stores C build s choice) ∧ OrphansWait s' task'.orphanBlocks)
    (fun _ s' => Gains s s' (task.Stores C build s choice)) s

/-- A round that does not write to the tree and keeps its orphans or has none. -/
theorem roundKeeps_of_all {task : Task} {choice : Choice} {program : NodeProgram Task}
    (hwaits : OrphansWait s task.orphanBlocks)
    (h : program.All (fun op => op.writesBlocks = false)
      fun task' => ∀ orphan ∈ task'.orphanBlocks, orphan ∈ task.orphanBlocks) :
    RoundKeeps C build s task choice program := by
  have hgains : ∀ s' : Shared, s'.blockchain.value = s.blockchain.value →
      Gains s s' (task.Stores C build s choice) := by
    intro s' hsame hash hstored
    rw [hsame] at hstored
    exact Or.inl hstored
  refine Effect.wp_mono (run_keeps_blocks h) ?_ fun _ s' hsame => hgains s' hsame
  rintro task' s' ⟨hsub, hsame⟩
  refine ⟨hgains s' hsame, fun orphan hmem => ?_⟩
  rw [hsame]
  exact hwaits orphan (hsub orphan hmem)

/-- The round of a network worker. -/
theorem handleMessage_keeps {orphanBlocks : List Block} {peer : PeerId} {message : Message}
    (hwaits : OrphansWait s orphanBlocks) :
    RoundKeeps C build s (.network orphanBlocks) (.deliver peer message)
      (do
        let orphanBlocks ← handleMessage C build peer orphanBlocks message
        pure (.network orphanBlocks)) := by
  by_cases hmessage : ∃ blocks, message = .blocks blocks
  · obtain ⟨blocks, rfl⟩ := hmessage
    rw [RoundKeeps, NodeProgram.run, Program.run_bind, Effect.wp_bind]
    let pool := candidates C s orphanBlocks blocks
    have hbegin : LoopInvariant C build s pool [] { orphanBlocks } 0 s :=
      LoopInvariant.begin fun orphan hmem => ⟨Or.inl hmem, hwaits orphan hmem⟩
    have hpool : ∀ block ∈ blocks, block.hash C ≤ block.head.difficulty →
        s.blockchain.value.blocks.containsKey (block.hash C) = false → block ∈ pool :=
      fun block hmem hwork hfresh => Or.inr ⟨hmem, hwork, hfresh⟩
    refine Effect.wp_mono (processBlocks_admits hbegin hpool) ?_ fun _ _ h => h.stored
    exact fun _ _ h => ⟨h.memory.stored, fun orphan hmem => h.parent_missing hmem⟩
  · refine roundKeeps_of_all hwaits ?_
    rw [Program.all_bind]
    refine (handleMessage_free peer orphanBlocks message ?_).mono
      (fun _ => Op.writesBlocks_of_free) ?_
    · exact fun blocks heq => hmessage ⟨blocks, heq⟩
    · rintro _ rfl orphan hmem
      exact hmem

/-- What `admitBlock` can add to the tree. -/
theorem admitBlock_gains {block : Block} :
    ((admitBlock C build block).run C build).wp
      (fun _ s' => Gains s s' fun hash => block.hash C = hash ∧ ∃ parent state,
        s.blockState.value.get block.head.parent = some parent ∧
        checkTxs C build parent block.cont.st = .ok state)
      (fun _ s' => Gains s s' fun _ => False) s := by
  unfold admitBlock
  rw [NodeProgram.run, Program.run_bind, Effect.wp_bind, wp_checkTxState]
  refine ⟨fun _ _ => Or.inl, fun _ => ?_⟩
  cases hparent : s.blockState.value.get block.head.parent with
  | none => exact fun _ => Or.inl
  | some parent =>
      dsimp only
      split
      next => exact fun _ => Or.inl
      next => exact fun _ => Or.inl
      next state hcheck =>
        simp only [if_true, NodeProgram.call, Program.call_bind, Program.run_perform, Op.action,
          Effect.wp_bind, wp_insertBlock]
        refine ⟨fun _ _ => Or.inl, fun _ => ?_⟩
        split
        next chain hinsert =>
          intro hash hstored
          rcases (Blockchain.containsKey_of_insert hinsert).mp hstored with heq | hbefore
          · exact Or.inr ⟨heq.symm, parent, state, rfl, hcheck⟩
          · exact Or.inl hbefore
        next => exact fun _ => Or.inl

/-- The round of the miner worker. -/
theorem minerWorkerRound_keeps {choice : Choice} :
    RoundKeeps C build s .minerWorker choice
      (do
        minerWorkerRound C build
        pure .minerWorker) := by
  have hround : ((minerWorkerRound C build).run C build).wp
      (fun _ s' => Gains s s' (Task.minerWorker.Stores C build s choice))
      (fun _ s' => Gains s s' (Task.minerWorker.Stores C build s choice)) s := by
    unfold minerWorkerRound
    rw [NodeProgram.run, NodeProgram.call, Program.call_bind, Program.run_perform, Effect.wp_bind]
    change Effect.wp _ _ _ { s with finishedBlockChan := s.finishedBlockChan.tail }
    cases hhead : s.finishedBlockChan.head? with
    | none => exact fun _ => Or.inl
    | some block =>
        dsimp only
        rw [Program.run_bind, Effect.wp_bind]
        refine Effect.wp_mono admitBlock_gains ?_ ?_
        · intro admitted s' hgains
          have hstores : Gains s s' (Task.minerWorker.Stores C build s choice) := by
            intro hash hstored
            refine (hgains hash hstored).imp_right ?_
            rintro ⟨hhash, parent, state, hparent, hcheck⟩
            exact ⟨block, parent, state, hhead, hhash, hparent, hcheck⟩
          cases admitted with
          | true => exact hstores
          | false => exact hstores
        · exact fun _ s' hgains hash hstored => (hgains hash hstored).imp_right False.elim
  rw [RoundKeeps, NodeProgram.run, Program.run_bind, Effect.wp_bind]
  exact Effect.wp_mono hround (fun _ _ hgains => ⟨hgains, by simp [OrphansWait, Task.orphanBlocks]⟩)
    fun _ _ h => h

/-- A round of any thread only adds what it can, and leaves no orphan behind. -/
theorem nodeBody_keeps {geneLoop : GeneLoop} {task : Task} {choice : Choice}
    {program : NodeProgram Task} (hbody : nodeBody C build geneLoop task choice = some program)
    (hwaits : OrphansWait s task.orphanBlocks) : RoundKeeps C build s task choice program := by
  have hplain : ∀ {α : Type} {program : NodeProgram α},
      Program.Composed (fun op => op.isPlain = true)
        (fun _ part => part.All (fun op => op.writesBlocks = false) fun _ => True) program →
      program.All (fun op => op.writesBlocks = false) fun _ => True :=
    fun h => h.all (fun _ => Op.writesBlocks_of_plain) fun _ hpart => hpart
  unfold nodeBody at hbody
  split at hbody
  all_goals cases hbody
  next => exact handleMessage_keeps hwaits
  next => exact roundKeeps_of_all hwaits nofun
  next miner nonce timestamp iteration =>
    refine roundKeeps_of_all hwaits ?_
    rw [Program.all_bind]
    refine (hplain (minerRound_composed _ _ _ _)).mono (fun _ => id) fun miner _ => ?_
    cases miner <;> nofun
  next => exact minerWorkerRound_keeps
  next =>
    refine roundKeeps_of_all hwaits ?_
    exact ⟨rfl, fun _ => ⟨rfl, fun _ => nofun⟩⟩
  next generator iteration =>
    refine roundKeeps_of_all hwaits ?_
    rw [Program.all_bind]
    refine (hplain (round_composed _ _ _ fun generator => ?_).plain).mono (fun _ => id)
      fun generator _ => ?_
    · exact (generate_free _ _ _).mono (fun _ => Op.writesBlocks_of_free) fun _ => id
    · cases generator <;> nofun
  next request =>
    refine roundKeeps_of_all hwaits ?_
    rw [Program.all_bind]
    exact (hplain (serve_composed _).plain).mono (fun _ => id) fun _ _ => nofun

/-- Orphans go on waiting for what the tree did not gain. -/
theorem OrphansWait.gains {s' : Shared} {orphanBlocks : List Block} {new : H256 → Prop}
    (h : OrphansWait s orphanBlocks) (hgains : Gains s s' new)
    (hnew : ∀ orphan ∈ orphanBlocks, ¬ new orphan.head.parent) : OrphansWait s' orphanBlocks := by
  intro orphan hmem
  cases hstored : s'.blockchain.value.blocks.containsKey orphan.head.parent with
  | false => rfl
  | true =>
      rcases hgains _ hstored with hold | hgained
      · exact hold.symm.trans (h orphan hmem)
      · exact absurd hgained (hnew orphan hmem)

/-- One round that stores no awaited block. -/
theorem round_orphansWait {geneLoop : GeneLoop} {workers requests : Nat}
    {node next : IdleNode workers requests} {who : ThreadId workers requests} {choice : Choice}
    (hwaits : ∀ who, OrphansWait node.shared (node.orphanBlocks who))
    (hguard : StoresNoAwaited C build node who choice)
    (hnext : (nodeRounds C build geneLoop).next node who choice = some next)
    (other : ThreadId workers requests) : OrphansWait next.shared (next.orphanBlocks other) := by
  obtain ⟨task, program, hthread, hprogram, houtcome⟩ := Program.round_wp hnext
  have hown : OrphansWait node.shared task.orphanBlocks := by
    have hown := hwaits who
    rwa [IdleNode.orphanBlocks, hthread] at hown
  obtain ⟨thread, hthreads, hpost⟩ := houtcome (nodeBody_keeps hprogram hown)
  have hgains : Gains node.shared next.shared (task.Stores C build node.shared choice) := by
    cases thread with
    | ok task' => exact hpost.1
    | error reason => exact hpost
  unfold IdleNode.orphanBlocks
  rw [hthreads]
  by_cases heq : other = who
  · subst heq
    rw [Function.update_self]
    cases thread with
    | ok task' => exact hpost.2
    | error reason => nofun
  · rw [Function.update_of_ne heq]
    refine (hwaits other).gains hgains fun orphan hmem hstores => ?_
    exact hguard task _ hthread hstores (hwaits other orphan hmem) other heq orphan hmem rfl

/-- While no thread stores a block that an orphan of another one waits for, no orphan
has its parent in the tree. -/
theorem orphans_wait (C : Crypto) (build : Build) (geneLoop : GeneLoop) (icoKey : Ed25519KeyPair)
    (workers requests : Nat) (node : IdleNode workers requests)
    (hreach : (nodeRounds C build geneLoop).Reachable (StoresNoAwaited C build)
      (IdleNode.start C icoKey workers requests) node)
    (i : Fin workers) (orphan : Block) (hmem : orphan ∈ node.orphanBlocks (.network i)) :
    node.shared.blockchain.value.blocks.containsKey orphan.head.parent = false := by
  refine Machine.Reachable.invariant
    (fun node : IdleNode workers requests =>
      ∀ who, OrphansWait node.shared (node.orphanBlocks who)) ?_ ?_ hreach
    (.network i) orphan hmem
  · intro who orphan hmem
    cases who <;> cases hmem
  · intro node next who choice _ hwaits hguard hnext
    exact round_orphansWait hwaits hguard hnext

theorem orphans_wait_childBlock :
    ∃ node : IdleNode 2 0, childBlock ∈ node.orphanBlocks (.network 0) ∧
      node.shared.blockchain.value.blocks.containsKey childBlock.head.parent = false := by
  have hrun : ((nodeRounds .sample .release sampleGeneLoop).next
      (IdleNode.start .sample Crypto.sampleKey 2 0) (.network 0)
      (.deliver 0 (.blocks [childBlock]))).any
        (fun node : IdleNode 2 0 =>
          decide (childBlock ∈ node.orphanBlocks (.network 0))) = true := by
    decide +kernel
  obtain ⟨node, hnext, hcheck⟩ := (Option.any_eq_true _ _).mp hrun
  have hguard : StoresNoAwaited .sample .release (IdleNode.start .sample Crypto.sampleKey 2 0)
      (.network 0) (.deliver 0 (.blocks [childBlock])) := by
    intro task hash _ _ _ other _ orphan hmem
    cases other <;> cases hmem
  have hmem := of_decide_eq_true hcheck
  exact ⟨node, hmem, orphans_wait .sample .release sampleGeneLoop Crypto.sampleKey 2 0 node
    (.step .start hguard hnext) 0 childBlock hmem⟩

/-- The child goes to one worker and its parent to the other. -/
def deliverApart : List (ThreadId 2 0 × Choice) :=
  [(.network 0, .deliver 0 (.blocks [childBlock])),
    (.network 1, .deliver 1 (.blocks [uncommittedBlock]))]

/-- With two workers an orphan can be left behind. -/
theorem not_orphans_wait :
    ¬ ∀ node : IdleNode 2 0, (nodeRounds .sample .release sampleGeneLoop).Reachable
      (fun _ _ _ => True) (IdleNode.start .sample Crypto.sampleKey 2 0) node →
      ∀ (i : Fin 2) (orphan : Block), orphan ∈ node.orphanBlocks (.network i) →
        node.shared.blockchain.value.blocks.containsKey orphan.head.parent = false := by
  intro hall
  have hrun : ((nodeRounds .sample .release sampleGeneLoop).run (fun _ _ _ => true)
      (IdleNode.start .sample Crypto.sampleKey 2 0) deliverApart).any (fun node : IdleNode 2 0 =>
        decide (childBlock ∈ node.orphanBlocks (.network 0) ∧
          node.shared.blockchain.value.blocks.containsKey
            childBlock.head.parent = true)) = true := by
    decide +kernel
  obtain ⟨node, hreach, hcheck⟩ := Machine.exists_reachable (fun _ _ _ _ => trivial) hrun
  obtain ⟨hmem, hstored⟩ := of_decide_eq_true hcheck
  exact Bool.noConfusion (hstored.symm.trans (hall node hreach 0 childBlock hmem))

end BitcoinClient
