import BitcoinClient.Node.ChainSafety

/-! # The contract of the node's threads about the block tree

One lemma (`chain_op`) shows that every operation keeps the invariant when its
precondition holds. The programs of the threads are then only checked for the
preconditions (`nodeBody_meets`).
-/

namespace BitcoinClient

variable (C : Crypto) (build : Build) (adm mined : Block → Prop)

/-- What the threads promise about the block tree. The schedule guarantees `mined`
of every block that the miner queues. -/
def chainContract : Program.Contract Op Shared where
  inv := ChainInvariant C adm
  pre op s :=
    match op with
    | .getBlock hash =>
      HeadersDistinct C adm → s.blockchain.value.blocks.containsKey hash = true
    | .readBlockState hash =>
      HeadersDistinct C adm → s.blockState.value.containsKey hash = true
    | .insertBlock block =>
      Insertable C adm s.blockchain.value.blocks block ∧
        s.blockState.value.containsKey (block.hash C) = true
    | .finishBlock block => mined block → Insertable C adm s.blockchain.value.blocks block
    | .panic reason => reason.isLookup = false
    | _ => True
  allowed op _ :=
    match op with
    | .finishBlock block => mined block
    | _ => True
  rely _ := Grows

/-- The panics that the contract allows. -/
def ChainFailure (reason : Panic) : Prop := HeadersDistinct C adm → reason.isLookup = false

/-- The invariant is kept and no key is lost. -/
def ChainKept (s s' : Shared) : Prop := ChainInvariant C adm s' ∧ Grows s s'

variable {C build adm mined} {s s' : Shared}

theorem ChainKept.refl (h : ChainInvariant C adm s) : ChainKept C adm s s := ⟨h, Grows.refl s⟩

theorem ChainKept.trans {s'' : Shared} (h : ChainKept C adm s s') (h' : ChainKept C adm s' s'') :
    ChainKept C adm s s'' := ⟨h'.1, h.2.trans h'.2⟩

theorem ChainKept.frame (h : ChainInvariant C adm s)
    (hblockchain : s'.blockchain.value = s.blockchain.value)
    (hstate : s'.blockState.value = s.blockState.value)
    (hchan : s'.finishedBlockChan = s.finishedBlockChan) : ChainKept C adm s s' :=
  ⟨h.frame hblockchain hstate hchan,
    fun _ hstored => hblockchain ▸ hstored, fun _ hstored => hstate ▸ hstored⟩

/-- An operation that leaves the two maps and the queue alone. -/
theorem chain_frame (op : Op) (hinv : ChainInvariant C adm s) (hblocks : op.writesBlocks = false)
    (hstates : op.writesStates = false) (hqueue : op.usesQueue = false)
    (hfail : op.looksUp = true → (op.action C build).wp (fun _ _ => True)
      (fun reason _ => ChainFailure C adm reason) s) :
    (op.action C build).wp (fun _ s' => ChainKept C adm s s')
      (fun reason s' => ChainFailure C adm reason ∧ ChainKept C adm s s') s := by
  have hreason : (op.action C build).wp (fun _ _ => True)
      (fun reason _ => ChainFailure C adm reason) s := by
    cases hlook : op.looksUp with
    | true => exact hfail hlook
    | false =>
        refine Effect.wp_mono (op.wp_frame C build) (fun _ _ _ => trivial) fun reason _ h _ => ?_
        by_contra hlookup
        rw [Bool.not_eq_false] at hlookup
        rw [h.2 hlookup] at hlook
        cases hlook
  refine Effect.wp_and hreason (op.wp_frame C build) ?_ ?_
  · exact fun _ s' _ h => .frame hinv (h.blocks hblocks) (h.states hstates) (h.queue hqueue)
  · exact fun reason s' hreason h =>
      ⟨hreason, .frame hinv (h.1.blocks hblocks) (h.1.states hstates) (h.1.queue hqueue)⟩

/-- Without colliding headers, `all_blocks_in_longest_chain` finds every block. -/
theorem ChainInvariant.allBlocksInLongestChain_ok (h : ChainInvariant C adm s)
    (hdistinct : HeadersDistinct C adm) :
    ∃ hashes, s.blockchain.value.allBlocksInLongestChain = .ok hashes := by
  obtain ⟨⟨block, height⟩, htip⟩ := HashMap.containsKey_iff.mp h.tip
  obtain ⟨hashes, hwalk⟩ := (h.heights hdistinct _ _ _ htip).walkBack_ok htip
    [s.blockchain.value.tip]
  exact ⟨hashes.reverse, by
    simp [Blockchain.allBlocksInLongestChain, htip, bind, Except.bind, hwalk, pure, Except.pure]⟩

/-- Every operation keeps the invariant, provided that its precondition holds. -/
theorem chain_op (op : Op) (hinv : ChainInvariant C adm s)
    (hpre : (chainContract C adm mined).pre op s)
    (hallowed : (chainContract C adm mined).allowed op s) :
    (op.action C build).wp (fun _ s' => ChainKept C adm s s')
      (fun reason s' => ChainFailure C adm reason ∧ ChainKept C adm s s') s := by
  cases op with
  | insertBlock block =>
      simp only [Op.action, wp_insertBlock]
      refine ⟨fun _ => ⟨fun _ => rfl, .refl hinv⟩, fun _ => ?_⟩
      cases hinsert : s.blockchain.value.insert C build block with
      | ok next => exact hinv.insert hpre.1 hpre.2 hinsert
      | error reason =>
          -- Both lookups succeed, so only the height can fail.
          refine ⟨fun _ => ?_, .frame hinv rfl rfl rfl⟩
          obtain ⟨parent, hparent⟩ := HashMap.containsKey_iff.mp hpre.1.parent
          obtain ⟨tip, htip⟩ := HashMap.containsKey_iff.mp hinv.tip
          rw [Blockchain.insert_eq hparent htip] at hinsert
          split at hinsert
          next => cases hinsert; rfl
          next => cases hinsert
  | writeBlockState hash state =>
      simp only [Op.action, wp_writeBlockState]
      refine ⟨fun _ => ⟨fun _ => rfl, .refl hinv⟩, fun _ => ?_⟩
      have hstates : ∀ other, s.blockState.value.containsKey other = true →
          (s.blockState.value.insert hash state).containsKey other = true := by
        intro other hstored
        rw [HashMap.containsKey_insert]
        exact Or.inr hstored
      exact ⟨⟨hinv.tip, hinv.stored, fun other hstored => hstates other (hinv.states other hstored),
        hinv.queued, hinv.heights⟩, fun _ => id, hstates⟩
  | finishBlock block =>
      refine ⟨⟨hinv.tip, hinv.stored, hinv.states, ?_, hinv.heights⟩, fun _ => id, fun _ => id⟩
      intro other hother
      rcases List.mem_append.mp hother with hother | hother
      · exact hinv.queued other hother
      · rw [List.mem_singleton.mp hother]
        exact hpre hallowed
  | takeFinishedBlock =>
      refine ⟨⟨hinv.tip, hinv.stored, hinv.states, ?_, hinv.heights⟩, fun _ => id, fun _ => id⟩
      exact fun other hother => hinv.queued other (List.mem_of_mem_tail hother)
  | getBlock hash =>
      refine chain_frame _ hinv rfl rfl rfl fun _ => ?_
      simp only [Op.action, wp_getBlock]
      refine ⟨fun _ _ => rfl, fun _ => ?_⟩
      split
      next => trivial
      next hget =>
        -- The precondition says that the entry is there.
        intro hdistinct
        obtain ⟨entry, hentry⟩ := HashMap.containsKey_iff.mp (hpre hdistinct)
        rw [hget] at hentry
        cases hentry
  | readBlockState hash =>
      refine chain_frame _ hinv rfl rfl rfl fun _ => ?_
      simp only [Op.action, wp_readBlockState]
      refine ⟨fun _ _ => rfl, fun _ => ?_⟩
      split
      next => trivial
      next hget =>
        intro hdistinct
        obtain ⟨entry, hentry⟩ := HashMap.containsKey_iff.mp (hpre hdistinct)
        rw [hget] at hentry
        cases hentry
  | longestChain =>
      refine chain_frame _ hinv rfl rfl rfl fun _ => ?_
      simp only [Op.action, longestChain, wp_withBlockchain]
      refine ⟨fun _ _ => rfl, fun _ => ?_⟩
      split
      next => trivial
      next reason hbody =>
        intro hdistinct
        obtain ⟨hashes, hok⟩ := hinv.allBlocksInLongestChain_ok hdistinct
        rw [hok] at hbody
        cases hbody
  | panic reason => exact ⟨fun _ => hpre, .refl hinv⟩
  | _ => exact chain_frame _ hinv rfl rfl rfl (by simp [Op.looksUp])

end BitcoinClient
