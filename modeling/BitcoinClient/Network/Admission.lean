import BitcoinClient.Foundation.Derivation
import BitcoinClient.Network.Worker

/-! # What the arm for `Blocks` admits when it is not interrupted

A block is admitted right away, or later from the orphan buffer by the cascade. The
two copies of the checks amount to one `admission`, and one invariant covers both:
what is stored was derived from the start and the pool of received blocks, and a
received block is stored, waits for its parent, or was rejected.
-/

namespace BitcoinClient

/-- A stored block with its height and its ledger state. -/
structure Entry where
  block : Block
  height : UInt32
  state : State

def Shared.entry (s : Shared) (hash : H256) : Option Entry :=
  match s.blockchain.value.blocks.get hash, s.blockState.value.get hash with
  | some (block, height), some state => some ⟨block, height, state⟩
  | _, _ => none

section Definitions

variable (C : Crypto) (build : Build)

/-- The checks on a block whose parent is stored. -/
def admission : Derivation Block H256 Entry where
  key := Block.hash C
  parent block := block.head.parent
  extend block entry :=
    if block.head.difficulty = entry.block.head.difficulty then
      match checkTxs C build entry.state block.cont.st, addU32 build entry.height 1 with
      | .ok state, some height => some ⟨block, height, state⟩
      | _, _ => none
    else none

/-- A memory in which a lone network worker cannot panic, with a highest block as its tip. -/
structure Live (s : Shared) : Prop where
  release : build = .release
  blockchain : s.blockchain.poisoned = false
  blockState : s.blockState.poisoned = false
  states : ∀ hash, s.blockchain.value.blocks.containsKey hash = true →
    s.blockState.value.containsKey hash = true
  tip : s.blockchain.value.Highest s.blockchain.value.tip

variable (start : Shared) (pool : Set Block)

/-- The worker starts in a live memory, and the hashes of the pool do not collide. -/
def Orderly : Prop :=
  Live build start ∧ (admission C build).Distinct start.entry pool

/-- The blocks in the memory `s` are explained by those of `start` and the pool. -/
structure AdmissionInvariant (s : Shared) : Prop where
  sound : ∀ hash entry, s.entry hash = some entry →
    (admission C build).Derives start.entry pool hash entry
  stored : ∀ hash, s.blockchain.value.blocks.containsKey hash = true →
    start.blockchain.value.blocks.containsKey hash = true ∨
      ∃ entry, (admission C build).Derives start.entry pool hash entry
  grows : ∀ hash, start.blockchain.value.blocks.containsKey hash = true →
    s.blockchain.value.blocks.containsKey hash = true
  live : Orderly C build start pool → Live build s

/-- What a panic leaves behind. -/
structure Stopped (s : Shared) : Prop where
  disorderly : ¬ Orderly C build start pool
  stored : ∀ hash, s.blockchain.value.blocks.containsKey hash = true →
    start.blockchain.value.blocks.containsKey hash = true ∨
      ∃ entry, (admission C build).Derives start.entry pool hash entry

/-- The variables of the two loops that release orphans. `received` are the blocks
that were handled so far. -/
structure LoopInvariant (received : List Block) (loop : BlocksLoop) (i : Nat) (s : Shared) :
    Prop where
  memory : AdmissionInvariant C build start pool s
  orphans : ∀ block ∈ loop.orphanBlocks, block ∈ pool
  newBlocks : ∀ hash ∈ loop.newBlocks, s.blockchain.value.blocks.containsKey hash = true
  position : loop.n ≤ loop.newBlocks.length
  /-- The orphans before `i` were compared with `newBlocks[n]`. -/
  scanned : ∀ block ∈ loop.orphanBlocks.take i,
    s.blockchain.value.blocks.containsKey block.head.parent = true →
    block.head.parent ∈ loop.newBlocks.drop (loop.n + 1)
  waiting : ∀ block ∈ loop.orphanBlocks.drop i,
    s.blockchain.value.blocks.containsKey block.head.parent = true →
    block.head.parent ∈ loop.newBlocks.drop loop.n
  handled : Orderly C build start pool → ∀ block ∈ received,
    block.hash C ≤ block.head.difficulty →
    s.blockchain.value.blocks.containsKey (block.hash C) = true ∨ block ∈ loop.orphanBlocks ∨
      (admission C build).Rejected start.entry pool block

end Definitions

variable {C : Crypto} {build : Build} {start s : Shared} {pool : Set Block}

theorem Shared.entry_eq_some {hash : H256} {entry : Entry} :
    s.entry hash = some entry ↔
      s.blockchain.value.blocks.get hash = some (entry.block, entry.height) ∧
        s.blockState.value.get hash = some entry.state := by
  obtain ⟨block, height, state⟩ := entry
  unfold Shared.entry
  split
  next block' height' state' hblock hstate =>
    rw [hblock, hstate]
    simp only [Option.some.injEq, Entry.mk.injEq, Prod.mk.injEq, and_assoc]
  next hnone =>
    constructor
    · intro hnever
      cases hnever
    · rintro ⟨hblock, hstate⟩
      exact (hnone block height state hblock hstate).elim

/-- In a live memory every stored block has an entry. -/
theorem Live.exists_entry {hash : H256} {block : Block} {height : UInt32} (h : Live build s)
    (hget : s.blockchain.value.blocks.get hash = some (block, height)) :
    ∃ state, s.entry hash = some ⟨block, height, state⟩ := by
  have hstored := h.states hash (HashMap.containsKey_of_get hget)
  obtain ⟨state, hstate⟩ := HashMap.containsKey_iff.mp hstored
  exact ⟨state, Shared.entry_eq_some.mpr ⟨hget, hstate⟩⟩

theorem admission_extend {block parent : Block} {parentHeight height : UInt32}
    {state next : State} (hdifficulty : block.head.difficulty = parent.head.difficulty)
    (hcheck : checkTxs C build state block.cont.st = .ok next)
    (hheight : addU32 build parentHeight 1 = some height) :
    (admission C build).extend block ⟨parent, parentHeight, state⟩ =
      some ⟨block, height, next⟩ := by
  simp only [admission, if_pos hdifficulty, hcheck, hheight]

/-! ## One admission -/

/-- The memory after both maps received a block. -/
def Shared.put (s : Shared) (hash : H256) (state : State) (next : Blockchain) : Shared :=
  { s with
    blockState := { s.blockState with value := s.blockState.value.insert hash state }
    blockchain := { s.blockchain with value := next } }

theorem Shared.entry_put {block : Block} {height : UInt32} {state : State} {next : Blockchain}
    (hash : H256) (other : H256)
    (hblocks : next.blocks = s.blockchain.value.blocks.insert hash (block, height)) :
    (s.put hash state next).entry other =
      if other = hash then some ⟨block, height, state⟩ else s.entry other := by
  simp only [Shared.entry, Shared.put, hblocks, HashMap.get_insert]
  by_cases heq : other = hash
  · simp only [if_pos heq]
  · simp only [if_neg heq]

/-- The block that `insert` adds, with its height and the new tip. -/
theorem Blockchain.insert_height {blockchain next : Blockchain} {block parent : Block}
    {parentHeight : UInt32} (hinsert : blockchain.insert C build block = .ok next)
    (hparent : blockchain.blocks.get block.head.parent = some (parent, parentHeight)) :
    ∃ height tipBlock tipHeight, addU32 build parentHeight 1 = some height ∧
      blockchain.blocks.get blockchain.tip = some (tipBlock, tipHeight) ∧
      next.blocks = blockchain.blocks.insert (block.hash C) (block, height) ∧
      next.tip = if height > tipHeight then block.hash C else blockchain.tip := by
  obtain ⟨_, _, height, tipBlock, tipHeight, hparent', hheight, htip, hblocks, hnext⟩ :=
    Blockchain.insert_ok hinsert
  obtain ⟨rfl, rfl⟩ := Prod.mk.inj (Option.some.inj (hparent.symm.trans hparent'))
  exact ⟨height, tipBlock, tipHeight, hheight, htip, hblocks, hnext⟩

/-- The tip stays a highest block when the new block replaces no other one. -/
theorem Live.insert {block parent : Block} {parentHeight : UInt32} {state : State}
    {next : Blockchain} (h : Live build s)
    (hparent : s.blockchain.value.blocks.get block.head.parent = some (parent, parentHeight))
    (hinsert : s.blockchain.value.insert C build block = .ok next)
    (hsame : ∀ height old, addU32 build parentHeight 1 = some height →
      s.blockchain.value.blocks.get (block.hash C) = some old → old = (block, height)) :
    Live build (s.put (block.hash C) state next) := by
  obtain ⟨height, tipBlock, tipHeight, hheight, htip, hblocks, hnext⟩ :=
    Blockchain.insert_height hinsert hparent
  obtain ⟨_, _, htip', hhighest⟩ := h.tip
  obtain ⟨rfl, rfl⟩ := Prod.mk.inj (Option.some.inj (htip.symm.trans htip'))
  refine ⟨h.release, h.blockchain, h.blockState, fun hash hstored => ?_, ?_⟩
  · change (s.blockState.value.insert (block.hash C) state).containsKey hash = true
    rw [HashMap.containsKey_insert]
    exact ((Blockchain.containsKey_of_insert hinsert).mp hstored).imp_right (h.states hash)
  · change ∃ tipBlock tipHeight, next.blocks.get next.tip = some (tipBlock, tipHeight) ∧
      ∀ other otherBlock otherHeight, next.blocks.get other = some (otherBlock, otherHeight) →
        otherHeight ≤ tipHeight
    -- The height of every entry is the new one or is at most that of the old tip.
    have hheights : ∀ other otherBlock otherHeight,
        next.blocks.get other = some (otherBlock, otherHeight) →
        otherHeight = height ∨ otherHeight ≤ tipHeight := by
      intro other otherBlock otherHeight hget
      rw [hblocks] at hget
      rcases HashMap.of_get_insert hget with ⟨_, heq⟩ | hget
      · exact Or.inl (Prod.mk.inj heq).2
      · exact Or.inr (hhighest other otherBlock otherHeight hget)
    -- Only a higher block moves the tip; the height of the old tip bounds all others.
    by_cases hhigher : height > tipHeight
    · rw [if_pos hhigher] at hnext
      refine ⟨block, height, by rw [hnext, hblocks, HashMap.get_insert_self], ?_⟩
      intro other otherBlock otherHeight hget
      rcases hheights other otherBlock otherHeight hget with rfl | hle
      · exact UInt32.le_refl _
      · exact UInt32.le_trans hle (UInt32.le_of_lt hhigher)
    · rw [if_neg hhigher] at hnext
      refine ⟨tipBlock, tipHeight, ?_, ?_⟩
      · rw [hnext, hblocks, HashMap.get_insert]
        split
        next heq =>
          rw [heq] at htip
          rw [hsame height _ hheight htip]
        next => exact htip
      · intro other otherBlock otherHeight hget
        rcases hheights other otherBlock otherHeight hget with rfl | hle
        · exact UInt32.not_lt.mp hhigher
        · exact hle

theorem AdmissionInvariant.derives {block parent : Block} {parentHeight height : UInt32}
    {state next : State} (h : AdmissionInvariant C build start pool s) (hblock : block ∈ pool)
    (hparent : s.blockchain.value.blocks.get block.head.parent = some (parent, parentHeight))
    (hdifficulty : block.head.difficulty = parent.head.difficulty)
    (hstate : s.blockState.value.get block.head.parent = some state)
    (hcheck : checkTxs C build state block.cont.st = .ok next)
    (hheight : addU32 build parentHeight 1 = some height) :
    (admission C build).Derives start.entry pool (block.hash C) ⟨block, height, next⟩ := by
  have hentry : s.entry block.head.parent = some ⟨parent, parentHeight, state⟩ :=
    Shared.entry_eq_some.mpr ⟨hparent, hstate⟩
  exact .extend hblock (h.sound _ _ hentry) (admission_extend hdifficulty hcheck hheight)

/-- Every admission keeps the invariant. -/
theorem AdmissionInvariant.insert {block parent : Block} {parentHeight : UInt32}
    {state next : State} {chain : Blockchain} (h : AdmissionInvariant C build start pool s)
    (hblock : block ∈ pool)
    (hparent : s.blockchain.value.blocks.get block.head.parent = some (parent, parentHeight))
    (hdifficulty : block.head.difficulty = parent.head.difficulty)
    (hstate : s.blockState.value.get block.head.parent = some state)
    (hcheck : checkTxs C build state block.cont.st = .ok next)
    (hinsert : s.blockchain.value.insert C build block = .ok chain) :
    AdmissionInvariant C build start pool (s.put (block.hash C) next chain) := by
  obtain ⟨height, _, _, hheight, _, hblocks, _⟩ := Blockchain.insert_height hinsert hparent
  have hderives := h.derives hblock hparent hdifficulty hstate hcheck hheight
  have hcontains : ∀ hash, chain.blocks.containsKey hash = true ↔
      hash = block.hash C ∨ s.blockchain.value.blocks.containsKey hash = true := by
    intro hash
    rw [hblocks, HashMap.containsKey_insert]
  refine ⟨fun hash entry hentry => ?_, fun hash hstored => ?_, fun hash hstored => ?_,
    fun horderly => ?_⟩
  · rw [Shared.entry_put _ _ hblocks] at hentry
    split at hentry
    next heq =>
      obtain rfl := Option.some.inj hentry
      exact heq ▸ hderives
    next => exact h.sound hash entry hentry
  · rcases (hcontains hash).mp hstored with rfl | hold
    · exact Or.inr ⟨_, hderives⟩
    · exact h.stored hash hold
  · exact (hcontains hash).mpr (Or.inr (h.grows hash hstored))
  · refine (h.live horderly).insert hparent hinsert fun height' old hheight' hget => ?_
    obtain rfl := Option.some.inj (hheight.symm.trans hheight')
    obtain ⟨oldState, hold⟩ := (h.live horderly).exists_entry hget
    have hsame := (h.sound _ _ hold).unique horderly.2 hderives
    rw [Entry.mk.injEq] at hsame
    exact Prod.ext hsame.1 hsame.2.1

theorem Live.insert_ok {block parent : Block} {parentHeight : UInt32} {reason : Panic}
    (h : Live build s)
    (hparent : s.blockchain.value.blocks.get block.head.parent = some (parent, parentHeight)) :
    s.blockchain.value.insert C build block ≠ .error reason := by
  obtain ⟨tipBlock, tipHeight, htip, _⟩ := h.tip
  rw [Blockchain.insert_eq hparent htip, h.release]
  nofun

/-- The two calls that admit a block whose parent has the same difficulty. -/
theorem admitBlock_admits {block parent : Block} {parentHeight : UInt32}
    (h : AdmissionInvariant C build start pool s) (hblock : block ∈ pool)
    (hparent : s.blockchain.value.blocks.get block.head.parent = some (parent, parentHeight))
    (hdifficulty : block.head.difficulty = parent.head.difficulty) :
    ((admitBlock C build block).run C build).wp
      (fun admitted s' => AdmissionInvariant C build start pool s' ∧
        (∀ hash, s'.blockchain.value.blocks.containsKey hash = true ↔
          s.blockchain.value.blocks.containsKey hash = true ∨
            (admitted = true ∧ hash = block.hash C)) ∧
        (admitted = false → (admission C build).Rejected start.entry pool block))
      (fun _ s' => Stopped C build start pool s') s := by
  unfold admitBlock
  rw [NodeProgram.run, Program.run_bind, Effect.wp_bind, wp_checkTxState]
  refine ⟨fun hpoisoned => ⟨fun horderly => ?_, h.stored⟩, fun _ => ?_⟩
  · rw [(h.live horderly).blockState] at hpoisoned
    cases hpoisoned
  cases hstate : s.blockState.value.get block.head.parent with
  | none =>
      refine ⟨fun horderly => ?_, h.stored⟩
      -- A stored block without a state would be an earlier failure.
      have hknown := (h.live horderly).states _ (HashMap.containsKey_of_get hparent)
      rw [HashMap.containsKey_eq_false_iff.mpr hstate] at hknown
      cases hknown
  | some state =>
      have hentry : s.entry block.head.parent = some ⟨parent, parentHeight, state⟩ :=
        Shared.entry_eq_some.mpr ⟨hparent, hstate⟩
      dsimp only
      split
      next hcheck =>
        refine ⟨h, fun hash => by simp, fun _ => ⟨_, h.sound _ _ hentry, ?_⟩⟩
        simp only [admission, if_pos hdifficulty, hcheck]
      next hcheck =>
        refine ⟨fun horderly => ?_, h.stored⟩
        rw [(h.live horderly).release] at hcheck
        exact checkTxs_release hcheck
      next next hcheck =>
        simp only [if_true, NodeProgram.call, Program.call_bind, Program.run_perform, Op.action,
          Effect.wp_bind, wp_insertBlock]
        refine ⟨fun hpoisoned => ⟨fun horderly => ?_, h.stored⟩, fun _ => ?_⟩
        · rw [(h.live horderly).blockchain] at hpoisoned
          cases hpoisoned
        split
        next chain hinsert =>
          refine ⟨h.insert hblock hparent hdifficulty hstate hcheck hinsert, fun hash => ?_,
            by simp⟩
          change chain.blocks.containsKey hash = true ↔ _
          rw [Blockchain.containsKey_of_insert hinsert, or_comm]
          simp
        next reason hinsert =>
          exact ⟨fun horderly => (h.live horderly).insert_ok hparent hinsert, h.stored⟩

/-! ## The loops -/

/-- The arm's list of new blocks after a block was admitted or not. -/
def BlocksLoop.push (loop : BlocksLoop) (admitted : Bool) (hash : H256) : BlocksLoop :=
  if admitted then { loop with newBlocks := loop.newBlocks ++ [hash] } else loop

/-- How far the two loops got. A parent that is `stored` is still to be looked for, and by the
orphans before `i` not at the entry `n`. -/
structure Compared (stored : H256 → Prop) (loop : BlocksLoop) (i : Nat) : Prop where
  position : loop.n ≤ loop.newBlocks.length
  scanned : ∀ orphan ∈ loop.orphanBlocks.take i, stored orphan.head.parent →
    orphan.head.parent ∈ loop.newBlocks.drop (loop.n + 1)
  waiting : ∀ orphan ∈ loop.orphanBlocks.drop i, stored orphan.head.parent →
    orphan.head.parent ∈ loop.newBlocks.drop loop.n

variable {received : List Block} {loop : BlocksLoop} {i : Nat} {s' : Shared}

namespace Compared

variable {stored stored' : H256 → Prop}

/-- A new block is a parent to look for. -/
theorem push {hash : H256} (h : Compared stored loop i)
    (hposition : i = 0 ∨ loop.n < loop.newBlocks.length)
    (hstored : ∀ parent, stored' parent → stored parent ∨ parent = hash) :
    Compared stored' { loop with newBlocks := loop.newBlocks ++ [hash] } i := by
  have hmem : ∀ parent k, k ≤ loop.newBlocks.length →
      (stored parent → parent ∈ loop.newBlocks.drop k) → stored' parent →
      parent ∈ (loop.newBlocks ++ [hash]).drop k := by
    intro parent k hk hold hparent
    rw [List.drop_append_of_le_length hk, List.mem_append, List.mem_singleton]
    exact (hstored parent hparent).imp_left hold
  refine ⟨?_, fun orphan horphan => ?_, fun orphan horphan => ?_⟩
  · change loop.n ≤ (loop.newBlocks ++ [hash]).length
    rw [List.length_append]
    exact Nat.le_add_right_of_le h.position
  · rcases hposition with rfl | hn
    · cases horphan
    · exact hmem _ _ hn (h.scanned orphan horphan)
  · exact hmem _ _ h.position (h.waiting orphan horphan)

theorem erase (h : Compared stored loop i) (hi : i < loop.orphanBlocks.length) :
    Compared stored { loop with orphanBlocks := loop.orphanBlocks.eraseIdx i } i := by
  have hlength : (loop.orphanBlocks.take i).length = i := List.length_take_of_le hi.le
  have hsplit := List.eraseIdx_eq_take_drop_succ loop.orphanBlocks i
  refine ⟨h.position, fun orphan hmem => ?_, fun orphan hmem => ?_⟩
  · change orphan ∈ (loop.orphanBlocks.eraseIdx i).take i at hmem
    rw [hsplit, List.take_left' hlength] at hmem
    exact h.scanned orphan hmem
  · change orphan ∈ (loop.orphanBlocks.eraseIdx i).drop i at hmem
    rw [hsplit, List.drop_left' hlength, ← List.drop_drop] at hmem
    exact h.waiting orphan (List.mem_of_mem_drop hmem)

/-- An orphan with another parent is passed over. -/
theorem skip (h : Compared stored loop i) (hn : loop.n < loop.newBlocks.length)
    (hi : i < loop.orphanBlocks.length)
    (hparent : loop.orphanBlocks[i].head.parent ≠ loop.newBlocks[loop.n]) :
    Compared stored loop (i + 1) := by
  refine ⟨h.position, fun orphan hmem hstored => ?_, fun orphan hmem => ?_⟩
  · rw [List.take_succ_eq_append_getElem hi, List.mem_append, List.mem_singleton] at hmem
    rcases hmem with hmem | rfl
    · exact h.scanned orphan hmem hstored
    · have hwaits := h.waiting loop.orphanBlocks[i]
        (by rw [← List.getElem_cons_drop hi]; exact List.mem_cons_self) hstored
      rw [← List.getElem_cons_drop hn] at hwaits
      exact (List.mem_cons.mp hwaits).resolve_left hparent
  · rw [← List.drop_drop] at hmem
    exact h.waiting orphan (List.mem_of_mem_drop hmem)

/-- The inner loop is over for the entry `n`. -/
theorem next (h : Compared stored loop i) (hn : loop.n < loop.newBlocks.length)
    (hi : ¬ i < loop.orphanBlocks.length) :
    Compared stored { loop with n := loop.n + 1 } 0 := by
  have hall : loop.orphanBlocks.take i = loop.orphanBlocks :=
    List.take_of_length_le (Nat.not_lt.mp hi)
  refine ⟨hn, List.forall_mem_nil _, fun orphan hmem => ?_⟩
  exact h.scanned orphan (by rw [hall]; exact hmem)

/-- At the end no parent of an orphan is stored. -/
theorem not_stored (h : Compared stored loop i) (hn : ¬ loop.n < loop.newBlocks.length) :
    ∀ orphan ∈ loop.orphanBlocks, ¬ stored orphan.head.parent := by
  have hend : loop.newBlocks.drop loop.n = [] := List.drop_of_length_le (Nat.not_lt.mp hn)
  intro orphan hmem hstored
  rw [← List.take_append_drop i loop.orphanBlocks, List.mem_append] at hmem
  rcases hmem with hmem | hmem
  · have hscanned := h.scanned orphan hmem hstored
    rw [← List.drop_drop, hend] at hscanned
    cases hscanned
  · have hwaits := h.waiting orphan hmem hstored
    rw [hend] at hwaits
    cases hwaits

end Compared

theorem LoopInvariant.compared (h : LoopInvariant C build start pool received loop i s) :
    Compared (fun hash => s.blockchain.value.blocks.containsKey hash = true) loop i :=
  ⟨h.position, h.scanned, h.waiting⟩

/-- A new block is a parent to look for. -/
theorem LoopInvariant.push {hash : H256} {admitted : Bool}
    (h : LoopInvariant C build start pool received loop i s)
    (hposition : i = 0 ∨ loop.n < loop.newBlocks.length)
    (hmemory : AdmissionInvariant C build start pool s')
    (hcontains : ∀ other, s'.blockchain.value.blocks.containsKey other = true ↔
      s.blockchain.value.blocks.containsKey other = true ∨ (admitted = true ∧ other = hash)) :
    LoopInvariant C build start pool received (loop.push admitted hash) i s' := by
  cases admitted with
  | false =>
      have hsame : ∀ other, s'.blockchain.value.blocks.containsKey other = true ↔
          s.blockchain.value.blocks.containsKey other = true := by simpa using hcontains
      refine ⟨hmemory, h.orphans, fun other hmem => ?_, h.position, fun block hmem hstored => ?_,
        fun block hmem hstored => ?_, fun horderly block hmem hwork => ?_⟩
      · exact (hsame other).mpr (h.newBlocks other hmem)
      · exact h.scanned block hmem ((hsame _).mp hstored)
      · exact h.waiting block hmem ((hsame _).mp hstored)
      · exact (h.handled horderly block hmem hwork).imp_left (hsame _).mpr
  | true =>
      simp only [true_and] at hcontains
      have hpushed := h.compared.push hposition fun parent => (hcontains parent).mp
      refine ⟨hmemory, h.orphans, fun other hmem => ?_, hpushed.position, hpushed.scanned,
        hpushed.waiting, fun horderly block hmem hwork => ?_⟩
      · rw [hcontains]
        exact (List.mem_append.mp hmem).imp (h.newBlocks other) List.mem_singleton.mp
      · exact (h.handled horderly block hmem hwork).imp_left fun hstored =>
          (hcontains _).mpr (Or.inl hstored)

/-- An orphan that is stored or rejected may leave the buffer. -/
theorem LoopInvariant.remove (h : LoopInvariant C build start pool received loop i s)
    (hi : i < loop.orphanBlocks.length)
    (hdone : Orderly C build start pool →
      s.blockchain.value.blocks.containsKey (loop.orphanBlocks[i].hash C) = true ∨
        (admission C build).Rejected start.entry pool loop.orphanBlocks[i]) :
    LoopInvariant C build start pool received
      { loop with orphanBlocks := loop.orphanBlocks.eraseIdx i } i s := by
  have hsplit := List.eraseIdx_eq_take_drop_succ loop.orphanBlocks i
  have herased := h.compared.erase hi
  refine ⟨h.memory, fun block hmem => h.orphans block (List.mem_of_mem_eraseIdx hmem), h.newBlocks,
    herased.position, herased.scanned, herased.waiting, fun horderly block hmem hwork => ?_⟩
  rcases h.handled horderly block hmem hwork with hstored | horphan | hrejected
  · exact Or.inl hstored
  · rw [← List.take_append_drop i loop.orphanBlocks, ← List.getElem_cons_drop hi, List.mem_append,
      List.mem_cons] at horphan
    rcases horphan with hbefore | rfl | hafter
    · exact Or.inr (Or.inl (hsplit ▸ List.mem_append_left _ hbefore))
    · exact (hdone horderly).imp_right Or.inr
    · exact Or.inr (Or.inl (hsplit ▸ List.mem_append_right _ hafter))
  · exact Or.inr (Or.inr hrejected)

/-- A block has been handled once it is stored, waits or was rejected. -/
theorem LoopInvariant.receive {block : Block}
    (h : LoopInvariant C build start pool received loop i s)
    (hdone : Orderly C build start pool → block.hash C ≤ block.head.difficulty →
      s.blockchain.value.blocks.containsKey (block.hash C) = true ∨ block ∈ loop.orphanBlocks ∨
        (admission C build).Rejected start.entry pool block) :
    LoopInvariant C build start pool (received ++ [block]) loop i s := by
  refine ⟨h.memory, h.orphans, h.newBlocks, h.position, h.scanned, h.waiting, ?_⟩
  intro horderly other hmem hwork
  rcases List.mem_append.mp hmem with hmem | hmem
  · exact h.handled horderly other hmem hwork
  · obtain rfl := List.mem_singleton.mp hmem
    exact hdone horderly hwork

/-- Messages to other nodes do not matter. -/
theorem LoopInvariant.send {message : Sent}
    (h : LoopInvariant C build start pool received loop i s) :
    LoopInvariant C build start pool received loop i { s with sent := s.sent ++ [message] } := by
  refine ⟨⟨h.memory.sound, h.memory.stored, h.memory.grows, fun horderly => ?_⟩, h.orphans,
    h.newBlocks, h.position, h.scanned, h.waiting, h.handled⟩
  have hlive := h.memory.live horderly
  exact ⟨hlive.release, hlive.blockchain, hlive.blockState, hlive.states, hlive.tip⟩

/-- A block without its parent goes to the end of the buffer. -/
theorem LoopInvariant.keep {block : Block}
    (h : LoopInvariant C build start pool received loop 0 s) (hblock : block ∈ pool)
    (hparent : s.blockchain.value.blocks.containsKey block.head.parent = false) :
    LoopInvariant C build start pool (received ++ [block])
      { loop with orphanBlocks := loop.orphanBlocks ++ [block] } 0 s := by
  have hkept : LoopInvariant C build start pool received
      { loop with orphanBlocks := loop.orphanBlocks ++ [block] } 0 s := by
    refine ⟨h.memory, fun other hmem => ?_, h.newBlocks, h.position, nofun,
      fun other hmem hstored => ?_, fun horderly other hmem hwork => ?_⟩
    · rcases List.mem_append.mp hmem with hmem | hmem
      · exact h.orphans other hmem
      · exact List.mem_singleton.mp hmem ▸ hblock
    · rcases List.mem_append.mp hmem with hmem | hmem
      · exact h.waiting other hmem hstored
      · obtain rfl := List.mem_singleton.mp hmem
        exact Bool.noConfusion (hparent.symm.trans hstored)
    · exact (h.handled horderly other hmem hwork).imp_right
        (Or.imp_left (List.mem_append_left _))
  exact hkept.receive fun _ _ => Or.inr (Or.inl (List.mem_append_right _ List.mem_cons_self))

/-- A panic of the worker means that something was wrong from the start. -/
theorem AdmissionInvariant.stopped (h : AdmissionInvariant C build start pool s)
    (hstuck : ¬ Live build s) : Stopped C build start pool s :=
  ⟨fun horderly => hstuck (h.live horderly), h.stored⟩

theorem containsBlock_admits {α : Type} {hash : H256} {next : Bool → NodeProgram α}
    {post : α → Shared → Prop} (h : AdmissionInvariant C build start pool s)
    (hnext : ((next (s.blockchain.value.blocks.containsKey hash)).run C build).wp post
      (fun _ s' => Stopped C build start pool s') s) :
    ((NodeProgram.call (.containsBlock hash) >>= next).run C build).wp post
      (fun _ s' => Stopped C build start pool s') s := by
  simp only [NodeProgram.run, NodeProgram.call, Program.call_bind, Program.run_perform,
    Effect.wp_bind, Op.action, wp_containsBlock]
  refine ⟨fun hpoisoned => h.stopped fun hlive => ?_, fun _ => hnext⟩
  rw [hlive.blockchain] at hpoisoned
  cases hpoisoned

/-- The look at the parent and the admission, which both copies of the checks share. -/
theorem admitChild_admits {block : Block} {next : Bool → NodeProgram BlocksLoop}
    {post : BlocksLoop → Shared → Prop} (h : AdmissionInvariant C build start pool s)
    (hblock : block ∈ pool)
    (hparent : s.blockchain.value.blocks.containsKey block.head.parent = true)
    (hnext : ∀ admitted s', AdmissionInvariant C build start pool s' →
      (∀ hash, s'.blockchain.value.blocks.containsKey hash = true ↔
        s.blockchain.value.blocks.containsKey hash = true ∨
          (admitted = true ∧ hash = block.hash C)) →
      (Orderly C build start pool → admitted = false →
        (admission C build).Rejected start.entry pool block) →
      ((next admitted).run C build).wp post (fun _ s' => Stopped C build start pool s') s') :
    (NodeProgram.run C build do
      let parent ← NodeProgram.call (.getBlock block.head.parent)
      if block.head.difficulty = parent.1.head.difficulty then
        let admitted ← admitBlock C build block
        next admitted
      else
        next false).wp post (fun _ s' => Stopped C build start pool s') s := by
  simp only [NodeProgram.run, NodeProgram.call, Program.call_bind, Program.run_perform,
    Effect.wp_bind, Op.action, wp_getBlock]
  refine ⟨fun hpoisoned => h.stopped fun hlive => ?_, fun _ => ?_⟩
  · rw [hlive.blockchain] at hpoisoned
    cases hpoisoned
  obtain ⟨parent, hget⟩ := HashMap.containsKey_iff.mp hparent
  rw [hget]
  dsimp only
  split
  next hdifficulty =>
    rw [Program.run_bind, Effect.wp_bind]
    refine Effect.wp_mono (admitBlock_admits h hblock hget hdifficulty) ?_ fun _ _ h => h
    intro admitted s' hadmitted
    exact hnext admitted s' hadmitted.1 hadmitted.2.1 fun _ => hadmitted.2.2
  next hdifficulty =>
    refine hnext false s h (fun hash => by simp) fun horderly _ => ?_
    obtain ⟨state, hentry⟩ := (h.live horderly).exists_entry hget
    refine ⟨_, h.sound _ _ hentry, ?_⟩
    simp only [admission, if_neg hdifficulty]

/-- The cascade ends with no orphan whose parent is stored. -/
theorem releaseOrphans_admits (loop : BlocksLoop) (i : Nat)
    (h : LoopInvariant C build start pool received loop i s) :
    ((releaseOrphans C build loop i).run C build).wp
      (fun loop s' => LoopInvariant C build start pool received loop 0 s' ∧
        loop.n = loop.newBlocks.length)
      (fun _ s' => Stopped C build start pool s') s := by
  induction loop, i using releaseOrphans.induct C generalizing s with
  | case1 loop i hn hi blockToUnorphan hparent orphanBlocks ihAdmitted =>
      rename_i ihDropped
      rw [releaseOrphans, dif_pos hn, dif_pos hi]
      simp only
      rw [if_pos hparent]
      have hstored := h.newBlocks _ (List.getElem_mem hn)
      rw [← hparent] at hstored ⊢
      refine admitChild_admits h.memory (h.orphans _ (List.getElem_mem hi)) hstored ?_
      intro admitted s' hmemory hcontains hrejected
      have hpushed := h.push (Or.inr hn) hmemory hcontains
      cases admitted with
      | false => exact ihDropped (hpushed.remove hi fun horderly => Or.inr (hrejected horderly rfl))
      | true =>
          apply ihAdmitted
          exact hpushed.remove hi fun _ => Or.inl ((hcontains _).mpr (Or.inr ⟨rfl, rfl⟩))
  | case2 loop i hn hi blockToUnorphan hparent =>
      rename_i ih
      rw [releaseOrphans, dif_pos hn, dif_pos hi]
      simp only
      rw [if_neg hparent]
      have hskipped := h.compared.skip hn hi hparent
      exact ih { h with scanned := hskipped.scanned, waiting := hskipped.waiting }
  | case3 loop i hn hi ih =>
      rw [releaseOrphans, dif_pos hn, dif_neg hi]
      have hnext := h.compared.next hn hi
      exact ih ⟨h.memory, h.orphans, h.newBlocks, hnext.position, hnext.scanned, hnext.waiting,
        h.handled⟩
  | case4 loop i hn =>
      rw [releaseOrphans, dif_neg hn]
      refine ⟨⟨h.memory, h.orphans, h.newBlocks, h.position, nofun, fun block hmem hstored => ?_,
        h.handled⟩, Nat.le_antisymm h.position (Nat.not_lt.mp hn)⟩
      exact (h.compared.not_stored hn block hmem hstored).elim

/-- One block of the message. The pool has to hold it if it can be admitted. -/
theorem processBlock_admits {peer : PeerId} {message : Message} {loop : BlocksLoop} {block : Block}
    (h : LoopInvariant C build start pool received loop 0 s)
    (hend : loop.n = loop.newBlocks.length)
    (hblock : block.hash C ≤ block.head.difficulty →
      start.blockchain.value.blocks.containsKey (block.hash C) = false → block ∈ pool) :
    ((processBlock C build peer message loop block).run C build).wp
      (fun loop s' => LoopInvariant C build start pool (received ++ [block]) loop 0 s' ∧
        loop.n = loop.newBlocks.length)
      (fun _ s' => Stopped C build start pool s') s := by
  simp only [processBlock]
  split
  next hwork =>
    refine containsBlock_admits h.memory ?_
    cases hknown : s.blockchain.value.blocks.containsKey (block.hash C) with
    | true => exact ⟨h.receive fun _ _ => Or.inl hknown, hend⟩
    | false =>
        have hfresh : start.blockchain.value.blocks.containsKey (block.hash C) = false := by
          cases hstart : start.blockchain.value.blocks.containsKey (block.hash C) with
          | false => rfl
          | true => exact (h.memory.grows _ hstart).symm.trans hknown
        have hpool := hblock hwork hfresh
        refine containsBlock_admits h.memory ?_
        cases hparent : s.blockchain.value.blocks.containsKey block.head.parent with
        | true =>
            refine admitChild_admits h.memory hpool hparent ?_
            intro admitted s' hmemory hcontains hrejected
            have hpushed := h.push (Or.inl rfl) hmemory hcontains
            cases admitted with
            | false =>
                exact releaseOrphans_admits _ _
                  (hpushed.receive fun horderly _ => Or.inr (Or.inr (hrejected horderly rfl)))
            | true =>
                exact releaseOrphans_admits _ _
                  (hpushed.receive fun _ _ => Or.inl ((hcontains _).mpr (Or.inr ⟨rfl, rfl⟩)))
        | false => exact ⟨(h.keep hpool hparent).send, hend⟩
  next hwork => exact ⟨h.receive fun _ hmeets => absurd hmeets hwork, hend⟩

theorem foldlM_admits {peer : PeerId} {message : Message} {loop : BlocksLoop} {blocks : List Block}
    (h : LoopInvariant C build start pool received loop 0 s)
    (hend : loop.n = loop.newBlocks.length)
    (hblocks : ∀ block ∈ blocks, block.hash C ≤ block.head.difficulty →
      start.blockchain.value.blocks.containsKey (block.hash C) = false → block ∈ pool) :
    ((blocks.foldlM (processBlock C build peer message) loop).run C build).wp
      (fun loop s' => LoopInvariant C build start pool (received ++ blocks) loop 0 s' ∧
        loop.n = loop.newBlocks.length)
      (fun _ s' => Stopped C build start pool s') s := by
  induction blocks generalizing received loop s with
  | nil => exact ⟨(List.append_nil received).symm ▸ h, hend⟩
  | cons block rest ih =>
      rw [List.foldlM_cons, NodeProgram.run, Program.run_bind, Effect.wp_bind]
      refine Effect.wp_mono (processBlock_admits h hend (hblocks block List.mem_cons_self)) ?_
        fun _ _ h => h
      intro loop s' hloop
      rw [List.append_cons]
      exact ih hloop.1 hloop.2 fun other hmem => hblocks other (List.mem_cons_of_mem _ hmem)

/-- Between two messages the worker is at the start of the arm, with an empty list. -/
theorem LoopInvariant.ended (h : LoopInvariant C build start pool received loop 0 s)
    (hend : loop.n = loop.newBlocks.length) :
    LoopInvariant C build start pool received { orphanBlocks := loop.orphanBlocks } 0 s := by
  refine ⟨h.memory, h.orphans, nofun, Nat.le_refl _, nofun, fun block hmem hstored => ?_, h.handled⟩
  have hwaits := h.waiting block hmem hstored
  rw [hend, List.drop_length] at hwaits
  cases hwaits

/-- A whole `Blocks` message. -/
theorem processBlocks_admits {peer : PeerId} {orphanBlocks blocks : List Block}
    (h : LoopInvariant C build start pool received { orphanBlocks } 0 s)
    (hblocks : ∀ block ∈ blocks, block.hash C ≤ block.head.difficulty →
      start.blockchain.value.blocks.containsKey (block.hash C) = false → block ∈ pool) :
    ((processBlocks C build peer orphanBlocks blocks).run C build).wp
      (fun orphanBlocks s' =>
        LoopInvariant C build start pool (received ++ blocks) { orphanBlocks } 0 s')
      (fun _ s' => Stopped C build start pool s') s := by
  unfold processBlocks
  rw [NodeProgram.run, Program.run_bind, Effect.wp_bind]
  refine Effect.wp_mono (foldlM_admits h rfl hblocks) ?_ fun _ _ h => h
  intro loop s' hloop
  have hended := hloop.1.ended hloop.2
  split
  next => exact hended.send
  next => exact hended

/-- No orphan of a worker between two messages has its parent stored. -/
theorem LoopInvariant.parent_missing {orphanBlocks : List Block} {block : Block}
    (h : LoopInvariant C build start pool received { orphanBlocks } 0 s)
    (hmem : block ∈ orphanBlocks) :
    s.blockchain.value.blocks.containsKey block.head.parent = false := by
  cases hstored : s.blockchain.value.blocks.containsKey block.head.parent with
  | false => rfl
  | true => cases h.waiting block hmem hstored

/-- Once every block of the pool was received, the store is settled. -/
theorem LoopInvariant.settled {orphanBlocks : List Block}
    (h : LoopInvariant C build start pool received { orphanBlocks } 0 s)
    (horderly : Orderly C build start pool)
    (hreceived : ∀ block ∈ pool, block ∈ received ∧ block.hash C ≤ block.head.difficulty) :
    (admission C build).Settled start.entry pool s.entry := by
  have hlive := h.memory.live horderly
  refine ⟨h.memory.sound, fun hash entry hstart => ?_, fun block hblock => ?_⟩
  · have hold := HashMap.containsKey_of_get (Shared.entry_eq_some.mp hstart).1
    have hstored := h.memory.grows hash hold
    obtain ⟨stored, hget⟩ := HashMap.containsKey_iff.mp hstored
    obtain ⟨state, hentry⟩ := hlive.exists_entry hget
    rw [hentry, (h.memory.sound _ _ hentry).unique horderly.2 (.start hstart)]
  · obtain ⟨hmem, hwork⟩ := hreceived block hblock
    rcases h.handled horderly block hmem hwork with hstored | horphan | hrejected
    · obtain ⟨stored, hget⟩ := HashMap.containsKey_iff.mp hstored
      obtain ⟨state, hentry⟩ := hlive.exists_entry hget
      exact Or.inl (Option.isSome_iff_exists.mpr ⟨_, hentry⟩)
    · refine Or.inr (Or.inl ?_)
      change s.entry block.head.parent = none
      rw [Shared.entry, HashMap.containsKey_eq_false_iff.mp (h.parent_missing horphan)]
    · exact Or.inr (Or.inr hrejected)

/-- A worker starts to collect blocks in any memory where its orphans wait. -/
theorem LoopInvariant.begin {orphanBlocks : List Block}
    (horphans : ∀ block ∈ orphanBlocks, block ∈ pool ∧
      s.blockchain.value.blocks.containsKey block.head.parent = false) :
    LoopInvariant C build s pool [] { orphanBlocks } 0 s := by
  refine ⟨⟨fun _ _ => .start, fun _ => Or.inl, fun _ => id, And.left⟩,
    fun block hmem => (horphans block hmem).1, nofun, Nat.le_refl _, nofun,
    fun block hmem hstored => ?_, nofun⟩
  exact Bool.noConfusion ((horphans block hmem).2.symm.trans hstored)

end BitcoinClient
