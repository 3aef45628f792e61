import BitcoinClient.Node.System

/-! # What the block tree keeps across all threads

The invariant ties the stored blocks, their ledger states and the queue of mined
blocks together. Every way into the tree is covered by the precondition of one
operation, `insertBlock`; every lookup that is unwrapped by that of another.

`adm` is a property of the blocks that the network delivers and the miner
queues. What depends on headers not colliding holds when those of admissible
blocks do not.
-/

namespace BitcoinClient

variable (C : Crypto) (adm : Block → Prop)

/-- The proof of work for the fixed difficulty. -/
def WellMined (block : Block) : Prop :=
  block.head.difficulty = Blockchain.genesisDifficulty ∧
    block.hash C ≤ Blockchain.genesisDifficulty

/-- Equal hashes of the genesis block and of admissible blocks mean equal headers. -/
def HeadersDistinct : Prop :=
  ∀ left right, left = Blockchain.genesis ∨ adm left → right = Blockchain.genesis ∨ adm right →
    left.hash C = right.hash C → left.head = right.head

/-- The block and its first `steps` ancestors are stored. -/
def Descends (blocks : HashMap H256 (Block × UInt32)) : Nat → H256 → Prop
  | 0, hash => blocks.containsKey hash = true
  | steps + 1, hash => ∃ block height, blocks.get hash = some (block, height) ∧
      Descends blocks steps block.head.parent

/-- What a block has to satisfy before it is inserted. -/
structure Insertable (blocks : HashMap H256 (Block × UInt32)) (block : Block) : Prop where
  wellMined : WellMined C block
  parent : blocks.containsKey block.head.parent = true
  admissible : adm block

structure ChainInvariant (s : Shared) : Prop where
  tip : s.blockchain.value.blocks.containsKey s.blockchain.value.tip = true
  stored : ∀ hash block height, s.blockchain.value.blocks.get hash = some (block, height) →
    block.hash C = hash ∧
      (block = Blockchain.genesis ∨ Insertable C adm s.blockchain.value.blocks block)
  states : ∀ hash, s.blockchain.value.blocks.containsKey hash = true →
    s.blockState.value.containsKey hash = true
  queued : ∀ block ∈ s.finishedBlockChan, Insertable C adm s.blockchain.value.blocks block
  heights : HeadersDistinct C adm → ∀ hash block height,
    s.blockchain.value.blocks.get hash = some (block, height) →
    Descends s.blockchain.value.blocks height.toNat hash

/-- No key of the two maps is ever removed. -/
structure Grows (s s' : Shared) : Prop where
  blocks : ∀ hash, s.blockchain.value.blocks.containsKey hash = true →
    s'.blockchain.value.blocks.containsKey hash = true
  states : ∀ hash, s.blockState.value.containsKey hash = true →
    s'.blockState.value.containsKey hash = true

variable {C adm}

theorem Grows.refl (s : Shared) : Grows s s := ⟨fun _ => id, fun _ => id⟩

theorem Grows.trans {s s' s'' : Shared} (h : Grows s s') (h' : Grows s' s'') : Grows s s'' :=
  ⟨fun hash hstored => h'.blocks hash (h.blocks hash hstored),
    fun hash hstored => h'.states hash (h.states hash hstored)⟩

theorem Insertable.mono {s s' : Shared} {block : Block}
    (h : Insertable C adm s.blockchain.value.blocks block) (hgrows : Grows s s') :
    Insertable C adm s'.blockchain.value.blocks block :=
  ⟨h.wellMined, hgrows.blocks _ h.parent, h.admissible⟩

namespace Descends

variable {blocks blocks' : HashMap H256 (Block × UInt32)}

theorem contains {steps : Nat} {hash : H256} (h : Descends blocks steps hash) :
    blocks.containsKey hash = true := by
  cases steps with
  | zero => exact h
  | succ steps =>
      obtain ⟨block, height, hget, _⟩ := h
      exact HashMap.containsKey_of_get hget

theorem pred {steps : Nat} {hash : H256} (h : Descends blocks (steps + 1) hash) :
    Descends blocks steps hash := by
  induction steps generalizing hash with
  | zero => exact h.contains
  | succ steps ih =>
      obtain ⟨block, height, hget, hparent⟩ := h
      exact ⟨block, height, hget, ih hparent⟩

theorem le {steps fewer : Nat} {hash : H256} (h : Descends blocks steps hash)
    (hle : fewer ≤ steps) : Descends blocks fewer hash := by
  induction hle with
  | refl => exact h
  | step _ ih => exact ih h.pred

/-- The walk of a stored block goes on at its parent. -/
theorem parent {steps : Nat} {hash : H256} {block : Block} {height : UInt32}
    (h : Descends blocks (steps + 1) hash) (hget : blocks.get hash = some (block, height)) :
    Descends blocks steps block.head.parent := by
  obtain ⟨block', height', hget', hparent⟩ := h
  obtain rfl : block' = block :=
    congrArg Prod.fst (Option.some.inj (hget'.symm.trans hget))
  exact hparent

/-- Only the headers under the keys matter. -/
theorem mono (hheads : ∀ hash block height, blocks.get hash = some (block, height) →
      ∃ block' height', blocks'.get hash = some (block', height') ∧ block'.head = block.head)
    {steps : Nat} {hash : H256} (h : Descends blocks steps hash) :
    Descends blocks' steps hash := by
  induction steps generalizing hash with
  | zero =>
      obtain ⟨entry, hget⟩ := HashMap.containsKey_iff.mp h
      obtain ⟨block', height', hget', _⟩ := hheads hash entry.1 entry.2 hget
      exact HashMap.containsKey_of_get hget'
  | succ steps ih =>
      obtain ⟨block, height, hget, hparent⟩ := h
      obtain ⟨block', height', hget', hhead⟩ := hheads hash block height hget
      exact ⟨block', height', hget', hhead ▸ ih hparent⟩

/-- The loop of `all_blocks_in_longest_chain` finds all the ancestors it looks up. -/
theorem walkBack_ok {steps : Nat} {hash : H256} {block : Block} {height : UInt32}
    (h : Descends blocks steps hash) (hget : blocks.get hash = some (block, height))
    (hashes : List H256) :
    ∃ result, Blockchain.walkBack blocks steps block.head.parent hashes = .ok result := by
  induction steps generalizing hash block height hashes with
  | zero => exact ⟨hashes, rfl⟩
  | succ steps ih =>
      have hparent := h.parent hget
      obtain ⟨entry, hentry⟩ := HashMap.containsKey_iff.mp hparent.contains
      obtain ⟨result, hresult⟩ := ih hparent hentry (hashes ++ [block.head.parent])
      exact ⟨result, by simp [Blockchain.walkBack, hentry, bind, Except.bind, hresult]⟩

end Descends

namespace ChainInvariant

variable {s s' : Shared}

/-- The header under a key stays when the invariant holds before and after. -/
theorem head_eq (h : ChainInvariant C adm s) (h' : ChainInvariant C adm s')
    (hdistinct : HeadersDistinct C adm) {hash : H256} {block block' : Block}
    {height height' : UInt32} (hget : s.blockchain.value.blocks.get hash = some (block, height))
    (hget' : s'.blockchain.value.blocks.get hash = some (block', height')) :
    block'.head = block.head := by
  obtain ⟨hhash, hkind⟩ := h.stored hash block height hget
  obtain ⟨hhash', hkind'⟩ := h'.stored hash block' height' hget'
  exact hdistinct block' block (hkind'.imp_right Insertable.admissible)
    (hkind.imp_right Insertable.admissible) (hhash'.trans hhash.symm)

theorem descends_mono (h : ChainInvariant C adm s) (h' : ChainInvariant C adm s')
    (hgrows : Grows s s') (hdistinct : HeadersDistinct C adm) {steps : Nat} {hash : H256}
    (hdescends : Descends s.blockchain.value.blocks steps hash) :
    Descends s'.blockchain.value.blocks steps hash := by
  refine hdescends.mono fun hash block height hget => ?_
  obtain ⟨entry, hget'⟩ := HashMap.containsKey_iff.mp
    (hgrows.blocks hash (HashMap.containsKey_of_get hget))
  exact ⟨entry.1, entry.2, hget', h.head_eq h' hdistinct hget hget'⟩

/-- Steps that leave the two maps and the queue as they are keep the invariant. -/
theorem frame (h : ChainInvariant C adm s) (hblockchain : s'.blockchain.value = s.blockchain.value)
    (hstate : s'.blockState.value = s.blockState.value)
    (hchan : s'.finishedBlockChan = s.finishedBlockChan) : ChainInvariant C adm s' := by
  have hgrows : Grows s s' := by
    constructor
    · exact fun hash hstored => hblockchain ▸ hstored
    · exact fun hash hstored => hstate ▸ hstored
  constructor
  · rw [hblockchain]
    exact h.tip
  · intro hash block height hget
    rw [hblockchain] at hget
    obtain ⟨hhash, hkind⟩ := h.stored hash block height hget
    exact ⟨hhash, hkind.imp_right fun hinsertable => hinsertable.mono hgrows⟩
  · intro hash hstored
    rw [hblockchain] at hstored
    rw [hstate]
    exact h.states hash hstored
  · intro block hblock
    rw [hchan] at hblock
    exact (h.queued block hblock).mono hgrows
  · intro hdistinct hash block height hget
    rw [hblockchain] at hget ⊢
    exact h.heights hdistinct hash block height hget

theorem initial (icoKey : Ed25519KeyPair) : ChainInvariant C adm (Shared.initial C icoKey) := by
  have hgenesis : ∀ hash block height,
      (Shared.initial C icoKey).blockchain.value.blocks.get hash = some (block, height) →
      hash = Blockchain.genesis.hash C ∧ block = Blockchain.genesis ∧ height = 0 := by
    intro hash block height hget
    simp only [Shared.initial, Blockchain.new, HashMap.get_insert, HashMap.get_empty,
      Option.ite_none_right_eq_some, Option.some.injEq, Prod.mk.injEq] at hget
    exact ⟨hget.1, hget.2.1.symm, hget.2.2.symm⟩
  have htip : (Shared.initial C icoKey).blockchain.value.blocks.containsKey
      (Blockchain.genesis.hash C) = true :=
    HashMap.containsKey_of_get (HashMap.get_insert_self _ _ _)
  constructor
  · exact htip
  · intro hash block height hget
    obtain ⟨rfl, rfl, rfl⟩ := hgenesis hash block height hget
    exact ⟨rfl, Or.inl rfl⟩
  · intro hash hstored
    obtain ⟨⟨block, height⟩, hget⟩ := HashMap.containsKey_iff.mp hstored
    obtain ⟨rfl, _, _⟩ := hgenesis hash block height hget
    exact HashMap.containsKey_of_get (HashMap.get_insert_self _ _ _)
  · intro block hblock
    cases hblock
  · intro _ hash block height hget
    obtain ⟨rfl, rfl, rfl⟩ := hgenesis hash block height hget
    exact htip

/-- `Blockchain::insert` of an insertable block whose state is stored. -/
theorem insert {build : Build} {block : Block} {next : Blockchain} (h : ChainInvariant C adm s)
    (hblock : Insertable C adm s.blockchain.value.blocks block)
    (hstate : s.blockState.value.containsKey (block.hash C) = true)
    (hinsert : s.blockchain.value.insert C build block = .ok next) :
    ChainInvariant C adm { s with blockchain := { s.blockchain with value := next } } ∧
      Grows s { s with blockchain := { s.blockchain with value := next } } := by
  obtain ⟨_, parentHeight, height, _, _, hparent, hheight, -, hblocks, -⟩ :=
    Blockchain.insert_ok hinsert
  have hgrows : Grows s { s with blockchain := { s.blockchain with value := next } } :=
    ⟨fun hash hstored => (Blockchain.containsKey_of_insert hinsert).mpr (Or.inr hstored),
      fun _ => id⟩
  refine ⟨?_, hgrows⟩
  constructor
  · exact Blockchain.tip_of_insert hinsert
  · intro hash block' height' hget
    change next.blocks.get hash = _ at hget
    rw [hblocks] at hget
    rcases HashMap.of_get_insert hget with ⟨rfl, heq⟩ | hget
    · cases heq
      exact ⟨rfl, Or.inr (hblock.mono hgrows)⟩
    · obtain ⟨hhash, hkind⟩ := h.stored hash block' height' hget
      exact ⟨hhash, hkind.imp_right fun hinsertable => hinsertable.mono hgrows⟩
  · intro hash hstored
    rcases (Blockchain.containsKey_of_insert hinsert).mp hstored with rfl | hstored
    · exact hstate
    · exact h.states hash hstored
  · exact fun block' hblock' => (h.queued block' hblock').mono hgrows
  · intro hdistinct
    have hheads : ∀ hash block' height',
        s.blockchain.value.blocks.get hash = some (block', height') →
        ∃ block'' height'', next.blocks.get hash = some (block'', height'') ∧
          block''.head = block'.head := by
      intro hash block' height' hget
      rcases Blockchain.get_of_insert hinsert hget with hget' | ⟨heq, height'', hget'⟩
      · exact ⟨block', height', hget', rfl⟩
      · -- An overwritten block has the header of the new one.
        obtain ⟨hhash, hkind⟩ := h.stored hash block' height' hget
        exact ⟨block, height'', hget', hdistinct block block' (Or.inr hblock.admissible)
          (hkind.imp_right Insertable.admissible) (heq.symm.trans hhash.symm)⟩
    intro hash block' height' hget
    change Descends next.blocks _ _
    change next.blocks.get hash = _ at hget
    rw [hblocks] at hget
    rcases HashMap.of_get_insert hget with ⟨rfl, heq⟩ | hget
    · -- The new block is one step above its parent.
      cases heq
      have hwalk : Descends next.blocks (parentHeight.toNat + 1) (block.hash C) := by
        refine ⟨block, height, ?_, ?_⟩
        · rw [hblocks, HashMap.get_insert_self]
        · exact (h.heights hdistinct _ _ _ hparent).mono hheads
      exact hwalk.le (addU32_toNat_le hheight)
    · exact (h.heights hdistinct hash block' height' hget).mono hheads

end ChainInvariant

end BitcoinClient
