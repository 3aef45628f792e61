import BitcoinClient.Foundation.Arithmetic
import BitcoinClient.Foundation.Effect
import BitcoinClient.Types.Crypto

/-! # The block tree and its longest chain

`Blockchain::insert` trusts its caller: the parent must be stored, and nothing
else about the block is checked. A lookup that fails under `unwrap` is a panic.
-/

namespace BitcoinClient

/-- Why a thread of the node panics. -/
inductive Panic where
  /-- `unwrap` on a failed lookup in `blocks`. -/
  | blocksLookup
  /-- `unwrap` on a failed lookup in `block_state`. -/
  | blockStateLookup
  /-- `unwrap` on a failed lookup in the mempool. -/
  | mempoolLookup
  /-- A `u32` addition in a build with overflow checks. -/
  | overflow
  /-- An index past the end of a vector. -/
  | outOfBounds
  /-- `lock().unwrap()` on a mutex that another thread poisoned. -/
  | poisoned
deriving DecidableEq, Repr

/-- `Option::unwrap`, with the reason of the panic. -/
def unwrap {α : Type} (value : Option α) (panic : Panic) : Except Panic α :=
  match value with
  | some value => .ok value
  | none => .error panic

@[simp] theorem unwrap_some {α : Type} (value : α) (panic : Panic) :
    unwrap (some value) panic = .ok value := rfl

@[simp] theorem unwrap_none {α : Type} (panic : Panic) :
    unwrap (none : Option α) panic = .error panic := rfl

theorem unwrap_eq_ok {α : Type} {value : Option α} {panic : Panic} {result : α} :
    unwrap value panic = .ok result ↔ value = some result := by
  cases value with
  | none => exact iff_of_false (fun h => by cases h) (fun h => by cases h)
  | some value => exact ⟨fun h => congrArg some (Except.ok.inj h), fun h => by rw [h]; rfl⟩

structure Blockchain where
  blocks : HashMap H256 (Block × UInt32)
  tip : H256
deriving DecidableEq

namespace Blockchain

/-- The difficulty of the genesis block, which the miner uses as well. -/
def genesisDifficulty : H256 :=
  .hex 0x000ff93a75a75895a351786dd7a188515173f6928a8af8c9baa4dcff268a4f0f

def genesis : Block where
  head := ⟨.hex 0, 0, genesisDifficulty, 0, .hex 0⟩
  cont := ⟨[]⟩

variable (C : Crypto) (build : Build)

/-- `Blockchain::new`. -/
def new : Blockchain where
  blocks := (∅ : HashMap _ _).insert (genesis.hash C) (genesis, 0)
  tip := genesis.hash C

/-- `Blockchain::insert`. -/
def insert (blockchain : Blockchain) (block : Block) : Except Panic Blockchain := do
  let parent ← unwrap (blockchain.blocks.get block.head.parent) .blocksLookup
  let height ← unwrap (addU32 build parent.2 1) .overflow
  let prevTip ← unwrap (blockchain.blocks.get blockchain.tip) .blocksLookup
  let blockHash := block.hash C
  let blocks := blockchain.blocks.insert blockHash (block, height)
  pure ⟨blocks, if height > prevTip.2 then blockHash else blockchain.tip⟩

/-- The loop of `all_blocks_in_longest_chain`, counting `height` down. -/
def walkBack (blocks : HashMap H256 (Block × UInt32)) :
    Nat → H256 → List H256 → Except Panic (List H256)
  | 0, _, hashes => .ok hashes
  | height + 1, nextHash, hashes => do
    let entry ← unwrap (blocks.get nextHash) .blocksLookup
    walkBack blocks height entry.1.head.parent (hashes ++ [nextHash])

/-- `Blockchain::all_blocks_in_longest_chain`, ordered from genesis to the tip. -/
def allBlocksInLongestChain (blockchain : Blockchain) : Except Panic (List H256) := do
  let tip ← unwrap (blockchain.blocks.get blockchain.tip) .blocksLookup
  let hashes ← walkBack blockchain.blocks tip.2.toNat tip.1.head.parent [blockchain.tip]
  pure hashes.reverse

/-- No stored block has a greater height. -/
def Highest (blockchain : Blockchain) (hash : H256) : Prop :=
  ∃ block height, blockchain.blocks.get hash = some (block, height) ∧
    ∀ other otherBlock otherHeight,
      blockchain.blocks.get other = some (otherBlock, otherHeight) → otherHeight ≤ height

variable {C build}

/-- A successful insert, taken apart. -/
theorem insert_ok {blockchain next : Blockchain} {block : Block}
    (h : blockchain.insert C build block = .ok next) :
    ∃ parent parentHeight height tipBlock tipHeight,
      blockchain.blocks.get block.head.parent = some (parent, parentHeight) ∧
      addU32 build parentHeight 1 = some height ∧
      blockchain.blocks.get blockchain.tip = some (tipBlock, tipHeight) ∧
      next.blocks = blockchain.blocks.insert (block.hash C) (block, height) ∧
      next.tip = if height > tipHeight then block.hash C else blockchain.tip := by
  unfold insert at h
  cases hparent : blockchain.blocks.get block.head.parent with
  | none => simp [hparent, bind, Except.bind] at h
  | some parent =>
      cases hheight : addU32 build parent.2 1 with
      | none => simp [hparent, hheight, bind, Except.bind] at h
      | some height =>
          cases htip : blockchain.blocks.get blockchain.tip with
          | none => simp [hparent, hheight, htip, bind, Except.bind] at h
          | some tip =>
              simp only [hparent, hheight, htip, bind, Except.bind, unwrap_some, pure,
                Except.pure, Except.ok.injEq] at h
              subst h
              exact ⟨parent.1, parent.2, height, tip.1, tip.2, rfl, hheight, rfl, rfl, rfl⟩

/-- An insert adds the hash of its block to those that are stored. -/
theorem containsKey_of_insert {blockchain next : Blockchain} {block : Block}
    (h : blockchain.insert C build block = .ok next) {hash : H256} :
    next.blocks.containsKey hash = true ↔
      hash = block.hash C ∨ blockchain.blocks.containsKey hash = true := by
  obtain ⟨_, _, height, _, _, -, -, -, hblocks, -⟩ := insert_ok h
  rw [hblocks, HashMap.containsKey_insert]

/-- A stored entry is kept, or the block takes its place. -/
theorem get_of_insert {blockchain next : Blockchain} {block : Block}
    (h : blockchain.insert C build block = .ok next) {hash : H256} {entry : Block × UInt32}
    (hget : blockchain.blocks.get hash = some entry) :
    next.blocks.get hash = some entry ∨
      hash = block.hash C ∧ ∃ height, next.blocks.get hash = some (block, height) := by
  obtain ⟨_, _, height, _, _, -, -, -, hblocks, -⟩ := insert_ok h
  rw [hblocks, HashMap.get_insert]
  split
  next heq => exact Or.inr ⟨heq, height, rfl⟩
  next => exact Or.inl hget

/-- The tip is the hash of a stored block again. -/
theorem tip_of_insert {blockchain next : Blockchain} {block : Block}
    (h : blockchain.insert C build block = .ok next) :
    next.blocks.containsKey next.tip = true := by
  obtain ⟨_, _, _, _, _, -, -, htip, -, hnext⟩ := insert_ok h
  rw [containsKey_of_insert h, hnext]
  split
  next => exact Or.inl rfl
  next => exact Or.inr (HashMap.containsKey_of_get htip)

theorem unwrap_error {α : Type} {value : Option α} {panic reason : Panic}
    (h : unwrap value panic = .error reason) : reason = panic := by
  cases value with
  | none => exact (Except.error.inj h).symm
  | some value => cases h

/-- The ways in which `insert` can panic. -/
theorem insert_error {blockchain : Blockchain} {block : Block} {reason : Panic}
    (h : blockchain.insert C build block = .error reason) :
    reason = .blocksLookup ∨ reason = .overflow := by
  rcases except_bind_eq_error.mp h with hparent | ⟨parent, _, h⟩
  · exact Or.inl (unwrap_error hparent)
  rcases except_bind_eq_error.mp h with hheight | ⟨height, _, h⟩
  · exact Or.inr (unwrap_error hheight)
  rcases except_bind_eq_error.mp h with htip | ⟨tip, _, h⟩
  · exact Or.inl (unwrap_error htip)
  · cases h

theorem walkBack_error {blocks : HashMap H256 (Block × UInt32)} {height : Nat} {nextHash : H256}
    {hashes : List H256} {reason : Panic}
    (h : walkBack blocks height nextHash hashes = .error reason) : reason = .blocksLookup := by
  induction height generalizing nextHash hashes with
  | zero => cases h
  | succ height ih =>
      rcases except_bind_eq_error.mp h with hentry | ⟨entry, _, h⟩
      · exact unwrap_error hentry
      · exact ih h

theorem allBlocksInLongestChain_error {blockchain : Blockchain} {reason : Panic}
    (h : blockchain.allBlocksInLongestChain = .error reason) : reason = .blocksLookup := by
  rcases except_bind_eq_error.mp h with htip | ⟨tip, _, h⟩
  · exact unwrap_error htip
  rcases except_bind_eq_error.mp h with hwalk | ⟨hashes, _, h⟩
  · exact walkBack_error hwalk
  · cases h

/-- When the parent and the tip are stored, only the height can overflow. -/
theorem insert_eq {blockchain : Blockchain} {block parent tipBlock : Block}
    {parentHeight tipHeight : UInt32}
    (hparent : blockchain.blocks.get block.head.parent = some (parent, parentHeight))
    (htip : blockchain.blocks.get blockchain.tip = some (tipBlock, tipHeight)) :
    blockchain.insert C build block =
      match addU32 build parentHeight 1 with
      | none => .error .overflow
      | some height => .ok ⟨blockchain.blocks.insert (block.hash C) (block, height),
          if height > tipHeight then block.hash C else blockchain.tip⟩ := by
  unfold insert
  rw [hparent, htip]
  change Except.bind (unwrap (addU32 build parentHeight 1) .overflow) _ = _
  cases addU32 build parentHeight 1 <;> rfl

end Blockchain

end BitcoinClient
