import BitcoinClient.Blockchain
import BitcoinClient.Foundation.Effect

/-! # Merkle trees -/

namespace BitcoinClient

variable (C : Crypto)

/-- A Merkle tree, one list of hashes for every level. -/
structure MerkleTree where
  treeList : List (List H256)
deriving DecidableEq, Repr

namespace MerkleTree

/-- A level of odd length other than one gets its last hash twice. -/
def pad (level : List H256) : List H256 :=
  match level.getLast? with
  | some last => if level.length ≠ 1 ∧ level.length % 2 ≠ 0 then level ++ [last] else level
  | none => level

/-- The loop over one level; an odd hash at its end would be read past the end. -/
def combine : List H256 → Except Panic (List H256)
  | [] => .ok []
  | [_] => .error .outOfBounds
  | left :: right :: rest => do
    let hashes ← combine rest
    pure (C.sha256 (left.bytes.toList ++ right.bytes.toList) :: hashes)

/-- The loop over the levels, from the level built last; one more level is at
most as long as `fuel`. -/
def levels : Nat → List H256 → Except Panic (List (List H256))
  | 0, level => .ok [level]
  | fuel + 1, level =>
    if level.length = 1 then .ok [level]
    else do
      let nextLevel ← combine C level
      let higher ← levels fuel (pad nextLevel)
      pure (level :: higher)

/-- `MerkleTree::new`. -/
def new {α : Type} (hash : α → H256) (data : List α) : Except Panic MerkleTree :=
  if data.isEmpty then .ok ⟨[]⟩
  else do
    let treeList ← levels C data.length (pad (data.map hash))
    pure ⟨treeList⟩

/-- `MerkleTree::root`. -/
def root (tree : MerkleTree) : Except Panic H256 :=
  match tree.treeList.getLast? with
  | none => .ok (.hex 0)
  | some level => unwrap level.head? .outOfBounds

variable {C}

theorem length_pad (level : List H256) :
    (pad level).length = 1 ∨ (pad level).length % 2 = 0 := by
  unfold pad
  split
  next last _ =>
    split
    next hodd =>
      rw [List.length_append, List.length_singleton]
      omega
    next => omega
  next hlast => simp [List.getLast?_eq_none_iff.mp hlast]

theorem pad_ne_nil {level : List H256} (h : level ≠ []) : pad level ≠ [] := by
  unfold pad
  split
  next => split <;> simp [h]
  next => exact h

/-- On a level of even length no read goes past the end. -/
theorem combine_ok (level : List H256) (heven : level.length % 2 = 0) :
    ∃ nextLevel, combine C level = .ok nextLevel ∧ (level ≠ [] → nextLevel ≠ []) := by
  induction level using combine.induct with
  | case1 => exact ⟨[], rfl, fun h => h⟩
  | case2 hash => simp at heven
  | case3 left right rest ih =>
      obtain ⟨hashes, hrest, _⟩ := ih (by rw [List.length_cons, List.length_cons] at heven; omega)
      refine ⟨C.sha256 (left.bytes.toList ++ right.bytes.toList) :: hashes, ?_, by simp⟩
      exact except_bind_eq_ok.mpr ⟨hashes, hrest, rfl⟩

theorem levels_ok (fuel : Nat) (level : List H256)
    (hlength : level.length = 1 ∨ level.length % 2 = 0) (hne : level ≠ []) :
    ∃ treeList, levels C fuel level = .ok treeList ∧ treeList ≠ [] ∧ ∀ l ∈ treeList, l ≠ [] := by
  induction fuel generalizing level with
  | zero => exact ⟨[level], rfl, by simp, by simpa using hne⟩
  | succ fuel ih =>
      unfold levels
      split
      next => exact ⟨[level], rfl, by simp, by simpa using hne⟩
      next hlong =>
        obtain ⟨nextLevel, hcombine, hnext⟩ :=
          combine_ok (C := C) level (hlength.resolve_left hlong)
        obtain ⟨higher, hlevels, _, hhigher⟩ :=
          ih (pad nextLevel) (length_pad nextLevel) (pad_ne_nil (hnext hne))
        refine ⟨level :: higher, ?_, by simp, ?_⟩
        · exact except_bind_eq_ok.mpr
            ⟨nextLevel, hcombine, except_bind_eq_ok.mpr ⟨higher, hlevels, rfl⟩⟩
        · intro l hl
          rcases List.mem_cons.mp hl with rfl | hl
          · exact hne
          · exact hhigher l hl

/-- Building a tree and taking its root never panic. -/
theorem new_root_ok {α : Type} (hash : α → H256) (data : List α) :
    ∃ tree root, new C hash data = .ok tree ∧ tree.root = .ok root := by
  cases data with
  | nil => exact ⟨⟨[]⟩, .hex 0, rfl, rfl⟩
  | cons first rest =>
      have hne : pad ((first :: rest).map hash) ≠ [] := pad_ne_nil (by simp)
      obtain ⟨treeList, hlevels, htree, hmem⟩ :=
        levels_ok (C := C) (first :: rest).length _ (length_pad _) hne
      have hlast : treeList.getLast? = some (treeList.getLast htree) :=
        List.getLast?_eq_getLast_of_ne_nil htree
      obtain ⟨root, level, hlevel⟩ :=
        List.exists_cons_of_ne_nil (hmem _ (List.getLast_mem htree))
      refine ⟨⟨treeList⟩, root, ?_, ?_⟩
      · exact except_bind_eq_ok.mpr ⟨treeList, hlevels, rfl⟩
      · simp [MerkleTree.root, hlast, hlevel]

end MerkleTree

end BitcoinClient
