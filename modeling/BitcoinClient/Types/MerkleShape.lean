import BitcoinClient.Types.MerkleProof

/-! # The shape of a Merkle tree

Each level has half as many entries as the one below it, rounded up, and an odd level gets
one more as padding. `Levels` follows the loop of `MerkleTree::new` down from the leaves;
the shape is proved along it, and there is one level more than a proof has hashes.
-/

namespace BitcoinClient

namespace MerkleTree

section Definitions

variable (C : Crypto)

/-- How many entries of a level are not padding. -/
def entryCount (leaves level : Nat) : Nat := leaves ⌈/⌉ 2 ^ level

/-- The tree of `data` has a level for every halving. -/
structure Shape {α : Type} (hash : α → H256) (data : List α) (treeList : List (List H256)) :
    Prop where
  height : treeList.length = Nat.clog 2 data.length + 1
  even : ∀ level ∈ treeList.dropLast, level.length % 2 = 0
  top : ∃ root, treeList.getLast? = some [root]
  entries : ∀ l level, treeList[l]? = some level → entryCount data.length l ≤ level.length
  leaves : ∃ leaves, treeList[0]? = some leaves ∧ leaves.take data.length = data.map hash
  nodes : ∀ l lower upper, treeList[l]? = some lower → treeList[l + 1]? = some upper →
    ∀ k < entryCount data.length (l + 1), ∃ left right,
      lower[2 * k]? = some left ∧ lower[2 * k + 1]? = some right ∧
      upper[k]? = some (C.sha256 (left.bytes.toList ++ right.bytes.toList))
  padding : ∀ l level k, treeList[l]? = some level → entryCount data.length l ≤ k →
    k < level.length → 0 < k ∧ level[k]? = level[k - 1]?

/-- The levels that are built over the entries of the lowest one. -/
inductive Levels : List H256 → List (List H256) → Prop
  | root (digest : H256) : Levels [digest] [[digest]]
  | level {entries next : List H256} {higher : List (List H256)} : 1 < entries.length →
      combine C (pad entries) = .ok next → Levels next higher →
      Levels entries (pad entries :: higher)

end Definitions

variable {C : Crypto}

/-! ## One level -/

theorem entryCount_zero (leaves : Nat) : entryCount leaves 0 = leaves := by
  rw [entryCount, pow_zero, ceilDiv_one]

theorem entryCount_succ (leaves level : Nat) :
    entryCount leaves (level + 1) = entryCount ((leaves + 1) / 2) level := by
  apply eq_of_forall_ge_iff
  intro count
  have hpow : 0 < 2 ^ level := Nat.two_pow_pos level
  rw [entryCount, entryCount, ceilDiv_le_iff_le_mul (Nat.two_pow_pos _), ceilDiv_le_iff_le_mul hpow,
    pow_succ', Nat.mul_assoc]
  omega

theorem length_pad_of_lt {level : List H256} (h : 1 < level.length) :
    (pad level).length = level.length + level.length % 2 := by
  unfold pad
  cases hlast : level.getLast? with
  | none =>
      rw [List.getLast?_eq_none_iff.mp hlast] at h
      cases h
  | some last =>
      dsimp only
      split
      next hodd =>
        rw [List.length_append, List.length_singleton]
        omega
      next => omega

theorem take_pad (level : List H256) : (pad level).take level.length = level := by
  rw [pad_eq_padLast]
  exact List.prefix_iff_eq_take.mp (HashTree.prefix_padLast level) |>.symm

/-- The padding repeats the entry before it. -/
theorem getElem?_pad {level : List H256} {k : Nat} (hge : level.length ≤ k)
    (hlt : k < (pad level).length) : 0 < k ∧ (pad level)[k]? = (pad level)[k - 1]? := by
  unfold pad at hlt ⊢
  cases hlast : level.getLast? with
  | none =>
      rw [hlast] at hlt
      exact absurd hlt (Nat.not_lt.mpr hge)
  | some last =>
      have hne : level ≠ [] := by
        rintro rfl
        cases hlast
      have hpos := List.length_pos_of_ne_nil hne
      rw [hlast] at hlt
      dsimp only at hlt ⊢
      split at hlt
      next hodd =>
        rw [List.length_append, List.length_singleton] at hlt
        obtain rfl : k = level.length := by omega
        rw [if_pos hodd, List.getElem?_concat_length, List.getElem?_append_left (by omega),
          ← List.getLast?_eq_getElem?, hlast]
        exact ⟨hpos, rfl⟩
      next => exact absurd hlt (Nat.not_lt.mpr hge)

/-- Each hash of the next level is that of a pair. -/
theorem combine_spec {level next : List H256} (h : combine C level = .ok next) :
    next.length = level.length / 2 ∧ ∀ k < next.length, ∃ left right,
      level[2 * k]? = some left ∧ level[2 * k + 1]? = some right ∧
      next[k]? = some (C.sha256 (left.bytes.toList ++ right.bytes.toList)) := by
  induction level using combine.induct generalizing next with
  | case1 =>
      obtain rfl := Except.ok.inj h
      exact ⟨rfl, fun k hk => absurd hk (Nat.not_lt_zero k)⟩
  | case2 hash => cases h
  | case3 left right rest ih =>
      obtain ⟨hashes, hrest, heq⟩ := except_bind_eq_ok.mp h
      obtain rfl := Except.ok.inj heq
      obtain ⟨hlength, hhashes⟩ := ih hrest
      refine ⟨?_, fun k hk => ?_⟩
      · rw [List.length_cons, hlength, List.length_cons, List.length_cons]
        omega
      · cases k with
        | zero => exact ⟨left, right, rfl, rfl, rfl⟩
        | succ k => exact hhashes k (Nat.lt_of_succ_lt_succ hk)

/-! ## All levels -/

/-- As many levels as there are entries are enough to end with one. -/
theorem exists_levels {fuel : Nat} {entries : List H256} (hne : entries ≠ [])
    (hfuel : entries.length ≤ fuel + 1) :
    ∃ treeList, levels C fuel (pad entries) = .ok treeList ∧ Levels C entries treeList := by
  induction fuel generalizing entries with
  | zero =>
      have hpos := List.length_pos_of_ne_nil hne
      obtain ⟨digest, rfl⟩ := List.length_eq_one_iff.mp (show entries.length = 1 by omega)
      exact ⟨[[digest]], rfl, .root digest⟩
  | succ fuel ih =>
      have hpos := List.length_pos_of_ne_nil hne
      by_cases hone : entries.length = 1
      · obtain ⟨digest, rfl⟩ := List.length_eq_one_iff.mp hone
        exact ⟨[[digest]], rfl, .root digest⟩
      · have hlong : 1 < entries.length := by omega
        have hlength := length_pad_of_lt hlong
        obtain ⟨next, hcombine, _⟩ := combine_ok (C := C) (pad entries) (by omega)
        have hnext := (combine_spec hcombine).1
        obtain ⟨higher, hlevels, hhigher⟩ := ih (List.ne_nil_of_length_pos (by omega))
          (show next.length ≤ fuel + 1 by omega)
        refine ⟨pad entries :: higher, ?_, .level hlong hcombine hhigher⟩
        rw [levels, if_neg (by omega)]
        exact except_bind_eq_ok.mpr ⟨next, hcombine, except_bind_eq_ok.mpr ⟨higher, hlevels, rfl⟩⟩

namespace Levels

variable {entries : List H256} {treeList : List (List H256)}

theorem head (h : Levels C entries treeList) : treeList[0]? = some (pad entries) := by
  cases h with
  | root digest => rfl
  | level _ _ _ => rfl

/-- The next level has half as many entries, rounded up. -/
theorem length_next {next : List H256} (hlong : 1 < entries.length)
    (hcombine : combine C (pad entries) = .ok next) :
    next.length = (entries.length + 1) / 2 := by
  rw [(combine_spec hcombine).1, length_pad_of_lt hlong]
  omega

theorem length (h : Levels C entries treeList) :
    treeList.length = Nat.clog 2 entries.length + 1 := by
  induction h with
  | root digest => rfl
  | level hlong hcombine _ ih =>
      rw [List.length_cons, ih, length_next hlong hcombine,
        Nat.clog_of_two_le Nat.one_lt_two hlong]
      rfl

theorem even (h : Levels C entries treeList) :
    ∀ level ∈ treeList.dropLast, level.length % 2 = 0 := by
  induction h with
  | root digest => nofun
  | @level entries next higher hlong _ hhigher ih =>
      have hne : higher ≠ [] := by
        rintro rfl
        cases hhigher
      have hlength := length_pad_of_lt hlong
      rw [List.dropLast_cons_of_ne_nil hne]
      exact List.forall_mem_cons.mpr ⟨by omega, ih⟩

theorem top (h : Levels C entries treeList) : ∃ root, treeList.getLast? = some [root] := by
  induction h with
  | root digest => exact ⟨digest, rfl⟩
  | level _ _ _ ih =>
      obtain ⟨root, hroot⟩ := ih
      exact ⟨root, by rw [List.getLast?_cons, hroot]; rfl⟩

/-- The entries of a level, and its padding. -/
theorem getElem? (h : Levels C entries treeList) {l : Nat} {level : List H256}
    (hlevel : treeList[l]? = some level) :
    entryCount entries.length l ≤ level.length ∧
      ∀ k, entryCount entries.length l ≤ k → k < level.length →
        0 < k ∧ level[k]? = level[k - 1]? := by
  have hpad : ∀ {nodes : List H256}, entryCount nodes.length 0 ≤ (pad nodes).length ∧
      ∀ k, entryCount nodes.length 0 ≤ k → k < (pad nodes).length →
        0 < k ∧ (pad nodes)[k]? = (pad nodes)[k - 1]? := by
    intro nodes
    rw [entryCount_zero, pad_eq_padLast, ← pad_eq_padLast]
    refine ⟨?_, fun k => getElem?_pad⟩
    rw [pad_eq_padLast]
    exact (HashTree.prefix_padLast nodes).length_le
  induction h generalizing l with
  | root digest =>
      cases l with
      | zero =>
          obtain rfl := Option.some.inj hlevel
          exact hpad
      | succ l => cases hlevel
  | level hlong hcombine _ ih =>
      cases l with
      | zero =>
          obtain rfl := Option.some.inj hlevel
          exact hpad
      | succ l =>
          rw [entryCount_succ, ← length_next hlong hcombine]
          exact ih hlevel

/-- An entry above the leaves is the hash of two entries of the level below it. -/
theorem nodes (h : Levels C entries treeList) {l : Nat} {lower upper : List H256}
    (hlower : treeList[l]? = some lower) (hupper : treeList[l + 1]? = some upper) :
    ∀ k < entryCount entries.length (l + 1), ∃ left right,
      lower[2 * k]? = some left ∧ lower[2 * k + 1]? = some right ∧
      upper[k]? = some (C.sha256 (left.bytes.toList ++ right.bytes.toList)) := by
  induction h generalizing l with
  | root digest => cases hupper
  | @level entries next higher hlong hcombine hhigher ih =>
      rw [entryCount_succ, ← length_next hlong hcombine]
      cases l with
      | zero =>
          obtain rfl := Option.some.inj hlower
          obtain rfl := Option.some.inj (hhigher.head.symm.trans hupper)
          rw [entryCount_zero]
          intro k hk
          obtain ⟨left, right, hleft, hright, hhash⟩ := (combine_spec hcombine).2 k hk
          refine ⟨left, right, hleft, hright, ?_⟩
          rw [pad_eq_padLast]
          exact HashTree.getElem?_padLast hhash
      | succ l => exact ih hlower hupper

end Levels

/-! ## The tree -/

theorem length_proofLoop {treeList : List (List H256)} {i : Nat} {proofList : List H256}
    (h : proofLoop treeList i = .ok proofList) : proofList.length = treeList.length - 1 := by
  induction treeList generalizing i proofList with
  | nil => exact Except.ok.inj h ▸ rfl
  | cons level higher ih =>
      cases higher with
      | nil => exact Except.ok.inj h ▸ rfl
      | cons next higher =>
          obtain ⟨sibling, _, h⟩ := except_bind_eq_ok.mp h
          obtain ⟨proofList, hrest, heq⟩ := except_bind_eq_ok.mp h
          obtain rfl := Except.ok.inj heq
          rw [List.length_cons, ih hrest]
          rfl

/-- A tree over any data has its shape, and all its proofs have the same length. -/
theorem new_shape {α : Type} (C : Crypto) (hash : α → H256) (data : List α) (hne : data ≠ []) :
    ∃ tree, new C hash data = .ok tree ∧ Shape C hash data tree.treeList ∧
      ∀ i < data.length, ∃ proofList, tree.proof i = .ok proofList ∧
        proofList.length = Nat.clog 2 data.length := by
  have hne' : data.map hash ≠ [] := fun hnil => hne (List.map_eq_nil_iff.mp hnil)
  obtain ⟨treeList, hbuilt, hlevels⟩ := exists_levels (C := C) hne'
    (show (data.map hash).length ≤ data.length + 1 by rw [List.length_map]; omega)
  have hnew : new C hash data = .ok ⟨treeList⟩ := by
    rw [new, List.isEmpty_eq_false_iff.mpr hne]
    exact except_bind_eq_ok.mpr ⟨_, hbuilt, rfl⟩
  have hlength : (data.map hash).length = data.length := List.length_map _
  refine ⟨⟨treeList⟩, hnew, ⟨?_, hlevels.even, hlevels.top, fun l level hlevel => ?_, ?_,
    fun l lower upper hlower hupper => ?_, fun l level k hlevel => ?_⟩, fun i hi => ?_⟩
  · rw [← hlength]
    exact hlevels.length
  · rw [← hlength]
    exact (hlevels.getElem? hlevel).1
  · exact ⟨_, hlevels.head, hlength ▸ take_pad (data.map hash)⟩
  · rw [← hlength]
    exact hlevels.nodes hlower hupper
  · rw [← hlength]
    exact (hlevels.getElem? hlevel).2 k
  · obtain ⟨tree, root, proofList, htree, _, hproof, _⟩ := verify_proof C hash data i hi
    obtain rfl := Except.ok.inj (hnew.symm.trans htree)
    refine ⟨proofList, hproof, ?_⟩
    obtain ⟨leaves, hleaves, hloop⟩ := except_bind_eq_ok.mp hproof
    have hhead := unwrap_eq_ok.mp hleaves
    rw [List.head?_eq_getElem?, hlevels.head] at hhead
    obtain rfl := Option.some.inj hhead
    have hle := (hlevels.getElem? hlevels.head).1
    rw [entryCount_zero, hlength] at hle
    rw [if_neg (by omega)] at hloop
    rw [length_proofLoop hloop, hlevels.length, hlength, Nat.add_sub_cancel]

/-- Three leaves, of which the last one is padded. -/
theorem new_shape_three :
    ∃ tree, new .sample (H256.hash .sample) [.hex 1, .hex 2, .hex 3] = .ok tree ∧
      Shape .sample (H256.hash .sample) [.hex 1, .hex 2, .hex 3] tree.treeList ∧
      ∀ i < 3, ∃ proofList, tree.proof i = .ok proofList ∧
        proofList.length = Nat.clog 2 3 :=
  new_shape .sample (H256.hash .sample) [.hex 1, .hex 2, .hex 3] (List.cons_ne_nil _ _)

end MerkleTree

end BitcoinClient
