import BitcoinClient.Foundation.HashTree
import BitcoinClient.Types.Merkle

/-! # Merkle proofs

The levels of `MerkleTree::new` are those of a hash tree, a proof lists what an opening
of that tree lists, and `verify` climbs along it. An honest proof is then always accepted
(`verify_proof`), and another datum only with a proof of the wrong length
(`verify_sound_iff`). Any root binds what is accepted under it at an index
(`verify_binds`), and commits to its list up to the padding (`root_eq_root_iff`).
-/

namespace BitcoinClient

namespace MerkleTree

section Definitions

variable (C : Crypto)

/-- The loop of `MerkleTree::proof`, on the levels that are left. -/
def proofLoop : List (List H256) → Nat → Except Panic (List H256)
  | level :: next :: higher, i => do
    let sibling ← unwrap (if i % 2 = 0 then level[i + 1]? else level[i - 1]?) .outOfBounds
    let proofList ← proofLoop (next :: higher) (i / 2)
    pure (sibling :: proofList)
  | _, _ => .ok []

/-- `MerkleTree::proof`. -/
def proof (tree : MerkleTree) (index : Nat) : Except Panic (List H256) := do
  let leaves ← unwrap tree.treeList.head? .outOfBounds
  if index ≥ leaves.length then pure [] else proofLoop tree.treeList index

/-- The loop of `verify`. -/
def verifyLoop (currentHash : H256) (datumIndex : Nat) : List H256 → H256
  | [] => currentHash
  | sibling :: proof =>
    let currentHash :=
      if datumIndex % 2 = 0 then C.sha256 (currentHash.bytes.toList ++ sibling.bytes.toList)
      else C.sha256 (sibling.bytes.toList ++ currentHash.bytes.toList)
    verifyLoop currentHash (datumIndex / 2) proof

/-- The byte strings that the loop of `verify` hashes, one in each step. -/
def verifyInputs (currentHash : H256) (datumIndex : Nat) : List H256 → List (List UInt8)
  | [] => []
  | sibling :: proof =>
    let input :=
      if datumIndex % 2 = 0 then currentHash.bytes.toList ++ sibling.bytes.toList
      else sibling.bytes.toList ++ currentHash.bytes.toList
    input :: verifyInputs (C.sha256 input) (datumIndex / 2) proof

/-- `verify` of `types/merkle.rs`. -/
def verify (root datum : H256) (proof : List H256) (index leafSize : Nat) : Bool :=
  if index ≥ leafSize then false
  else if leafSize ≤ 0 then false
  else decide (verifyLoop C datum index proof = root)

/-- The hash of two concatenated hashes. -/
def pairHash (left right : H256) : H256 := C.sha256 (left.bytes.toList ++ right.bytes.toList)

variable {α : Type} (hash : α → H256)

/-- The pairs that are hashed for the root of a list of data. -/
def hashedPairs (data : List α) : List (H256 × H256) :=
  match HashTree.ofLeaves (data.map hash) with
  | some shape => shape.pairs (pairHash C)
  | none => []

/-- A proof of another length than the tree is high, for a datum that is not at the leaf: a
short one is the way down to an inner node, a long one leads up to another leaf first. -/
structure Forges (shape : HashTree H256) (depth : Nat) (leaf datum : H256) (index : Nat)
    (proof : List H256) : Prop where
  otherDatum : datum ≠ leaf
  otherLength : proof.length ≠ depth
  opens : shape.opening (pairHash C) (proof.drop (proof.length - depth)).length
      (index / 2 ^ (proof.length - depth)) =
    some (HashTree.climb (pairHash C) datum index (proof.take (proof.length - depth)),
      proof.drop (proof.length - depth))

/-- No collision among the hashes behind two lists, none between a datum and a pair, and no
hash that is zero. -/
structure HashesApart (l₁ l₂ : List α) : Prop where
  data : Set.InjOn hash {datum | datum ∈ l₁ ∨ datum ∈ l₂}
  pairs : HashTree.NoCollision (pairHash C)
    {pair | pair ∈ hashedPairs C hash l₁ ∨ pair ∈ hashedPairs C hash l₂}
  apart : ∀ pair, pair ∈ hashedPairs C hash l₁ ∨ pair ∈ hashedPairs C hash l₂ →
    ∀ datum, datum ∈ l₁ ∨ datum ∈ l₂ → pairHash C pair.1 pair.2 ≠ hash datum
  datum_ne_zero : ∀ datum, datum ∈ l₁ ∨ datum ∈ l₂ → hash datum ≠ .hex 0
  pair_ne_zero : ∀ pair, pair ∈ hashedPairs C hash l₁ ∨ pair ∈ hashedPairs C hash l₂ →
    pairHash C pair.1 pair.2 ≠ .hex 0

end Definitions

variable {C : Crypto} {α : Type}

/-! ## The levels as a hash tree -/

theorem pad_eq_padLast (level : List H256) : pad level = HashTree.padLast level := by
  unfold pad HashTree.padLast
  cases level.getLast? with
  | none => rfl
  | some last => rfl

theorem verifyLoop_eq_climb (currentHash : H256) (datumIndex : Nat) (proof : List H256) :
    verifyLoop C currentHash datumIndex proof =
      HashTree.climb (pairHash C) currentHash datumIndex proof := by
  induction proof generalizing currentHash datumIndex with
  | nil => rfl
  | cons sibling proof ih =>
      rw [verifyLoop, HashTree.climb, ih, HashTree.beside]
      by_cases hbit : datumIndex % 2 = 0
      · simp only [if_pos hbit, pairHash]
      · simp only [if_neg hbit, pairHash]

theorem verifyInputs_eq_climbPairs (currentHash : H256) (datumIndex : Nat) (proof : List H256) :
    verifyInputs C currentHash datumIndex proof =
      (HashTree.climbPairs (pairHash C) currentHash datumIndex proof).map fun pair =>
        pair.1.bytes.toList ++ pair.2.bytes.toList := by
  induction proof generalizing currentHash datumIndex with
  | nil => rfl
  | cons sibling proof ih =>
      rw [verifyInputs, HashTree.climbPairs, List.map_cons, ih, HashTree.beside]
      by_cases hbit : datumIndex % 2 = 0
      · simp only [if_pos hbit, pairHash]
      · simp only [if_neg hbit, pairHash]

/-- Each step hashes two digests of 32 bytes. -/
theorem concat_inj {pair pair' : H256 × H256}
    (h : pair.1.bytes.toList ++ pair.2.bytes.toList =
      pair'.1.bytes.toList ++ pair'.2.bytes.toList) : pair = pair' := by
  have hlength : pair.1.bytes.toList.length = pair'.1.bytes.toList.length := by
    rw [Vector.length_toList, Vector.length_toList]
  obtain ⟨hleft, hright⟩ := List.append_inj h hlength
  have hbytes : ∀ left right : H256, left.bytes.toList = right.bytes.toList → left = right := by
    rintro ⟨leftBytes⟩ ⟨rightBytes⟩ heq
    exact congrArg H256.mk (Vector.toList_inj.mp heq)
  exact Prod.ext (hbytes _ _ hleft) (hbytes _ _ hright)

theorem combine_roots {nodes : List (HashTree H256)} (heven : nodes.length % 2 = 0) :
    combine C (nodes.map (HashTree.root (pairHash C))) =
      .ok ((HashTree.pairUp nodes).map (HashTree.root (pairHash C))) := by
  induction nodes using HashTree.pairUp.induct with
  | case1 => rfl
  | case2 tree => cases heven
  | case3 left right rest ih =>
      have hrest : rest.length % 2 = 0 := by
        rw [List.length_cons, List.length_cons] at heven
        omega
      simp only [List.map_cons, combine, ih hrest, HashTree.pairUp]
      rfl

/-- The sibling of a node in a level of the tree. -/
theorem unwrap_sibling {nodes : List (HashTree H256)} {i : Nat} {left right : HashTree H256}
    (hleft : nodes[2 * (i / 2)]? = some left) (hright : nodes[2 * (i / 2) + 1]? = some right) :
    unwrap (if i % 2 = 0 then (nodes.map (HashTree.root (pairHash C)))[i + 1]?
      else (nodes.map (HashTree.root (pairHash C)))[i - 1]?) .outOfBounds =
      .ok (if i % 2 = 0 then right.root (pairHash C) else left.root (pairHash C)) := by
  by_cases hbit : i % 2 = 0
  · rw [if_pos hbit, if_pos hbit, List.getElem?_map, show i + 1 = 2 * (i / 2) + 1 by omega, hright]
    rfl
  · rw [if_neg hbit, if_neg hbit, List.getElem?_map, show i - 1 = 2 * (i / 2) by omega, hleft]
    rfl

/-- The levels that the code builds over the nodes of a level, and its proofs in them. -/
theorem levels_assembles {depth fuel : Nat} {nodes : List (HashTree H256)} {tree : HashTree H256}
    (h : HashTree.Assembles depth nodes tree) (hfuel : nodes.length ≤ fuel + 1) :
    ∃ next higher, levels C fuel (nodes.map (HashTree.root (pairHash C))) = .ok (next :: higher) ∧
      next = nodes.map (HashTree.root (pairHash C)) ∧ higher.length = depth ∧
      (next :: higher).getLast? = some [tree.root (pairHash C)] ∧
      ∀ i node, nodes[i]? = some node → ∃ path, proofLoop (next :: higher) i = .ok path ∧
        tree.descend (pairHash C) depth i = some (node, path) := by
  induction h generalizing fuel with
  | single tree =>
      refine ⟨[tree.root (pairHash C)], [], ?_, rfl, rfl, rfl, fun i node hget => ⟨[], rfl, ?_⟩⟩
      · cases fuel <;> rfl
      · rw [List.getElem?_singleton] at hget
        split at hget
        next => rw [← Option.some.inj hget]; rfl
        next => cases hget
  | @level depth nodes tree heven hnext ih =>
      have hpos := (HashTree.Assembles.level heven hnext).length_pos
      have hshorter := HashTree.length_padLast_pairUp (show 2 ≤ nodes.length by omega)
      cases fuel with
      | zero => omega
      | succ fuel =>
          obtain ⟨next, higher, hlevels, hroots, hlength, hlast, hproofs⟩ :=
            ih (show _ ≤ fuel + 1 by omega)
          refine ⟨_, next :: higher, ?_, rfl, by rw [List.length_cons, hlength], hlast, ?_⟩
          · rw [← HashTree.padLast_map, ← pad_eq_padLast] at hlevels
            rw [levels, if_neg (by rw [List.length_map]; omega), combine_roots heven]
            exact except_bind_eq_ok.mpr ⟨_, rfl, except_bind_eq_ok.mpr ⟨_, hlevels, rfl⟩⟩
          · intro i node hget
            have hlt : i < nodes.length := (List.getElem?_eq_some_iff.mp hget).1
            obtain ⟨left, hleft⟩ : ∃ left, nodes[2 * (i / 2)]? = some left :=
              ⟨_, List.getElem?_eq_getElem (by omega)⟩
            obtain ⟨right, hright⟩ : ∃ right, nodes[2 * (i / 2) + 1]? = some right :=
              ⟨_, List.getElem?_eq_getElem (by omega)⟩
            have hparent := HashTree.getElem?_padLast (HashTree.getElem?_pairUp hleft hright)
            obtain ⟨path, hproof, hdescend⟩ := hproofs (i / 2) _ hparent
            refine ⟨_, except_bind_eq_ok.mpr ⟨_, unwrap_sibling hleft hright,
              except_bind_eq_ok.mpr ⟨path, hproof, rfl⟩⟩, ?_⟩
            -- The node is the left or the right child of the one that the rest leads to.
            have hlowest : (HashTree.node left right).descend (pairHash C) 1 i = some (node,
                [if i % 2 = 0 then right.root (pairHash C) else left.root (pairHash C)]) := by
              rw [HashTree.descend, pow_zero, Nat.div_one]
              by_cases hbit : i % 2 = 0
              · rw [show 2 * (i / 2) = i by omega, hget] at hleft
                rw [if_pos hbit, if_pos hbit, Option.some.inj hleft]
                rfl
              · rw [show 2 * (i / 2) + 1 = i by omega, hget] at hright
                rw [if_neg hbit, if_neg hbit, Option.some.inj hright]
                rfl
            rw [HashTree.descend_succ, hdescend]
            simp only [Option.bind_some, hlowest, Option.map_some]
            rfl

/-- `MerkleTree::new` builds the levels of the hash tree over the hashes of the data. -/
theorem new_spec (hash : α → H256) {data : List α} (hne : data ≠ []) :
    ∃ depth shape leaves higher, HashTree.ofLeaves (data.map hash) = some shape ∧
      shape.Perfect depth ∧ data.map hash <+: shape.leaves ∧
      new C hash data = .ok ⟨leaves :: higher⟩ ∧ higher.length = depth ∧
      root ⟨leaves :: higher⟩ = .ok (shape.root (pairHash C)) ∧
      ∀ (i : Nat) (hi : i < data.length), ∃ path, proof ⟨leaves :: higher⟩ i = .ok path ∧
        shape.opening (pairHash C) depth i = some (hash data[i], path) := by
  have hne' : data.map hash ≠ [] := fun hnil => hne (List.map_eq_nil_iff.mp hnil)
  obtain ⟨depth, shape, hshape, hassembles⟩ := HashTree.exists_ofLeaves hne'
  obtain ⟨hperfect, hprefix⟩ := hassembles.ofLeaves
  have hfuel : (HashTree.padLast ((data.map hash).map HashTree.leaf)).length ≤ data.length + 1 := by
    have hle := HashTree.length_padLast_le ((data.map hash).map HashTree.leaf)
    rw [List.length_map, List.length_map] at hle
    exact hle
  obtain ⟨leaves, higher, hlevels, rfl, hlength, hlast, hproofs⟩ :=
    levels_assembles (C := C) hassembles hfuel
  have hroots : (HashTree.padLast ((data.map hash).map HashTree.leaf)).map
      (HashTree.root (pairHash C)) = pad (data.map hash) := by
    rw [← HashTree.padLast_map, List.map_map, pad_eq_padLast]
    exact congrArg HashTree.padLast (List.map_id _)
  rw [hroots] at hlevels hlast hproofs
  refine ⟨depth, shape, pad (data.map hash), higher, hshape, hperfect, hprefix, ?_, hlength, ?_,
    fun i hi => ?_⟩
  · rw [new, List.isEmpty_eq_false_iff.mpr hne]
    exact except_bind_eq_ok.mpr ⟨_, hlevels, rfl⟩
  · rw [root, hlast]
    rfl
  · have hget : ((data.map hash).map HashTree.leaf)[i]? = some (.leaf (hash data[i])) := by
      rw [List.getElem?_map, List.getElem?_map, List.getElem?_eq_getElem hi]
      rfl
    obtain ⟨path, hproof, hdescend⟩ := hproofs i _ (HashTree.getElem?_padLast hget)
    refine ⟨path, except_bind_eq_ok.mpr ⟨_, rfl, ?_⟩, ?_⟩
    · have hlt := (List.getElem?_eq_some_iff.mp (HashTree.getElem?_padLast hget)).1
      rw [if_neg, hproof]
      rw [← hroots, List.length_map]
      omega
    · rw [HashTree.opening, hdescend]
      rfl

/-! ## Completeness -/

/-- An honest proof is accepted, and no index is out of bounds on the way to it. -/
theorem verify_proof (C : Crypto) (hash : α → H256) (data : List α) (i : Nat)
    (hi : i < data.length) :
    ∃ tree root proof, new C hash data = .ok tree ∧ tree.root = .ok root ∧
      tree.proof i = .ok proof ∧ verify C root (hash data[i]) proof i data.length = true := by
  have hne : data ≠ [] := List.ne_nil_of_length_pos (Nat.zero_lt_of_lt hi)
  obtain ⟨depth, shape, leaves, higher, _, _, _, hnew, _, hroot, hproofs⟩ :=
    new_spec (C := C) hash hne
  obtain ⟨proof, hproof, hopening⟩ := hproofs i hi
  refine ⟨_, _, proof, hnew, hroot, hproof, ?_⟩
  rw [verify, if_neg (by omega), if_neg (by omega), verifyLoop_eq_climb,
    HashTree.climb_opening hopening]
  exact decide_eq_true rfl

/-- The third of three leaves: its sibling is its own copy. -/
theorem verify_proof_third :
    ∃ tree root proof, new .sample (H256.hash .sample) [.hex 1, .hex 2, .hex 3] = .ok tree ∧
      tree.root = .ok root ∧ tree.proof 2 = .ok proof ∧
      verify .sample root ((H256.hex 3).hash .sample) proof 2 3 = true :=
  verify_proof .sample (H256.hash .sample) [.hex 1, .hex 2, .hex 3] 2 (by decide)

/-! ## Soundness -/

/-- What the code accepts at an index, in terms of the tree over the leaves. -/
theorem verify_eq_true_iff {root datum : H256} {proof : List H256} {i size : Nat}
    (hi : i < size) :
    verify C root datum proof i size = true ↔ HashTree.climb (pairHash C) datum i proof = root := by
  rw [verify, if_neg (by omega), if_neg (by omega), verifyLoop_eq_climb]
  exact decide_eq_true_iff

/-- A proof is accepted for another datum than the one at its index exactly when it has a wrong
length and is forged. -/
theorem verify_sound_iff (hash : α → H256) {data : List α} {tree : MerkleTree} {root : H256}
    {shape : HashTree H256} (htree : new C hash data = .ok tree) (hroot : tree.root = .ok root)
    (hshape : HashTree.ofLeaves (data.map hash) = some shape) (datum : H256) (proof : List H256)
    {i : Nat} (hi : i < data.length)
    (hfree : HashTree.NoCollision (pairHash C) {pair | pair ∈ hashedPairs C hash data ∨
      pair ∈ HashTree.climbPairs (pairHash C) datum i proof}) :
    (verify C root datum proof i data.length = true → datum = hash data[i]) ↔
      ¬ Forges C shape (tree.treeList.length - 1) (hash data[i]) datum i proof := by
  have hne : data ≠ [] := List.ne_nil_of_length_pos (Nat.zero_lt_of_lt hi)
  obtain ⟨depth, shape', leaves, higher, hshape', hperfect, _, hnew, hdepth, hroot', hproofs⟩ :=
    new_spec (C := C) hash hne
  obtain rfl := Except.ok.inj (htree.symm.trans hnew)
  obtain rfl := Except.ok.inj (hroot.symm.trans hroot')
  obtain rfl := Option.some.inj (hshape.symm.trans hshape')
  rw [hashedPairs, hshape] at hfree
  have hopens := HashTree.climb_long_eq_root_iff hperfect hfree
  rw [verify_eq_true_iff hi, hopens, List.length_cons, Nat.add_sub_cancel, hdepth]
  constructor
  · exact fun hsound hforged => hforged.otherDatum (hsound hforged.opens)
  · intro hnot haccepted
    by_contra hdatum
    by_cases hlength : proof.length = depth
    · -- A proof of the right length opens the leaf at its index.
      rw [hlength, Nat.sub_self, List.drop_zero, List.take_zero, pow_zero, Nat.div_one,
        hlength] at haccepted
      obtain ⟨path, _, hleaf⟩ := hproofs i hi
      obtain ⟨hsame, _⟩ := Prod.mk.inj (Option.some.inj (haccepted.symm.trans hleaf))
      exact hdatum hsame
    · exact hnot ⟨hdatum, hlength, haccepted⟩

/-- The root of a tree over two leaves, as a datum with an empty proof. -/
theorem verify_sound_iff_root :
    (verify .sample (pairHash .sample ((H256.hex 1).hash .sample) ((H256.hex 2).hash .sample))
        (pairHash .sample ((H256.hex 1).hash .sample) ((H256.hex 2).hash .sample)) [] 0 2 = true →
      pairHash .sample ((H256.hex 1).hash .sample) ((H256.hex 2).hash .sample) =
        (H256.hex 1).hash .sample) ↔
    ¬ Forges .sample (.node (.leaf ((H256.hex 1).hash .sample)) (.leaf ((H256.hex 2).hash .sample)))
      1 ((H256.hex 1).hash .sample)
      (pairHash .sample ((H256.hex 1).hash .sample) ((H256.hex 2).hash .sample)) 0 [] :=
  verify_sound_iff (H256.hash .sample) rfl rfl rfl _ []
    (show 0 < ([.hex 1, .hex 2] : List H256).length by decide)
    (Set.Subsingleton.injOn (fun left hleft right hright => by
      rw [List.mem_singleton.mp (hleft.resolve_right List.not_mem_nil),
        List.mem_singleton.mp (hright.resolve_right List.not_mem_nil)]) _)

/-- The root itself is accepted for the first of two leaves. -/
theorem not_verify_sound :
    ¬ ∀ (C : Crypto) (data : List H256) (tree : MerkleTree) (root datum : H256)
      (proof : List H256) (i : Nat) (hi : i < data.length),
      new C (H256.hash C) data = .ok tree → tree.root = .ok root →
      HashTree.NoCollision (pairHash C) {pair | pair ∈ hashedPairs C (H256.hash C) data ∨
        pair ∈ HashTree.climbPairs (pairHash C) datum i proof} →
      verify C root datum proof i data.length = true → datum = data[i].hash C := by
  intro hsound
  have hroot := hsound .sample [.hex 1, .hex 2] _ _
    (pairHash .sample ((H256.hex 1).hash .sample) ((H256.hex 2).hash .sample)) [] 0
    (by decide) rfl rfl
    (Set.Subsingleton.injOn (fun left hleft right hright => by
      rw [List.mem_singleton.mp (hleft.resolve_right List.not_mem_nil),
        List.mem_singleton.mp (hright.resolve_right List.not_mem_nil)]) _)
    (decide_eq_true rfl)
  exact absurd hroot (by decide +kernel)

/-! ## Binding -/

/-- At one index a root binds the datum and its proof of a given length, unless two different
64-byte strings that the two runs hash in the same step have the same hash. -/
theorem verify_binds (C : Crypto) (root : H256) (index leafSize : Nat) (d₁ d₂ : H256)
    (p₁ p₂ : List H256) (hlength : p₁.length = p₂.length)
    (h₁ : verify C root d₁ p₁ index leafSize = true)
    (h₂ : verify C root d₂ p₂ index leafSize = true) :
    (d₁ = d₂ ∧ p₁ = p₂) ∨ ∃ (step : Nat) (input₁ input₂ : List UInt8),
      (verifyInputs C d₁ index p₁)[step]? = some input₁ ∧
      (verifyInputs C d₂ index p₂)[step]? = some input₂ ∧
      input₁.length = 64 ∧ input₂.length = 64 ∧
      input₁ ≠ input₂ ∧ C.sha256 input₁ = C.sha256 input₂ := by
  have hi : index < leafSize := by
    by_contra hge
    rw [verify, if_pos (Nat.le_of_not_lt hge)] at h₁
    cases h₁
  rw [verify_eq_true_iff hi] at h₁ h₂
  rcases HashTree.climb_binds hlength (h₁.trans h₂.symm) with
    hsame | ⟨step, pair₁, pair₂, hpair₁, hpair₂, hne, hhash⟩
  · exact .inl hsame
  · have hinput : ∀ {datum : H256} {proof : List H256} {pair : H256 × H256},
        (HashTree.climbPairs (pairHash C) datum index proof)[step]? = some pair →
        (verifyInputs C datum index proof)[step]? =
          some (pair.1.bytes.toList ++ pair.2.bytes.toList) := by
      intro datum proof pair hpair
      rw [verifyInputs_eq_climbPairs, List.getElem?_map, hpair]
      rfl
    refine .inr ⟨step, _, _, hinput hpair₁, hinput hpair₂, ?_, ?_, fun h => hne (concat_inj h),
      hhash⟩
    all_goals
      rw [List.length_append, Vector.length_toList, Vector.length_toList]

/-- A hash that takes no notice of the order of the bytes. -/
def byteSum : Crypto :=
  { Crypto.sample with sha256 := fun bytes => .hex (bytes.map UInt8.toNat).sum }

/-- Two leaves in either order have the same parent, so its root binds neither of them. -/
theorem verify_binds_swapped : ∃ (step : Nat) (input₁ input₂ : List UInt8),
    (verifyInputs byteSum (.hex 2) 1 [.hex 1, .hex 5])[step]? = some input₁ ∧
    (verifyInputs byteSum (.hex 1) 1 [.hex 2, .hex 5])[step]? = some input₂ ∧
    input₁.length = 64 ∧ input₂.length = 64 ∧
    input₁ ≠ input₂ ∧ byteSum.sha256 input₁ = byteSum.sha256 input₂ :=
  (verify_binds byteSum (.hex 8) 1 4 (.hex 2) (.hex 1) [.hex 1, .hex 5] [.hex 2, .hex 5] rfl
    (by decide +kernel) (by decide +kernel)).resolve_left
    fun hsame => absurd hsame.1 (by decide +kernel)

/-! ## Commitment -/

theorem root_spec {hash : α → H256} {data : List α} {tree : MerkleTree} {root : H256}
    (htree : new C hash data = .ok tree) (hroot : tree.root = .ok root) :
    root = match HashTree.ofLeaves (data.map hash) with
      | some shape => shape.root (pairHash C)
      | none => .hex 0 := by
  by_cases hne : data = []
  · subst hne
    obtain rfl := Except.ok.inj htree
    exact (Except.ok.inj hroot).symm
  · obtain ⟨depth, shape, leaves, higher, hshape, _, _, hnew, _, hroot', _⟩ :=
      new_spec (C := C) hash hne
    obtain rfl := Except.ok.inj (htree.symm.trans hnew)
    rw [hshape]
    exact Except.ok.inj (hroot.symm.trans hroot')

/-- The tree over the hashes of a list, with hashed pairs from a set. -/
theorem madeOf_of_ofLeaves {hash : α → H256} {data : List α} {shape : HashTree H256}
    {values : Set α} {pairs : Set (H256 × H256)}
    (hshape : HashTree.ofLeaves (data.map hash) = some shape)
    (hvalues : ∀ datum ∈ data, datum ∈ values)
    (hpairs : ∀ pair ∈ hashedPairs C hash data, pair ∈ pairs) :
    HashTree.MadeOf (pairHash C) (hash '' values) pairs shape := by
  rw [hashedPairs, hshape] at hpairs
  refine ⟨fun value hmem => ?_, hpairs⟩
  obtain ⟨datum, hdatum, rfl⟩ := List.mem_map.mp (HashTree.mem_of_mem_leaves hshape hmem)
  exact ⟨datum, hvalues datum hdatum, rfl⟩

/-- A root over hashes that are not zero is not zero. -/
theorem root_ne_zero {hash : α → H256} {values : Set α} {pairs : Set (H256 × H256)}
    {shape : HashTree H256} (hmade : HashTree.MadeOf (pairHash C) (hash '' values) pairs shape)
    (hvalues : ∀ datum ∈ values, hash datum ≠ .hex 0)
    (hpairs : ∀ pair ∈ pairs, pairHash C pair.1 pair.2 ≠ .hex 0) :
    shape.root (pairHash C) ≠ .hex 0 := by
  have hmem : shape.root (pairHash C) ∈ shape.leaves ∨ ∃ pair ∈ shape.pairs (pairHash C),
      shape.root (pairHash C) = pairHash C pair.1 pair.2 := shape.root_mem
  rcases hmem with hleaf | ⟨pair, hpair, hroot⟩
  · obtain ⟨datum, hdatum, hroot⟩ := hmade.leaves _ hleaf
    rw [← hroot]
    exact hvalues datum hdatum
  · rw [hroot]
    exact hpairs pair (hmade.pairs pair hpair)

/-- Lists with the same root are padded to the same tree. -/
theorem ofLeaves_eq_of_root_eq {hash : α → H256} {l₁ l₂ : List α} {tree₁ tree₂ : MerkleTree}
    {root : H256} (htree₁ : new C hash l₁ = .ok tree₁) (hroot₁ : tree₁.root = .ok root)
    (htree₂ : new C hash l₂ = .ok tree₂) (hroot₂ : tree₂.root = .ok root)
    (hapart : HashesApart C hash l₁ l₂) : HashTree.ofLeaves l₁ = HashTree.ofLeaves l₂ := by
  have hspec₁ := root_spec htree₁ hroot₁
  have hspec₂ := root_spec htree₂ hroot₂
  let values : Set α := {datum | datum ∈ l₁ ∨ datum ∈ l₂}
  let pairs : Set (H256 × H256) :=
    {pair | pair ∈ hashedPairs C hash l₁ ∨ pair ∈ hashedPairs C hash l₂}
  have hmade₁ : ∀ shape, HashTree.ofLeaves (l₁.map hash) = some shape →
      HashTree.MadeOf (pairHash C) (hash '' values) pairs shape :=
    fun shape hshape => madeOf_of_ofLeaves hshape (fun _ => .inl) (fun _ => .inl)
  have hmade₂ : ∀ shape, HashTree.ofLeaves (l₂.map hash) = some shape →
      HashTree.MadeOf (pairHash C) (hash '' values) pairs shape :=
    fun shape hshape => madeOf_of_ofLeaves hshape (fun _ => .inr) (fun _ => .inr)
  -- Equal roots give equal trees of hashes, as none of the hashed values is ambiguous.
  cases hshape₁ : HashTree.ofLeaves (l₁.map hash) with
  | none =>
      cases hshape₂ : HashTree.ofLeaves (l₂.map hash) with
      | none =>
          rw [List.map_eq_nil_iff.mp (HashTree.ofLeaves_eq_none.mp hshape₁),
            List.map_eq_nil_iff.mp (HashTree.ofLeaves_eq_none.mp hshape₂)]
      | some shape₂ =>
          rw [hshape₁] at hspec₁
          rw [hshape₂] at hspec₂
          exact absurd (hspec₂.symm.trans hspec₁)
            (root_ne_zero (hmade₂ _ hshape₂) hapart.datum_ne_zero hapart.pair_ne_zero)
  | some shape₁ =>
      cases hshape₂ : HashTree.ofLeaves (l₂.map hash) with
      | none =>
          rw [hshape₁] at hspec₁
          rw [hshape₂] at hspec₂
          exact absurd (hspec₁.symm.trans hspec₂)
            (root_ne_zero (hmade₁ _ hshape₁) hapart.datum_ne_zero hapart.pair_ne_zero)
      | some shape₂ =>
          rw [hshape₁] at hspec₁
          rw [hshape₂] at hspec₂
          have hsame : shape₁ = shape₂ := by
            refine HashTree.eq_of_root_eq hapart.pairs ?_ (hmade₁ _ hshape₁) (hmade₂ _ hshape₂)
              (hspec₁.symm.trans hspec₂)
            rintro pair hpair ⟨datum, hdatum, hhash⟩
            exact hapart.apart pair hpair datum hdatum hhash.symm
          rw [HashTree.ofLeaves_map] at hshape₁ hshape₂
          obtain ⟨data₁, hdata₁, hmap₁⟩ := Option.map_eq_some_iff.mp hshape₁
          obtain ⟨data₂, hdata₂, hmap₂⟩ := Option.map_eq_some_iff.mp hshape₂
          rw [hdata₁, hdata₂, HashTree.map_injOn hapart.data
            (fun datum hmem => .inl (HashTree.mem_of_mem_leaves hdata₁ hmem))
            (fun datum hmem => .inr (HashTree.mem_of_mem_leaves hdata₂ hmem))
            (hmap₁.trans (hsame.trans hmap₂.symm))]

/-- A root commits to a list of transactions up to the copies that the padding adds. -/
theorem root_eq_root_iff {l₁ l₂ : List SignedTransaction} {tree₁ tree₂ : MerkleTree}
    {root₁ root₂ : H256} (htree₁ : new C (SignedTransaction.hash C) l₁ = .ok tree₁)
    (hroot₁ : tree₁.root = .ok root₁) (htree₂ : new C (SignedTransaction.hash C) l₂ = .ok tree₂)
    (hroot₂ : tree₂.root = .ok root₂) (hapart : HashesApart C (SignedTransaction.hash C) l₁ l₂) :
    (root₁ = root₂ ↔ HashTree.ofLeaves l₁ = HashTree.ofLeaves l₂) ∧
      (root₁ = root₂ → (l₁ <+: l₂ ∨ l₂ <+: l₁) ∧ ∀ st, st ∈ l₁ ↔ st ∈ l₂) ∧
      (root₁ = root₂ → l₁.length = l₂.length ∨ l₁.Nodup ∧ l₂.Nodup → l₁ = l₂) := by
  have hcommits : root₁ = root₂ → HashTree.ofLeaves l₁ = HashTree.ofLeaves l₂ := by
    rintro rfl
    exact ofLeaves_eq_of_root_eq htree₁ hroot₁ htree₂ hroot₂ hapart
  refine ⟨⟨hcommits, fun hsame => ?_⟩, fun hroot => HashTree.of_ofLeaves_eq (hcommits hroot), ?_⟩
  · rw [root_spec htree₁ hroot₁, root_spec htree₂ hroot₂, HashTree.ofLeaves_map,
      HashTree.ofLeaves_map, hsame]
  · rintro hroot (hlength | ⟨hnodup₁, hnodup₂⟩)
    · exact HashTree.eq_of_ofLeaves_eq (hcommits hroot) hlength
    · exact HashTree.eq_of_ofLeaves_eq_nodup (hcommits hroot) hnodup₁ hnodup₂

/-- Three transactions whose hashes differ. -/
def threeTransactions : List SignedTransaction :=
  [moveInitialCoin, ⟨⟨[], []⟩, [], []⟩, ⟨⟨[], []⟩, [1], []⟩]

/-- The same transactions and the last one again. -/
def lastOneTwice : List SignedTransaction := threeTransactions ++ [⟨⟨[], []⟩, [1], []⟩]

theorem hashesApart_lastOneTwice :
    HashesApart .sample (SignedTransaction.hash .sample) threeTransactions lastOneTwice := by
  let pairs := hashedPairs .sample (SignedTransaction.hash .sample) threeTransactions ++
    hashedPairs .sample (SignedTransaction.hash .sample) lastOneTwice
  let data := threeTransactions ++ lastOneTwice
  have hdata : ∀ left ∈ data, ∀ right ∈ data, left.hash .sample = right.hash .sample →
      left = right := by decide +kernel
  have hpairs : ∀ left ∈ pairs, ∀ right ∈ pairs,
      pairHash .sample left.1 left.2 = pairHash .sample right.1 right.2 → left = right := by
    decide +kernel
  have hapart : ∀ pair ∈ pairs, ∀ st ∈ data, pairHash .sample pair.1 pair.2 ≠ st.hash .sample := by
    decide +kernel
  have hdata_ne_zero : ∀ st ∈ data, st.hash .sample ≠ .hex 0 := by decide +kernel
  have hpair_ne_zero : ∀ pair ∈ pairs, pairHash .sample pair.1 pair.2 ≠ .hex 0 := by
    decide +kernel
  exact {
    data := fun _ hleft _ hright =>
      hdata _ (List.mem_append.mpr hleft) _ (List.mem_append.mpr hright)
    pairs := fun _ hleft _ hright =>
      hpairs _ (List.mem_append.mpr hleft) _ (List.mem_append.mpr hright)
    apart := fun _ hpair _ hmem =>
      hapart _ (List.mem_append.mpr hpair) _ (List.mem_append.mpr hmem)
    datum_ne_zero := fun _ hmem => hdata_ne_zero _ (List.mem_append.mpr hmem)
    pair_ne_zero := fun _ hpair => hpair_ne_zero _ (List.mem_append.mpr hpair) }

/-- The copy that the padding adds, and the same copy as a transaction of its own. -/
theorem root_eq_root_iff_lastOneTwice :
    ∃ tree₁ tree₂ root₁ root₂,
      new .sample (SignedTransaction.hash .sample) threeTransactions = .ok tree₁ ∧
      new .sample (SignedTransaction.hash .sample) lastOneTwice = .ok tree₂ ∧
      tree₁.root = .ok root₁ ∧ tree₂.root = .ok root₂ ∧
      (root₁ = root₂ ↔
        HashTree.ofLeaves threeTransactions = HashTree.ofLeaves lastOneTwice) ∧
      (root₁ = root₂ → (threeTransactions <+: lastOneTwice ∨ lastOneTwice <+: threeTransactions) ∧
        ∀ st, st ∈ threeTransactions ↔ st ∈ lastOneTwice) ∧
      (root₁ = root₂ → threeTransactions.length = lastOneTwice.length ∨
        threeTransactions.Nodup ∧ lastOneTwice.Nodup → threeTransactions = lastOneTwice) := by
  obtain ⟨_, _, htree₁, hroot₁⟩ :=
    new_root_ok (C := .sample) (SignedTransaction.hash .sample) threeTransactions
  obtain ⟨_, _, htree₂, hroot₂⟩ :=
    new_root_ok (C := .sample) (SignedTransaction.hash .sample) lastOneTwice
  exact ⟨_, _, _, _, htree₁, htree₂, hroot₁, hroot₂,
    root_eq_root_iff htree₁ hroot₁ htree₂ hroot₂ hashesApart_lastOneTwice⟩

/-- Three transactions have the root of the four that repeat the last one. -/
theorem not_root_commits :
    ¬ ∀ (C : Crypto) (l₁ l₂ : List SignedTransaction) (tree₁ tree₂ : MerkleTree)
      (root₁ root₂ : H256), new C (SignedTransaction.hash C) l₁ = .ok tree₁ →
      tree₁.root = .ok root₁ → new C (SignedTransaction.hash C) l₂ = .ok tree₂ →
      tree₂.root = .ok root₂ → HashesApart C (SignedTransaction.hash C) l₁ l₂ →
      root₁ = root₂ → l₁ = l₂ := by
  intro hcommits
  have hsame : new .sample (SignedTransaction.hash .sample) threeTransactions =
      new .sample (SignedTransaction.hash .sample) lastOneTwice := rfl
  obtain ⟨_, _, htree, hroot⟩ :=
    new_root_ok (C := .sample) (SignedTransaction.hash .sample) threeTransactions
  have heq := hcommits .sample threeTransactions lastOneTwice _ _ _ _ htree hroot
    (hsame.symm.trans htree) hroot hashesApart_lastOneTwice rfl
  exact absurd (congrArg List.length heq) (by decide)

end MerkleTree

end BitcoinClient
