import BitcoinClient.BlockTree

/-! # The longest chain, block by block

All walks of the program start at the tip and go from parent to parent, as often as the
height of the tip says. In the tree that insertions build this ends at the genesis block,
one step before its parent, which is not stored, would be looked up.
-/

namespace BitcoinClient

namespace Blockchain

/-- Stored blocks with their hashes, from `hash` on, each followed by its parent. -/
inductive Ancestry (blocks : HashMap H256 (Block × UInt32)) : H256 → List (H256 × Block) → Prop
  | nil (hash : H256) : Ancestry blocks hash []
  | cons {hash : H256} {block : Block} {height : UInt32} {rest : List (H256 × Block)} :
      blocks.get hash = some (block, height) → Ancestry blocks block.head.parent rest →
      Ancestry blocks hash ((hash, block) :: rest)

/-- What the list of hashes from the genesis block to a stored block consists of. -/
structure ExactChain (C : Crypto) (blockchain : Blockchain) (last : H256) (hashes : List H256) :
    Prop where
  length : ∃ height, blockchain.heightOf last = some height ∧ hashes.length = height.toNat + 1
  nodup : hashes.Nodup
  first : hashes.head? = some (genesis.hash C)
  last : hashes.getLast? = some last
  heights : ∀ k hash, hashes[k]? = some hash →
    ∃ height, blockchain.heightOf hash = some height ∧ height.toNat = k
  links : ∀ k parentHash hash, hashes[k]? = some parentHash → hashes[k + 1]? = some hash →
    ∃ block height, blockchain.blocks.get hash = some (block, height) ∧
      block.head.parent = parentHash

variable {C : Crypto} {build : Build} {blockchain : Blockchain} {inserted : List Block}
  {blocks : HashMap H256 (Block × UInt32)}

/-- The blocks of an ancestry are stored. -/
theorem Ancestry.stored {hash : H256} {entries : List (H256 × Block)}
    (h : Ancestry blocks hash entries) :
    ∀ entry ∈ entries, ∃ height, blocks.get entry.1 = some (entry.2, height) := by
  induction h with
  | nil => exact List.forall_mem_nil _
  | cons hget _ ih => exact List.forall_mem_cons.mpr ⟨⟨_, hget⟩, ih⟩

/-! ## Walks back -/

/-- The loop finds exactly what is stored on the way. -/
theorem walkBack_eq_ok_iff {steps : Nat} {nextHash : H256} {hashes result : List H256} :
    walkBack blocks steps nextHash hashes = .ok result ↔
      ∃ entries, Ancestry blocks nextHash entries ∧ entries.length = steps ∧
        result = hashes ++ entries.map Prod.fst := by
  induction steps generalizing nextHash hashes with
  | zero =>
      constructor
      · intro hwalk
        obtain rfl : hashes = result := Except.ok.inj hwalk
        exact ⟨[], .nil nextHash, rfl, (List.append_nil hashes).symm⟩
      · rintro ⟨entries, _, hlength, rfl⟩
        rw [List.length_eq_zero_iff.mp hlength, List.map_nil, List.append_nil]
        rfl
  | succ steps ih =>
      rw [walkBack, except_bind_eq_ok]
      constructor
      · rintro ⟨⟨block, height⟩, hentry, hwalk⟩
        obtain ⟨entries, hancestry, hlength, rfl⟩ := ih.mp hwalk
        refine ⟨(nextHash, block) :: entries, .cons (unwrap_eq_ok.mp hentry) hancestry,
          congrArg Nat.succ hlength, ?_⟩
        rw [List.map_cons, List.append_assoc, List.singleton_append]
      · rintro ⟨entries, hancestry, hlength, rfl⟩
        cases hancestry with
        | nil => cases hlength
        | @cons _ block height rest hget hrest =>
            refine ⟨(block, height), unwrap_eq_ok.mpr hget, ih.mpr ⟨rest, hrest, ?_, ?_⟩⟩
            · exact Nat.succ.inj hlength
            · rw [List.map_cons, List.append_assoc, List.singleton_append]

/-- The reported chain is the reversed ancestry of the tip, as long as its height says. -/
theorem allBlocksInLongestChain_eq_ok_iff {hashes : List H256} :
    blockchain.allBlocksInLongestChain = .ok hashes ↔
      ∃ block height rest, blockchain.blocks.get blockchain.tip = some (block, height) ∧
        Ancestry blockchain.blocks block.head.parent rest ∧ rest.length = height.toNat ∧
        hashes = (((blockchain.tip, block) :: rest).map Prod.fst).reverse := by
  rw [allBlocksInLongestChain, except_bind_eq_ok]
  constructor
  · rintro ⟨⟨block, height⟩, htip, hwalk⟩
    obtain ⟨result, hwalk, hreverse⟩ := except_bind_eq_ok.mp hwalk
    obtain ⟨rest, hancestry, hlength, rfl⟩ := walkBack_eq_ok_iff.mp hwalk
    exact ⟨block, height, rest, unwrap_eq_ok.mp htip, hancestry, hlength,
      (Except.ok.inj hreverse).symm⟩
  · rintro ⟨block, height, rest, htip, hancestry, hlength, rfl⟩
    exact ⟨(block, height), unwrap_eq_ok.mpr htip, except_bind_eq_ok.mpr
      ⟨_, walkBack_eq_ok_iff.mpr ⟨rest, hancestry, hlength, rfl⟩, rfl⟩⟩

/-! ## The chain of a tree -/

/-- The chain of a block is that of its parent and the block. -/
theorem ExactChain.concat {parentHash hash : H256} {block : Block} {parentHeight height : UInt32}
    {hashes : List H256} (h : ExactChain C blockchain parentHash hashes)
    (hparent : blockchain.heightOf parentHash = some parentHeight)
    (hget : blockchain.blocks.get hash = some (block, height))
    (hlink : block.head.parent = parentHash) (hheight : height.toNat = parentHeight.toNat + 1) :
    ExactChain C blockchain hash (hashes ++ [hash]) := by
  have hown : blockchain.heightOf hash = some height := heightOf_eq_some.mpr ⟨block, hget⟩
  obtain ⟨_, hparent', hlength⟩ := h.length
  obtain rfl := Option.some.inj (hparent.symm.trans hparent')
  -- The position of a hash on the chain is its height.
  have hheights : ∀ k other, (hashes ++ [hash])[k]? = some other →
      ∃ height, blockchain.heightOf other = some height ∧ height.toNat = k := by
    intro k other hk
    rcases Nat.lt_trichotomy k hashes.length with hlt | rfl | hgt
    · rw [List.getElem?_append_left hlt] at hk
      exact h.heights k other hk
    · rw [List.getElem?_concat_length] at hk
      obtain rfl := Option.some.inj hk
      exact ⟨height, hown, by omega⟩
    · rw [List.getElem?_eq_none (by rw [List.length_append, List.length_singleton]; omega)] at hk
      cases hk
  refine ⟨⟨height, hown, ?_⟩, ?_, ?_, List.getLast?_concat, hheights, ?_⟩
  · rw [List.length_append, List.length_singleton]
    omega
  · -- Two positions of one hash are the height of that hash.
    refine List.nodup_iff_getElem?_ne_getElem?.mpr fun i j hij hj hsame => ?_
    have hi := hsame.trans (List.getElem?_eq_getElem hj)
    obtain ⟨first, hfirst, hfirstHeight⟩ := hheights i _ hi
    obtain ⟨second, hsecond, hsecondHeight⟩ := hheights j _ (List.getElem?_eq_getElem hj)
    obtain rfl := Option.some.inj (hfirst.symm.trans hsecond)
    omega
  · rw [List.head?_append, h.first]
    rfl
  · intro k parentHash' hash' hk hk'
    rcases Nat.lt_trichotomy (k + 1) hashes.length with hlt | heq | hgt
    · rw [List.getElem?_append_left (by omega)] at hk
      rw [List.getElem?_append_left hlt] at hk'
      exact h.links k parentHash' hash' hk hk'
    · have hlast := h.last
      rw [List.getElem?_append_left (by omega)] at hk
      rw [heq, List.getElem?_concat_length] at hk'
      rw [List.getLast?_eq_getElem?, ← heq, Nat.add_sub_cancel, hk] at hlast
      obtain rfl := Option.some.inj hlast
      obtain rfl := Option.some.inj hk'
      exact ⟨block, height, hget, hlink⟩
    · rw [List.getElem?_eq_none (by rw [List.length_append, List.length_singleton]; omega)] at hk'
      cases hk'

/-- Every stored block has its chain, and the ancestry that leads along it. -/
theorem TreeInvariant.exactChain (h : TreeInvariant C inserted blockchain) {hash : H256}
    {block : Block} {height : UInt32}
    (hget : blockchain.blocks.get hash = some (block, height)) :
    ∃ rest, Ancestry blockchain.blocks block.head.parent rest ∧ rest.length = height.toNat ∧
      ExactChain C blockchain hash (((hash, block) :: rest).map Prod.fst).reverse := by
  -- Induction on the height: a parent is one lower, and only genesis has height zero.
  generalize hsteps : height.toNat = steps
  induction steps generalizing hash block height with
  | zero =>
      obtain ⟨rfl, rfl | ⟨_, parentHeight, _, hparent⟩⟩ := h.stored hash block height hget
      · refine ⟨[], .nil _, rfl, ⟨height, heightOf_eq_some.mpr ⟨_, hget⟩, ?_⟩,
          List.nodup_singleton _, rfl, rfl, ?_, ?_⟩
        · rw [hsteps]
          rfl
        · intro k other hk
          rw [List.map_singleton, List.reverse_singleton, List.getElem?_singleton] at hk
          obtain ⟨rfl, hother⟩ := Option.ite_none_right_eq_some.mp hk
          obtain rfl := Option.some.inj hother
          exact ⟨height, heightOf_eq_some.mpr ⟨_, hget⟩, hsteps⟩
        · intro k _ other _ hk
          cases hk
      · omega
  | succ steps ih =>
      obtain ⟨rfl, rfl | ⟨hmem, parentHeight, hparent, heq⟩⟩ := h.stored hash block height hget
      · obtain ⟨_, rfl⟩ := Prod.mk.inj (Option.some.inj (h.root.symm.trans hget))
        cases hsteps
      · obtain ⟨parent, hparentGet⟩ := heightOf_eq_some.mp hparent
        obtain ⟨rest, hancestry, hlength, hchain⟩ := ih hparentGet (by omega)
        refine ⟨(block.head.parent, parent) :: rest, .cons hparentGet hancestry,
          congrArg Nat.succ hlength, ?_⟩
        rw [List.map_cons, List.reverse_cons]
        exact hchain.concat hparent hget rfl heq

/-- Fewer than `2 ^ 32` insertions that never replace the genesis block: the longest chain is
reported exactly. -/
theorem longestChain_exact (C : Crypto) (build : Build) (blocks : List Block)
    (hlength : blocks.length < 2 ^ 32)
    (hdistinct : ∀ left ∈ genesis :: blocks, ∀ right ∈ genesis :: blocks,
      left.hash C = right.hash C → left.head = right.head)
    (hgenesis : ∀ block ∈ blocks, block.head ≠ genesis.head)
    (hparents : ∀ before block after blockchain, blocks = before ++ block :: after →
      insertAll C build (Blockchain.new C) before = .ok blockchain →
      blockchain.blocks.containsKey block.head.parent = true) :
    ∃ blockchain hashes, insertAll C build (Blockchain.new C) blocks = .ok blockchain ∧
      blockchain.allBlocksInLongestChain = .ok hashes ∧
      ExactChain C blockchain blockchain.tip hashes := by
  obtain ⟨hdistinct', hgenesis'⟩ := distinct_of_genesis hdistinct hgenesis
  obtain ⟨blockchain, hrun, hinv⟩ := TreeInvariant.insertAll hlength hdistinct' hgenesis' hparents
    blocks [] (List.append_nil blocks).symm
  obtain ⟨block, height, htip, _⟩ := hinv.tip_highest
  obtain ⟨rest, hancestry, hrest, hchain⟩ := hinv.exactChain htip
  exact ⟨blockchain, _, hrun,
    allBlocksInLongestChain_eq_ok_iff.mpr
      ⟨block, height, rest, htip, hancestry, hrest, rfl⟩, hchain⟩

theorem longestChain_exact_zeroBlock :
    ∃ blockchain hashes, insertAll .sample .release (Blockchain.new .sample) [zeroBlock] =
        .ok blockchain ∧ blockchain.allBlocksInLongestChain = .ok hashes ∧
      ExactChain .sample blockchain blockchain.tip hashes :=
  longestChain_exact .sample .release [zeroBlock] (by simp) (by decide +kernel) (by decide +kernel)
    (fun before block after blockchain hsplit hrun => by
      obtain ⟨rfl, rfl, _⟩ : before = [] ∧ zeroBlock = block ∧ after = [] := by
        rcases before with _ | ⟨head, rest⟩
        · exact ⟨rfl, List.cons_eq_cons.mp hsplit |>.imp_right Eq.symm⟩
        · have hlength := congrArg List.length hsplit
          simp at hlength
      obtain rfl := Except.ok.inj hrun
      exact HashMap.containsKey_of_get (HashMap.get_insert_self _ _ _))

/-- The genesis block, inserted again on a header with the all-zero hash, begins and ends the
reported chain. -/
theorem not_longestChain_exact :
    ¬ ∀ (C : Crypto) (build : Build) (blocks : List Block), blocks.length < 2 ^ 32 →
      (∀ left ∈ genesis :: blocks, ∀ right ∈ genesis :: blocks,
        left.hash C = right.hash C → left.head = right.head) →
      (∀ before block after blockchain, blocks = before ++ block :: after →
        insertAll C build (Blockchain.new C) before = .ok blockchain →
        blockchain.blocks.containsKey block.head.parent = true) →
      ∃ blockchain hashes, insertAll C build (Blockchain.new C) blocks = .ok blockchain ∧
        blockchain.allBlocksInLongestChain = .ok hashes ∧
        ExactChain C blockchain blockchain.tip hashes := by
  intro hall
  obtain ⟨blockchain, hashes, hrun, hreport, hexact⟩ := hall zeroCrypto .release
    [zeroBlock, genesis] (by simp) (by decide +kernel) genesisAgain_parents
  have hrepeated : (insertAll zeroCrypto .release (Blockchain.new zeroCrypto)
      [zeroBlock, genesis] >>= allBlocksInLongestChain).map (fun hashes => decide hashes.Nodup) =
        .ok false := by
    decide +kernel
  rw [except_bind_eq_ok.mpr ⟨blockchain, hrun, hreport⟩] at hrepeated
  exact absurd hexact.nodup (of_decide_eq_false (Except.ok.inj hrepeated))

end Blockchain

end BitcoinClient
