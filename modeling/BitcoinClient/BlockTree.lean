import BitcoinClient.Blockchain

/-! # The tree that insertions build

Blocks are inserted one after the other, each with its parent stored. Heights are
then the distances to the genesis block, and of the highest blocks the tip is the
one that was inserted first.
-/

namespace BitcoinClient

namespace Blockchain

section Definitions

variable (C : Crypto) (build : Build)

/-- `Blockchain::insert` for one block after the other. -/
def insertAll (blockchain : Blockchain) (blocks : List Block) : Except Panic Blockchain :=
  blocks.foldlM (insert C build) blockchain

/-- The hashes in the order of their insertion; `Blockchain::new` starts with genesis. -/
def insertionOrder (inserted : List Block) : List H256 :=
  genesis.hash C :: inserted.map (Block.hash C)

/-- The number of parent links from a stored block to the genesis block. -/
inductive Distance (blocks : HashMap H256 (Block × UInt32)) : H256 → Nat → Prop
  | genesis {block : Block} {height : UInt32} :
      blocks.get (genesis.hash C) = some (block, height) → Distance blocks (genesis.hash C) 0
  | step {hash : H256} {block : Block} {height : UInt32} {steps : Nat} :
      hash ≠ genesis.hash C → blocks.get hash = some (block, height) →
      Distance blocks block.head.parent steps → Distance blocks hash (steps + 1)

/-- The height of a stored block. -/
def heightOf (blockchain : Blockchain) (hash : H256) : Option UInt32 :=
  (blockchain.blocks.get hash).map Prod.snd

/-- A tree with its longest chain, after the insertion of `inserted`. -/
structure LongestChainRule (inserted : List Block) (blockchain : Blockchain) : Prop where
  heights : ∀ hash height, blockchain.heightOf hash = some height →
    Distance C blockchain.blocks hash height.toNat
  parents : ∀ hash block height, blockchain.blocks.get hash = some (block, height) →
    block ≠ genesis → blockchain.blocks.containsKey block.head.parent = true
  tip_highest : blockchain.Highest blockchain.tip
  /-- No block that was inserted before the tip is a highest one. -/
  tip_first : ∃ earlier later, insertionOrder C inserted = earlier ++ blockchain.tip :: later ∧
    ∀ hash ∈ earlier, ¬ blockchain.Highest hash

/-- What one insertion after the other keeps. -/
structure TreeInvariant (inserted : List Block) (blockchain : Blockchain) : Prop where
  order : ∀ hash, blockchain.blocks.containsKey hash = true ↔ hash ∈ insertionOrder C inserted
  root : blockchain.blocks.get (genesis.hash C) = some (genesis, 0)
  stored : ∀ hash block height, blockchain.blocks.get hash = some (block, height) →
    block.hash C = hash ∧ (block = genesis ∨ (block ∈ inserted ∧ ∃ parentHeight,
      blockchain.heightOf block.head.parent = some parentHeight ∧
      height.toNat = parentHeight.toNat + 1))
  bounded : ∀ hash height, blockchain.heightOf hash = some height →
    height.toNat ≤ inserted.length
  tip_highest : blockchain.Highest blockchain.tip
  tip_first : ∃ earlier later, insertionOrder C inserted = earlier ++ blockchain.tip :: later ∧
    ∀ hash ∈ earlier, ¬ blockchain.Highest hash

end Definitions

variable {C : Crypto} {build : Build} {blockchain next : Blockchain} {inserted : List Block}

theorem heightOf_eq_some {hash : H256} {height : UInt32} :
    blockchain.heightOf hash = some height ↔
      ∃ block, blockchain.blocks.get hash = some (block, height) := by
  rw [heightOf, Option.map_eq_some_iff]
  constructor
  · rintro ⟨⟨block, _⟩, hget, rfl⟩
    exact ⟨block, hget⟩
  · rintro ⟨block, hget⟩
    exact ⟨_, hget, rfl⟩

theorem heightOf_of_containsKey {hash : H256}
    (h : blockchain.blocks.containsKey hash = true) :
    ∃ height, blockchain.heightOf hash = some height := by
  obtain ⟨⟨block, height⟩, hget⟩ := HashMap.containsKey_iff.mp h
  exact ⟨height, heightOf_eq_some.mpr ⟨block, hget⟩⟩

/-- Only heights decide which blocks are highest. -/
theorem highest_iff {hash : H256} : blockchain.Highest hash ↔
    ∃ height, blockchain.heightOf hash = some height ∧
      ∀ other otherHeight, blockchain.heightOf other = some otherHeight → otherHeight ≤ height := by
  constructor
  · rintro ⟨block, height, hget, hmax⟩
    refine ⟨height, heightOf_eq_some.mpr ⟨block, hget⟩, fun other otherHeight hother => ?_⟩
    obtain ⟨otherBlock, hother⟩ := heightOf_eq_some.mp hother
    exact hmax other otherBlock otherHeight hother
  · rintro ⟨height, hheight, hmax⟩
    obtain ⟨block, hget⟩ := heightOf_eq_some.mp hheight
    refine ⟨block, height, hget, fun other otherBlock otherHeight hother => ?_⟩
    exact hmax other otherHeight (heightOf_eq_some.mpr ⟨otherBlock, hother⟩)

/-- A hash has one distance. -/
theorem Distance.unique {blocks : HashMap H256 (Block × UInt32)} {hash : H256} {steps steps' : Nat}
    (h : Distance C blocks hash steps) (h' : Distance C blocks hash steps') : steps = steps' := by
  induction h generalizing steps' with
  | genesis _ =>
      cases h' with
      | genesis _ => rfl
      | step hne _ _ => exact absurd rfl hne
  | step hne hget _ ih =>
      cases h' with
      | genesis _ => exact absurd rfl hne
      | step _ hget' hparent =>
          obtain ⟨rfl, _⟩ := Prod.mk.inj (Option.some.inj (hget.symm.trans hget'))
          rw [ih hparent]

namespace TreeInvariant

theorem initial : TreeInvariant C [] (Blockchain.new C) := by
  have hget : ∀ hash block height, (Blockchain.new C).blocks.get hash = some (block, height) →
      hash = genesis.hash C ∧ block = genesis ∧ height = 0 := by
    intro hash block height hget
    simp only [Blockchain.new, HashMap.get_insert, HashMap.get_empty,
      Option.ite_none_right_eq_some, Option.some.injEq, Prod.mk.injEq] at hget
    exact ⟨hget.1, hget.2.1.symm, hget.2.2.symm⟩
  have hroot : (Blockchain.new C).blocks.get (genesis.hash C) = some (genesis, 0) :=
    HashMap.get_insert_self _ _ _
  refine ⟨fun hash => ?_, hroot, fun hash block height hstored => ?_, fun hash height hheight => ?_,
    ⟨genesis, 0, hroot, fun other block height hother => ?_⟩, [], [], rfl,
    List.forall_mem_nil _⟩
  · simp [Blockchain.new, HashMap.containsKey_insert, insertionOrder]
  · obtain ⟨rfl, rfl, rfl⟩ := hget hash block height hstored
    exact ⟨rfl, Or.inl rfl⟩
  · obtain ⟨block, hstored⟩ := heightOf_eq_some.mp hheight
    rw [(hget hash block height hstored).2.2]
    exact Nat.le_refl 0
  · rw [(hget other block height hother).2.2]
    exact UInt32.le_refl 0

/-- Following the parents of a block takes as many steps as its height says. -/
theorem distance (h : TreeInvariant C inserted blockchain)
    (hgenesis : ∀ block ∈ inserted, block.hash C ≠ genesis.hash C) {hash : H256} {height : UInt32}
    (hheight : blockchain.heightOf hash = some height) :
    Distance C blockchain.blocks hash height.toNat := by
  -- Induction on the height: a parent is one lower.
  generalize hsteps : height.toNat = steps
  induction steps generalizing hash height with
  | zero =>
      obtain ⟨block, hget⟩ := heightOf_eq_some.mp hheight
      obtain ⟨rfl, rfl | ⟨_, parentHeight, _, hparent⟩⟩ := h.stored hash block height hget
      · exact .genesis hget
      · omega
  | succ steps ih =>
      obtain ⟨block, hget⟩ := heightOf_eq_some.mp hheight
      obtain ⟨rfl, rfl | ⟨hmem, parentHeight, hparent, heq⟩⟩ := h.stored hash block height hget
      · obtain ⟨_, rfl⟩ := Prod.mk.inj (Option.some.inj (h.root.symm.trans hget))
        cases hsteps
      · exact .step (hgenesis block hmem) hget (ih hparent (by omega))

theorem longestChainRule (h : TreeInvariant C inserted blockchain)
    (hgenesis : ∀ block ∈ inserted, block.hash C ≠ genesis.hash C) :
    LongestChainRule C inserted blockchain := by
  refine ⟨fun hash height hheight => h.distance hgenesis hheight,
    fun hash block height hget hne => ?_, h.tip_highest, h.tip_first⟩
  rcases (h.stored hash block height hget).2 with rfl | ⟨_, parentHeight, hparent, _⟩
  · exact absurd rfl hne
  · obtain ⟨parent, hparent⟩ := heightOf_eq_some.mp hparent
    exact HashMap.containsKey_of_get hparent

theorem insertionOrder_append (inserted : List Block) (block : Block) :
    insertionOrder C (inserted ++ [block]) = insertionOrder C inserted ++ [block.hash C] := by
  rw [insertionOrder, insertionOrder, List.map_append, List.cons_append, List.map_singleton]

/-- The tip after an insertion that changes no height: the new block if it is higher
than all others. -/
theorem tip_insert (h : TreeInvariant C inserted blockchain) {block : Block}
    {height tipHeight : UInt32}
    (hheights : ∀ other, next.heightOf other =
      if other = block.hash C then some height else blockchain.heightOf other)
    (hkept : ∀ other otherHeight, blockchain.heightOf other = some otherHeight →
      next.heightOf other = some otherHeight)
    (hnext : next.tip = if height > tipHeight then block.hash C else blockchain.tip)
    (htip : blockchain.heightOf blockchain.tip = some tipHeight) :
    next.Highest next.tip ∧
      (∃ earlier later,
        insertionOrder C (inserted ++ [block]) = earlier ++ next.tip :: later ∧
          ∀ hash ∈ earlier, ¬ next.Highest hash) ∧
      ∃ height height', blockchain.heightOf blockchain.tip = some height ∧
        next.heightOf next.tip = some height' ∧ height ≤ height' := by
  obtain ⟨tipHeight', htip', hmax⟩ := highest_iff.mp h.tip_highest
  obtain rfl := Option.some.inj (htip.symm.trans htip')
  have hstored : ∀ hash ∈ insertionOrder C inserted, ∃ height,
      blockchain.heightOf hash = some height ∧ next.heightOf hash = some height := by
    intro hash hmem
    obtain ⟨height, hheight⟩ := heightOf_of_containsKey ((h.order hash).mpr hmem)
    exact ⟨height, hheight, hkept hash height hheight⟩
  -- Either the new block is the tip and last in the order, or the tip stays where it was.
  by_cases hhigher : height > tipHeight
  · rw [if_pos hhigher] at hnext
    have hnew : next.heightOf next.tip = some height := by rw [hheights, if_pos hnext]
    refine ⟨highest_iff.mpr ⟨height, hnew, fun other otherHeight hother => ?_⟩,
      ⟨insertionOrder C inserted, [], by rw [insertionOrder_append, hnext], ?_⟩,
      tipHeight, height, htip, hnew, UInt32.le_of_lt hhigher⟩
    · rw [hheights] at hother
      split at hother
      next => exact (Option.some.inj hother) ▸ UInt32.le_refl _
      next => exact UInt32.le_trans (hmax other otherHeight hother) (UInt32.le_of_lt hhigher)
    · -- A highest hash before it would be as high as the new block.
      intro hash hmem hhighest
      obtain ⟨old, hold, hkeptOld⟩ := hstored hash hmem
      obtain ⟨old', hold', hmax'⟩ := highest_iff.mp hhighest
      obtain rfl := Option.some.inj (hkeptOld.symm.trans hold')
      exact absurd hhigher
        (UInt32.not_lt.mpr (UInt32.le_trans (hmax' _ _ hnew) (hmax hash old hold)))
  · rw [if_neg hhigher] at hnext
    have hsame : next.heightOf next.tip = some tipHeight := by
      rw [hnext]
      exact hkept _ _ htip
    obtain ⟨earlier, later, horder, hfirst⟩ := h.tip_first
    refine ⟨highest_iff.mpr ⟨tipHeight, hsame, fun other otherHeight hother => ?_⟩,
      ⟨earlier, later ++ [block.hash C], ?_, ?_⟩, tipHeight, tipHeight, htip, hsame,
      UInt32.le_refl _⟩
    · rw [hheights] at hother
      split at hother
      next => exact (Option.some.inj hother) ▸ UInt32.not_lt.mp hhigher
      next => exact hmax other otherHeight hother
    · rw [insertionOrder_append, horder, hnext, List.append_assoc, List.cons_append]
    · intro hash hmem hhighest
      obtain ⟨old, hold, hkeptOld⟩ := hstored hash
        (by rw [horder]; exact List.mem_append_left _ hmem)
      obtain ⟨old', hold', hmax'⟩ := highest_iff.mp hhighest
      obtain rfl := Option.some.inj (hkeptOld.symm.trans hold')
      refine hfirst hash hmem (highest_iff.mpr ⟨old, hold, fun other otherHeight hother => ?_⟩)
      exact hmax' other otherHeight (hkept other otherHeight hother)

/-- One insertion. `inserted` are the blocks before it. -/
theorem insert (build : Build) (h : TreeInvariant C inserted blockchain) {block : Block}
    (hdistinct : ∀ other ∈ inserted, other.hash C = block.hash C → other.head = block.head)
    (hgenesis : block.hash C ≠ genesis.hash C) (hlength : inserted.length + 1 < 2 ^ 32)
    (hstored : blockchain.blocks.containsKey block.head.parent = true) :
    ∃ next, blockchain.insert C build block = .ok next ∧
      TreeInvariant C (inserted ++ [block]) next ∧
      ∃ height height', blockchain.heightOf blockchain.tip = some height ∧
        next.heightOf next.tip = some height' ∧ height ≤ height' := by
  obtain ⟨⟨parent, parentHeight⟩, hparent⟩ := HashMap.containsKey_iff.mp hstored
  obtain ⟨tipBlock, tipHeight, htip, _⟩ := h.tip_highest
  have hparentHeight : blockchain.heightOf block.head.parent = some parentHeight :=
    heightOf_eq_some.mpr ⟨parent, hparent⟩
  have hbound := h.bounded _ _ hparentHeight
  have hfit : parentHeight.toNat + (1 : UInt32).toNat < 2 ^ 32 := by
    rw [UInt32.toNat_one]
    omega
  obtain ⟨height, hadd, hheight⟩ := addU32_of_lt build hfit
  rw [UInt32.toNat_one] at hheight
  -- A block that was inserted before keeps its height.
  have hfix : ∀ old, blockchain.heightOf (block.hash C) = some old → old = height := by
    intro old hold
    obtain ⟨oldBlock, hget⟩ := heightOf_eq_some.mp hold
    obtain ⟨hhash, rfl | ⟨hmem, oldParent, holdParent, heq⟩⟩ := h.stored _ _ _ hget
    · exact absurd hhash.symm hgenesis
    · rw [hdistinct oldBlock hmem hhash, hparentHeight] at holdParent
      obtain rfl := Option.some.inj holdParent
      exact UInt32.toNat_inj.mp (heq.trans hheight.symm)
  have hinsert : blockchain.insert C build block = _ := insert_eq hparent htip
  rw [hadd] at hinsert
  refine ⟨_, hinsert, ?_⟩
  let next : Blockchain := ⟨blockchain.blocks.insert (block.hash C) (block, height),
    if height > tipHeight then block.hash C else blockchain.tip⟩
  have hheights : ∀ other, next.heightOf other =
      if other = block.hash C then some height else blockchain.heightOf other := by
    intro other
    rw [heightOf, heightOf, HashMap.get_insert]
    split <;> rfl
  have hkept : ∀ other otherHeight, blockchain.heightOf other = some otherHeight →
      next.heightOf other = some otherHeight := by
    intro other otherHeight hother
    rw [hheights]
    split
    next heq => rw [← hfix otherHeight (heq ▸ hother)]
    next => exact hother
  obtain ⟨htipHighest, htipFirst, hgrows⟩ := h.tip_insert hheights hkept rfl
    (heightOf_eq_some.mpr ⟨tipBlock, htip⟩)
  refine ⟨⟨fun other => ?_, ?_, fun other otherBlock otherHeight hget => ?_,
    fun other otherHeight hother => ?_, htipHighest, htipFirst⟩, hgrows⟩
  · rw [HashMap.containsKey_insert, h.order, insertionOrder_append, List.mem_append,
      List.mem_singleton, or_comm]
  · rw [HashMap.get_insert_ne hgenesis.symm]
    exact h.root
  · rcases HashMap.of_get_insert hget with ⟨rfl, heq⟩ | hget
    · cases heq
      exact ⟨rfl, Or.inr ⟨List.mem_append_right _ (List.mem_singleton_self _), parentHeight,
        hkept _ _ hparentHeight, hheight⟩⟩
    · obtain ⟨hhash, hkind⟩ := h.stored other otherBlock otherHeight hget
      refine ⟨hhash, hkind.imp_right ?_⟩
      rintro ⟨hmem, otherParent, hother, heq⟩
      exact ⟨List.mem_append_left _ hmem, otherParent, hkept _ _ hother, heq⟩
  · rw [List.length_append, List.length_singleton]
    change next.heightOf other = some otherHeight at hother
    rw [hheights] at hother
    split at hother
    next =>
      obtain rfl := Option.some.inj hother
      omega
    next => exact Nat.le_succ_of_le (h.bounded other otherHeight hother)

/-- Any number of insertions below the limit of the heights. -/
theorem insertAll {blocks : List Block} (hlength : blocks.length < 2 ^ 32)
    (hdistinct : ∀ left ∈ blocks, ∀ right ∈ blocks, left.hash C = right.hash C →
      left.head = right.head)
    (hgenesis : ∀ block ∈ blocks, block.hash C ≠ genesis.hash C)
    (hparents : ∀ before block after blockchain, blocks = before ++ block :: after →
      insertAll C build (Blockchain.new C) before = .ok blockchain →
      blockchain.blocks.containsKey block.head.parent = true)
    (before after : List Block) (hsplit : blocks = before ++ after) :
    ∃ blockchain, Blockchain.insertAll C build (Blockchain.new C) before = .ok blockchain ∧
      TreeInvariant C before blockchain := by
  induction before using List.reverseRecOn generalizing after with
  | nil => exact ⟨Blockchain.new C, rfl, initial⟩
  | append_singleton before block ih =>
      rw [List.append_assoc, List.singleton_append] at hsplit
      obtain ⟨blockchain, hrun, hinv⟩ := ih (block :: after) hsplit
      have hblock : block ∈ blocks := by simp [hsplit]
      have hbefore : ∀ other ∈ before, other ∈ blocks := by
        intro other hmem
        simp [hsplit, hmem]
      obtain ⟨next, hinsert, hnext, _⟩ := hinv.insert build
        (fun other hmem => hdistinct other (hbefore other hmem) block hblock)
        (hgenesis block hblock) (by simp [hsplit] at hlength; omega)
        (hparents before block after blockchain hsplit hrun)
      refine ⟨next, ?_, hnext⟩
      rw [Blockchain.insertAll, List.foldlM_append]
      exact except_bind_eq_ok.mpr ⟨blockchain, hrun, except_bind_eq_ok.mpr ⟨next, hinsert, rfl⟩⟩

end TreeInvariant

/-- Headers that differ from that of the genesis block have other hashes. -/
theorem distinct_of_genesis {blocks : List Block}
    (hdistinct : ∀ left ∈ genesis :: blocks, ∀ right ∈ genesis :: blocks,
      left.hash C = right.hash C → left.head = right.head)
    (hgenesis : ∀ block ∈ blocks, block.head ≠ genesis.head) :
    (∀ left ∈ blocks, ∀ right ∈ blocks, left.hash C = right.hash C → left.head = right.head) ∧
      ∀ block ∈ blocks, block.hash C ≠ genesis.hash C := by
  constructor
  · intro left hleft right hright
    exact hdistinct left (List.mem_cons_of_mem _ hleft) right (List.mem_cons_of_mem _ hright)
  · intro block hblock heq
    exact hgenesis block hblock
      (hdistinct block (List.mem_cons_of_mem _ hblock) genesis List.mem_cons_self heq)

/-- Fewer than `2 ^ 32` insertions that never replace the genesis block build a tree
with its longest chain, and never lower the tip. -/
theorem insertAll_longestChainRule (C : Crypto) (build : Build) (blocks : List Block)
    (hlength : blocks.length < 2 ^ 32)
    (hdistinct : ∀ left ∈ genesis :: blocks, ∀ right ∈ genesis :: blocks,
      left.hash C = right.hash C → left.head = right.head)
    (hgenesis : ∀ block ∈ blocks, block.head ≠ genesis.head)
    (hparents : ∀ before block after blockchain, blocks = before ++ block :: after →
      insertAll C build (Blockchain.new C) before = .ok blockchain →
      blockchain.blocks.containsKey block.head.parent = true)
    (before after : List Block) (hsplit : blocks = before ++ after) :
    ∃ blockchain, insertAll C build (Blockchain.new C) before = .ok blockchain ∧
      LongestChainRule C before blockchain ∧
      ∀ block rest, after = block :: rest → ∃ next height height',
        blockchain.insert C build block = .ok next ∧
        blockchain.heightOf blockchain.tip = some height ∧
        next.heightOf next.tip = some height' ∧ height ≤ height' := by
  obtain ⟨hdistinct', hgenesis'⟩ := distinct_of_genesis hdistinct hgenesis
  obtain ⟨blockchain, hrun, hinv⟩ :=
    TreeInvariant.insertAll hlength hdistinct' hgenesis' hparents before after hsplit
  have hbefore : ∀ other ∈ before, other ∈ blocks := by
    intro other hmem
    simp [hsplit, hmem]
  refine ⟨blockchain, hrun, hinv.longestChainRule fun block hmem =>
    hgenesis' block (hbefore block hmem), ?_⟩
  rintro block rest rfl
  have hblock : block ∈ blocks := by simp [hsplit]
  obtain ⟨next, hinsert, _, height, height', htip, htip', hle⟩ := hinv.insert build
    (fun other hmem => hdistinct' other (hbefore other hmem) block hblock)
    (hgenesis' block hblock) (by simp [hsplit] at hlength; omega)
    (hparents before block rest blockchain hsplit hrun)
  exact ⟨next, height, height', hinsert, htip, htip', hle⟩

/-- A block on the genesis block. -/
def zeroBlock : Block :=
  ⟨⟨genesis.hash .sample, 0, genesisDifficulty, 0, .hex 0⟩, ⟨[]⟩⟩

/-- The steps of two insertions. -/
theorem two_insertions {first second block : Block} {before after : List Block}
    (hsplit : [first, second] = before ++ block :: after) :
    (before, block) ∈ [([], first), ([first], second)] := by
  rcases before with _ | ⟨head, _ | ⟨next, rest⟩⟩
  · simp [(List.cons_eq_cons.mp hsplit).1]
  · obtain ⟨rfl, hrest⟩ := List.cons_eq_cons.mp hsplit
    simp [(List.cons_eq_cons.mp hrest).1]
  · have hlength := congrArg List.length hsplit
    simp at hlength

theorem insertAll_longestChainRule_zeroBlock :
    ∃ blockchain, insertAll .sample .release (Blockchain.new .sample) [zeroBlock, zeroBlock] =
        .ok blockchain ∧ LongestChainRule .sample [zeroBlock, zeroBlock] blockchain := by
  have hparents : ∀ step ∈ [([], zeroBlock), ([zeroBlock], zeroBlock)],
      (insertAll .sample .release (Blockchain.new .sample) step.1).map
        (fun blockchain => blockchain.blocks.containsKey step.2.head.parent) = .ok true := by
    decide +kernel
  obtain ⟨blockchain, hrun, hrule, _⟩ := insertAll_longestChainRule .sample .release
    [zeroBlock, zeroBlock] (by simp) (by decide +kernel) (by decide +kernel)
    (fun before block after blockchain hsplit hrun => by
      have hstored := hparents _ (two_insertions hsplit)
      rw [hrun] at hstored
      exact Except.ok.inj hstored)
    [zeroBlock, zeroBlock] [] rfl
  exact ⟨blockchain, hrun, hrule⟩

/-! ## The genesis block inserted again

The parent of the genesis block is the all-zero hash. Should a header have that hash,
the genesis block can be inserted on top of it and is given another height.
-/

/-- The header of `zeroBlock` has the all-zero hash. -/
def zeroCrypto : Crypto :=
  { Crypto.sample with
    sha256 := fun bytes =>
      if bytes = Crypto.sample.serializeHeader zeroBlock.head then .hex 0
      else Crypto.sample.sha256 bytes }

/-- Each of the two blocks has its parent stored when it is inserted. -/
theorem genesisAgain_parents (before : List Block) (block : Block) (after : List Block)
    (blockchain : Blockchain) (hsplit : [zeroBlock, genesis] = before ++ block :: after)
    (hrun : insertAll zeroCrypto .release (Blockchain.new zeroCrypto) before = .ok blockchain) :
    blockchain.blocks.containsKey block.head.parent = true := by
  have hparents : ∀ step ∈ [([], zeroBlock), ([zeroBlock], genesis)],
      (insertAll zeroCrypto .release (Blockchain.new zeroCrypto) step.1).map
        (fun blockchain => blockchain.blocks.containsKey step.2.head.parent) = .ok true := by
    decide +kernel
  have hstored := hparents _ (two_insertions hsplit)
  rw [hrun] at hstored
  exact Except.ok.inj hstored

/-- After the second insertion the genesis block has height 2. -/
theorem not_insertAll_longestChainRule :
    ¬ ∀ blocks : List Block, blocks.length < 2 ^ 32 →
      (∀ left ∈ genesis :: blocks, ∀ right ∈ genesis :: blocks,
        left.hash zeroCrypto = right.hash zeroCrypto → left.head = right.head) →
      (∀ before block after blockchain, blocks = before ++ block :: after →
        insertAll zeroCrypto .release (Blockchain.new zeroCrypto) before = .ok blockchain →
        blockchain.blocks.containsKey block.head.parent = true) →
      ∀ before after, blocks = before ++ after → ∃ blockchain,
        insertAll zeroCrypto .release (Blockchain.new zeroCrypto) before = .ok blockchain ∧
          LongestChainRule zeroCrypto before blockchain := by
  intro hall
  obtain ⟨blockchain, hrun, hrule⟩ := hall [zeroBlock, genesis] (by simp) (by decide +kernel)
    genesisAgain_parents [zeroBlock, genesis] [] rfl
  have hheight : (insertAll zeroCrypto .release (Blockchain.new zeroCrypto)
      [zeroBlock, genesis]).map (fun blockchain => blockchain.heightOf (genesis.hash zeroCrypto)) =
        .ok (some 2) := by
    decide +kernel
  rw [hrun] at hheight
  have hgenesis := Except.ok.inj hheight
  obtain ⟨block, hget⟩ := heightOf_eq_some.mp hgenesis
  have hsame := (hrule.heights _ _ hgenesis).unique (.genesis hget)
  cases hsame

end Blockchain

end BitcoinClient
