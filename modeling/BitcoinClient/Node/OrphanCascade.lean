import BitcoinClient.Network.CatchUp
import BitcoinClient.Node.BackwardWalks

/-! # What one cascade releases

A worker that stores a block searches its orphan buffer for the children of that block, then
for their children, and so on. When no other thread runs meanwhile, it inserts the orphans
that a path of accepted orphans connects to the block, parents first, and it drops the children
that fail a check. The other orphans stay in the buffer in their order (`processBlock_cascades`).
-/

namespace BitcoinClient

section Definitions

variable (C : Crypto) (build : Build)

/-- The block has the difficulty of its parent, and `check_tx_state` accepts it on the state
of its parent. -/
def PassesOn (parent : Block) (state : State) (block : Block) (next : State) : Prop :=
  block.head.difficulty = parent.head.difficulty ∧
    checkTxs C build state block.cont.st = .ok next

variable (block : Block) (state : State) (orphans : List Block)

/-- The new block with its state, and the orphans with theirs that a path of accepted
orphans connects to it. -/
inductive Connected : Block → State → Prop
  | block : Connected block state
  | orphan {parent orphan : Block} {parentState next : State} : Connected parent parentState →
      orphan ∈ orphans → orphan.head.parent = parent.hash C →
      PassesOn C build parent parentState orphan next → Connected orphan next

/-- A child of a connected block that fails a check. -/
def Refused (orphan : Block) : Prop :=
  ∃ parent parentState, Connected C build block state orphans parent parentState ∧
    orphan.head.parent = parent.hash C ∧ ¬ ∃ next, PassesOn C build parent parentState orphan next

/-- What has happened to the memory `start` and to the variables `loop` once `block` was stored
with `state` and the orphans `inserted` after it. -/
structure Cascaded (start : Shared) (loop : BlocksLoop) (inserted : List Block)
    (loop' : BlocksLoop) (s' : Shared) : Prop where
  released : ∀ orphan, orphan ∈ inserted ↔ orphan ∈ loop.orphanBlocks ∧
    ∃ next, Connected C build block state loop.orphanBlocks orphan next
  entries : ∀ stored ∈ block :: inserted, ∃ height next,
    s'.entry (stored.hash C) = some ⟨stored, height, next⟩ ∧
      Connected C build block state loop.orphanBlocks stored next
  others : ∀ hash, hash ∉ (block :: inserted).map (Block.hash C) →
    s'.blockchain.value.blocks.get hash = start.blockchain.value.blocks.get hash ∧
      s'.blockState.value.get hash = start.blockState.value.get hash
  newBlocks : loop'.newBlocks = loop.newBlocks ++ (block :: inserted).map (Block.hash C)
  once : ((block :: inserted).map (Block.hash C)).Nodup
  parentFirst : ∀ earlier orphan later, inserted = earlier ++ orphan :: later →
    orphan.head.parent ∈ (block :: earlier).map (Block.hash C)
  lost : ∀ orphan ∈ loop.orphanBlocks, orphan ∉ loop'.orphanBlocks ↔
    orphan ∈ inserted ∨ Refused C build block state loop.orphanBlocks orphan
  order : loop'.orphanBlocks.Sublist loop.orphanBlocks
  waiting : ∀ orphan ∈ loop'.orphanBlocks,
    s'.blockchain.value.blocks.containsKey orphan.head.parent = false
  scanned : loop'.n = loop'.newBlocks.length

/-- The checks on an orphan, from its parent and the parent's state. -/
def orphanChecks : Derivation Block H256 (Block × State) where
  key := Block.hash C
  parent orphan := orphan.head.parent
  extend orphan parent :=
    if orphan.head.difficulty = parent.1.head.difficulty then
      (checkTxs C build parent.2 orphan.cont.st).toOption.map fun next => (orphan, next)
    else none

/-- The two loops after `newBlocks` gained the hashes `gained`. -/
structure Scanning (before gained : List H256) (loop : BlocksLoop) (i : Nat) : Prop where
  newBlocks : loop.newBlocks = before ++ gained
  begun : before.length ≤ loop.n
  position : loop.n ≤ loop.newBlocks.length
  /-- The orphans before `i` were compared with `newBlocks[n]`. -/
  scanned : ∀ orphan ∈ loop.orphanBlocks.take i, orphan.head.parent ∈ gained →
    orphan.head.parent ∈ loop.newBlocks.drop (loop.n + 1)
  waiting : ∀ orphan ∈ loop.orphanBlocks.drop i, orphan.head.parent ∈ gained →
    orphan.head.parent ∈ loop.newBlocks.drop loop.n

/-- The cascade of `block` between two steps of its loops. `before` are the entries that
`newBlocks` had already, and `inserted` the orphans inserted so far. -/
structure CascadeInvariant (start : Shared) (before : List H256) (inserted : List Block)
    (loop : BlocksLoop) (i : Nat) (s : Shared) : Prop where
  locks : Unpoisoned s
  tip : s.blockchain.value.blocks.containsKey s.blockchain.value.tip = true
  entries : ∀ stored ∈ block :: inserted, ∃ height next,
    s.entry (stored.hash C) = some ⟨stored, height, next⟩ ∧
      Connected C build block state orphans stored next
  others : ∀ hash, hash ∉ (block :: inserted).map (Block.hash C) →
    s.blockchain.value.blocks.get hash = start.blockchain.value.blocks.get hash ∧
      s.blockState.value.get hash = start.blockState.value.get hash
  scan : Scanning before ((block :: inserted).map (Block.hash C)) loop i
  order : loop.orphanBlocks.Sublist orphans
  taken : ∀ orphan ∈ inserted, orphan ∈ orphans ∧ orphan ∉ loop.orphanBlocks
  once : inserted.Nodup
  parentFirst : ∀ earlier orphan later, inserted = earlier ++ orphan :: later →
    orphan.head.parent ∈ (block :: earlier).map (Block.hash C)
  lost : ∀ orphan ∈ orphans, orphan ∉ loop.orphanBlocks →
    orphan ∈ inserted ∨ Refused C build block state orphans orphan

end Definitions

variable {C : Crypto} {build : Build} {block : Block} {state : State} {orphans : List Block}

/-! ## Connected orphans -/

theorem orphanChecks_extend {parent orphan : Block} {parentState next : State}
    (h : PassesOn C build parent parentState orphan next) :
    (orphanChecks C build).extend orphan (parent, parentState) = some (orphan, next) := by
  simp only [orphanChecks, if_pos h.1, h.2, Except.toOption, Option.map_some]

/-- A connected block is derived from the new block alone. -/
theorem Connected.derives {orphan : Block} {next : State}
    (h : Connected C build block state orphans orphan next) :
    (orphanChecks C build).Derives (fun hash => if hash = block.hash C then some (block, state)
      else none) {orphan | orphan ∈ orphans} (orphan.hash C) (orphan, next) := by
  induction h with
  | block => exact .start (if_pos rfl)
  | orphan _ hmem hparent hpasses ih =>
      refine .extend hmem ?_ (orphanChecks_extend hpasses)
      rw [← hparent] at ih
      exact ih

/-- Where hashes are distinct, a connected block and its state are determined by the hash. -/
theorem Connected.unique {first second : Block} {firstState secondState : State}
    (hdistinct : ((block :: orphans).map (Block.hash C)).Nodup)
    (h : Connected C build block state orphans first firstState)
    (h' : Connected C build block state orphans second secondState)
    (hhash : first.hash C = second.hash C) : first = second ∧ firstState = secondState := by
  rw [List.map_cons, List.nodup_cons] at hdistinct
  have hkeys : (orphanChecks C build).Distinct (fun hash => if hash = block.hash C then
      some (block, state) else none) {orphan | orphan ∈ orphans} := by
    refine ⟨fun orphan hmem => if_neg fun heq => ?_, fun orphan hmem other hother heq => ?_⟩
    · exact hdistinct.1 (List.mem_map.mpr ⟨orphan, hmem, heq⟩)
    · exact List.inj_on_of_nodup_map hdistinct.2 hmem hother heq
  have hderives := h.derives
  rw [hhash] at hderives
  exact Prod.mk.inj (hderives.unique hkeys h'.derives)

/-! ## One admission -/

variable {s : Shared}

/-- The two calls that admit a block whose parent is stored with its state. -/
theorem admitChild_wp {α : Type} {child parent : Block} {parentHeight : UInt32}
    {parentState : State} {next : Bool → NodeProgram α} {post : α → Shared → Prop}
    (hlocks : Unpoisoned s)
    (htip : s.blockchain.value.blocks.containsKey s.blockchain.value.tip = true)
    (hentry : s.entry child.head.parent = some ⟨parent, parentHeight, parentState⟩)
    (hpasses : ∀ state height chain, PassesOn C build parent parentState child state →
      chain.blocks = s.blockchain.value.blocks.insert (child.hash C) (child, height) →
      chain.blocks.containsKey chain.tip = true →
      ((next true).run C build).wp post (fun _ _ => build = .overflowChecked)
        (s.put (child.hash C) state chain))
    (hfails : (¬ ∃ state, PassesOn C build parent parentState child state) →
      ((next false).run C build).wp post (fun _ _ => build = .overflowChecked) s) :
    (NodeProgram.run C build do
      let parent ← NodeProgram.call (.getBlock child.head.parent)
      if child.head.difficulty = parent.1.head.difficulty then
        let admitted ← admitBlock C build child
        next admitted
      else
        next false).wp post (fun _ _ => build = .overflowChecked) s := by
  obtain ⟨hparent, hstate⟩ := Shared.entry_eq_some.mp hentry
  simp only [NodeProgram.run, NodeProgram.call, Program.call_bind, Program.run_perform,
    Effect.wp_bind, Op.action, wp_getBlock]
  refine ⟨fun hpoisoned => Bool.noConfusion (hlocks.blockchain.symm.trans hpoisoned), fun _ => ?_⟩
  rw [hparent]
  dsimp only
  by_cases hdifficulty : child.head.difficulty = parent.head.difficulty
  · rw [if_pos hdifficulty]
    unfold admitBlock
    rw [Program.run_bind, Effect.wp_bind, Program.run_bind, Effect.wp_bind, wp_checkTxState, hstate]
    refine ⟨fun hpoisoned => Bool.noConfusion (hlocks.blockState.symm.trans hpoisoned), fun _ => ?_⟩
    dsimp only
    cases hcheck : checkTxs C build parentState child.cont.st with
    | error failure =>
        cases failure with
        | rejected =>
            refine hfails ?_
            rintro ⟨state, _, hstate⟩
            cases hcheck.symm.trans hstate
        | overflow =>
            cases build with
            | release => exact (checkTxs_release hcheck).elim
            | overflowChecked => rfl
    | ok state =>
        obtain ⟨⟨tipBlock, tipHeight⟩, htip⟩ := HashMap.containsKey_iff.mp htip
        simp only [if_true, NodeProgram.call, Program.call_bind, Program.run_perform, Op.action,
          Effect.wp_bind, wp_insertBlock]
        refine ⟨fun hpoisoned => Bool.noConfusion (hlocks.blockchain.symm.trans hpoisoned),
          fun _ => ?_⟩
        have hinsert : s.blockchain.value.insert C build child = _ :=
          Blockchain.insert_eq hparent htip
        cases hheight : addU32 build parentHeight 1 with
        | none =>
            -- The height does not fit, which only an overflow check notices.
            rw [hheight] at hinsert
            rw [hinsert]
            cases build with
            | release => cases hheight
            | overflowChecked => rfl
        | some height =>
            rw [hheight] at hinsert
            rw [hinsert]
            refine hpasses state height _ ⟨hdifficulty, hcheck⟩ rfl ?_
            exact Blockchain.tip_of_insert hinsert
  · rw [if_neg hdifficulty]
    apply hfails
    rintro ⟨_, hsame, _⟩
    exact hdifficulty hsame

/-! ## The two loops -/

namespace Scanning

variable {before gained : List H256} {loop : BlocksLoop} {i : Nat}

/-- The entry that the loops look at was gained. -/
theorem getElem_mem (h : Scanning before gained loop i) (hn : loop.n < loop.newBlocks.length) :
    loop.newBlocks[loop.n] ∈ gained := by
  have hbegun := h.begun
  simp only [h.newBlocks, List.getElem_append_right hbegun, List.getElem_mem]

theorem compared (h : Scanning before gained loop i) : Compared (· ∈ gained) loop i :=
  ⟨h.position, h.scanned, h.waiting⟩

/-- The loops ran on without a new entry. -/
theorem of_compared {loop' : BlocksLoop} {k : Nat} (h : Scanning before gained loop i)
    (hcompared : Compared (· ∈ gained) loop' k) (hnewBlocks : loop'.newBlocks = loop.newBlocks)
    (hn : loop.n ≤ loop'.n) : Scanning before gained loop' k :=
  ⟨hnewBlocks.trans h.newBlocks, h.begun.trans hn, hcompared.position, hcompared.scanned,
    hcompared.waiting⟩

theorem push (h : Scanning before gained loop i) (hn : loop.n < loop.newBlocks.length)
    (hash : H256) :
    Scanning before (gained ++ [hash]) { loop with newBlocks := loop.newBlocks ++ [hash] } i := by
  have hpushed : Compared (· ∈ gained ++ [hash])
      { loop with newBlocks := loop.newBlocks ++ [hash] } i := by
    apply h.compared.push (Or.inr hn)
    intro parent hparent
    exact (List.mem_append.mp hparent).imp_right List.mem_singleton.mp
  refine ⟨?_, h.begun, hpushed.position, hpushed.scanned, hpushed.waiting⟩
  change loop.newBlocks ++ [hash] = before ++ (gained ++ [hash])
  rw [h.newBlocks, List.append_assoc]

theorem erase (h : Scanning before gained loop i) (hi : i < loop.orphanBlocks.length) :
    Scanning before gained { loop with orphanBlocks := loop.orphanBlocks.eraseIdx i } i :=
  h.of_compared (h.compared.erase hi) rfl (Nat.le_refl _)

theorem skip (h : Scanning before gained loop i) (hn : loop.n < loop.newBlocks.length)
    (hi : i < loop.orphanBlocks.length)
    (hparent : loop.orphanBlocks[i].head.parent ≠ loop.newBlocks[loop.n]) :
    Scanning before gained loop (i + 1) :=
  h.of_compared (h.compared.skip hn hi hparent) rfl (Nat.le_refl _)

theorem next (h : Scanning before gained loop i) (hn : loop.n < loop.newBlocks.length)
    (hi : ¬ i < loop.orphanBlocks.length) :
    Scanning before gained { loop with n := loop.n + 1 } 0 :=
  h.of_compared (h.compared.next hn hi) rfl (Nat.le_succ _)

end Scanning

namespace CascadeInvariant

variable {start : Shared} {before : List H256} {inserted : List Block} {loop : BlocksLoop} {i : Nat}

/-- The first step of the cascade, right after the block was stored. -/
theorem begin {height : UInt32} {chain : Blockchain} {orphans : List Block} (hlocks : Unpoisoned s)
    (hblocks : chain.blocks = s.blockchain.value.blocks.insert (block.hash C) (block, height))
    (htip : chain.blocks.containsKey chain.tip = true) :
    CascadeInvariant C build block state orphans s before []
      ⟨orphans, before ++ [block.hash C], before.length⟩ 0
      (s.put (block.hash C) state chain) := by
  refine ⟨⟨hlocks.blockchain, hlocks.blockState⟩, htip, fun stored hmem => ?_, fun hash hne => ?_,
    ⟨rfl, Nat.le_refl _, ?_, List.forall_mem_nil _, fun orphan _ hparent => ?_⟩, .refl _,
    List.forall_mem_nil _, List.nodup_nil, fun earlier orphan later heq => ?_,
    fun orphan hmem hlost => absurd hmem hlost⟩
  · obtain rfl := List.mem_singleton.mp hmem
    refine ⟨height, state, ?_, .block⟩
    rw [Shared.entry_put _ _ hblocks, if_pos rfl]
  · rw [List.map_singleton, List.mem_singleton] at hne
    change chain.blocks.get hash = _ ∧ (s.blockState.value.insert (block.hash C) state).get hash = _
    rw [hblocks, HashMap.get_insert_ne hne, HashMap.get_insert_ne hne]
    exact ⟨rfl, rfl⟩
  · exact List.length_append ▸ Nat.le_add_right _ _
  · change orphan.head.parent ∈ (before ++ [block.hash C]).drop before.length
    rw [List.drop_left]
    exact hparent
  · exact absurd heq.symm (List.append_ne_nil_of_right_ne_nil _ (List.cons_ne_nil _ _))

theorem mem_orphans
    (h : CascadeInvariant C build block state orphans start before inserted loop i s)
    (hi : i < loop.orphanBlocks.length) : loop.orphanBlocks[i] ∈ orphans :=
  h.order.subset (List.getElem_mem hi)

theorem mem_eraseIdx (hdistinct : ((block :: orphans).map (Block.hash C)).Nodup)
    (h : CascadeInvariant C build block state orphans start before inserted loop i s)
    (hi : i < loop.orphanBlocks.length) {orphan : Block} :
    orphan ∈ loop.orphanBlocks.eraseIdx i ↔
      orphan ≠ loop.orphanBlocks[i] ∧ orphan ∈ loop.orphanBlocks := by
  have hnodup : loop.orphanBlocks.Nodup :=
    (List.Nodup.of_map _ (List.nodup_cons.mp hdistinct).2).sublist h.order
  rw [← hnodup.erase_getElem i hi, hnodup.mem_erase_iff]

/-- An orphan in the buffer has another hash than every inserted block. -/
theorem hash_not_mem (hdistinct : ((block :: orphans).map (Block.hash C)).Nodup)
    (h : CascadeInvariant C build block state orphans start before inserted loop i s)
    {orphan : Block} (hmem : orphan ∈ loop.orphanBlocks) :
    orphan.hash C ∉ (block :: inserted).map (Block.hash C) := by
  obtain ⟨hblock, horphans⟩ := List.nodup_cons.mp hdistinct
  intro hgained
  obtain ⟨stored, hstored, heq⟩ := List.mem_map.mp hgained
  rcases List.mem_cons.mp hstored with rfl | hstored
  · exact hblock (heq ▸ List.mem_map_of_mem (h.order.subset hmem))
  · obtain ⟨hstored, hgone⟩ := h.taken stored hstored
    obtain rfl := List.inj_on_of_nodup_map horphans hstored (h.order.subset hmem) heq
    exact hgone hmem

/-- The parent that the loops look for is stored with a state. -/
theorem parent_entry
    (h : CascadeInvariant C build block state orphans start before inserted loop i s)
    (hn : loop.n < loop.newBlocks.length) :
    ∃ parent height parentState, parent.hash C = loop.newBlocks[loop.n] ∧
      s.entry loop.newBlocks[loop.n] = some ⟨parent, height, parentState⟩ ∧
      Connected C build block state orphans parent parentState := by
  obtain ⟨parent, hparent, hhash⟩ := List.mem_map.mp (h.scan.getElem_mem hn)
  obtain ⟨height, parentState, hentry, hconnected⟩ := h.entries parent hparent
  exact ⟨parent, height, parentState, hhash, hhash ▸ hentry, hconnected⟩

/-- A child that fails a check leaves the buffer. -/
theorem refuse (hdistinct : ((block :: orphans).map (Block.hash C)).Nodup)
    (h : CascadeInvariant C build block state orphans start before inserted loop i s)
    (hi : i < loop.orphanBlocks.length)
    (hrefused : Refused C build block state orphans loop.orphanBlocks[i]) :
    CascadeInvariant C build block state orphans start before inserted
      { loop with orphanBlocks := loop.orphanBlocks.eraseIdx i } i s := by
  refine ⟨h.locks, h.tip, h.entries, h.others, h.scan.erase hi,
    (List.eraseIdx_sublist _ _).trans h.order, fun orphan hmem => ?_, h.once, h.parentFirst,
    fun orphan hmem hlost => ?_⟩
  · exact (h.taken orphan hmem).imp_right fun hgone hkept => hgone (List.mem_of_mem_eraseIdx hkept)
  · rw [h.mem_eraseIdx hdistinct hi] at hlost
    by_cases heq : orphan = loop.orphanBlocks[i]
    · exact Or.inr (heq ▸ hrefused)
    · exact h.lost orphan hmem fun hkept => hlost ⟨heq, hkept⟩

/-- A child that passes leaves the buffer, is stored and becomes a parent to look for. -/
theorem insert (hdistinct : ((block :: orphans).map (Block.hash C)).Nodup)
    (h : CascadeInvariant C build block state orphans start before inserted loop i s)
    (hn : loop.n < loop.newBlocks.length) (hi : i < loop.orphanBlocks.length)
    (hparent : loop.orphanBlocks[i].head.parent = loop.newBlocks[loop.n]) {next : State}
    {height : UInt32} {chain : Blockchain}
    (hconnected : Connected C build block state orphans loop.orphanBlocks[i] next)
    (hblocks : chain.blocks = s.blockchain.value.blocks.insert (loop.orphanBlocks[i].hash C)
      (loop.orphanBlocks[i], height))
    (htip : chain.blocks.containsKey chain.tip = true) :
    CascadeInvariant C build block state orphans start before (inserted ++ [loop.orphanBlocks[i]])
      { loop with
        orphanBlocks := loop.orphanBlocks.eraseIdx i
        newBlocks := loop.newBlocks ++ [loop.orphanBlocks[i].hash C] } i
      (s.put (loop.orphanBlocks[i].hash C) next chain) := by
  have hnew := h.hash_not_mem hdistinct (List.getElem_mem hi)
  have hgained : (block :: (inserted ++ [loop.orphanBlocks[i]])).map (Block.hash C) =
      (block :: inserted).map (Block.hash C) ++ [loop.orphanBlocks[i].hash C] := by
    rw [← List.cons_append, List.map_append, List.map_singleton]
  have hkept : ∀ orphan, orphan ∉ loop.orphanBlocks.eraseIdx i ↔
      orphan = loop.orphanBlocks[i] ∨ orphan ∉ loop.orphanBlocks := by
    intro orphan
    rw [h.mem_eraseIdx hdistinct hi, not_and_or, not_not]
  refine ⟨⟨h.locks.blockchain, h.locks.blockState⟩, htip, fun stored hmem => ?_,
    fun hash hne => ?_, ?_, (List.eraseIdx_sublist _ _).trans h.order, fun orphan hmem => ?_, ?_,
    ?_, fun orphan hmem hlost => ?_⟩
  · -- The new entry is the only one under its hash.
    rw [Shared.entry_put _ _ hblocks]
    rw [← List.cons_append] at hmem
    rcases List.mem_append.mp hmem with hmem | hmem
    · have hne : stored.hash C ≠ loop.orphanBlocks[i].hash C := by
        intro heq
        exact hnew (heq ▸ List.mem_map_of_mem hmem)
      rw [if_neg hne]
      exact h.entries stored hmem
    · obtain rfl := List.mem_singleton.mp hmem
      exact ⟨height, next, if_pos rfl, hconnected⟩
  · rw [hgained, List.mem_append, List.mem_singleton, not_or] at hne
    change chain.blocks.get hash = _ ∧
      (s.blockState.value.insert (loop.orphanBlocks[i].hash C) next).get hash = _
    rw [hblocks, HashMap.get_insert_ne hne.2, HashMap.get_insert_ne hne.2]
    exact h.others hash hne.1
  · rw [hgained]
    exact (h.scan.push hn _).erase hi
  · refine (List.mem_append.mp hmem).elim (fun hmem => ?_) fun hmem => ?_
    · exact (h.taken orphan hmem).imp_right fun hgone => (hkept orphan).mpr (Or.inr hgone)
    · obtain rfl := List.mem_singleton.mp hmem
      exact ⟨h.mem_orphans hi, (hkept _).mpr (Or.inl rfl)⟩
  · refine List.nodup_append.mpr ⟨h.once, List.nodup_singleton _, fun orphan hmem last hlast => ?_⟩
    obtain rfl := List.mem_singleton.mp hlast
    rintro rfl
    exact (h.taken _ hmem).2 (List.getElem_mem hi)
  · apply forall_entry_concat h.parentFirst
    rw [hparent]
    exact h.scan.getElem_mem hn
  · -- What is lost is the orphan that was inserted, or was lost before.
    rcases (hkept orphan).mp hlost with rfl | hlost
    · exact Or.inl (List.mem_append_right _ (List.mem_singleton_self _))
    · exact (h.lost orphan hmem hlost).imp_left (List.mem_append_left _)

/-- After the last step everything that is connected has been inserted. -/
theorem cascaded (hdistinct : ((block :: orphans).map (Block.hash C)).Nodup)
    (hawaits : ∀ orphan ∈ orphans,
      start.blockchain.value.blocks.containsKey orphan.head.parent = false)
    (h : CascadeInvariant C build block state orphans start before inserted loop i s)
    (hend : ¬ loop.n < loop.newBlocks.length) {n : Nat} :
    Cascaded C build block state start ⟨orphans, before, n⟩ inserted loop s := by
  obtain ⟨hblock, horphans⟩ := List.nodup_cons.mp hdistinct
  have hnotBlock : ∀ orphan ∈ orphans, orphan ≠ block := by
    rintro orphan hmem rfl
    exact hblock (List.mem_map_of_mem hmem)
  have hwaits := h.scan.compared.not_stored hend
  -- By induction on the connection: the parent was inserted, so the scan has met the orphan.
  have hcomplete : ∀ {orphan : Block} {next : State},
      Connected C build block state orphans orphan next → orphan ∈ block :: inserted := by
    intro orphan next hconnected
    induction hconnected with
    | block => exact List.mem_cons_self
    | @orphan parent orphan parentState next hconnected hmem hparent hpasses ih =>
        have hgone : orphan ∉ loop.orphanBlocks := by
          intro hkept
          exact hwaits orphan hkept (hparent ▸ List.mem_map_of_mem ih)
        rcases h.lost orphan hmem hgone with hinserted | ⟨other, _, hother, hhash, hfails⟩
        · exact List.mem_cons_of_mem _ hinserted
        · obtain ⟨rfl, rfl⟩ := hconnected.unique hdistinct hother (hparent.symm.trans hhash)
          exact absurd ⟨next, hpasses⟩ hfails
  refine ⟨fun orphan => ⟨fun hmem => ?_, ?_⟩, h.entries, h.others, h.scan.newBlocks, ?_,
    h.parentFirst, fun orphan hmem => ⟨h.lost orphan hmem, ?_⟩, h.order, fun orphan hmem => ?_,
    Nat.le_antisymm h.scan.position (Nat.not_lt.mp hend)⟩
  · obtain ⟨_, next, _, hconnected⟩ := h.entries orphan (List.mem_cons_of_mem _ hmem)
    exact ⟨(h.taken orphan hmem).1, next, hconnected⟩
  · rintro ⟨hmem, next, hconnected⟩
    exact (List.mem_cons.mp (hcomplete hconnected)).resolve_left (hnotBlock orphan hmem)
  · rw [List.map_cons, List.nodup_cons]
    refine ⟨fun hmem => ?_, h.once.map_on fun orphan hmem other hother => ?_⟩
    · obtain ⟨orphan, hmem, hhash⟩ := List.mem_map.mp hmem
      exact hblock (hhash ▸ List.mem_map_of_mem (h.taken orphan hmem).1)
    · exact List.inj_on_of_nodup_map horphans (h.taken orphan hmem).1 (h.taken other hother).1
  · rintro (hinserted | ⟨parent, _, hconnected, hparent, _⟩) hkept
    · exact (h.taken orphan hinserted).2 hkept
    · exact hwaits orphan hkept (hparent ▸ List.mem_map_of_mem (hcomplete hconnected))
  · rw [HashMap.containsKey_eq_false_iff, (h.others _ (hwaits orphan hmem)).1,
      ← HashMap.containsKey_eq_false_iff]
    exact hawaits orphan (h.order.subset hmem)

end CascadeInvariant

/-- The cascade ends with nothing left to look for. -/
theorem releaseOrphans_cascades {start : Shared} {before : List H256} {inserted : List Block}
    (hdistinct : ((block :: orphans).map (Block.hash C)).Nodup) (loop : BlocksLoop) (i : Nat)
    (h : CascadeInvariant C build block state orphans start before inserted loop i s) :
    ((releaseOrphans C build loop i).run C build).wp
      (fun loop' s' => ∃ inserted' i',
        CascadeInvariant C build block state orphans start before inserted' loop' i' s' ∧
          ¬ loop'.n < loop'.newBlocks.length)
      (fun _ _ => build = .overflowChecked) s := by
  induction loop, i using releaseOrphans.induct C generalizing inserted s with
  | case1 loop i hn hi blockToUnorphan hparent orphanBlocks =>
      rename_i ihAdmitted ihDropped
      rw [releaseOrphans, dif_pos hn, dif_pos hi]
      simp only
      rw [if_pos hparent]
      obtain ⟨parent, height, parentState, hhash, hentry, hconnected⟩ := h.parent_entry hn
      rw [← hparent] at hentry ⊢
      have hchild := hparent.trans hhash.symm
      apply admitChild_wp h.locks h.tip hentry
      · intro next height chain hpasses hblocks htip
        exact ihAdmitted (h.insert hdistinct hn hi hparent
          (.orphan hconnected (h.mem_orphans hi) hchild hpasses) hblocks htip)
      · intro hfails
        exact ihDropped (h.refuse hdistinct hi ⟨parent, parentState, hconnected, hchild, hfails⟩)
  | case2 loop i hn hi blockToUnorphan hparent =>
      rename_i ih
      rw [releaseOrphans, dif_pos hn, dif_pos hi]
      simp only
      rw [if_neg hparent]
      exact ih { h with scan := h.scan.skip hn hi hparent }
  | case3 loop i hn hi ih =>
      rw [releaseOrphans, dif_pos hn, dif_neg hi]
      exact ih { h with scan := h.scan.next hn hi }
  | case4 loop i hn =>
      rw [releaseOrphans, dif_neg hn]
      exact ⟨inserted, i, h, hn⟩

/-- A block that passes the direct checks in a reachable memory is stored, and the cascade
releases what is connected to it. Only the overflow of a sum can stop it, in a build that
checks for that. -/
theorem processBlock_cascades (C : Crypto) (build : Build) (geneLoop : GeneLoop)
    (icoKey : Ed25519KeyPair) (workers requests : Nat) (node : Node workers requests)
    (hreach : (nodeMachine C build geneLoop).Reachable (fun _ _ _ => True)
      (Node.start C icoKey workers requests) node)
    (hlocks : Unpoisoned node.shared) (peer : PeerId) (message : Message) (loop : BlocksLoop)
    (block parent : Block) (parentHeight : UInt32) (parentState state : State)
    (headers : Set Header) (hfree : Set.InjOn (Header.hash C) headers)
    (hheaders : ∀ other ∈ block :: loop.orphanBlocks, other.head ∈ headers)
    (hscanned : loop.n = loop.newBlocks.length)
    (hdistinct : (loop.orphanBlocks.map (Block.hash C)).Nodup)
    (hawaits : ∀ orphan ∈ loop.orphanBlocks,
      node.shared.blockchain.value.blocks.containsKey orphan.head.parent = false)
    (hwork : block.hash C ≤ block.head.difficulty)
    (hnew : node.shared.blockchain.value.blocks.containsKey (block.hash C) = false)
    (hentry : node.shared.entry block.head.parent = some ⟨parent, parentHeight, parentState⟩)
    (hpasses : PassesOn C build parent parentState block state) :
    ((processBlock C build peer message loop block).run C build).wp
      (fun loop' s' => ∃ inserted,
        Cascaded C build block state node.shared loop inserted loop' s')
      (fun _ _ => build = .overflowChecked) node.shared := by
  obtain ⟨hinv, _⟩ := node_chainInvariant (fun _ => True) (fun _ => True) (fun _ _ => id)
    (fun _ _ _ _ => ⟨fun _ _ => trivial, fun _ _ => trivial⟩) hreach
  have hparent := HashMap.containsKey_of_get (Shared.entry_eq_some.mp hentry).1
  have hdistinct' : ((block :: loop.orphanBlocks).map (Block.hash C)).Nodup := by
    refine List.nodup_cons.mpr ⟨fun hmem => ?_, hdistinct⟩
    obtain ⟨orphan, hmem, hhash⟩ := List.mem_map.mp hmem
    -- An orphan with the hash of the new block has the stored parent of the new block.
    have hheads := hfree (hheaders orphan (List.mem_cons_of_mem _ hmem))
      (hheaders block List.mem_cons_self) hhash
    rw [← hheads, hawaits orphan hmem] at hparent
    cases hparent
  simp only [processBlock]
  rw [if_pos hwork]
  refine containsBlock_usable hlocks.blockchain ?_
  rw [hnew]
  refine containsBlock_usable hlocks.blockchain ?_
  rw [hparent]
  refine admitChild_wp hlocks hinv.tip hentry ?_ ?_
  · intro next height chain hnext hblocks htip
    obtain rfl : state = next := Except.ok.inj (hpasses.2.symm.trans hnext.2)
    have hbegin : CascadeInvariant C build block state loop.orphanBlocks node.shared loop.newBlocks
        [] _ 0 _ := CascadeInvariant.begin hlocks hblocks htip
    rw [← hscanned] at hbegin
    refine Effect.wp_mono (releaseOrphans_cascades hdistinct' _ _ hbegin) ?_ fun _ _ h => h
    rintro loop' s' ⟨inserted, i, hend, hn⟩
    exact ⟨inserted, hend.cascaded hdistinct' hawaits hn⟩
  · intro hfails
    exact absurd ⟨state, hpasses⟩ hfails

/-- A block without transactions. -/
def emptyOn (parent : H256) : Block := ⟨⟨parent, 0, Blockchain.genesisDifficulty, 0, .hex 0⟩, ⟨[]⟩⟩

/-- A block that spends one coin twice. -/
def doubleSpend : Block :=
  ⟨⟨uncommittedBlock.hash .sample, 1, Blockchain.genesisDifficulty, 0, .hex 0⟩,
    ⟨[moveInitialCoin, moveInitialCoin]⟩⟩

/-- Two orphans that are connected to `uncommittedBlock`, the second one first, a refused one, a
child of that, and one with an unknown parent. -/
def waitingOrphans : BlocksLoop where
  orphanBlocks := [emptyOn (childBlock.hash .sample), emptyOn (doubleSpend.hash .sample),
    childBlock, doubleSpend, emptyOn (.hex 1)]

theorem processBlock_cascades_waitingOrphans :
    ((processBlock .sample .release 0 (.blocks [uncommittedBlock]) waitingOrphans
      uncommittedBlock).run .sample .release).wp
      (fun loop' s' => loop'.orphanBlocks = [emptyOn (doubleSpend.hash .sample), emptyOn (.hex 1)] ∧
        ∃ inserted, Cascaded .sample .release uncommittedBlock
          (State.new .sample Crypto.sampleKey) (Shared.initial .sample Crypto.sampleKey)
          waitingOrphans inserted loop' s')
      (fun _ _ => Build.release = .overflowChecked) (Shared.initial .sample Crypto.sampleKey) := by
  let headers : List Header :=
    (uncommittedBlock :: waitingOrphans.orphanBlocks).map Block.head
  have hfree : Set.InjOn (Header.hash .sample) {header | header ∈ headers} := by
    have hdistinct : ∀ left ∈ headers, ∀ right ∈ headers,
        left.hash .sample = right.hash .sample → left = right := by decide +kernel
    exact fun left hleft right hright heq => hdistinct left hleft right hright heq
  have hremaining : ((processBlock .sample .release 0 (.blocks [uncommittedBlock]) waitingOrphans
      uncommittedBlock).run .sample .release).wp
      (fun loop' _ => loop'.orphanBlocks =
        [emptyOn (doubleSpend.hash .sample), emptyOn (.hex 1)])
      (fun _ _ => False) (Shared.initial .sample Crypto.sampleKey) := by
    decide +kernel
  refine Effect.wp_and hremaining (processBlock_cascades .sample .release sampleGeneLoop
    Crypto.sampleKey 1 0 (Node.start .sample Crypto.sampleKey 1 0) .start ⟨rfl, rfl⟩ 0
    (.blocks [uncommittedBlock]) waitingOrphans uncommittedBlock Blockchain.genesis 0
    (State.new .sample Crypto.sampleKey) (State.new .sample Crypto.sampleKey)
    {header | header ∈ headers} hfree ?_ rfl ?_ ?_ ?_ ?_ ?_ ⟨rfl, rfl⟩)
    (fun _ _ hremaining hcascaded => ⟨hremaining, hcascaded⟩) fun _ _ hfail _ => hfail.elim
  · exact fun other hmem => List.mem_map_of_mem hmem
  · decide +kernel
  · decide +kernel
  · decide +kernel
  · decide +kernel
  · exact Shared.entry_eq_some.mpr
      ⟨HashMap.get_insert_self _ _ _, HashMap.get_insert_self _ _ _⟩

end BitcoinClient
