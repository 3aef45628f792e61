import BitcoinClient.Network.Admission

/-! # Catching up with another node

A node that follows another one has a part of its blocks, closed under parents. A block
whose parent it misses makes it ask for the parent. The requests go down the chain while the
blocks wait in the orphan buffer, each for the one after it (`Descent`), and once a parent
is stored the cascade admits them all (`releaseOrphans_follows`).
-/

namespace BitcoinClient

section Definitions

variable (C : Crypto) (build : Build)

/-- The block with this hash and its ancestors are stored and passed the checks. -/
inductive Checked (source : Shared) : H256 → Entry → Prop
  | genesis {entry : Entry} : source.entry (Blockchain.genesis.hash C) = some entry →
      Checked source (Blockchain.genesis.hash C) entry
  | child {block : Block} {parent entry : Entry} : Checked source block.head.parent parent →
      source.entry (block.hash C) = some entry → block.hash C ≤ block.head.difficulty →
      (admission C build).extend block parent = some entry → Checked source (block.hash C) entry

/-- The node has blocks and states of `source` only, with the parents of all of them. -/
structure Follows (source s : Shared) : Prop where
  blockchain : s.blockchain.poisoned = false
  blockState : s.blockState.poisoned = false
  entries : ∀ hash, s.blockchain.value.blocks.containsKey hash = true →
    ∃ entry, s.entry hash = some entry ∧ source.entry hash = some entry
  genesis : s.blockchain.value.blocks.containsKey (Blockchain.genesis.hash C) = true
  closed : ∀ hash entry, s.entry hash = some entry → hash ≠ Blockchain.genesis.hash C →
    s.blockchain.value.blocks.containsKey entry.block.head.parent = true
  tip : s.blockchain.value.blocks.containsKey s.blockchain.value.tip = true

/-- The hashes of a block of `source` and of its ancestors. -/
inductive Ancestor (source : Shared) (hash : H256) : H256 → Prop
  | refl : Ancestor source hash hash
  | parent {other : H256} {entry : Entry} : Ancestor source hash other →
      other ≠ Blockchain.genesis.hash C → source.entry other = some entry →
      Ancestor source hash entry.block.head.parent

/-- The block passes the checks on its parent in `source`, and is not stored in `s`. -/
structure Missing (source s : Shared) (block : Block) : Prop where
  work : block.hash C ≤ block.head.difficulty
  passes : ∃ parent entry, source.entry block.head.parent = some parent ∧
    source.entry (block.hash C) = some entry ∧ (admission C build).extend block parent = some entry
  missing : s.blockchain.value.blocks.containsKey (block.hash C) = false

/-- The orphans lead from the block `target` down to the block with the given hash, which
is the parent of the last one. -/
inductive Descent (target : H256) : List Block → H256 → Prop
  | refl : Descent target [] target
  | parent {orphanBlocks : List Block} {block : Block} :
      Descent target orphanBlocks (block.hash C) →
      Descent target (orphanBlocks ++ [block]) block.head.parent

/-- So many blocks are missing in `s`, counted from the one with this hash down. -/
inductive Lag (source s : Shared) : H256 → Nat → Prop
  | stored {hash : H256} : s.blockchain.value.blocks.containsKey hash = true → Lag source s hash 0
  | missing {block : Block} {count : Nat} : Missing C build source s block →
      Lag source s block.head.parent count → Lag source s (block.hash C) (count + 1)

end Definitions

variable {C : Crypto} {build : Build} {source s : Shared}

theorem Checked.entry {hash : H256} {entry : Entry} (h : Checked C build source hash entry) :
    source.entry hash = some entry := by
  cases h with
  | genesis hentry => exact hentry
  | child _ hentry _ _ => exact hentry

/-- What an admission produces. -/
theorem admission_extend_eq_some {block : Block} {parent entry : Entry} :
    (admission C build).extend block parent = some entry ↔
      block.head.difficulty = parent.block.head.difficulty ∧ ∃ state height,
        checkTxs C build parent.state block.cont.st = .ok state ∧
          addU32 build parent.height 1 = some height ∧ entry = ⟨block, height, state⟩ := by
  constructor
  · intro h
    simp only [admission] at h
    split at h
    next hdifficulty =>
      refine ⟨hdifficulty, ?_⟩
      cases hcheck : checkTxs C build parent.state block.cont.st with
      | error failure =>
          rw [hcheck] at h
          cases h
      | ok state =>
          cases hheight : addU32 build parent.height 1 with
          | none =>
              rw [hcheck, hheight] at h
              cases h
          | some height =>
              rw [hcheck, hheight] at h
              exact ⟨state, height, rfl, rfl, (Option.some.inj h).symm⟩
    next => cases h
  · rintro ⟨hdifficulty, state, height, hcheck, hheight, rfl⟩
    exact admission_extend hdifficulty hcheck hheight

/-- Below a checked block only finitely many blocks are missing. -/
theorem Checked.exists_lag {hash : H256} {entry : Entry} (h : Checked C build source hash entry)
    (hfollows : Follows C source s) : ∃ count, Lag C build source s hash count := by
  induction h with
  | genesis _ => exact ⟨0, .stored hfollows.genesis⟩
  | @child block parent entry hparent hentry hwork hextend ih =>
      cases hstored : s.blockchain.value.blocks.containsKey (block.hash C) with
      | true => exact ⟨0, .stored hstored⟩
      | false =>
          obtain ⟨count, hcount⟩ := ih
          exact ⟨count + 1, .missing ⟨hwork, ⟨parent, entry, hparent.entry, hentry, hextend⟩,
            hstored⟩ hcount⟩

theorem Missing.get {block : Block} (h : Missing C build source s block) :
    ∃ height, source.blockchain.value.blocks.get (block.hash C) = some (block, height) := by
  obtain ⟨_, _, _, hentry, hextend⟩ := h.passes
  obtain ⟨_, _, height, _, _, rfl⟩ := admission_extend_eq_some.mp hextend
  exact ⟨height, (Shared.entry_eq_some.mp hentry).1⟩

theorem Missing.of_blockchain {s' : Shared} {block : Block} (h : Missing C build source s block)
    (hsame : s'.blockchain = s.blockchain) : Missing C build source s' block :=
  ⟨h.work, h.passes, hsame ▸ h.missing⟩

theorem Missing.unique {block other : Block} (h : Missing C build source s block)
    (h' : Missing C build source s other) (hhash : block.hash C = other.hash C) :
    block = other := by
  obtain ⟨_, hget⟩ := h.get
  obtain ⟨_, hget'⟩ := h'.get
  rw [hhash] at hget
  exact (Prod.mk.inj (Option.some.inj (hget.symm.trans hget'))).1

theorem Lag.of_blockchain {s' : Shared} {hash : H256} {count : Nat}
    (h : Lag C build source s hash count) (hsame : s'.blockchain = s.blockchain) :
    Lag C build source s' hash count := by
  induction h with
  | stored hstored => exact .stored (hsame ▸ hstored)
  | missing hmissing _ ih => exact .missing (hmissing.of_blockchain hsame) ih

/-- A block that lags behind is stored, or missing above its parent. -/
theorem Lag.cases {hash : H256} {count : Nat} (h : Lag C build source s hash count) :
    s.blockchain.value.blocks.containsKey hash = true ∨
      ∃ block less, hash = block.hash C ∧ count = less + 1 ∧ Missing C build source s block ∧
        Lag C build source s block.head.parent less := by
  cases h with
  | stored hstored => exact Or.inl hstored
  | missing hmissing hlag => exact Or.inr ⟨_, _, rfl, rfl, hmissing, hlag⟩

theorem Lag.unique {hash : H256} {count count' : Nat} (h : Lag C build source s hash count)
    (h' : Lag C build source s hash count') : count = count' := by
  induction h generalizing count' with
  | stored hstored =>
      cases h' with
      | stored _ => rfl
      | missing hmissing _ => exact Bool.noConfusion (hmissing.missing.symm.trans hstored)
  | @missing block count hmissing _ ih =>
      generalize hhash : block.hash C = hash at h'
      cases h' with
      | stored hstored =>
          rw [← hhash, hmissing.missing] at hstored
          cases hstored
      | @missing other _ hother hlag =>
          obtain rfl := hmissing.unique hother hhash
          rw [ih hlag]

/-- The orphans of a descent lag further behind than the block that they wait for. -/
theorem Descent.exists_lag {target hash : H256} {orphanBlocks : List Block} {count : Nat}
    (h : Descent C target orphanBlocks hash)
    (hmissing : ∀ orphan ∈ orphanBlocks, Missing C build source s orphan)
    (hlag : Lag C build source s hash count) :
    ∀ orphan ∈ orphanBlocks, ∃ more > count, Lag C build source s (orphan.hash C) more := by
  induction h generalizing count with
  | refl => exact List.forall_mem_nil _
  | @parent orphanBlocks block _ ih =>
      obtain ⟨hmissingRest, hmissingLast⟩ := List.forall_mem_append.mp hmissing
      have hblock := Lag.missing (hmissingLast block (List.mem_singleton_self _)) hlag
      intro orphan hmem
      rcases List.mem_append.mp hmem with hmem | hmem
      · obtain ⟨more, hmore, hlagMore⟩ := ih hmissingRest hblock orphan hmem
        exact ⟨more, Nat.lt_of_succ_lt hmore, hlagMore⟩
      · obtain rfl := List.mem_singleton.mp hmem
        exact ⟨count + 1, Nat.lt_succ_self count, hblock⟩

/-- No hash occurs twice in a descent. -/
theorem Descent.distinct {target hash : H256} {orphanBlocks : List Block} {count : Nat}
    (h : Descent C target orphanBlocks hash)
    (hmissing : ∀ orphan ∈ orphanBlocks, Missing C build source s orphan)
    (hlag : Lag C build source s hash count) : (orphanBlocks.map (Block.hash C)).Nodup := by
  induction h generalizing count with
  | refl => exact List.nodup_nil
  | @parent orphanBlocks block hrest ih =>
      obtain ⟨hmissingRest, hmissingLast⟩ := List.forall_mem_append.mp hmissing
      have hblock := Lag.missing (hmissingLast block (List.mem_singleton_self _)) hlag
      rw [List.map_append, List.nodup_append]
      refine ⟨ih hmissingRest hblock, List.nodup_singleton _, fun other hmem last hlast => ?_⟩
      obtain ⟨orphan, horphan, rfl⟩ := List.mem_map.mp hmem
      obtain rfl := List.mem_singleton.mp hlast
      intro heq
      obtain ⟨more, hmore, hlagMore⟩ := hrest.exists_lag hmissingRest hblock orphan horphan
      rw [heq] at hlagMore
      exact Nat.lt_irrefl _ (hblock.unique hlagMore ▸ hmore)

/-- A node that follows stores all ancestors of what it stores. -/
theorem Follows.ancestor {hash other : H256} (h : Follows C source s)
    (hstored : s.blockchain.value.blocks.containsKey hash = true)
    (hancestor : Ancestor C source hash other) :
    s.blockchain.value.blocks.containsKey other = true := by
  induction hancestor with
  | refl => exact hstored
  | parent _ hne hentry ih =>
      obtain ⟨entry, hown, hsource⟩ := h.entries _ ih
      obtain rfl := Option.some.inj (hsource.symm.trans hentry)
      exact h.closed _ _ hown hne

/-! ## One admission -/

/-- A block of the source is stored on its parent. -/
theorem Follows.put {block parentBlock : Block} {parentHeight height : UInt32}
    {state : State} {chain : Blockchain} (h : Follows C source s)
    (hparent : s.blockchain.value.blocks.get block.head.parent = some (parentBlock, parentHeight))
    (hentry : source.entry (block.hash C) = some ⟨block, height, state⟩)
    (hheight : addU32 build parentHeight 1 = some height)
    (hinsert : s.blockchain.value.insert C build block = .ok chain) :
    Follows C source (s.put (block.hash C) state chain) ∧
      ∀ hash, (s.put (block.hash C) state chain).blockchain.value.blocks.containsKey hash = true ↔
        hash = block.hash C ∨ s.blockchain.value.blocks.containsKey hash = true := by
  obtain ⟨height', _, _, hheight', _, hblocks, -⟩ := Blockchain.insert_height hinsert hparent
  obtain rfl := Option.some.inj (hheight.symm.trans hheight')
  have hcontains : ∀ hash,
      (s.put (block.hash C) state chain).blockchain.value.blocks.containsKey hash = true ↔
        hash = block.hash C ∨ s.blockchain.value.blocks.containsKey hash = true :=
    fun _ => Blockchain.containsKey_of_insert hinsert
  have hentries : ∀ other, (s.put (block.hash C) state chain).entry other =
      if other = block.hash C then some ⟨block, height, state⟩ else s.entry other :=
    fun other => Shared.entry_put _ other hblocks
  refine ⟨⟨h.blockchain, h.blockState, fun hash hstored => ?_, (hcontains _).mpr (Or.inr h.genesis),
    fun hash entry hget hne => ?_, ?_⟩, hcontains⟩
  · rw [hentries]
    by_cases heq : hash = block.hash C
    · rw [if_pos heq, heq]
      exact ⟨_, rfl, hentry⟩
    · rw [if_neg heq]
      exact h.entries hash (((hcontains hash).mp hstored).resolve_left heq)
  · apply (hcontains _).mpr
    rw [hentries] at hget
    by_cases heq : hash = block.hash C
    · rw [if_pos heq] at hget
      obtain rfl := Option.some.inj hget
      exact Or.inr (HashMap.containsKey_of_get hparent)
    · rw [if_neg heq] at hget
      exact Or.inr (h.closed hash entry hget hne)
  · exact Blockchain.tip_of_insert hinsert

/-- The checks on a missing block whose parent is stored all succeed. -/
theorem admitBlock_follows {block : Block} (h : Follows C source s)
    (hmissing : Missing C build source s block)
    (hparent : s.blockchain.value.blocks.containsKey block.head.parent = true) :
    ((admitBlock C build block).run C build).wp
      (fun admitted s' => admitted = true ∧ Follows C source s' ∧ s'.sent = s.sent ∧
        ∀ hash, s'.blockchain.value.blocks.containsKey hash = true ↔
          hash = block.hash C ∨ s.blockchain.value.blocks.containsKey hash = true)
      (fun _ _ => False) s := by
  obtain ⟨parent, entry, hsource, hentry, hextend⟩ := hmissing.passes
  obtain ⟨_, state, height, hcheck, hheight, rfl⟩ := admission_extend_eq_some.mp hextend
  obtain ⟨stored, hstored, hsame⟩ := h.entries _ hparent
  obtain rfl := Option.some.inj (hsame.symm.trans hsource)
  obtain ⟨hget, hstate⟩ := Shared.entry_eq_some.mp hstored
  obtain ⟨⟨tipBlock, tipHeight⟩, htip⟩ := HashMap.containsKey_iff.mp h.tip
  unfold admitBlock
  rw [NodeProgram.run, Program.run_bind, Effect.wp_bind, wp_checkTxState, hstate]
  refine ⟨fun hpoisoned => Bool.noConfusion (h.blockState.symm.trans hpoisoned), fun _ => ?_⟩
  simp only [hcheck, if_true, NodeProgram.call, Program.call_bind, Program.run_perform, Op.action,
    Effect.wp_bind, wp_insertBlock]
  refine ⟨fun hpoisoned => Bool.noConfusion (h.blockchain.symm.trans hpoisoned), fun _ => ?_⟩
  have hinsert : s.blockchain.value.insert C build block = _ := Blockchain.insert_eq hget htip
  rw [hheight] at hinsert
  rw [hinsert]
  obtain ⟨hfollows, hcontains⟩ := h.put hget hentry hheight hinsert
  exact ⟨rfl, hfollows, rfl, hcontains⟩

/-- The look at the parent and the admission, which both copies of the checks share. -/
theorem admitChild_follows {block : Block} {next : Bool → NodeProgram BlocksLoop}
    {post : BlocksLoop → Shared → Prop} (h : Follows C source s)
    (hmissing : Missing C build source s block)
    (hparent : s.blockchain.value.blocks.containsKey block.head.parent = true)
    (hnext : ∀ s', Follows C source s' → s'.sent = s.sent →
      (∀ hash, s'.blockchain.value.blocks.containsKey hash = true ↔
        hash = block.hash C ∨ s.blockchain.value.blocks.containsKey hash = true) →
      ((next true).run C build).wp post (fun _ _ => False) s') :
    (NodeProgram.run C build do
      let parent ← NodeProgram.call (.getBlock block.head.parent)
      if block.head.difficulty = parent.1.head.difficulty then
        let admitted ← admitBlock C build block
        next admitted
      else
        next false).wp post (fun _ _ => False) s := by
  obtain ⟨parent, entry, hsource, _, hextend⟩ := hmissing.passes
  obtain ⟨hdifficulty, _⟩ := admission_extend_eq_some.mp hextend
  obtain ⟨stored, hstored, hsame⟩ := h.entries _ hparent
  obtain rfl := Option.some.inj (hsame.symm.trans hsource)
  obtain ⟨hget, _⟩ := Shared.entry_eq_some.mp hstored
  simp only [NodeProgram.run, NodeProgram.call, Program.call_bind, Program.run_perform,
    Effect.wp_bind, Op.action, wp_getBlock, hget]
  refine ⟨fun hpoisoned => Bool.noConfusion (h.blockchain.symm.trans hpoisoned), fun _ => ?_⟩
  rw [if_pos hdifficulty, Program.run_bind, Effect.wp_bind]
  refine Effect.wp_mono (admitBlock_follows h hmissing hparent) ?_ fun _ _ h => h
  rintro admitted s' ⟨rfl, hfollows, hsent, hcontains⟩
  exact hnext s' hfollows hsent hcontains

/-! ## The cascade -/

/-- The inner loop passes over blocks with other parents. -/
theorem releaseOrphans_scan {loop : BlocksLoop} (hn : loop.n < loop.newBlocks.length) {i : Nat}
    (hi : i ≤ loop.orphanBlocks.length)
    (hskip : ∀ block ∈ loop.orphanBlocks.take i, block.head.parent ≠ loop.newBlocks[loop.n]) :
    releaseOrphans C build loop 0 = releaseOrphans C build loop i := by
  induction i with
  | zero => rfl
  | succ i ih =>
      have hlt : i < loop.orphanBlocks.length := hi
      rw [List.take_succ_eq_append_getElem hlt, List.forall_mem_append] at hskip
      rw [ih hlt.le hskip.1]
      conv_lhs => rw [releaseOrphans, dif_pos hn, dif_pos hlt]
      exact if_neg (hskip.2 _ (List.mem_singleton_self _))

/-- At its end the outer loop goes on with the next new block. -/
theorem releaseOrphans_next {loop : BlocksLoop} (hn : loop.n < loop.newBlocks.length) {i : Nat}
    (hi : loop.orphanBlocks.length ≤ i) :
    releaseOrphans C build loop i = releaseOrphans C build { loop with n := loop.n + 1 } 0 := by
  conv_lhs => rw [releaseOrphans, dif_pos hn, dif_neg (Nat.not_lt.mpr hi)]

theorem releaseOrphans_end {loop : BlocksLoop} (hn : loop.newBlocks.length ≤ loop.n) (i : Nat) :
    releaseOrphans C build loop i = pure loop := by
  rw [releaseOrphans, dif_neg (Nat.not_lt.mpr hn)]

/-- An orphan of a descent has its parent after it or at the end. -/
theorem Descent.parent_eq {target hash : H256} {orphanBlocks : List Block}
    (h : Descent C target orphanBlocks hash) :
    ∀ orphan ∈ orphanBlocks, orphan.head.parent = hash ∨
      ∃ other ∈ orphanBlocks, orphan.head.parent = other.hash C := by
  induction h with
  | refl => exact List.forall_mem_nil _
  | @parent orphanBlocks block _ ih =>
      intro orphan hmem
      rcases List.mem_append.mp hmem with hmem | hmem
      · refine Or.inr ?_
        rcases ih orphan hmem with heq | ⟨other, hother, heq⟩
        · exact ⟨block, List.mem_append_right _ (List.mem_singleton_self _), heq⟩
        · exact ⟨other, List.mem_append_left _ hother, heq⟩
      · exact Or.inl
          (congrArg (fun block : Block => block.head.parent) (List.mem_singleton.mp hmem))

theorem Missing.ne_of_stored {block : Block} {hash : H256} (h : Missing C build source s block)
    (hstored : s.blockchain.value.blocks.containsKey hash = true) : block.hash C ≠ hash := by
  rintro rfl
  exact Bool.noConfusion (h.missing.symm.trans hstored)

/-- A missing block still is after another one was stored. -/
theorem Missing.of_contains {s' : Shared} {block : Block} {hash : H256}
    (h : Missing C build source s block) (hne : block.hash C ≠ hash)
    (hcontains : ∀ other, s'.blockchain.value.blocks.containsKey other = true ↔
      other = hash ∨ s.blockchain.value.blocks.containsKey other = true) :
    Missing C build source s' block := by
  refine ⟨h.work, h.passes, ?_⟩
  rw [Bool.eq_false_iff, Ne, hcontains, h.missing]
  rintro (heq | hfalse)
  · exact hne heq
  · cases hfalse

/-- The cascade admits all blocks of a descent to a stored block, the last one first. -/
theorem releaseOrphans_follows {target hash : H256} {orphanBlocks : List Block}
    (hdescent : Descent C target orphanBlocks hash) {before : List H256} (h : Follows C source s)
    (hstored : ∀ other ∈ before ++ [hash], s.blockchain.value.blocks.containsKey other = true)
    (hmissing : ∀ orphan ∈ orphanBlocks, Missing C build source s orphan)
    (hdistinct : (orphanBlocks.map (Block.hash C)).Nodup) :
    ((releaseOrphans C build ⟨orphanBlocks, before ++ [hash], before.length⟩ 0).run C build).wp
      (fun loop s' => loop.orphanBlocks = [] ∧ loop.newBlocks ≠ [] ∧ Follows C source s' ∧
        s'.sent = s.sent ∧ s'.blockchain.value.blocks.containsKey target = true ∧
        ∀ other ∈ loop.newBlocks, s'.blockchain.value.blocks.containsKey other = true)
      (fun _ _ => False) s := by
  induction hdescent generalizing before s with
  | refl =>
      have hlength : (before ++ [target]).length = before.length + 1 := by simp
      rw [releaseOrphans_next (Nat.lt_of_lt_of_eq (Nat.lt_succ_self _) hlength.symm)
          (Nat.zero_le 0),
        releaseOrphans_end hlength.le]
      refine ⟨rfl, List.append_ne_nil_of_right_ne_nil _ (List.cons_ne_nil _ _), h, rfl, ?_, hstored⟩
      exact hstored target (List.mem_append_right _ (List.mem_singleton_self _))
  | @parent orphanBlocks block hrest ih =>
      have hlength : (before ++ [block.head.parent]).length = before.length + 1 := by simp
      have hn : before.length < (before ++ [block.head.parent]).length := by simp
      have hi : orphanBlocks.length < (orphanBlocks ++ [block]).length := by simp
      obtain ⟨hmissingRest, hmissingLast⟩ := List.forall_mem_append.mp hmissing
      have hblock := hmissingLast block (List.mem_singleton_self _)
      have hparent := hstored _ (List.mem_append_right before (List.mem_singleton_self _))
      rw [List.map_append, List.nodup_append] at hdistinct
      obtain ⟨hdistinctRest, _, hother⟩ := hdistinct
      -- The blocks before the last one have parents that are missing themselves.
      have hskip : ∀ other ∈ (orphanBlocks ++ [block]).take orphanBlocks.length,
          other.head.parent ≠ (before ++ [block.head.parent])[before.length] := by
        rw [List.take_left, List.getElem_concat_length rfl]
        intro other hmem heq
        rcases hrest.parent_eq other hmem with hlast | ⟨after, hafter, hparentAfter⟩
        · exact hblock.ne_of_stored hparent (hlast.symm.trans heq)
        · exact (hmissingRest after hafter).ne_of_stored hparent (hparentAfter.symm.trans heq)
      rw [releaseOrphans_scan hn hi.le hskip, releaseOrphans, dif_pos hn, dif_pos hi]
      have herase : (orphanBlocks ++ [block]).eraseIdx orphanBlocks.length = orphanBlocks := by
        rw [List.eraseIdx_append_of_length_le (Nat.le_refl _), Nat.sub_self]
        exact List.append_nil _
      have hnew : (before ++ [block.head.parent])[before.length] = block.head.parent :=
        List.getElem_concat_length rfl hn
      simp only [List.getElem_concat_length, herase]
      rw [hnew, if_pos trivial]
      refine admitChild_follows h hblock hparent fun s' hfollows hsent hcontains => ?_
      have hnext : orphanBlocks.length ≤ orphanBlocks.length := Nat.le_refl _
      rw [if_pos rfl, releaseOrphans_next (by simp) hnext]
      have hstored' : ∀ other ∈ before ++ [block.head.parent] ++ [block.hash C],
          s'.blockchain.value.blocks.containsKey other = true := by
        intro other hmem
        rcases List.mem_append.mp hmem with hmem | hmem
        · exact (hcontains other).mpr (Or.inr (hstored other hmem))
        · exact (hcontains other).mpr (Or.inl (List.mem_singleton.mp hmem))
      have hmissing' : ∀ orphan ∈ orphanBlocks, Missing C build source s' orphan := by
        intro orphan hmem
        exact (hmissingRest orphan hmem).of_contains
          (hother _ (List.mem_map_of_mem hmem) _ (List.mem_singleton_self _)) hcontains
      have hcascade := ih hfollows hstored' hmissing' hdistinctRest
      rw [hsent, hlength] at hcascade
      exact hcascade

/-! ## The arms -/

section Arms

/-- Messages to other nodes do not matter. -/
theorem Follows.send (h : Follows C source s) (message : Sent) :
    Follows C source { s with sent := s.sent ++ [message] } :=
  ⟨h.blockchain, h.blockState, h.entries, h.genesis, h.closed, h.tip⟩

variable {peer : PeerId} {orphanBlocks : List Block}

/-- A node asks for the announced blocks that it does not store. -/
theorem handleNewBlockHashes_wp (husable : s.blockchain.poisoned = false) (hashes : List H256) :
    ((handleMessage C build peer orphanBlocks (.newBlockHashes hashes)).run C build).wp
      (fun orphanBlocks' s' => orphanBlocks' = orphanBlocks ∧
        s' = if hashes.filter (fun hash => !s.blockchain.value.blocks.containsKey hash) = [] then s
          else { s with sent := s.sent ++ [.write peer (.newBlockHashes hashes) (.getBlocks
            (hashes.filter fun hash => !s.blockchain.value.blocks.containsKey hash))] })
      (fun _ _ => False) s := by
  simp only [handleMessage, NodeProgram.call, Program.call_bind, Program.run_perform, Op.action,
    answerNewBlockHashes, Effect.wp_bind, wp_withBlockchain]
  refine ⟨fun hpoisoned => Bool.noConfusion (husable.symm.trans hpoisoned), fun _ => ?_⟩
  split
  next hlength =>
    refine ⟨rfl, ?_⟩
    rw [if_neg (List.length_pos_iff.mp hlength)]
  next hlength =>
    refine ⟨rfl, ?_⟩
    rw [if_pos (List.eq_nil_of_length_eq_zero (by omega))]

/-- A node answers a request for a block that it stores. -/
theorem handleGetBlocks_wp {hash : H256} {block : Block} {height : UInt32}
    (husable : s.blockchain.poisoned = false)
    (hget : s.blockchain.value.blocks.get hash = some (block, height)) :
    ((handleMessage C build peer orphanBlocks (.getBlocks [hash])).run C build).wp
      (fun orphanBlocks' s' => orphanBlocks' = orphanBlocks ∧
        s' = { s with sent := s.sent ++ [.write peer (.getBlocks [hash]) (.blocks [block])] })
      (fun _ _ => False) s := by
  simp only [handleMessage, NodeProgram.call, Program.call_bind, Program.run_perform, Op.action,
    answerGetBlocks, Effect.wp_bind, wp_withBlockchain]
  refine ⟨fun hpoisoned => Bool.noConfusion (husable.symm.trans hpoisoned), fun _ => ?_⟩
  have hblocks : [hash].mapM (fun hash => (s.blockchain.value.blocks.get hash).map Prod.fst) =
      some [block] := by
    simp [hget]
  rw [hblocks]
  exact ⟨rfl, rfl⟩

theorem containsBlock_usable {α : Type} {hash : H256} {next : Bool → NodeProgram α}
    {post : α → Shared → Prop} {fail : Panic → Shared → Prop}
    (husable : s.blockchain.poisoned = false)
    (hnext : ((next (s.blockchain.value.blocks.containsKey hash)).run C build).wp post fail s) :
    ((NodeProgram.call (.containsBlock hash) >>= next).run C build).wp post fail s := by
  simp only [NodeProgram.run, NodeProgram.call, Program.call_bind, Program.run_perform,
    Effect.wp_bind, Op.action, wp_containsBlock]
  exact ⟨fun hpoisoned => Bool.noConfusion (husable.symm.trans hpoisoned), fun _ => hnext⟩

/-- A missing block whose parent is missing too joins the orphans, and its parent is asked for. -/
theorem handleBlocks_keeps {block : Block} (h : Follows C source s)
    (hmissing : Missing C build source s block)
    (hparent : s.blockchain.value.blocks.containsKey block.head.parent = false) :
    ((handleMessage C build peer orphanBlocks (.blocks [block])).run C build).wp
      (fun orphanBlocks' s' => orphanBlocks' = orphanBlocks ++ [block] ∧
        s' = { s with sent := s.sent ++
          [.write peer (.blocks [block]) (.getBlocks [block.head.parent])] })
      (fun _ _ => False) s := by
  simp only [handleMessage, processBlocks, List.foldlM_cons, List.foldlM_nil]
  rw [NodeProgram.run, Program.run_bind, Effect.wp_bind, Program.run_bind, Effect.wp_bind]
  simp only [processBlock, if_pos hmissing.work]
  refine containsBlock_usable h.blockchain ?_
  rw [hmissing.missing]
  refine containsBlock_usable h.blockchain ?_
  rw [hparent]
  exact ⟨rfl, rfl⟩

/-- A missing block whose parent is stored is admitted with all orphans that wait for it, and
announced with them. -/
theorem handleBlocks_admits {block : Block} {target : H256} (h : Follows C source s)
    (hmissing : Missing C build source s block)
    (hparent : s.blockchain.value.blocks.containsKey block.head.parent = true)
    (hdescent : Descent C target orphanBlocks (block.hash C))
    (horphans : ∀ orphan ∈ orphanBlocks, Missing C build source s orphan)
    (hdistinct : ((orphanBlocks ++ [block]).map (Block.hash C)).Nodup) :
    ((handleMessage C build peer orphanBlocks (.blocks [block])).run C build).wp
      (fun orphanBlocks' s' => orphanBlocks' = [] ∧ Follows C source s' ∧
        s'.blockchain.value.blocks.containsKey target = true ∧
        ∃ hashes, s'.sent = s.sent ++ [.broadcast (.newBlockHashes hashes)] ∧
          ∀ hash ∈ hashes, s'.blockchain.value.blocks.containsKey hash = true)
      (fun _ _ => False) s := by
  simp only [handleMessage, processBlocks, List.foldlM_cons, List.foldlM_nil]
  rw [NodeProgram.run, Program.run_bind, Effect.wp_bind, Program.run_bind, Effect.wp_bind]
  simp only [processBlock, if_pos hmissing.work]
  refine containsBlock_usable h.blockchain ?_
  rw [hmissing.missing]
  refine containsBlock_usable h.blockchain ?_
  rw [hparent]
  refine admitChild_follows h hmissing hparent fun s' hfollows hsent hcontains => ?_
  rw [List.map_append, List.nodup_append] at hdistinct
  obtain ⟨hdistinctRest, _, hother⟩ := hdistinct
  have hstored : ∀ other ∈ [] ++ [block.hash C],
      s'.blockchain.value.blocks.containsKey other = true := by
    intro other hmem
    exact (hcontains other).mpr (Or.inl (List.mem_singleton.mp hmem))
  -- The orphans have other hashes than the block that was just stored.
  have hmissing' : ∀ orphan ∈ orphanBlocks, Missing C build source s' orphan := by
    intro orphan hmem
    exact (horphans orphan hmem).of_contains
      (hother _ (List.mem_map_of_mem hmem) _ (List.mem_singleton_self _)) hcontains
  rw [if_pos rfl]
  refine Effect.wp_mono
    (releaseOrphans_follows hdescent hfollows hstored hmissing' hdistinctRest) ?_ fun _ _ h => h
  rintro loop s'' ⟨hempty, hnew, hfollows', hsent', htarget, hknown⟩
  have hlength : loop.newBlocks.length > 0 := List.length_pos_iff.mpr hnew
  change Effect.wp (Program.run (Op.action C build) (if loop.newBlocks.length > 0 then _ else _))
    _ _ s''
  rw [if_pos hlength]
  refine ⟨hempty, hfollows'.send _, htarget, loop.newBlocks, ?_, hknown⟩
  rw [← hsent, ← hsent']

end Arms

end BitcoinClient
