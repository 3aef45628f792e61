import BitcoinClient.Network.Admission

/-! # What the arm for `Blocks` asks for and announces

The worker asks the sender for the parent of every block that it keeps without one. At
the end of the arm it announces the blocks that it stored, and only then.
-/

namespace BitcoinClient

/-- The request for the parent of a block. -/
def askParent (peer : PeerId) (message : Message) (block : Block) : Sent :=
  .write peer message (.getBlocks [block.head.parent])

/-- What the arm sends at its end. -/
def announcement (newBlocks : List H256) : List Sent :=
  if newBlocks = [] then [] else [.broadcast (.newBlockHashes newBlocks)]

section Definitions

variable (C : Crypto) (start : Shared) (peer : PeerId) (message : Message)

/-- The variables of the arm after the blocks `received`, which it began in the memory `start`
with the orphans `orphanBlocks`. It asked for the parents of the blocks `asked`. -/
structure Asking (orphanBlocks received asked : List Block) (loop : BlocksLoop) (s : Shared) :
    Prop where
  sublist : asked.Sublist received
  sent : s.sent = start.sent ++ asked.map (askParent peer message)
  unknown : ∀ block ∈ asked, start.blockchain.value.blocks.containsKey block.head.parent = false
  orphans : ∀ block ∈ loop.orphanBlocks, block ∈ orphanBlocks ∨ block ∈ asked
  grows : ∀ hash, start.blockchain.value.blocks.containsKey hash = true →
    s.blockchain.value.blocks.containsKey hash = true
  gained : ∀ hash, s.blockchain.value.blocks.containsKey hash = true →
    start.blockchain.value.blocks.containsKey hash = true ∨ hash ∈ loop.newBlocks
  known : ∀ hash ∈ loop.newBlocks, s.blockchain.value.blocks.containsKey hash = true
  origin : ∀ hash ∈ loop.newBlocks, ∃ block ∈ orphanBlocks ++ received, block.hash C = hash
  dealt : ∀ block ∈ received, block.hash C ≤ block.head.difficulty →
    s.blockchain.value.blocks.containsKey (block.hash C) = true ∨ block ∈ asked ∨
      s.blockchain.value.blocks.containsKey block.head.parent = true
  /-- Something is only announced when there is something new. -/
  fresh : loop.newBlocks ≠ [] → ∃ hash, s.blockchain.value.blocks.containsKey hash = true ∧
    start.blockchain.value.blocks.containsKey hash = false

end Definitions

variable {C : Crypto} {build : Build} {start s s' : Shared} {peer : PeerId} {message : Message}
  {orphanBlocks received asked : List Block} {loop : BlocksLoop}

/-- An admission sends nothing and stores at most its block. -/
theorem admitBlock_stores {block : Block} :
    ((admitBlock C build block).run C build).wp
      (fun admitted s' => s'.sent = s.sent ∧
        ∀ hash, s'.blockchain.value.blocks.containsKey hash = true ↔
          s.blockchain.value.blocks.containsKey hash = true ∨
            (admitted = true ∧ hash = block.hash C))
      (fun _ _ => True) s := by
  unfold admitBlock
  rw [NodeProgram.run, Program.run_bind, Effect.wp_bind, wp_checkTxState]
  refine ⟨fun _ => trivial, fun _ => ?_⟩
  cases hparent : s.blockState.value.get block.head.parent with
  | none => trivial
  | some parent =>
      dsimp only
      split
      next =>
        refine ⟨rfl, fun hash => ?_⟩
        simp
      next => trivial
      next state hcheck =>
        simp only [if_true, NodeProgram.call, Program.call_bind, Program.run_perform, Op.action,
          Effect.wp_bind, wp_insertBlock]
        refine ⟨fun _ => trivial, fun _ => ?_⟩
        split
        next chain hinsert =>
          refine ⟨rfl, fun hash => ?_⟩
          change chain.blocks.containsKey hash = true ↔ _
          rw [Blockchain.containsKey_of_insert hinsert]
          tauto
        next => trivial

/-- The look at a stored parent and the admission, which the arm has in two places. -/
theorem admitChild_stores {hash : H256} {block : Block} {next : Bool → NodeProgram BlocksLoop}
    {post : BlocksLoop → Shared → Prop}
    (hnext : ∀ admitted s', s'.sent = s.sent →
      (∀ hash, s'.blockchain.value.blocks.containsKey hash = true ↔
        s.blockchain.value.blocks.containsKey hash = true ∨
          (admitted = true ∧ hash = block.hash C)) →
      ((next admitted).run C build).wp post (fun _ _ => True) s') :
    (NodeProgram.run C build do
      let parent ← NodeProgram.call (.getBlock hash)
      if block.head.difficulty = parent.1.head.difficulty then
        let admitted ← admitBlock C build block
        next admitted
      else
        next false).wp post (fun _ _ => True) s := by
  simp only [NodeProgram.run, NodeProgram.call, Program.call_bind, Program.run_perform,
    Effect.wp_bind, Op.action, wp_getBlock]
  refine ⟨fun _ => trivial, fun _ => ?_⟩
  split
  next parent _ =>
    split
    next =>
      rw [Program.run_bind, Effect.wp_bind]
      refine Effect.wp_mono admitBlock_stores ?_ fun _ _ h => h
      rintro admitted s' ⟨hsent, hcontains⟩
      exact hnext admitted s' hsent hcontains
    next =>
      refine hnext false s rfl fun hash => ?_
      simp
  next => trivial

namespace Asking

/-- After the admission of a block that is new, or one whose turn came behind a new one. -/
theorem push {block : Block} {admitted : Bool}
    (h : Asking C start peer message orphanBlocks received asked loop s)
    (hblock : block ∈ orphanBlocks ++ received)
    (hnew : loop.newBlocks ≠ [] ∨ s.blockchain.value.blocks.containsKey (block.hash C) = false)
    (hsent : s'.sent = s.sent)
    (hcontains : ∀ other, s'.blockchain.value.blocks.containsKey other = true ↔
      s.blockchain.value.blocks.containsKey other = true ∨
        (admitted = true ∧ other = block.hash C)) :
    Asking C start peer message orphanBlocks received asked (loop.push admitted (block.hash C))
      s' := by
  have hkept : ∀ other, s.blockchain.value.blocks.containsKey other = true →
      s'.blockchain.value.blocks.containsKey other = true :=
    fun other hstored => (hcontains other).mpr (Or.inl hstored)
  have hgrows : ∀ other, start.blockchain.value.blocks.containsKey other = true →
      s'.blockchain.value.blocks.containsKey other = true :=
    fun other hstored => hkept other (h.grows other hstored)
  have hfresh : loop.newBlocks ≠ [] → ∃ other, s'.blockchain.value.blocks.containsKey other = true ∧
      start.blockchain.value.blocks.containsKey other = false := by
    intro hnonempty
    obtain ⟨other, hstored, hmissing⟩ := h.fresh hnonempty
    exact ⟨other, hkept other hstored, hmissing⟩
  have hdealt : ∀ other ∈ received, other.hash C ≤ other.head.difficulty →
      s'.blockchain.value.blocks.containsKey (other.hash C) = true ∨ other ∈ asked ∨
        s'.blockchain.value.blocks.containsKey other.head.parent = true :=
    fun other hmem hwork => (h.dealt other hmem hwork).imp (hkept _) (Or.imp_right (hkept _))
  cases admitted with
  | false =>
      refine ⟨h.sublist, hsent.trans h.sent, h.unknown, h.orphans, hgrows, fun other hstored => ?_,
        fun other hmem => hkept other (h.known other hmem), h.origin, hdealt, hfresh⟩
      rcases (hcontains other).mp hstored with hold | ⟨hfalse, _⟩
      · exact h.gained other hold
      · cases hfalse
  | true =>
      refine ⟨h.sublist, hsent.trans h.sent, h.unknown, h.orphans, hgrows, fun other hstored => ?_,
        List.forall_mem_append.mpr ⟨fun other hmem => hkept other (h.known other hmem), ?_⟩,
        List.forall_mem_append.mpr ⟨h.origin, ?_⟩, hdealt, fun _ => ?_⟩
      · rcases (hcontains other).mp hstored with hold | ⟨_, rfl⟩
        · exact (h.gained other hold).imp_right (List.mem_append_left _)
        · exact Or.inr (List.mem_append_right _ List.mem_cons_self)
      · intro other hmem
        exact (hcontains other).mpr (Or.inr ⟨rfl, List.mem_singleton.mp hmem⟩)
      · exact List.forall_mem_singleton.mpr ⟨block, hblock, rfl⟩
      · rcases hnew with hnonempty | hmissing
        · exact hfresh hnonempty
        · refine ⟨_, (hcontains _).mpr (Or.inr ⟨rfl, rfl⟩), ?_⟩
          cases hstart : start.blockchain.value.blocks.containsKey (block.hash C) with
          | false => rfl
          | true => exact (h.grows _ hstart).symm.trans hmissing

/-- Orphans that leave the buffer do not matter. -/
theorem remove (h : Asking C start peer message orphanBlocks received asked loop s) (i : Nat) :
    Asking C start peer message orphanBlocks received asked
      { loop with orphanBlocks := loop.orphanBlocks.eraseIdx i } s :=
  { h with orphans := fun block hmem => h.orphans block (List.mem_of_mem_eraseIdx hmem) }

theorem origin_append (h : Asking C start peer message orphanBlocks received asked loop s)
    (block : Block) : ∀ hash ∈ loop.newBlocks, ∃ other ∈ orphanBlocks ++ (received ++ [block]),
      other.hash C = hash := by
  intro hash hmem
  obtain ⟨other, hother, heq⟩ := h.origin hash hmem
  exact ⟨other, List.append_assoc _ _ _ ▸ List.mem_append_left _ hother, heq⟩

/-- A block of the message that asks for nothing. -/
theorem receive {block : Block}
    (h : Asking C start peer message orphanBlocks received asked loop s)
    (hdealt : block.hash C ≤ block.head.difficulty →
      s.blockchain.value.blocks.containsKey (block.hash C) = true ∨
        s.blockchain.value.blocks.containsKey block.head.parent = true) :
    Asking C start peer message orphanBlocks (received ++ [block]) asked loop s :=
  { h with
    sublist := h.sublist.trans (List.sublist_append_left _ _)
    origin := h.origin_append block
    dealt := List.forall_mem_append.mpr ⟨h.dealt, List.forall_mem_singleton.mpr fun hwork =>
      (hdealt hwork).imp_right Or.inr⟩ }

/-- A block that is kept without its parent. -/
theorem keep {block : Block} (h : Asking C start peer message orphanBlocks received asked loop s)
    (hmissing : s.blockchain.value.blocks.containsKey block.head.parent = false) :
    Asking C start peer message orphanBlocks (received ++ [block]) (asked ++ [block])
      { loop with orphanBlocks := loop.orphanBlocks ++ [block] }
      { s with sent := s.sent ++ [askParent peer message block] } := by
  refine ⟨h.sublist.append (.refl _), ?_, ?_, ?_, h.grows, h.gained, h.known,
    h.origin_append block, ?_, h.fresh⟩
  · simp [h.sent]
  · refine List.forall_mem_append.mpr ⟨h.unknown, fun other hmem => ?_⟩
    obtain rfl := List.mem_singleton.mp hmem
    cases hstart : start.blockchain.value.blocks.containsKey other.head.parent with
    | false => rfl
    | true => exact (h.grows _ hstart).symm.trans hmissing
  · refine List.forall_mem_append.mpr ⟨fun other hmem => ?_, fun other hmem => ?_⟩
    · exact (h.orphans other hmem).imp_right (List.mem_append_left _)
    · exact Or.inr (List.mem_append_right _ hmem)
  · refine List.forall_mem_append.mpr ⟨fun other hmem hwork => ?_, fun other hmem _ => ?_⟩
    · exact (h.dealt other hmem hwork).imp_right (Or.imp_left (List.mem_append_left _))
    · exact Or.inr (Or.inl (List.mem_append_right _ hmem))

end Asking

/-- The loops that release orphans ask for nothing. -/
theorem releaseOrphans_asks (loop : BlocksLoop) (i : Nat)
    (h : Asking C start peer message orphanBlocks received asked loop s) :
    ((releaseOrphans C build loop i).run C build).wp
      (fun loop s' => Asking C start peer message orphanBlocks received asked loop s')
      (fun _ _ => True) s := by
  induction loop, i using releaseOrphans.induct C generalizing s with
  | case1 loop i hn hi blockToUnorphan hparent orphanBlocks' ihAdmitted =>
      rename_i ihDropped
      rw [releaseOrphans, dif_pos hn, dif_pos hi]
      simp only
      rw [if_pos hparent]
      refine admitChild_stores fun admitted s' hsent hcontains => ?_
      have hnonempty : loop.newBlocks ≠ [] := List.ne_nil_of_length_pos (Nat.zero_lt_of_lt hn)
      have hblock : loop.orphanBlocks[i] ∈ orphanBlocks ++ received := by
        refine List.mem_append.mpr ((h.orphans _ (List.getElem_mem hi)).imp_right fun hasked => ?_)
        exact h.sublist.subset hasked
      have hpushed := (h.push hblock (Or.inl hnonempty) hsent hcontains).remove i
      cases admitted with
      | false => exact ihDropped hpushed
      | true => exact ihAdmitted hpushed
  | case2 loop i hn hi blockToUnorphan hparent =>
      rename_i ih
      rw [releaseOrphans, dif_pos hn, dif_pos hi]
      simp only
      rw [if_neg hparent]
      exact ih h
  | case3 loop i hn hi ih =>
      rw [releaseOrphans, dif_pos hn, dif_neg hi]
      exact ih { h with }
  | case4 loop i hn =>
      rw [releaseOrphans, dif_neg hn]
      exact h

theorem containsBlock_asks {α : Type} {hash : H256} {next : Bool → NodeProgram α}
    {post : α → Shared → Prop}
    (hnext : ((next (s.blockchain.value.blocks.containsKey hash)).run C build).wp post
      (fun _ _ => True) s) :
    ((NodeProgram.call (.containsBlock hash) >>= next).run C build).wp post (fun _ _ => True)
      s := by
  simp only [NodeProgram.run, NodeProgram.call, Program.call_bind, Program.run_perform,
    Effect.wp_bind, Op.action, wp_containsBlock]
  exact ⟨fun _ => trivial, fun _ => hnext⟩

/-- One block of the message. -/
theorem processBlock_asks {block : Block}
    (h : Asking C start peer message orphanBlocks received asked loop s) :
    ((processBlock C build peer message loop block).run C build).wp
      (fun loop s' => ∃ asked, Asking C start peer message orphanBlocks (received ++ [block]) asked
        loop s') (fun _ _ => True) s := by
  simp only [processBlock]
  split
  next =>
    refine containsBlock_asks ?_
    cases hknown : s.blockchain.value.blocks.containsKey (block.hash C) with
    | true => exact ⟨asked, h.receive fun _ => Or.inl hknown⟩
    | false =>
        refine containsBlock_asks ?_
        cases hparent : s.blockchain.value.blocks.containsKey block.head.parent with
        | true =>
            refine admitChild_stores fun admitted s' hsent hcontains => ?_
            have hblock : block ∈ orphanBlocks ++ (received ++ [block]) := by simp
            have hreceived : Asking C start peer message orphanBlocks (received ++ [block]) asked
                loop s := h.receive fun _ => Or.inr hparent
            have hpushed := hreceived.push hblock (Or.inr hknown) hsent hcontains
            cases admitted with
            | false =>
                exact Effect.wp_mono (releaseOrphans_asks _ _ hpushed) (fun _ _ h => ⟨asked, h⟩)
                  fun _ _ h => h
            | true =>
                exact Effect.wp_mono (releaseOrphans_asks _ _ hpushed) (fun _ _ h => ⟨asked, h⟩)
                  fun _ _ h => h
        | false => exact ⟨asked ++ [block], h.keep hparent⟩
  next hwork => exact ⟨asked, h.receive fun hmeets => absurd hmeets hwork⟩

theorem foldlM_asks {blocks : List Block}
    (h : Asking C start peer message orphanBlocks received asked loop s) :
    ((blocks.foldlM (processBlock C build peer message) loop).run C build).wp
      (fun loop s' => ∃ asked, Asking C start peer message orphanBlocks (received ++ blocks) asked
        loop s') (fun _ _ => True) s := by
  induction blocks generalizing received asked loop s with
  | nil => exact ⟨asked, (List.append_nil received).symm ▸ h⟩
  | cons block rest ih =>
      rw [List.foldlM_cons, NodeProgram.run, Program.run_bind, Effect.wp_bind]
      refine Effect.wp_mono (processBlock_asks h) ?_ fun _ _ h => h
      rintro loop s' ⟨asked, hloop⟩
      rw [List.append_cons]
      exact ih hloop

theorem Asking.begin (s : Shared) (orphanBlocks : List Block) :
    Asking C s peer message orphanBlocks [] [] { orphanBlocks } s where
  sublist := .refl []
  sent := (List.append_nil s.sent).symm
  unknown := List.forall_mem_nil _
  orphans _ := Or.inl
  grows _ := id
  gained _ := Or.inl
  known := List.forall_mem_nil _
  origin := List.forall_mem_nil _
  dealt := List.forall_mem_nil _
  fresh hnonempty := absurd rfl hnonempty

/-- A whole `Blocks` message. -/
theorem processBlocks_asks {blocks : List Block} :
    ((processBlocks C build peer orphanBlocks blocks).run C build).wp
      (fun orphanBlocks' s' => ∃ asked loop final,
        Asking C s peer (.blocks blocks) orphanBlocks blocks asked loop final ∧
        orphanBlocks' = loop.orphanBlocks ∧
        s' = { final with sent := final.sent ++ announcement loop.newBlocks })
      (fun _ _ => True) s := by
  unfold processBlocks
  rw [NodeProgram.run, Program.run_bind, Effect.wp_bind]
  refine Effect.wp_mono (foldlM_asks (.begin s orphanBlocks)) ?_ fun _ _ h => h
  rintro loop final ⟨asked, hloop⟩
  by_cases hnew : loop.newBlocks = []
  · rw [if_neg (by simp [hnew])]
    refine ⟨asked, loop, final, hloop, rfl, ?_⟩
    rw [announcement, if_pos hnew, List.append_nil]
  · rw [if_pos (List.length_pos_iff.mpr hnew)]
    refine ⟨asked, loop, final, hloop, rfl, ?_⟩
    rw [announcement, if_neg hnew]

end BitcoinClient
