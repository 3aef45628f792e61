import BitcoinClient.Foundation.History
import BitcoinClient.Network.Admission
import BitcoinClient.Node.ProofOfWork

/-! # Blocks that are admitted twice

The arm for `Blocks` asks whether a block is stored when the block arrives, and not again
when the cascade releases it from the orphan buffer. No block is admitted or announced twice
as long as no block arrives while another one with the same hash waits in the buffer.
-/

namespace BitcoinClient

open NodeProgram (call)

/-- What a worker has written to the block tree and the ledger states. -/
structure Admissions where
  blocks : List (H256 × Block)
  states : List (H256 × State)
  /-- Whether it wrote under the hash of a stored block. -/
  repeated : Bool := false

variable (C : Crypto) (build : Build)

def Admissions.record (op : Op) (_ : op.Result) (s : Shared) (admissions : Admissions) :
    Admissions :=
  match op with
  | .insertBlock block =>
    { admissions with
      blocks := admissions.blocks ++ [(block.hash C, block)]
      repeated := admissions.repeated || s.blockchain.value.blocks.containsKey (block.hash C) }
  | .writeBlockState hash state =>
    { admissions with
      states := admissions.states ++ [(hash, state)]
      repeated := admissions.repeated || s.blockchain.value.blocks.containsKey hash }
  | _ => admissions

/-- The genesis block and its state. -/
def Admissions.initial (icoKey : Ed25519KeyPair) : Admissions where
  blocks := [(Blockchain.genesis.hash C, Blockchain.genesis)]
  states := [(Blockchain.genesis.hash C, State.new C icoKey)]

/-- The hashes of all `NewBlockHashes` broadcasts. -/
def announcedHashes (sent : List Sent) : List H256 :=
  sent.flatMap fun message =>
    match message with
    | .broadcast (.newBlockHashes hashes) => hashes
    | _ => []

/-- No write was made for a stored block, what was written is still there, and no hash was
announced twice. -/
structure AdmittedOnce (s : Shared × Admissions) : Prop where
  once : s.2.repeated = false
  blocks : ∀ entry ∈ s.2.blocks,
    ∃ height, s.1.blockchain.value.blocks.get entry.1 = some (entry.2, height)
  states : ∀ entry ∈ s.2.states, s.1.blockState.value.get entry.1 = some entry.2
  announced : (announcedHashes s.1.sent).Nodup

/-- The `Blocks` messages that a worker handles one after the other. -/
def handleBlocks (orphanBlocks : List Block) (messages : List (PeerId × List Block)) :
    NodeProgram (List Block) :=
  messages.foldlM (fun orphanBlocks message =>
    handleMessage C build message.1 orphanBlocks (.blocks message.2)) orphanBlocks

/-- When the block can be admitted, no other block with its hash waits. -/
def ArrivesFresh (block : Block) (orphanBlocks : List Block) (s : Shared) : Prop :=
  block.hash C ≤ block.head.difficulty →
    s.blockchain.value.blocks.containsKey (block.hash C) = false →
    ∀ orphan ∈ orphanBlocks, orphan.hash C ≠ block.hash C

instance (block : Block) (orphanBlocks : List Block) (s : Shared) :
    Decidable (ArrivesFresh C block orphanBlocks s) :=
  inferInstanceAs (Decidable (_ → _ → _))

/-- Every block of a message arrives fresh at its turn. -/
def BlocksFresh (peer : PeerId) (message : Message) :
    List Block → BlocksLoop → Shared → Prop
  | [], _, _ => True
  | block :: rest, loop, s => ArrivesFresh C block loop.orphanBlocks s ∧
    ((processBlock C build peer message loop block).run C build).wp
      (fun loop s => BlocksFresh peer message rest loop s) (fun _ _ => True) s

/-- Every block of the messages arrives fresh at its turn. -/
def MessagesFresh : List (PeerId × List Block) → List Block → Shared → Prop
  | [], _, _ => True
  | message :: rest, orphanBlocks, s =>
    BlocksFresh C build message.1 (.blocks message.2) message.2 { orphanBlocks } s ∧
    ((handleMessage C build message.1 orphanBlocks (.blocks message.2)).run C build).wp
      (fun orphanBlocks s => MessagesFresh rest orphanBlocks s) (fun _ _ => True) s

instance decidableBlocksFresh (peer : PeerId) (message : Message) (blocks : List Block)
    (loop : BlocksLoop) (s : Shared) : Decidable (BlocksFresh C build peer message blocks loop s) :=
  match blocks with
  | [] => .isTrue trivial
  | block :: rest =>
    have := decidableBlocksFresh peer message rest
    inferInstanceAs (Decidable (ArrivesFresh C block loop.orphanBlocks s ∧
      ((processBlock C build peer message loop block).run C build).wp
        (fun loop s => BlocksFresh C build peer message rest loop s) (fun _ _ => True) s))

instance decidableMessagesFresh (messages : List (PeerId × List Block)) (orphanBlocks : List Block)
    (s : Shared) : Decidable (MessagesFresh C build messages orphanBlocks s) :=
  match messages with
  | [] => .isTrue trivial
  | message :: rest =>
    have := decidableMessagesFresh rest
    inferInstanceAs (Decidable
      (BlocksFresh C build message.1 (.blocks message.2) message.2 { orphanBlocks } s ∧
        ((handleMessage C build message.1 orphanBlocks (.blocks message.2)).run C build).wp
          (fun orphanBlocks s => MessagesFresh C build rest orphanBlocks s) (fun _ _ => True) s))

/-- The waiting blocks are new and differ from each other, and so do the announced ones. -/
structure OnceInvariant (loop : BlocksLoop) (s : Shared × Admissions) : Prop where
  once : s.2.repeated = false
  blocks : ∀ entry ∈ s.2.blocks,
    ∃ height, s.1.blockchain.value.blocks.get entry.1 = some (entry.2, height)
  states : ∀ entry ∈ s.2.states, s.1.blockState.value.get entry.1 = some entry.2 ∧
    s.1.blockchain.value.blocks.containsKey entry.1 = true
  waiting : ∀ orphan ∈ loop.orphanBlocks,
    s.1.blockchain.value.blocks.containsKey (orphan.hash C) = false
  distinct : (loop.orphanBlocks.map (Block.hash C)).Nodup
  announced : (announcedHashes s.1.sent ++ loop.newBlocks).Nodup
  known : ∀ hash ∈ announcedHashes s.1.sent ++ loop.newBlocks,
    s.1.blockchain.value.blocks.containsKey hash = true

variable {C build} {s : Shared} {admissions : Admissions} {loop : BlocksLoop}

theorem OnceInvariant.admittedOnce {s : Shared × Admissions} (h : OnceInvariant C loop s) :
    AdmittedOnce s :=
  ⟨h.once, h.blocks, fun entry hentry => (h.states entry hentry).1, h.announced.of_append_left⟩

theorem initial_once (icoKey : Ed25519KeyPair) :
    OnceInvariant C { orphanBlocks := [] } (Shared.initial C icoKey, .initial C icoKey) where
  once := rfl
  blocks entry hentry := by
    obtain rfl := List.mem_singleton.mp hentry
    exact ⟨0, HashMap.get_insert_self _ _ _⟩
  states entry hentry := by
    obtain rfl := List.mem_singleton.mp hentry
    exact ⟨HashMap.get_insert_self _ _ _,
      HashMap.containsKey_of_get (HashMap.get_insert_self _ _ _)⟩
  waiting := nofun
  distinct := .nil
  announced := .nil
  known := nofun

/-- A program of the worker, run with the history of its writes. -/
abbrev NodeProgram.admitting {α : Type} (C : Crypto) (build : Build) (program : NodeProgram α) :
    Effect Panic (Shared × Admissions) α :=
  Program.run (Program.recording (Op.action C build) (Admissions.record C)) program

theorem containsBlock_once {α : Type} {hash : H256} {next : Bool → NodeProgram α}
    {post : α → Shared × Admissions → Prop} (h : AdmittedOnce (s, admissions))
    (hnext : ((next (s.blockchain.value.blocks.containsKey hash)).admitting C build).wp post
      (fun _ => AdmittedOnce) (s, admissions)) :
    ((call (.containsBlock hash) >>= next).admitting C build).wp post (fun _ => AdmittedOnce)
      (s, admissions) := by
  simp only [NodeProgram.admitting, call, Program.call_bind, Program.run_perform, Effect.wp_bind,
    Program.wp_recording, Op.action, wp_containsBlock]
  exact ⟨fun _ => h, fun _ => hnext⟩

/-- A new block has its state written before it is inserted. -/
theorem OnceInvariant.write {block : Block} (h : OnceInvariant C loop (s, admissions))
    (state : State) (hnew : s.blockchain.value.blocks.containsKey (block.hash C) = false) :
    AdmittedOnce
      ({ s with blockState :=
          { s.blockState with value := s.blockState.value.insert (block.hash C) state } },
        (Admissions.record C (.writeBlockState (block.hash C) state) () s admissions)) := by
  refine ⟨Bool.or_eq_false_iff.mpr ⟨h.once, hnew⟩, h.blocks, fun entry hentry => ?_,
    h.admittedOnce.announced⟩
  change (s.blockState.value.insert (block.hash C) state).get entry.1 = some entry.2
  rcases List.mem_append.mp hentry with hentry | hentry
  · obtain ⟨hget, hstored⟩ := h.states entry hentry
    have hne : entry.1 ≠ block.hash C := by
      intro heq
      rw [heq, hnew] at hstored
      cases hstored
    rw [HashMap.get_insert_ne hne, hget]
  · obtain rfl := List.mem_singleton.mp hentry
    exact HashMap.get_insert_self _ _ _

/-- A new block that no orphan shares its hash with is admitted. -/
theorem OnceInvariant.store {block : Block} {height : UInt32} {state : State} {chain : Blockchain}
    (h : OnceInvariant C loop (s, admissions))
    (hnew : s.blockchain.value.blocks.containsKey (block.hash C) = false)
    (hfresh : ∀ orphan ∈ loop.orphanBlocks, orphan.hash C ≠ block.hash C)
    (hblocks : chain.blocks = s.blockchain.value.blocks.insert (block.hash C) (block, height)) :
    OnceInvariant C { loop with newBlocks := loop.newBlocks ++ [block.hash C] }
      (s.put (block.hash C) state chain, Admissions.record C (.insertBlock block) () s
        (Admissions.record C (.writeBlockState (block.hash C) state) () s admissions)) := by
  have hwritten := h.write state hnew
  have hcontains : ∀ hash, chain.blocks.containsKey hash = true ↔
      hash = block.hash C ∨ s.blockchain.value.blocks.containsKey hash = true := by
    intro hash
    rw [hblocks, HashMap.containsKey_insert]
  -- The hash is new, so that no older entry is replaced.
  have hne : ∀ hash, s.blockchain.value.blocks.containsKey hash = true → hash ≠ block.hash C := by
    rintro hash hstored rfl
    rw [hnew] at hstored
    cases hstored
  refine ⟨Bool.or_eq_false_iff.mpr ⟨hwritten.once, hnew⟩, fun entry hentry => ?_,
    fun entry hentry => ⟨hwritten.states entry hentry, ?_⟩, fun orphan horphan => ?_, h.distinct,
    ?_,
    fun hash hmem => ?_⟩
  · change ∃ height, chain.blocks.get entry.1 = some (entry.2, height)
    rw [hblocks]
    rcases List.mem_append.mp hentry with hentry | hentry
    · obtain ⟨height, hget⟩ := h.blocks entry hentry
      refine ⟨height, ?_⟩
      rw [HashMap.get_insert_ne (hne _ (HashMap.containsKey_of_get hget)), hget]
    · obtain rfl := List.mem_singleton.mp hentry
      exact ⟨height, HashMap.get_insert_self _ _ _⟩
  · rcases List.mem_append.mp hentry with hentry | hentry
    · exact (hcontains _).mpr (Or.inr (h.states entry hentry).2)
    · exact (hcontains _).mpr (Or.inl (congrArg Prod.fst (List.mem_singleton.mp hentry)))
  · change chain.blocks.containsKey (orphan.hash C) = false
    rw [Bool.eq_false_iff, Ne, hcontains]
    rintro (heq | hstored)
    · exact hfresh orphan horphan heq
    · rw [h.waiting orphan horphan] at hstored
      cases hstored
  · change (announcedHashes s.sent ++ (loop.newBlocks ++ [block.hash C])).Nodup
    rw [← List.append_assoc, List.nodup_append]
    refine ⟨h.announced, List.nodup_singleton _, fun hash hmem other hother => ?_⟩
    exact List.mem_singleton.mp hother ▸ hne hash (h.known hash hmem)
  · refine (hcontains hash).mpr ?_
    change hash ∈ announcedHashes s.sent ++ (loop.newBlocks ++ [block.hash C]) at hmem
    rw [← List.append_assoc, List.mem_append, List.mem_singleton] at hmem
    exact hmem.symm.imp_right (h.known hash)

theorem admitBlock_once {block : Block} (h : OnceInvariant C loop (s, admissions))
    (hnew : s.blockchain.value.blocks.containsKey (block.hash C) = false)
    (hfresh : ∀ orphan ∈ loop.orphanBlocks, orphan.hash C ≠ block.hash C) :
    ((admitBlock C build block).admitting C build).wp
      (fun admitted s' => OnceInvariant C (loop.push admitted (block.hash C)) s')
      (fun _ => AdmittedOnce) (s, admissions) := by
  have hstop := h.admittedOnce
  unfold admitBlock checkTxState
  simp only [NodeProgram.admitting, call, Program.call_bind, Program.perform_bind,
    Program.run_perform, Effect.wp_bind, Program.wp_recording, Op.action, wp_readBlockState]
  refine ⟨fun _ => hstop, fun _ => ?_⟩
  split
  next state hstate =>
    cases hcheck : checkTxs C build state block.cont.st with
    | error failure =>
        cases failure with
        | rejected => exact h
        | overflow => exact hstop
    | ok next =>
        simp only [Program.perform_bind, Program.run_perform, Effect.wp_bind, Program.wp_recording,
          Op.action, wp_writeBlockState]
        refine ⟨fun _ => hstop, fun _ => ?_⟩
        have hwritten := h.write next hnew
        simp only [pure_bind, if_true, Program.run_perform, Effect.wp_bind, Program.wp_recording,
          Op.action, wp_insertBlock]
        refine ⟨fun _ => hwritten, fun _ => ?_⟩
        split
        next chain hinsert =>
          obtain ⟨_, _, height, _, _, -, -, -, hblocks, -⟩ := Blockchain.insert_ok hinsert
          exact h.store hnew hfresh hblocks
        next =>
          exact ⟨hwritten.once, hwritten.blocks, hwritten.states, hwritten.announced⟩
  next => exact ⟨hstop.once, hstop.blocks, hstop.states, hstop.announced⟩

/-- The look at the parent and the admission, which both copies of the checks share. -/
theorem admitChild_once {block : Block} {next : Bool → NodeProgram BlocksLoop}
    {post : BlocksLoop → Shared × Admissions → Prop} (h : OnceInvariant C loop (s, admissions))
    (hnew : s.blockchain.value.blocks.containsKey (block.hash C) = false)
    (hfresh : ∀ orphan ∈ loop.orphanBlocks, orphan.hash C ≠ block.hash C)
    (hnext : ∀ admitted s', OnceInvariant C (loop.push admitted (block.hash C)) s' →
      ((next admitted).admitting C build).wp post (fun _ => AdmittedOnce) s') :
    (NodeProgram.admitting C build do
      let parent ← NodeProgram.call (.getBlock block.head.parent)
      if block.head.difficulty = parent.1.head.difficulty then
        let admitted ← admitBlock C build block
        next admitted
      else
        next false).wp post (fun _ => AdmittedOnce) (s, admissions) := by
  have hstop := h.admittedOnce
  simp only [NodeProgram.admitting, call, Program.call_bind, Program.run_perform, Effect.wp_bind,
    Program.wp_recording, Op.action, wp_getBlock]
  refine ⟨fun _ => hstop, fun _ => ?_⟩
  split
  next parent _ =>
    split
    next =>
      rw [Program.run_bind, Effect.wp_bind]
      exact Effect.wp_mono (admitBlock_once h hnew hfresh) hnext fun _ _ h => h
    next => exact hnext false _ h
  next => exact ⟨hstop.once, hstop.blocks, hstop.states, hstop.announced⟩

/-- An orphan may leave the buffer; the others differ from it. -/
theorem OnceInvariant.remove {i : Nat} {s : Shared × Admissions} (h : OnceInvariant C loop s)
    (hi : i < loop.orphanBlocks.length) :
    OnceInvariant C { loop with orphanBlocks := loop.orphanBlocks.eraseIdx i } s ∧
      ∀ orphan ∈ loop.orphanBlocks.eraseIdx i, orphan.hash C ≠ (loop.orphanBlocks[i]).hash C := by
  have hperm : (loop.orphanBlocks[i] :: loop.orphanBlocks.eraseIdx i).Perm loop.orphanBlocks :=
    List.getElem_cons_eraseIdx_perm hi
  have hnodup := (hperm.map (Block.hash C)).nodup_iff.mpr h.distinct
  rw [List.map_cons, List.nodup_cons] at hnodup
  refine ⟨⟨h.once, h.blocks, h.states,
    fun orphan hmem => h.waiting orphan (List.mem_of_mem_eraseIdx hmem), hnodup.2, h.announced,
    h.known⟩, fun orphan hmem heq => hnodup.1 ?_⟩
  exact List.mem_map.mpr ⟨orphan, hmem, heq⟩

/-- The cascade admits each orphan once, because the orphans differ from each other. -/
theorem releaseOrphans_once (loop : BlocksLoop) (i : Nat)
    (h : OnceInvariant C loop (s, admissions)) :
    ((releaseOrphans C build loop i).admitting C build).wp (fun loop s' => OnceInvariant C loop s')
      (fun _ => AdmittedOnce) (s, admissions) := by
  induction loop, i using releaseOrphans.induct C generalizing s admissions with
  | case1 loop i hn hi blockToUnorphan hparent orphanBlocks =>
      rename_i ihAdmitted ihDropped
      rw [releaseOrphans, dif_pos hn, dif_pos hi]
      simp only
      rw [if_pos hparent, ← hparent]
      obtain ⟨hremoved, hfresh⟩ := h.remove hi
      refine admitChild_once hremoved (h.waiting _ (List.getElem_mem hi)) hfresh ?_
      intro admitted s' h'
      obtain ⟨shared, admissions⟩ := s'
      cases admitted with
      | false => exact ihDropped h'
      | true => exact ihAdmitted h'
  | case2 loop i hn hi blockToUnorphan hparent =>
      rename_i ih
      rw [releaseOrphans, dif_pos hn, dif_pos hi]
      simp only
      rw [if_neg hparent]
      exact ih h
  | case3 loop i hn hi ih =>
      rw [releaseOrphans, dif_pos hn, dif_neg hi]
      refine ih ?_
      exact ⟨h.once, h.blocks, h.states, h.waiting, h.distinct, h.announced, h.known⟩
  | case4 loop i hn =>
      rw [releaseOrphans, dif_neg hn]
      exact h

theorem announcedHashes_concat (sent : List Sent) (message : Sent) :
    announcedHashes (sent ++ [message]) = announcedHashes sent ++ announcedHashes [message] :=
  List.flatMap_append

/-- A block without its parent joins the orphans, from which it differs. -/
theorem OnceInvariant.keep {block : Block} {peer : PeerId} {message reply : Message}
    (h : OnceInvariant C loop (s, admissions))
    (hnew : s.blockchain.value.blocks.containsKey (block.hash C) = false)
    (hfresh : ∀ orphan ∈ loop.orphanBlocks, orphan.hash C ≠ block.hash C) :
    OnceInvariant C { loop with orphanBlocks := loop.orphanBlocks ++ [block] }
      ({ s with sent := s.sent ++ [.write peer message reply] }, admissions) := by
  have hsent : announcedHashes (s.sent ++ [.write peer message reply]) =
      announcedHashes s.sent := by
    rw [announcedHashes_concat]
    exact List.append_nil _
  refine ⟨h.once, h.blocks, h.states, fun orphan hmem => ?_, ?_, ?_, fun hash hmem => ?_⟩
  · rcases List.mem_append.mp hmem with hmem | hmem
    · exact h.waiting orphan hmem
    · exact List.mem_singleton.mp hmem ▸ hnew
  · rw [List.map_append, List.nodup_append]
    refine ⟨h.distinct, List.nodup_singleton _, fun hash hmem other hother => ?_⟩
    obtain ⟨orphan, horphan, rfl⟩ := List.mem_map.mp hmem
    exact List.mem_singleton.mp hother ▸ hfresh orphan horphan
  · rw [hsent]
    exact h.announced
  · rw [hsent] at hmem
    exact h.known hash hmem

/-- A block that arrives fresh is admitted or waits. -/
theorem processBlock_once {peer : PeerId} {message : Message} {block : Block}
    (h : OnceInvariant C loop (s, admissions)) (hfresh : ArrivesFresh C block loop.orphanBlocks s) :
    ((processBlock C build peer message loop block).admitting C build).wp
      (fun loop s' => OnceInvariant C loop s') (fun _ => AdmittedOnce) (s, admissions) := by
  simp only [processBlock]
  split
  next hwork =>
    refine containsBlock_once h.admittedOnce ?_
    cases hknown : s.blockchain.value.blocks.containsKey (block.hash C) with
    | true => exact h
    | false =>
        refine containsBlock_once h.admittedOnce ?_
        cases hparent : s.blockchain.value.blocks.containsKey block.head.parent with
        | true =>
            refine admitChild_once h hknown (hfresh hwork hknown) fun admitted s' h' => ?_
            obtain ⟨shared, admissions⟩ := s'
            cases admitted with
            | false => exact releaseOrphans_once _ _ h'
            | true => exact releaseOrphans_once _ _ h'
        | false => exact h.keep hknown (hfresh hwork hknown)
  next => exact h

theorem foldlM_once {peer : PeerId} {message : Message} {blocks : List Block}
    (h : OnceInvariant C loop (s, admissions))
    (hfresh : BlocksFresh C build peer message blocks loop s) :
    ((blocks.foldlM (processBlock C build peer message) loop).admitting C build).wp
      (fun loop s' => OnceInvariant C loop s') (fun _ => AdmittedOnce) (s, admissions) := by
  induction blocks generalizing loop s admissions with
  | nil => exact h
  | cons block rest ih =>
      rw [List.foldlM_cons, NodeProgram.admitting, Program.run_bind, Effect.wp_bind]
      refine Effect.wp_and (processBlock_once h hfresh.1)
        ((Program.wp_run_recording _).mpr hfresh.2) ?_ fun _ _ hstop _ => hstop
      intro loop s' h' hrest
      obtain ⟨shared, admissions⟩ := s'
      exact ih h' hrest

/-- The worker announces what it admitted, once. -/
theorem OnceInvariant.announce (h : OnceInvariant C loop (s, admissions)) :
    OnceInvariant C { orphanBlocks := loop.orphanBlocks }
      ({ s with sent := s.sent ++ [.broadcast (.newBlockHashes loop.newBlocks)] }, admissions) := by
  have hsent : announcedHashes (s.sent ++ [.broadcast (.newBlockHashes loop.newBlocks)]) ++ [] =
      announcedHashes s.sent ++ loop.newBlocks := by
    rw [announcedHashes_concat, List.append_nil]
    exact congrArg _ (List.append_nil _)
  refine ⟨h.once, h.blocks, h.states, h.waiting, h.distinct, ?_, fun hash hmem => ?_⟩
  · rw [hsent]
    exact h.announced
  · rw [hsent] at hmem
    exact h.known hash hmem

theorem processBlocks_once {peer : PeerId} {orphanBlocks blocks : List Block}
    (h : OnceInvariant C { orphanBlocks } (s, admissions))
    (hfresh : BlocksFresh C build peer (.blocks blocks) blocks { orphanBlocks } s) :
    ((processBlocks C build peer orphanBlocks blocks).admitting C build).wp
      (fun orphanBlocks s' => OnceInvariant C { orphanBlocks } s') (fun _ => AdmittedOnce)
      (s, admissions) := by
  unfold processBlocks
  rw [NodeProgram.admitting, Program.run_bind, Effect.wp_bind]
  refine Effect.wp_mono (foldlM_once h hfresh) (fun loop s' h' => ?_) fun _ _ h => h
  obtain ⟨shared, admissions⟩ := s'
  split
  next => exact h'.announce
  next hnone =>
    have hempty : loop.newBlocks = [] := List.length_eq_zero_iff.mp (by omega)
    refine ⟨h'.once, h'.blocks, h'.states, h'.waiting, h'.distinct, ?_, fun hash hmem => ?_⟩
    · exact hempty ▸ h'.announced
    · exact h'.known hash (hempty ▸ hmem)

theorem handleBlocks_once {orphanBlocks : List Block} {messages : List (PeerId × List Block)}
    (h : OnceInvariant C { orphanBlocks } (s, admissions))
    (hfresh : MessagesFresh C build messages orphanBlocks s) :
    ((handleBlocks C build orphanBlocks messages).admitting C build).wp
      (fun _ => AdmittedOnce) (fun _ => AdmittedOnce) (s, admissions) := by
  induction messages generalizing orphanBlocks s admissions with
  | nil => exact h.admittedOnce
  | cons message rest ih =>
      rw [handleBlocks, List.foldlM_cons, NodeProgram.admitting, Program.run_bind, Effect.wp_bind]
      refine Effect.wp_and (processBlocks_once h hfresh.1)
        ((Program.wp_run_recording _).mpr hfresh.2) ?_ fun _ _ hstop _ => hstop
      intro orphanBlocks s' h' hrest
      obtain ⟨shared, admissions⟩ := s'
      exact ih h' hrest

/-- When no block arrives while another one with its hash waits, a lone worker writes under
the hash of a stored block never, changes nothing it has written, and announces no hash
twice, whether it goes on or panics. -/
theorem blocks_admittedOnce (C : Crypto) (build : Build) (icoKey : Ed25519KeyPair)
    (messages : List (PeerId × List Block))
    (hfresh : MessagesFresh C build messages [] (Shared.initial C icoKey)) :
    ((handleBlocks C build [] messages).admitting C build).wp
      (fun _ => AdmittedOnce) (fun _ => AdmittedOnce)
      (Shared.initial C icoKey, .initial C icoKey) :=
  handleBlocks_once (initial_once icoKey) hfresh

/-- A child that arrives before its parent. -/
theorem blocks_admittedOnce_childBlock :
    ((handleBlocks .sample .release [] [(0, [childBlock]), (0, [uncommittedBlock])]).admitting
      .sample .release).wp (fun _ => AdmittedOnce) (fun _ => AdmittedOnce)
      (Shared.initial .sample Crypto.sampleKey, .initial .sample Crypto.sampleKey) := by
  refine blocks_admittedOnce .sample .release Crypto.sampleKey _ ?_
  decide +kernel

/-- A child that arrives twice before its parent is written and announced twice. -/
theorem not_blocks_admittedOnce :
    ¬ ∀ messages : List (PeerId × List Block),
      ((handleBlocks .sample .release [] messages).admitting .sample .release).wp
        (fun _ => AdmittedOnce) (fun _ => AdmittedOnce)
        (Shared.initial .sample Crypto.sampleKey, .initial .sample Crypto.sampleKey) := by
  intro hall
  have htwice :
      ((handleBlocks .sample .release []
        [(0, [childBlock]), (0, [childBlock]), (0, [uncommittedBlock])]).admitting .sample
          .release).wp (fun _ s => s.2.repeated = true ∧ ¬ (announcedHashes s.1.sent).Nodup)
        (fun _ _ => False)
        (Shared.initial .sample Crypto.sampleKey, .initial .sample Crypto.sampleKey) := by
    decide +kernel
  obtain ⟨_, s, hrun, hrepeated, _⟩ := Effect.exists_ok_of_wp htwice
  have honce := (Effect.wp_of_ok hrun).mp (hall _)
  rw [honce.once] at hrepeated
  cases hrepeated

end BitcoinClient
