import BitcoinClient.Node.ChainContract
import BitcoinClient.Node.Rounds

/-! # The threads of the node meet the contract about the block tree -/

namespace BitcoinClient

variable {C : Crypto} {build : Build} {adm mined : Block → Prop} {s : Shared}

/-- A program that meets the contract about the block tree. -/
abbrev NodeProgram.ChainMeets {α : Type} (C : Crypto) (build : Build) (adm mined : Block → Prop)
    (post : α → Shared → Prop) (program : NodeProgram α) (s : Shared) : Prop :=
  Program.Meets (Op.action C build) (chainContract C adm mined) post program s

/-- An orphan was checked against its own difficulty only. -/
def OrphanChecked (C : Crypto) (adm : Block → Prop) (block : Block) : Prop :=
  block.hash C ≤ block.head.difficulty ∧ adm block

/-- What a thread knows between two rounds. -/
def chainLoop (C : Crypto) (adm : Block → Prop) : Task → Shared → Prop
  | .network orphanBlocks, _ => ∀ block ∈ orphanBlocks, OrphanChecked C adm block
  | _, _ => True

/-- The rule for one operation. `info` is what its result says about the memory. -/
theorem chain_perform {α : Type} {op : Op} {next : op.Result → NodeProgram α}
    {post : α → Shared → Prop} (info : op.Result → Shared → Prop)
    (hpre : ∀ s', Grows s s' → ChainInvariant C adm s' → (chainContract C adm mined).pre op s')
    (hinfo : ∀ s', ChainInvariant C adm s' → (op.action C build).wp info (fun _ _ => True) s')
    (hnext : ∀ result s', Grows s s' → ChainInvariant C adm s' → info result s' →
      NodeProgram.ChainMeets C build adm mined post (next result) s') :
    NodeProgram.ChainMeets C build adm mined post (NodeProgram.call op >>= next) s := by
  intro s' hgrows hinv
  refine ⟨hpre s' hgrows hinv, fun hallowed => ?_⟩
  refine Effect.wp_and (chain_op op hinv (hpre s' hgrows hinv) hallowed) (hinfo s' hinv) ?_
    fun _ _ _ _ => trivial
  intro result s'' hkept hresult _
  exact hnext result s'' (hgrows.trans hkept.2) hkept.1 hresult

/-- The rule for an operation whose result does not matter. -/
theorem chain_perform_any {α : Type} {op : Op} {next : op.Result → NodeProgram α}
    {post : α → Shared → Prop}
    (hpre : ∀ s', Grows s s' → ChainInvariant C adm s' → (chainContract C adm mined).pre op s')
    (hnext : ∀ result s', Grows s s' → ChainInvariant C adm s' →
      NodeProgram.ChainMeets C build adm mined post (next result) s') :
    NodeProgram.ChainMeets C build adm mined post (NodeProgram.call op >>= next) s :=
  chain_perform (fun _ _ => True) hpre (fun _ _ => Effect.wp_true)
    fun result s' hgrows hinv _ => hnext result s' hgrows hinv

theorem chain_panic {α : Type} {reason : Panic} {post : α → Shared → Prop}
    (hreason : reason.isLookup = false) :
    NodeProgram.ChainMeets C build adm mined post (NodeProgram.panic reason) s :=
  fun _ _ _ => ⟨hreason, fun _ => trivial⟩

/-! ## Admission -/

theorem checkTxState_chainMeets {parentHash blockHash : H256} {txs : List SignedTransaction}
    {post : Bool → Shared → Prop}
    (hparent : s.blockchain.value.blocks.containsKey parentHash = true)
    (hpost : ∀ result s', Grows s s' → ChainInvariant C adm s' →
      (result = true → s'.blockState.value.containsKey blockHash = true) → post result s') :
    NodeProgram.ChainMeets C build adm mined post
      (checkTxState C build parentHash txs blockHash) s := by
  unfold checkTxState
  refine chain_perform_any (fun s' hgrows hinv _ => hinv.states _ (hgrows.blocks _ hparent)) ?_
  intro state s' hgrows hinv
  split
  next => exact hpost false s' hgrows hinv nofun
  next => exact chain_panic rfl
  next next _ =>
    refine chain_perform (fun _ s'' => s''.blockState.value.containsKey blockHash = true)
      (fun _ _ _ => trivial) ?_ ?_
    · intro s'' _
      simp only [Op.action, wp_writeBlockState]
      refine ⟨fun _ => trivial, fun _ => ?_⟩
      exact HashMap.containsKey_of_get (HashMap.get_insert_self _ _ _)
    · intro _ s'' hgrows' hinv' hstate
      exact hpost true s'' (hgrows.trans hgrows') hinv' fun _ => hstate

theorem admitBlock_chainMeets {block : Block} {post : Bool → Shared → Prop}
    (hblock : Insertable C adm s.blockchain.value.blocks block)
    (hpost : ∀ result s', Grows s s' → ChainInvariant C adm s' →
      (result = true → s'.blockchain.value.blocks.containsKey (block.hash C) = true) →
      post result s') :
    NodeProgram.ChainMeets C build adm mined post (admitBlock C build block) s := by
  unfold admitBlock
  rw [NodeProgram.ChainMeets, Program.meets_bind]
  refine checkTxState_chainMeets hblock.parent fun valid s' hgrows hinv hstate => ?_
  cases valid with
  | false => exact hpost false s' hgrows hinv nofun
  | true =>
      refine chain_perform
        (fun _ s'' => s''.blockchain.value.blocks.containsKey (block.hash C) = true)
        (fun s'' hgrows' _ => ⟨(hblock.mono hgrows).mono hgrows', hgrows'.states _ (hstate rfl)⟩)
        ?_ ?_
      · intro s'' _
        simp only [Op.action, wp_insertBlock]
        refine ⟨fun _ => trivial, fun _ => ?_⟩
        split
        next next hinsert => exact (Blockchain.containsKey_of_insert hinsert).mpr (Or.inl rfl)
        next => trivial
      · intro _ s'' hgrows' hinv' hstored
        exact hpost true s'' (hgrows.trans hgrows') hinv' fun _ => hstored

/-! ## The network worker -/

/-- Stored blocks have the fixed difficulty. -/
theorem ChainInvariant.difficulty_eq (h : ChainInvariant C adm s) {hash : H256} {block : Block}
    {height : UInt32} (hget : s.blockchain.value.blocks.get hash = some (block, height)) :
    block.head.difficulty = Blockchain.genesisDifficulty := by
  obtain ⟨_, rfl | hinsertable⟩ := h.stored hash block height hget
  · rfl
  · exact hinsertable.wellMined.1

/-- A checked orphan with the difficulty of a stored parent can be inserted. -/
theorem OrphanChecked.insertable {block : Block} (h : OrphanChecked C adm block)
    (hinv : ChainInvariant C adm s) {parent : Block} {height : UInt32}
    (hget : s.blockchain.value.blocks.get block.head.parent = some (parent, height))
    (hdifficulty : block.head.difficulty = parent.head.difficulty) :
    Insertable C adm s.blockchain.value.blocks block := by
  have hfixed := hdifficulty.trans (hinv.difficulty_eq hget)
  exact ⟨⟨hfixed, hfixed ▸ h.1⟩, HashMap.containsKey_of_get hget, h.2⟩

/-- The result of a lookup that found its block. -/
theorem chain_getBlock {α : Type} {hash : H256} {next : Block × UInt32 → NodeProgram α}
    {post : α → Shared → Prop}
    (hstored : HeadersDistinct C adm → s.blockchain.value.blocks.containsKey hash = true)
    (hnext : ∀ entry s', Grows s s' → ChainInvariant C adm s' →
      s'.blockchain.value.blocks.get hash = some entry →
      NodeProgram.ChainMeets C build adm mined post (next entry) s') :
    NodeProgram.ChainMeets C build adm mined post (NodeProgram.call (.getBlock hash) >>= next) s :=
  chain_perform (fun entry s' => s'.blockchain.value.blocks.get hash = some entry)
    (fun _ hgrows _ hdistinct => hgrows.blocks hash (hstored hdistinct))
    (fun s' _ => by
      simp only [Op.action, wp_getBlock]
      refine ⟨fun _ => trivial, fun _ => ?_⟩
      split
      next hget => exact hget
      next => trivial)
    hnext

theorem chain_containsBlock {α : Type} {hash : H256} {next : Bool → NodeProgram α}
    {post : α → Shared → Prop}
    (hnext : ∀ result s', Grows s s' → ChainInvariant C adm s' →
      (result = true → s'.blockchain.value.blocks.containsKey hash = true) →
      NodeProgram.ChainMeets C build adm mined post (next result) s') :
    NodeProgram.ChainMeets C build adm mined post
      (NodeProgram.call (.containsBlock hash) >>= next) s :=
  chain_perform
    (fun result s' => result = true → s'.blockchain.value.blocks.containsKey hash = true)
    (fun _ _ _ => trivial)
    (fun s' _ => by
      simp only [Op.action, wp_containsBlock]
      exact ⟨fun _ => trivial, fun _ => id⟩)
    hnext

/-- What the loop over a `Blocks` message keeps. -/
structure ChainLoop (C : Crypto) (adm : Block → Prop) (loop : BlocksLoop) (s : Shared) : Prop where
  inv : ChainInvariant C adm s
  orphans : ∀ block ∈ loop.orphanBlocks, OrphanChecked C adm block
  newBlocks : ∀ hash ∈ loop.newBlocks, s.blockchain.value.blocks.containsKey hash = true

theorem ChainLoop.mono {loop : BlocksLoop} {s' : Shared} (h : ChainLoop C adm loop s)
    (hgrows : Grows s s') (hinv : ChainInvariant C adm s') : ChainLoop C adm loop s' :=
  ⟨hinv, h.orphans, fun hash hmem => hgrows.blocks hash (h.newBlocks hash hmem)⟩

theorem releaseOrphans_chainMeets (loop : BlocksLoop) (i : Nat) (h : ChainLoop C adm loop s) :
    NodeProgram.ChainMeets C build adm mined (ChainLoop C adm) (releaseOrphans C build loop i)
      s := by
  induction loop, i using releaseOrphans.induct C generalizing s with
  | case1 loop i hn hi blockToUnorphan hparent orphanBlocks ihAdmitted =>
      rename_i ihDropped
      have horphans : ∀ block ∈ orphanBlocks, OrphanChecked C adm block :=
        fun block hblock => h.orphans block (List.mem_of_mem_eraseIdx hblock)
      have hdropped : ∀ s', Grows s s' → ChainInvariant C adm s' →
          ChainLoop C adm { loop with orphanBlocks } s' := fun s' hgrows hinv =>
        ⟨hinv, horphans, (h.mono hgrows hinv).newBlocks⟩
      rw [releaseOrphans, dif_pos hn, dif_pos hi]
      simp only
      rw [if_pos hparent]
      -- The parent is one of the new blocks, which are stored.
      refine chain_getBlock (fun _ => h.newBlocks _ (List.getElem_mem hn)) ?_
      intro parent s' hgrows hinv hget
      split
      next hdifficulty =>
        have hchecked := h.orphans blockToUnorphan (List.getElem_mem hi)
        rw [← hparent] at hget
        rw [NodeProgram.ChainMeets, Program.meets_bind]
        refine admitBlock_chainMeets (hchecked.insertable hinv hget hdifficulty) ?_
        intro admitted s'' hgrows' hinv' hstored
        have hrest := hdropped s'' (hgrows.trans hgrows') hinv'
        cases admitted with
        | false => exact ihDropped hrest
        | true =>
            refine ihAdmitted ⟨hinv', horphans, fun hash hmem => ?_⟩
            rcases List.mem_append.mp hmem with hmem | hmem
            · exact hrest.newBlocks hash hmem
            · rw [List.mem_singleton.mp hmem]
              exact hstored rfl
      next => exact ihDropped (hdropped s' hgrows hinv)
  | case2 loop i hn hi blockToUnorphan hparent =>
      rename_i ih
      rw [releaseOrphans, dif_pos hn, dif_pos hi]
      simp only
      rw [if_neg hparent]
      exact ih h
  | case3 loop i hn hi ih =>
      rw [releaseOrphans, dif_pos hn, dif_neg hi]
      exact ih ⟨h.inv, h.orphans, h.newBlocks⟩
  | case4 loop i hn =>
      rw [releaseOrphans, dif_neg hn]
      exact h

theorem processBlock_chainMeets {peer : PeerId} {message : Message} {loop : BlocksLoop}
    {block : Block} (hblock : adm block) (h : ChainLoop C adm loop s) :
    NodeProgram.ChainMeets C build adm mined (ChainLoop C adm)
      (processBlock C build peer message loop block) s := by
  simp only [processBlock]
  split
  next hwork =>
    refine chain_containsBlock fun known s' hgrows hinv _ => ?_
    cases known with
    | true => exact h.mono hgrows hinv
    | false =>
        refine chain_containsBlock fun hasParent s'' hgrows' hinv' hparent => ?_
        have hloop := (h.mono hgrows hinv).mono hgrows' hinv'
        -- Without its parent the block joins the orphans.
        cases hasParent with
        | false =>
            refine chain_perform_any (fun _ _ _ => trivial) fun _ s₃ hgrows₃ hinv₃ => ?_
            have hloop₃ := hloop.mono hgrows₃ hinv₃
            refine ⟨hinv₃, fun orphan horphan => ?_, hloop₃.newBlocks⟩
            rcases List.mem_append.mp horphan with horphan | horphan
            · exact h.orphans orphan horphan
            · rw [List.mem_singleton.mp horphan]
              exact ⟨hwork, hblock⟩
        | true =>
            refine chain_getBlock (fun _ => hparent rfl) fun parent s₃ hgrows₃ hinv₃ hget => ?_
            have hloop₃ := hloop.mono hgrows₃ hinv₃
            split
            next hdifficulty =>
              have hchecked : OrphanChecked C adm block := ⟨hwork, hblock⟩
              rw [NodeProgram.ChainMeets, Program.meets_bind]
              refine admitBlock_chainMeets (hchecked.insertable hinv₃ hget hdifficulty) ?_
              intro admitted s₄ hgrows₄ hinv₄ hstored
              have hloop₄ := hloop₃.mono hgrows₄ hinv₄
              cases admitted with
              | false => exact releaseOrphans_chainMeets _ _ hloop₄
              | true =>
                  refine releaseOrphans_chainMeets _ _ ⟨hinv₄, hloop₄.orphans, fun hash hmem => ?_⟩
                  rcases List.mem_append.mp hmem with hmem | hmem
                  · exact hloop₄.newBlocks hash hmem
                  · rw [List.mem_singleton.mp hmem]
                    exact hstored rfl
            next => exact releaseOrphans_chainMeets _ _ hloop₃
  next => exact h

theorem processBlocks_chainMeets {peer : PeerId} {orphanBlocks blocks : List Block}
    (hinv : ChainInvariant C adm s) (horphans : ∀ block ∈ orphanBlocks, OrphanChecked C adm block)
    (hblocks : ∀ block ∈ blocks, adm block) :
    NodeProgram.ChainMeets C build adm mined
      (fun orphanBlocks _ => ∀ block ∈ orphanBlocks, OrphanChecked C adm block)
      (processBlocks C build peer orphanBlocks blocks) s := by
  unfold processBlocks
  rw [NodeProgram.ChainMeets, Program.meets_bind]
  have hstart : ChainLoop C adm { orphanBlocks } s := ⟨hinv, horphans, nofun⟩
  refine (Program.meets_foldlM hstart fun block hmem loop s hloop =>
    processBlock_chainMeets (hblocks block hmem) hloop).mono fun loop s hloop => ?_
  split
  next => exact chain_perform_any (fun _ _ _ => trivial) fun _ _ _ _ => hloop.orphans
  next => exact hloop.orphans

theorem chain_free {α : Type} {post : α → Shared → Prop} {Q : α → Prop} {program : NodeProgram α}
    (h : program.All (fun op => op.isFree = true) Q) (hpost : ∀ value s, Q value → post value s) :
    NodeProgram.ChainMeets C build adm mined post program s := by
  refine h.meets ?_ hpost
  intro op hfree s
  cases op with
  | getBlock hash => cases hfree
  | readBlockState hash => cases hfree
  | insertBlock block => cases hfree
  | finishBlock block => cases hfree
  | panic reason =>
      change reason.isLookup = false
      simpa [Op.isFree] using hfree
  | _ => trivial

theorem handleMessage_chainMeets {peer : PeerId} {orphanBlocks : List Block} {message : Message}
    (hinv : ChainInvariant C adm s) (horphans : ∀ block ∈ orphanBlocks, OrphanChecked C adm block)
    (hblocks : ∀ blocks, message = .blocks blocks → ∀ block ∈ blocks, adm block) :
    NodeProgram.ChainMeets C build adm mined
      (fun orphanBlocks _ => ∀ block ∈ orphanBlocks, OrphanChecked C adm block)
      (handleMessage C build peer orphanBlocks message) s := by
  by_cases hmessage : ∃ blocks, message = .blocks blocks
  · obtain ⟨blocks, rfl⟩ := hmessage
    exact processBlocks_chainMeets hinv horphans (hblocks blocks rfl)
  · refine chain_free (handleMessage_free peer orphanBlocks message ?_) ?_
    · exact fun blocks heq => hmessage ⟨blocks, heq⟩
    · exact fun _ _ heq => heq ▸ horphans

/-! ## The miner and its worker -/

/-- The header's Merkle root is that of the content. -/
def Commits (C : Crypto) (block : Block) : Prop :=
  ∃ tree, MerkleTree.new C (SignedTransaction.hash C) block.cont.st = .ok tree ∧
    tree.root = .ok block.head.merkleRoot

theorem chain_readTip {α : Type} {next : H256 → NodeProgram α} {post : α → Shared → Prop}
    (hnext : ∀ tip s', Grows s s' → ChainInvariant C adm s' → s'.blockchain.value.tip = tip →
      NodeProgram.ChainMeets C build adm mined post (next tip) s') :
    NodeProgram.ChainMeets C build adm mined post (NodeProgram.call .readTip >>= next) s :=
  chain_perform (fun tip s' => s'.blockchain.value.tip = tip) (fun _ _ _ => trivial)
    (fun _ _ => wp_readTip.mpr ⟨fun _ => trivial, fun _ => rfl⟩) hnext

theorem selectTransactions_free (miner : Miner)
    (iteration : HashMap.Iteration H256 SignedTransaction) :
    (selectTransactions miner iteration).All (fun op => op.isFree = true) fun _ => True := by
  unfold selectTransactions
  split
  next => exact ⟨rfl, fun _ => trivial⟩
  next => trivial

theorem mineBlock_chainMeets {miner : Miner} {nonce : UInt32} {timestamp : BitVec 128}
    (hmined : ∀ block, Commits C block → mined block → adm block) :
    NodeProgram.ChainMeets C build adm mined (fun _ _ => True)
      (mineBlock C miner nonce timestamp) s := by
  obtain ⟨tree, root, htree, hroot⟩ :=
    MerkleTree.new_root_ok (C := C) (SignedTransaction.hash C) miner.transaction
  simp only [mineBlock, htree, NodeProgram.ofExcept, Program.done_bind, hroot]
  refine chain_readTip fun tip s' _ hinv htip => ?_
  split
  next hwork =>
    refine chain_perform_any (fun s'' hgrows _ hblock => ?_) fun _ s'' _ _ => ?_
    · refine ⟨⟨rfl, hwork⟩, hgrows.blocks _ ?_, hmined _ ⟨tree, htree, hroot⟩ hblock⟩
      rw [← htip]
      exact hinv.tip
    · refine chain_free (Q := fun _ => True) ?_ fun _ _ _ => trivial
      rw [Program.all_bind]
      have hremove : ∀ item : H256, (NodeProgram.call (.mempoolRemove item)).All
          (fun op => op.isFree = true) fun _ => True := fun item => ⟨rfl, fun _ => trivial⟩
      exact (Program.all_forM hremove).mono (fun _ => id) fun _ _ => trivial
  next => trivial

theorem minerRound_chainMeets {miner : Miner} {nonce : UInt32} {timestamp : BitVec 128}
    {iteration : HashMap.Iteration H256 SignedTransaction}
    (hmined : ∀ block, Commits C block → mined block → adm block) :
    NodeProgram.ChainMeets C build adm mined (fun _ _ => True)
      (minerRound C miner nonce timestamp iteration) s := by
  unfold minerRound
  split
  next => exact chain_perform_any (fun _ _ _ => trivial) fun _ _ _ _ => trivial
  next => trivial
  next =>
    refine chain_perform_any (fun _ _ _ => trivial) fun signal s' _ _ => ?_
    simp only
    split
    next => trivial
    next =>
      rw [NodeProgram.ChainMeets, Program.meets_bind]
      refine chain_free (selectTransactions_free _ _) fun miner s'' _ => ?_
      rw [Program.meets_bind]
      exact (mineBlock_chainMeets hmined).mono fun _ _ _ => trivial

theorem minerWorkerRound_chainMeets :
    NodeProgram.ChainMeets C build adm mined (fun _ _ => True) (minerWorkerRound C build) s := by
  unfold minerWorkerRound
  refine chain_perform
    (fun finished s' => ∀ block ∈ finished, Insertable C adm s'.blockchain.value.blocks block)
    (fun _ _ _ => trivial) ?_ ?_
  · intro s' hinv block hblock
    exact hinv.queued block (List.mem_of_head? hblock)
  · intro finished s' _ _ hfinished
    cases finished with
    | none => trivial
    | some block =>
        rw [NodeProgram.ChainMeets, Program.meets_bind]
        refine admitBlock_chainMeets (hfinished block rfl) fun admitted s'' _ _ _ => ?_
        cases admitted with
        | false => trivial
        | true => exact chain_perform_any (fun _ _ _ => trivial) fun _ _ _ _ => trivial

/-! ## The generator -/

theorem start_chainMeets :
    NodeProgram.ChainMeets C build adm mined (fun _ _ => True) GeneLoop.start s := by
  refine chain_readTip fun tip s' _ hinv htip => ?_
  refine chain_perform_any (fun s'' hgrows hinv' _ => ?_) fun _ _ _ _ => trivial
  exact hgrows.states tip (hinv.states tip (htip ▸ hinv.tip))

theorem refresh_chainMeets {generator : Generator} :
    NodeProgram.ChainMeets C build adm mined (fun _ _ => True) (GeneLoop.refresh generator) s := by
  refine chain_readTip fun tip s' _ hinv htip => ?_
  split
  next => trivial
  next =>
    refine chain_perform_any (fun s'' hgrows hinv' _ => ?_) fun _ _ _ _ => trivial
    exact hgrows.states tip (hinv.states tip (htip ▸ hinv.tip))

theorem round_chainMeets {geneLoop : GeneLoop} {generator : Generator}
    {iteration : HashMap.Iteration (H256 × UInt8) (UInt32 × Address)} :
    NodeProgram.ChainMeets C build adm mined (fun _ _ => True)
      (geneLoop.round C generator iteration) s := by
  unfold GeneLoop.round
  split
  next => exact chain_perform_any (fun _ _ _ => trivial) fun _ _ _ _ => trivial
  next => trivial
  next =>
    refine chain_perform_any (fun _ _ _ => trivial) fun signal s' _ _ => ?_
    simp only
    split
    next => trivial
    next =>
      rw [NodeProgram.ChainMeets, Program.meets_bind]
      refine refresh_chainMeets.mono fun generator s'' _ => ?_
      rw [Program.meets_bind]
      exact chain_free (generate_free geneLoop generator iteration) fun _ _ _ => trivial

/-! ## The endpoints -/

theorem walkTxs_chainMeets (height : Nat) (nextHash : H256) (hashes : List (List H256))
    (hinv : ChainInvariant C adm s)
    (hwalk : HeadersDistinct C adm → ∀ steps, steps + 1 = height →
      Descends s.blockchain.value.blocks steps nextHash) :
    NodeProgram.ChainMeets C build adm mined (fun _ _ => True)
      (Api.walkTxs C height nextHash hashes) s := by
  induction height generalizing s nextHash hashes with
  | zero => trivial
  | succ height ih =>
      refine chain_getBlock (fun hdistinct => (hwalk hdistinct height rfl).contains) ?_
      intro entry s' hgrows hinv' hget
      refine ih _ _ hinv' fun hdistinct steps hsteps => ?_
      subst hsteps
      exact (hinv.descends_mono hinv' hgrows hdistinct (hwalk hdistinct _ rfl)).parent hget

theorem walkDown_chainMeets (steps : Nat) (nextHash : H256) (block : Block) {height : UInt32}
    {α : Type} {next : H256 → NodeProgram α} (hinv : ChainInvariant C adm s)
    (hget : s.blockchain.value.blocks.get nextHash = some (block, height))
    (hwalk : HeadersDistinct C adm → Descends s.blockchain.value.blocks steps nextHash)
    (hnext : ∀ hash s', ChainInvariant C adm s' →
      s'.blockchain.value.blocks.containsKey hash = true →
      NodeProgram.ChainMeets C build adm mined (fun _ _ => True) (next hash) s') :
    NodeProgram.ChainMeets C build adm mined (fun _ _ => True)
      (Api.walkDown steps nextHash block >>= next) s := by
  induction steps generalizing s nextHash block height with
  | zero => exact hnext nextHash s hinv (HashMap.containsKey_of_get hget)
  | succ steps ih =>
      refine chain_getBlock (fun hdistinct => ((hwalk hdistinct).parent hget).contains) ?_
      intro entry s' hgrows hinv' hget'
      refine ih block.head.parent entry.1 hinv' hget' fun hdistinct => ?_
      exact hinv.descends_mono hinv' hgrows hdistinct ((hwalk hdistinct).parent hget)

theorem longestChainTx_chainMeets :
    NodeProgram.ChainMeets C build adm mined (fun _ _ => True) (Api.longestChainTx C) s := by
  refine chain_readTip fun tip s' _ hinv htip => ?_
  refine chain_getBlock (fun _ => htip ▸ hinv.tip) fun entry s'' _ hinv' hget => ?_
  rw [NodeProgram.ChainMeets, Program.meets_bind]
  refine Program.Meets.mono (walkTxs_chainMeets _ _ _ hinv' fun hdistinct steps hsteps => ?_)
    fun _ _ _ => trivial
  have hdescends := hinv'.heights hdistinct tip entry.1 entry.2 hget
  rw [← hsteps] at hdescends
  exact hdescends.parent hget

theorem stateAt_chainMeets (blockIndex : UInt32) :
    NodeProgram.ChainMeets C build adm mined (fun _ _ => True) (Api.stateAt blockIndex) s := by
  refine chain_readTip fun tip s' _ hinv htip => ?_
  refine chain_getBlock (fun _ => htip ▸ hinv.tip) fun entry s'' _ hinv' hget => ?_
  refine walkDown_chainMeets _ tip entry.1 hinv' hget (fun hdistinct => ?_) ?_
  · exact (hinv'.heights hdistinct tip entry.1 entry.2 hget).le (Nat.sub_le _ _)
  · intro hash s₃ hinv₃ hstored
    refine chain_perform_any (fun s₄ hgrows₄ hinv₄ _ => ?_) fun _ _ _ _ => trivial
    exact hinv₄.states hash (hgrows₄.blocks hash hstored)

theorem serve_chainMeets (request : ApiRequest) :
    NodeProgram.ChainMeets C build adm mined (fun _ _ => True) (Api.serve C request) s := by
  cases request with
  | minerStart lambda => exact chain_perform_any (fun _ _ _ => trivial) fun _ _ _ _ => trivial
  | txGeneratorStart theta => exact chain_perform_any (fun _ _ _ => trivial) fun _ _ _ _ => trivial
  | networkPing => exact chain_perform_any (fun _ _ _ => trivial) fun _ _ _ _ => trivial
  | longestChain => exact chain_perform_any (fun _ _ _ => trivial) fun _ _ _ _ => trivial
  | longestChainTx =>
      exact (Program.meets_bind _ _).mpr (longestChainTx_chainMeets.mono fun _ _ _ => trivial)
  | longestChainTxCount => trivial
  | state block =>
      exact (Program.meets_bind _ _).mpr ((stateAt_chainMeets block).mono fun _ _ _ => trivial)
  | notFound => trivial

/-! ## Whole runs -/

/-- Every round of every thread meets the contract. -/
theorem nodeBody_chainMeets {geneLoop : GeneLoop} {task : Task} {choice : Choice}
    {program : NodeProgram Task}
    (hmined : ∀ block, Commits C block → mined block → adm block)
    (hdelivered : ∀ block ∈ choice.blocks, adm block)
    (hinv : ChainInvariant C adm s) (hloop : chainLoop C adm task s)
    (hbody : nodeBody C build geneLoop task choice = some program) :
    NodeProgram.ChainMeets C build adm mined (chainLoop C adm) program s := by
  unfold nodeBody at hbody
  split at hbody
  all_goals cases hbody
  next orphanBlocks peer message =>
    exact (Program.meets_bind _ _).mpr (Program.Meets.mono (handleMessage_chainMeets hinv hloop
      fun blocks heq => by subst heq; exact hdelivered) fun _ _ h => h)
  next => trivial
  next miner nonce timestamp iteration =>
    refine (Program.meets_bind _ _).mpr ((minerRound_chainMeets hmined).mono ?_)
    intro miner s' _
    cases miner <;> trivial
  next => exact (Program.meets_bind _ _).mpr (minerWorkerRound_chainMeets.mono fun _ _ _ => trivial)
  next => exact (Program.meets_bind _ _).mpr (start_chainMeets.mono fun _ _ _ => trivial)
  next generator iteration =>
    refine (Program.meets_bind _ _).mpr (round_chainMeets.mono ?_)
    intro generator s' _
    cases generator <;> trivial
  next request =>
    exact (Program.meets_bind _ _).mpr ((serve_chainMeets request).mono fun _ _ _ => trivial)

/-- In every run from `main`'s initial state the invariant holds, and each thread is
either within its contract or stopped with a panic that the contract allows. -/
theorem node_chainInvariant {geneLoop : GeneLoop} {icoKey : Ed25519KeyPair}
    {workers requests : Nat} {node : Node workers requests}
    {guard : Node workers requests → ThreadId workers requests → Choice → Prop}
    (adm mined : Block → Prop) (hmined : ∀ block, Commits C block → mined block → adm block)
    (hguard : ∀ node who choice, guard node who choice →
      (∀ block ∈ choice.blocks, adm block) ∧ ∀ block ∈ node.finishing who, mined block)
    (hreach : (nodeMachine C build geneLoop).Reachable guard
      (Node.start C icoKey workers requests) node) :
    ChainInvariant C adm node.shared ∧ ∀ who, (node.threads who).Meets (Op.action C build)
      (chainContract C adm mined) (ChainFailure C adm) (chainLoop C adm) node.shared := by
  refine Program.Reachable.meets (chainContract C adm mined) (ChainFailure C adm)
    (chainLoop C adm) (fun _ => Grows.refl) (fun _ _ _ _ => Grows.trans) ?_ ?_ ?_ ?_ hreach
  · refine ⟨ChainInvariant.initial icoKey, fun who => ⟨.start who, rfl, ?_⟩⟩
    cases who <;> simp [Task.start, chainLoop]
  · intro task s s' _ _ _ hloop
    cases task <;> exact hloop
  · intro node who choice task program hmeets _ hinv hloop hbody
    exact nodeBody_chainMeets hmined (hguard node who choice hmeets).1 hinv hloop hbody
  · intro node who choice op next hmeets hthread hinv hpre
    have hallowed : (chainContract C adm mined).allowed op node.shared := by
      cases op with
      | finishBlock block =>
          apply (hguard node who choice hmeets).2
          rw [Node.finishing, hthread]
          rfl
      | _ => trivial
    refine ⟨hallowed, Effect.wp_mono (chain_op op hinv hpre hallowed) ?_ ?_⟩
    · exact fun _ _ hkept => ⟨hkept.1, fun _ _ => hkept.2⟩
    · exact fun _ _ hkept => ⟨hkept.1, hkept.2.1, fun _ _ => hkept.2.2⟩

end BitcoinClient
