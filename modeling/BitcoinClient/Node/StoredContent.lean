import BitcoinClient.Node.MempoolSafety

/-! # The stores are content-addressed

Whoever inserts into the block tree or the mempool computes the key from the value, and a
transaction enters the mempool only with a signature that verifies. No assumption on the
hash function is needed, nor on what the network delivers.

The contract also says when the lock of the block tree can be lost. Nothing but the
endpoints that walk back through the tree looks up a block that was not seen there before,
so without them only a height that no longer fits into 32 bits can stop a thread that
holds the lock.
-/

namespace BitcoinClient

open NodeProgram (call)

/-- The requests that walk back through the block tree. -/
def ApiRequest.walks : ApiRequest → Bool
  | .longestChain | .longestChainTx | .state _ => true
  | _ => false

/-- The API request that a round serves. -/
def Choice.requests : Choice → List ApiRequest
  | .request served => [served]
  | _ => []

section Definitions

variable (C : Crypto) (build : Build) (quiet : Prop)

/-- Every key is the hash of what is stored under it, and what the mempool holds is signed. -/
structure ContentAddressed (s : Shared) : Prop where
  blocks : ∀ hash entry, s.blockchain.value.blocks.get hash = some entry → entry.1.hash C = hash
  transactions : ∀ hash st, s.mempool.value.trans.get hash = some st →
    st.hash C = hash ∧ verify C st.transaction st.publicKeyVector st.signatureVector = true

/-- A build with overflow checks has stored a block of the greatest height. -/
def HeightExhausted (s : Shared) : Prop :=
  build = .overflowChecked ∧ ∃ hash entry, s.blockchain.value.blocks.get hash = some entry ∧
    entry.2.toNat + 1 = UInt32.size

/-- What the stores keep. `quiet` says that no request walks through the block tree. -/
structure StoreInvariant (s : Shared) : Prop where
  addressed : ContentAddressed C s
  tip : s.blockchain.value.blocks.containsKey s.blockchain.value.tip = true
  queued : ∀ block ∈ s.finishedBlockChan,
    s.blockchain.value.blocks.containsKey block.head.parent = true
  poisoned : quiet → s.blockchain.poisoned = true → HeightExhausted build s

/-- No block is dropped. -/
def BlocksGrow (s s' : Shared) : Prop :=
  ∀ hash, s.blockchain.value.blocks.containsKey hash = true →
    s'.blockchain.value.blocks.containsKey hash = true

/-- What the threads promise about the stores. -/
def storeContract : Program.Contract Op Shared where
  inv := StoreInvariant C build quiet
  pre op s :=
    match op with
    | .getBlock hash => quiet → s.blockchain.value.blocks.containsKey hash = true
    | .insertBlock block | .finishBlock block =>
      s.blockchain.value.blocks.containsKey block.head.parent = true
    | .mempoolInsert hash st =>
      st.hash C = hash ∧ verify C st.transaction st.publicKeyVector st.signatureVector = true
    | .longestChain => ¬ quiet
    | _ => True
  allowed _ _ := True
  rely _ := BlocksGrow

/-- The invariant is kept and no block is dropped. -/
def StoreKept (s s' : Shared) : Prop := StoreInvariant C build quiet s' ∧ BlocksGrow s s'

end Definitions

variable {C : Crypto} {build : Build} {quiet : Prop} {s : Shared}

theorem BlocksGrow.refl (s : Shared) : BlocksGrow s s := fun _ => id

theorem BlocksGrow.trans {s s' s'' : Shared} (h : BlocksGrow s s') (h' : BlocksGrow s' s'') :
    BlocksGrow s s'' :=
  fun hash hstored => h' hash (h hash hstored)

theorem storeInvariant_initial (icoKey : Ed25519KeyPair) :
    StoreInvariant C build quiet (Shared.initial C icoKey) where
  addressed.blocks hash entry hget := by
    simp only [Shared.initial, Blockchain.new, HashMap.get_insert, HashMap.get_empty,
      Option.ite_none_right_eq_some, Option.some.injEq] at hget
    rw [hget.1, ← hget.2]
  addressed.transactions hash st hget := by
    simp [Shared.initial, Mempool.new] at hget
  tip := HashMap.containsKey_of_get (HashMap.get_insert_self _ _ _)
  queued := nofun
  poisoned _ := nofun

/-! ## One operation -/

/-- An operation that leaves the stores and the queue alone. -/
theorem StoreKept.frame {s' : Shared} (h : StoreInvariant C build quiet s)
    (hblocks : s'.blockchain = s.blockchain) (hmempool : s'.mempool.value = s.mempool.value)
    (hqueue : ∀ block ∈ s'.finishedBlockChan, block ∈ s.finishedBlockChan) :
    StoreKept C build quiet s s' := by
  obtain ⟨⟨hstored, htransactions⟩, htip, hqueued, hpoisoned⟩ := h
  unfold StoreKept BlocksGrow
  rw [← hblocks] at hstored htip hqueued ⊢
  rw [← hmempool] at htransactions
  refine ⟨⟨⟨hstored, htransactions⟩, htip, ?_, ?_⟩, fun _ => id⟩
  · exact fun block hmem => hqueued block (hqueue block hmem)
  · unfold HeightExhausted at hpoisoned ⊢
    rwa [hblocks]

theorem StoreKept.refl (h : StoreInvariant C build quiet s) : StoreKept C build quiet s s :=
  .frame h rfl rfl fun _ => id

/-- A thread stops while it holds the lock of the block tree. -/
theorem StoreKept.poison (h : StoreInvariant C build quiet s)
    (hcause : quiet → HeightExhausted build s) :
    StoreKept C build quiet s
      { s with blockchain := { s.blockchain with poisoned := true } } :=
  ⟨⟨⟨h.addressed.blocks, h.addressed.transactions⟩, h.tip, h.queued, fun hquiet _ => hcause hquiet⟩,
    fun _ => id⟩

/-- An operation on the mempool only. -/
theorem StoreKept.mempool {mempool : Mutex Mempool} (h : StoreInvariant C build quiet s)
    (htransactions : ∀ hash st, mempool.value.trans.get hash = some st →
      st.hash C = hash ∧ verify C st.transaction st.publicKeyVector st.signatureVector = true) :
    StoreKept C build quiet s { s with mempool } :=
  ⟨⟨⟨h.addressed.blocks, htransactions⟩, h.tip, h.queued, h.poisoned⟩, fun _ => id⟩

/-- A height that does not fit is the only reason not to insert under a stored parent. -/
theorem StoreInvariant.insert_error (h : StoreInvariant C build quiet s) {block : Block}
    {reason : Panic} (hparent : s.blockchain.value.blocks.containsKey block.head.parent = true)
    (hinsert : s.blockchain.value.insert C build block = .error reason) :
    HeightExhausted build s := by
  obtain ⟨parent, hparent⟩ := HashMap.containsKey_iff.mp hparent
  obtain ⟨tip, htip⟩ := HashMap.containsKey_iff.mp h.tip
  rw [Blockchain.insert_eq hparent htip] at hinsert
  cases hbuild : build with
  | release =>
      rw [hbuild] at hinsert
      cases hinsert
  | overflowChecked =>
      refine ⟨rfl, _, parent, hparent, ?_⟩
      rw [hbuild, addU32] at hinsert
      split at hinsert
      next hheight =>
        simp only [ite_eq_right_iff, reduceCtorEq, imp_false, not_lt] at hheight
        have hlt := parent.2.toNat_lt_size
        have hone : (1 : UInt32).toNat = 1 := rfl
        simp only [UInt32.size] at hlt ⊢
        omega
      next => cases hinsert

theorem StoreKept.insert {block : Block} {next : Blockchain} (h : StoreInvariant C build quiet s)
    (husable : s.blockchain.poisoned = false)
    (hinsert : s.blockchain.value.insert C build block = .ok next) :
    StoreKept C build quiet s
      { s with blockchain := { s.blockchain with value := next } } := by
  obtain ⟨_, _, height, _, _, -, -, -, hblocks, -⟩ := Blockchain.insert_ok hinsert
  have hgrow : ∀ hash, s.blockchain.value.blocks.containsKey hash = true →
      next.blocks.containsKey hash = true :=
    fun _ hstored => (Blockchain.containsKey_of_insert hinsert).mpr (Or.inr hstored)
  refine ⟨⟨⟨?_, h.addressed.transactions⟩, ?_, ?_, ?_⟩, hgrow⟩
  · change ∀ hash entry, next.blocks.get hash = some entry → entry.1.hash C = hash
    rw [hblocks]
    exact HashMap.forall_insert h.addressed.blocks rfl
  · exact Blockchain.tip_of_insert hinsert
  · exact fun other hmem => hgrow _ (h.queued other hmem)
  · intro _ hpoisoned
    change s.blockchain.poisoned = true at hpoisoned
    rw [husable] at hpoisoned
    cases hpoisoned

/-- Every operation keeps the stores content-addressed when its precondition holds. -/
theorem store_op (op : Op) (hinv : StoreInvariant C build quiet s)
    (hpre : (storeContract C build quiet).pre op s) :
    (op.action C build).wp (fun _ s' => StoreKept C build quiet s s')
      (fun _ s' => StoreKept C build quiet s s') s := by
  have hsame : StoreKept C build quiet s s := .refl hinv
  cases op with
  | containsBlock hash =>
      simp only [Op.action, wp_containsBlock]
      exact ⟨fun _ => hsame, fun _ => hsame⟩
  | getBlock hash =>
      simp only [Op.action, wp_getBlock]
      refine ⟨fun _ => hsame, fun _ => ?_⟩
      split
      next => exact hsame
      next hget =>
        refine .poison hinv fun hquiet => ?_
        obtain ⟨entry, hentry⟩ := HashMap.containsKey_iff.mp (hpre hquiet)
        rw [hget] at hentry
        cases hentry
  | readTip =>
      simp only [Op.action, wp_readTip]
      exact ⟨fun _ => hsame, fun _ => hsame⟩
  | insertBlock block =>
      simp only [Op.action, wp_insertBlock]
      refine ⟨fun _ => hsame, fun husable => ?_⟩
      cases hinsert : s.blockchain.value.insert C build block with
      | ok next => exact .insert hinv husable hinsert
      | error reason => exact .poison hinv fun _ => hinv.insert_error hpre hinsert
  | longestChain =>
      simp only [Op.action, longestChain, wp_withBlockchain]
      refine ⟨fun _ => hsame, fun _ => ?_⟩
      split
      next hbody =>
        obtain ⟨_, _, heq⟩ := except_bind_eq_ok.mp hbody
        cases heq
        exact hsame
      next => exact .poison hinv fun hquiet => absurd hquiet hpre
  | answerNewBlockHashes peer hashes =>
      simp only [Op.action, answerNewBlockHashes, Effect.wp_bind, wp_withBlockchain]
      refine ⟨fun _ => hsame, fun _ => ?_⟩
      split
      next => exact .frame hinv rfl rfl fun _ => id
      next => exact hsame
  | answerGetBlocks peer blockHashes =>
      simp only [Op.action, answerGetBlocks, Effect.wp_bind, wp_withBlockchain]
      refine ⟨fun _ => hsame, fun _ => ?_⟩
      split
      next => exact .frame hinv rfl rfl fun _ => id
      next => exact hsame
  | readBlockState hash =>
      simp only [Op.action, wp_readBlockState]
      refine ⟨fun _ => hsame, fun _ => ?_⟩
      split
      next => exact hsame
      next => exact .frame hinv rfl rfl fun _ => id
  | writeBlockState hash state =>
      simp only [Op.action, wp_writeBlockState]
      exact ⟨fun _ => hsame, fun _ => .frame hinv rfl rfl fun _ => id⟩
  | mempoolContains hash =>
      simp only [Op.action, wp_mempoolContains]
      exact ⟨fun _ => hsame, fun _ => hsame⟩
  | mempoolGet hash =>
      simp only [Op.action, wp_mempoolGet]
      refine ⟨fun _ => hsame, fun _ => ?_⟩
      split
      next => exact hsame
      next => exact .frame hinv rfl rfl fun _ => id
  | mempoolInsert hash st =>
      simp only [Op.action, wp_mempoolInsert]
      refine ⟨fun _ => hsame, fun _ => .mempool hinv ?_⟩
      exact HashMap.forall_insert hinv.addressed.transactions hpre
  | mempoolRemove hash =>
      simp only [Op.action, wp_mempoolRemove]
      refine ⟨fun _ => hsame, fun _ => .mempool hinv ?_⟩
      exact HashMap.forall_remove hinv.addressed.transactions
  | iterateMempool iteration limit =>
      simp only [Op.action, iterateMempool, wp_withMempool]
      exact ⟨fun _ => hsame, fun _ => hsame⟩
  | finishBlock block =>
      refine ⟨⟨⟨hinv.addressed.blocks, hinv.addressed.transactions⟩, hinv.tip, fun other hmem => ?_,
        hinv.poisoned⟩, fun _ => id⟩
      rcases List.mem_append.mp hmem with hmem | hmem
      · exact hinv.queued other hmem
      · rw [List.mem_singleton.mp hmem]
        exact hpre
  | takeFinishedBlock =>
      exact .frame hinv rfl rfl fun _ => List.mem_of_mem_tail
  | panic reason => exact hsame
  | _ => exact .frame hinv rfl rfl fun _ => id

/-! ## The rounds meet the contract -/

/-- A program that meets the contract about the stores. -/
abbrev NodeProgram.StoreMeets {α : Type} (C : Crypto) (build : Build) (quiet : Prop)
    (post : α → Shared → Prop) (program : NodeProgram α) (s : Shared) : Prop :=
  Program.Meets (Op.action C build) (storeContract C build quiet) post program s

/-- The rule for one operation. `info` is what its result says about the memory. -/
theorem store_perform {α : Type} {op : Op} {next : op.Result → NodeProgram α}
    {post : α → Shared → Prop} (info : op.Result → Shared → Prop)
    (hpre : ∀ s', BlocksGrow s s' → (storeContract C build quiet).pre op s')
    (hinfo : ∀ s', StoreInvariant C build quiet s' →
      (op.action C build).wp info (fun _ _ => True) s')
    (hnext : ∀ result s', BlocksGrow s s' → info result s' →
      NodeProgram.StoreMeets C build quiet post (next result) s') :
    NodeProgram.StoreMeets C build quiet post (call op >>= next) s := by
  intro s' hgrow hinv
  refine ⟨hpre s' hgrow, fun _ => ?_⟩
  refine Effect.wp_and (store_op op hinv (hpre s' hgrow)) (hinfo s' hinv) ?_ fun _ _ _ _ => trivial
  intro result s'' hkept hresult _
  exact hnext result s'' (hgrow.trans hkept.2) hresult

/-- Operations that need no knowledge of the memory. -/
theorem store_all {α : Type} {post : α → Shared → Prop} {Q : α → Prop} {program : NodeProgram α}
    (h : program.All (fun op => ∀ s, (storeContract C build quiet).pre op s) Q)
    (hpost : ∀ value s, Q value → post value s) :
    NodeProgram.StoreMeets C build quiet post program s :=
  h.meets (fun _ => id) hpost

theorem store_containsBlock {α : Type} {hash : H256} {next : Bool → NodeProgram α}
    {post : α → Shared → Prop}
    (hnext : ∀ known s', BlocksGrow s s' →
      (known = true → s'.blockchain.value.blocks.containsKey hash = true) →
      NodeProgram.StoreMeets C build quiet post (next known) s') :
    NodeProgram.StoreMeets C build quiet post (call (.containsBlock hash) >>= next) s := by
  refine store_perform
    (fun known s' => known = true → s'.blockchain.value.blocks.containsKey hash = true)
    (fun _ _ => trivial) (fun s' _ => ?_) hnext
  simp only [Op.action, wp_containsBlock]
  exact ⟨fun _ => trivial, fun _ => id⟩

theorem store_getBlock {α : Type} {hash : H256} {next : Block × UInt32 → NodeProgram α}
    {post : α → Shared → Prop} (hstored : s.blockchain.value.blocks.containsKey hash = true)
    (hnext : ∀ entry s', BlocksGrow s s' →
      NodeProgram.StoreMeets C build quiet post (next entry) s') :
    NodeProgram.StoreMeets C build quiet post (call (.getBlock hash) >>= next) s :=
  store_perform (fun _ _ => True) (fun _ hgrow _ => hgrow hash hstored) (fun _ _ => Effect.wp_true)
    fun entry s' hgrow _ => hnext entry s' hgrow

/-- A block with a stored parent can be admitted. -/
theorem admitBlock_storeMeets {block : Block} {post : Bool → Shared → Prop}
    (hparent : s.blockchain.value.blocks.containsKey block.head.parent = true)
    (hpost : ∀ admitted s', BlocksGrow s s' →
      (admitted = true → s'.blockchain.value.blocks.containsKey (block.hash C) = true) →
      post admitted s') :
    NodeProgram.StoreMeets C build quiet post (admitBlock C build block) s := by
  unfold admitBlock checkTxState
  rw [NodeProgram.StoreMeets, Program.meets_bind]
  refine store_perform (fun _ _ => True) (fun _ _ => trivial) (fun _ _ => Effect.wp_true) ?_
  intro state s₁ hgrow₁ _
  split
  next => exact hpost false s₁ hgrow₁ nofun
  next => exact fun _ _ _ => ⟨trivial, fun _ => trivial⟩
  next =>
    refine store_perform (fun _ _ => True) (fun _ _ => trivial) (fun _ _ => Effect.wp_true) ?_
    intro _ s₂ hgrow₂ _
    refine store_perform
      (fun _ s' => s'.blockchain.value.blocks.containsKey (block.hash C) = true) ?_ ?_ ?_
    · exact fun s₃ hgrow₃ => hgrow₃ _ (hgrow₂ _ (hgrow₁ _ hparent))
    · intro s₃ _
      simp only [Op.action, wp_insertBlock]
      refine ⟨fun _ => trivial, fun _ => ?_⟩
      split
      next next hinsert => exact (Blockchain.containsKey_of_insert hinsert).mpr (Or.inl rfl)
      next => trivial
    · intro _ s₃ hgrow₃ hstored
      exact hpost true s₃ ((hgrow₁.trans hgrow₂).trans hgrow₃) fun _ => hstored

/-- The blocks that the loops of a `Blocks` message have inserted are stored. -/
def NewBlocksStored (loop : BlocksLoop) (s : Shared) : Prop :=
  ∀ hash ∈ loop.newBlocks, s.blockchain.value.blocks.containsKey hash = true

theorem NewBlocksStored.mono {loop : BlocksLoop} {s' : Shared} (h : NewBlocksStored loop s)
    (hgrow : BlocksGrow s s') : NewBlocksStored loop s' :=
  fun hash hmem => hgrow hash (h hash hmem)

theorem NewBlocksStored.push {loop : BlocksLoop} {hash : H256} (h : NewBlocksStored loop s)
    (hstored : s.blockchain.value.blocks.containsKey hash = true) :
    NewBlocksStored { loop with newBlocks := loop.newBlocks ++ [hash] } s := by
  intro other hmem
  rcases List.mem_append.mp hmem with hmem | hmem
  · exact h other hmem
  · exact List.mem_singleton.mp hmem ▸ hstored

theorem releaseOrphans_storeMeets (loop : BlocksLoop) (i : Nat) (h : NewBlocksStored loop s) :
    NodeProgram.StoreMeets C build quiet NewBlocksStored (releaseOrphans C build loop i) s := by
  induction loop, i using releaseOrphans.induct C generalizing s with
  | case1 loop i hn hi blockToUnorphan hparent orphanBlocks ihAdmitted =>
      rename_i ihDropped
      rw [releaseOrphans, dif_pos hn, dif_pos hi]
      simp only
      rw [if_pos hparent]
      have hstored := h _ (List.getElem_mem hn)
      refine store_getBlock hstored fun parent s₁ hgrow₁ => ?_
      split
      next =>
        rw [NodeProgram.StoreMeets, Program.meets_bind]
        refine admitBlock_storeMeets (hgrow₁ _ (hparent ▸ hstored))
          fun admitted s₂ hgrow₂ hnew => ?_
        have hkept := (h.mono hgrow₁).mono hgrow₂
        cases admitted with
        | false => exact ihDropped hkept
        | true => exact ihAdmitted (hkept.push (hnew rfl))
      next => exact ihDropped (h.mono hgrow₁)
  | case2 loop i hn hi blockToUnorphan hparent =>
      rename_i ih
      rw [releaseOrphans, dif_pos hn, dif_pos hi]
      simp only
      rw [if_neg hparent]
      exact ih h
  | case3 loop i hn hi ih =>
      rw [releaseOrphans, dif_pos hn, dif_neg hi]
      exact ih h
  | case4 loop i hn =>
      rw [releaseOrphans, dif_neg hn]
      exact h

theorem processBlock_storeMeets {peer : PeerId} {message : Message} {loop : BlocksLoop}
    {block : Block} (h : NewBlocksStored loop s) :
    NodeProgram.StoreMeets C build quiet NewBlocksStored
      (processBlock C build peer message loop block) s := by
  simp only [processBlock]
  split
  next =>
    refine store_containsBlock fun known s₁ hgrow₁ _ => ?_
    cases known with
    | true => exact h.mono hgrow₁
    | false =>
        refine store_containsBlock fun hasParent s₂ hgrow₂ hparent => ?_
        have hloop := (h.mono hgrow₁).mono hgrow₂
        cases hasParent with
        | false =>
            refine store_perform (fun _ _ => True) (fun _ _ => trivial) (fun _ _ => Effect.wp_true)
              ?_
            exact fun _ _ hgrow₃ _ => hloop.mono hgrow₃
        | true =>
            refine store_getBlock (hparent rfl) fun parent s₃ hgrow₃ => ?_
            split
            next =>
              rw [NodeProgram.StoreMeets, Program.meets_bind]
              refine admitBlock_storeMeets (hgrow₃ _ (hparent rfl))
                fun admitted s₄ hgrow₄ hnew => ?_
              have hkept := (hloop.mono hgrow₃).mono hgrow₄
              cases admitted with
              | false => exact releaseOrphans_storeMeets _ _ hkept
              | true => exact releaseOrphans_storeMeets _ _ (hkept.push (hnew rfl))
            next => exact releaseOrphans_storeMeets _ _ (hloop.mono hgrow₃)
  next => exact h

/-- The rule for an operation that needs no knowledge of the memory. -/
theorem store_perform_any {α : Type} {op : Op} {next : op.Result → NodeProgram α}
    {post : α → Shared → Prop} (hpre : ∀ s, (storeContract C build quiet).pre op s)
    (hnext : ∀ result s', BlocksGrow s s' →
      NodeProgram.StoreMeets C build quiet post (next result) s') :
    NodeProgram.StoreMeets C build quiet post (call op >>= next) s :=
  store_perform (fun _ _ => True) (fun s' _ => hpre s') (fun _ _ => Effect.wp_true)
    fun result s' hgrow _ => hnext result s' hgrow

theorem handleMessage_storeMeets (peer : PeerId) (orphanBlocks : List Block) (message : Message) :
    NodeProgram.StoreMeets C build quiet (fun _ _ => True)
      (handleMessage C build peer orphanBlocks message) s := by
  have hsend : ∀ {α : Type} {op : Op} {next : op.Result → NodeProgram α},
      (∀ s, (storeContract C build quiet).pre op s) →
      (∀ result, (next result).All (fun op => ∀ s, (storeContract C build quiet).pre op s)
        fun _ => True) →
      (call op >>= next).All (fun op => ∀ s, (storeContract C build quiet).pre op s)
        fun _ => True :=
    fun hop hnext => ⟨hop, hnext⟩
  cases message with
  | ping nonce => exact store_all (hsend (fun _ => trivial) fun _ => trivial) fun _ _ => id
  | pong nonce => trivial
  | newBlockHashes hashes =>
      exact store_all (hsend (fun _ => trivial) fun _ => trivial) fun _ _ => id
  | getBlocks hashes => exact store_all (hsend (fun _ => trivial) fun _ => trivial) fun _ _ => id
  | newTransactionHashes hashes => trivial
  | blocks blocks =>
      have hstart : NewBlocksStored { orphanBlocks } s := nofun
      refine (Program.meets_bind _ _).mpr ((Program.meets_foldlM hstart fun block _ loop s hloop =>
        processBlock_storeMeets hloop).mono fun loop s _ => ?_)
      split
      next => exact store_perform_any (fun _ => trivial) fun _ _ _ => trivial
      next => trivial
  | getTransactions hashes =>
      have hfetch : ∀ (hashes : List H256) trans, (fetchTransactions trans hashes).All
          (fun op => ∀ s, (storeContract C build quiet).pre op s) fun _ => True := by
        intro hashes
        induction hashes with
        | nil => exact fun _ => trivial
        | cons hash rest ih =>
            refine fun trans => hsend (fun _ => trivial) fun known => ?_
            cases known with
            | false => trivial
            | true => exact hsend (fun _ => trivial) fun transaction => ih _
      refine store_all ?_ fun _ _ => id
      unfold handleMessage answerGetTransactions
      simp only [Program.all_bind]
      refine (hfetch hashes []).mono (fun _ => id) fun trans _ => ?_
      cases trans with
      | some trans => exact hsend (fun _ => trivial) fun _ => trivial
      | none => trivial
  | transactions transactions =>
      have hstore : ∀ newTrans trans, (storeTransaction C newTrans trans).All
          (fun op => ∀ s, (storeContract C build quiet).pre op s) fun _ => True := by
        intro newTrans trans
        unfold storeTransaction
        split
        next hverify =>
          refine hsend (fun _ => trivial) fun known => ?_
          cases known with
          | true => trivial
          | false => exact hsend (fun _ => ⟨rfl, hverify⟩) fun _ => trivial
        next => trivial
      refine store_all ?_ fun _ _ => id
      unfold handleMessage storeTransactions
      simp only [Program.all_bind]
      refine (Program.all_foldlM hstore).mono (fun _ => id) fun newTrans _ => ?_
      split
      next => exact hsend (fun _ => trivial) fun _ => trivial
      next => trivial

theorem mineBlock_storeMeets {miner : Miner} {nonce : UInt32} {timestamp : BitVec 128} :
    NodeProgram.StoreMeets C build quiet (fun _ _ => True)
      (mineBlock C miner nonce timestamp) s := by
  obtain ⟨tree, root, htree, hroot⟩ :=
    MerkleTree.new_root_ok (C := C) (SignedTransaction.hash C) miner.transaction
  simp only [mineBlock, htree, NodeProgram.ofExcept, Program.done_bind, hroot]
  refine store_perform (fun tip s' => s'.blockchain.value.blocks.containsKey tip = true)
    (fun _ _ => trivial) (fun s' hinv => ?_) fun tip s' _ htip => ?_
  · simp only [Op.action, wp_readTip]
    exact ⟨fun _ => trivial, fun _ => hinv.tip⟩
  split
  next =>
    refine store_perform (fun _ _ => True) (fun _ hgrow => hgrow _ htip)
      (fun _ _ => Effect.wp_true) fun _ s'' _ _ => ?_
    refine store_all (Q := fun _ => True) ?_ fun _ _ => id
    rw [Program.all_bind]
    have hremove : ∀ item : H256, (call (.mempoolRemove item)).All
        (fun op => ∀ s, (storeContract C build quiet).pre op s) fun _ => True :=
      fun item => ⟨fun _ => trivial, fun _ => trivial⟩
    exact (Program.all_forM hremove).mono (fun _ => id) fun _ _ => trivial
  next => trivial

theorem selectTransactions_storeMeets {miner : Miner}
    {iteration : HashMap.Iteration H256 SignedTransaction} :
    NodeProgram.StoreMeets C build quiet (fun _ _ => True) (selectTransactions miner iteration)
      s := by
  unfold selectTransactions
  split
  next => exact store_perform_any (fun _ => trivial) fun _ _ _ => trivial
  next => trivial

theorem minerRound_storeMeets {miner : Miner} {nonce : UInt32} {timestamp : BitVec 128}
    {iteration : HashMap.Iteration H256 SignedTransaction} :
    NodeProgram.StoreMeets C build quiet (fun _ _ => True)
      (minerRound C miner nonce timestamp iteration) s := by
  unfold minerRound
  split
  next => exact store_perform_any (fun _ => trivial) fun _ _ _ => trivial
  next => trivial
  next =>
    refine store_perform_any (fun _ => trivial) fun signal s' _ => ?_
    simp only
    split
    next => trivial
    next =>
      rw [NodeProgram.StoreMeets, Program.meets_bind]
      refine Program.Meets.mono selectTransactions_storeMeets fun miner s'' _ => ?_
      rw [Program.meets_bind]
      exact mineBlock_storeMeets.mono fun _ _ _ => trivial

theorem minerWorkerRound_storeMeets :
    NodeProgram.StoreMeets C build quiet (fun _ _ => True) (minerWorkerRound C build) s := by
  unfold minerWorkerRound
  refine store_perform (fun finished s' => ∀ block ∈ finished,
    s'.blockchain.value.blocks.containsKey block.head.parent = true)
    (fun _ _ => trivial)
    (fun s' hinv block hblock => hinv.queued block (List.mem_of_head? hblock)) ?_
  intro finished s' _ hfinished
  cases finished with
  | none => trivial
  | some block =>
      rw [NodeProgram.StoreMeets, Program.meets_bind]
      refine admitBlock_storeMeets (hfinished block rfl) fun admitted s'' _ _ => ?_
      cases admitted with
      | false => trivial
      | true => exact store_perform_any (fun _ => trivial) fun _ _ _ => trivial

theorem refresh_storeMeets {generator : Generator} :
    NodeProgram.StoreMeets C build quiet (fun _ _ => True) (GeneLoop.refresh generator) s := by
  refine store_perform_any (fun _ => trivial) fun tip _ _ => ?_
  split
  next => trivial
  next => exact store_perform_any (fun _ => trivial) fun _ _ _ => trivial

/-- What the generator inserts carries its own signature. -/
theorem generate_storeMeets {geneLoop : GeneLoop} {generator : Generator}
    {iteration : HashMap.Iteration (H256 × UInt8) (UInt32 × Address)}
    (hsign : ∀ t, verify C t geneLoop.publicKey.publicKey (sign C t geneLoop.publicKey) = true) :
    NodeProgram.StoreMeets C build quiet (fun _ _ => True)
      (geneLoop.generate C generator iteration) s := by
  unfold GeneLoop.generate
  split
  next =>
    split
    next => trivial
    next =>
      refine store_perform_any (fun _ => trivial) fun known _ _ => ?_
      cases known with
      | true => exact store_perform_any (fun _ => trivial) fun _ _ _ => trivial
      | false =>
          refine store_perform_any (fun _ => ⟨rfl, hsign _⟩) fun _ _ _ => ?_
          exact store_perform_any (fun _ => trivial) fun _ _ _ => trivial

theorem round_storeMeets {geneLoop : GeneLoop} {generator : Generator}
    {iteration : HashMap.Iteration (H256 × UInt8) (UInt32 × Address)}
    (hsign : ∀ t, verify C t geneLoop.publicKey.publicKey (sign C t geneLoop.publicKey) = true) :
    NodeProgram.StoreMeets C build quiet (fun _ _ => True)
      (geneLoop.round C generator iteration) s := by
  unfold GeneLoop.round
  split
  next => exact store_perform_any (fun _ => trivial) fun _ _ _ => trivial
  next => trivial
  next =>
    refine store_perform_any (fun _ => trivial) fun signal s' _ => ?_
    simp only
    split
    next => trivial
    next =>
      rw [NodeProgram.StoreMeets, Program.meets_bind]
      refine refresh_storeMeets.mono fun generator s'' _ => ?_
      rw [Program.meets_bind]
      exact (generate_storeMeets hsign).mono fun _ _ _ => trivial

theorem serve_storeMeets {request : ApiRequest} (hwalks : quiet → request.walks = false) :
    NodeProgram.StoreMeets C build quiet (fun _ _ => True) (Api.serve C request) s := by
  by_cases hquiet : quiet
  · cases request with
    | minerStart lambda => exact store_perform_any (fun _ => trivial) fun _ _ _ => trivial
    | txGeneratorStart theta => exact store_perform_any (fun _ => trivial) fun _ _ _ => trivial
    | networkPing => exact store_perform_any (fun _ => trivial) fun _ _ _ => trivial
    | longestChain => cases hwalks hquiet
    | longestChainTx => cases hwalks hquiet
    | longestChainTxCount => trivial
    | state block => cases hwalks hquiet
    | notFound => trivial
  · -- The walks only look up what they need not find.
    refine (serve_composed (S := fun _ _ => False) request).meets (fun op hop s => ?_) nofun s
    cases op with
    | getBlock hash => exact fun h => absurd h hquiet
    | longestChain => exact hquiet
    | insertBlock block => cases hop
    | finishBlock block => cases hop
    | mempoolInsert hash st => cases hop
    | _ => trivial

/-- Every round of every thread meets the contract. -/
theorem nodeBody_storeMeets {geneLoop : GeneLoop} {task : Task} {choice : Choice}
    {program : NodeProgram Task}
    (hsign : ∀ t, verify C t geneLoop.publicKey.publicKey (sign C t geneLoop.publicKey) = true)
    (hrequests : quiet → ∀ request ∈ choice.requests, request.walks = false)
    (hbody : nodeBody C build geneLoop task choice = some program) :
    NodeProgram.StoreMeets C build quiet (fun _ _ => True) program s := by
  unfold nodeBody at hbody
  split at hbody
  all_goals cases hbody
  next =>
    exact (Program.meets_bind _ _).mpr ((handleMessage_storeMeets _ _ _).mono fun _ _ _ => trivial)
  next => trivial
  next => exact (Program.meets_bind _ _).mpr (minerRound_storeMeets.mono fun _ _ _ => trivial)
  next => exact (Program.meets_bind _ _).mpr (minerWorkerRound_storeMeets.mono fun _ _ _ => trivial)
  next =>
    refine (Program.meets_bind _ _).mpr ?_
    refine store_perform_any (fun _ => trivial) fun tip _ _ => ?_
    exact store_perform_any (fun _ => trivial) fun _ _ _ => trivial
  next =>
    exact (Program.meets_bind _ _).mpr ((round_storeMeets hsign).mono fun _ _ _ => trivial)
  next request =>
    refine (Program.meets_bind _ _).mpr
      (Program.Meets.mono (serve_storeMeets ?_) fun _ _ _ => trivial)
    exact fun hquiet => hrequests hquiet request List.mem_cons_self

/-- In every run, whatever its interleaving, the stores stay content-addressed. -/
theorem node_storeInvariant {geneLoop : GeneLoop} {icoKey : Ed25519KeyPair}
    {workers requests : Nat} {node : Node workers requests}
    {guard : Node workers requests → ThreadId workers requests → Choice → Prop}
    (hsign : ∀ t, verify C t geneLoop.publicKey.publicKey (sign C t geneLoop.publicKey) = true)
    (hguard : ∀ node who choice, guard node who choice → quiet →
      ∀ request ∈ choice.requests, request.walks = false)
    (hreach : (nodeMachine C build geneLoop).Reachable guard
      (Node.start C icoKey workers requests) node) :
    StoreInvariant C build quiet node.shared := by
  refine (Program.Reachable.meets (storeContract C build quiet) (fun _ => True)
    (fun _ _ => True) (fun _ => BlocksGrow.refl) (fun _ _ _ _ => BlocksGrow.trans) ?_
    (fun _ _ _ _ _ _ => id) ?_ ?_ hreach).1
  · exact ⟨storeInvariant_initial icoKey, fun who => ⟨.start who, rfl, trivial⟩⟩
  · intro node who choice task program hmeets _ _ _ hbody
    exact nodeBody_storeMeets hsign (hguard node who choice hmeets) hbody
  · intro node who choice op next _ _ hinv hpre
    refine ⟨trivial, Effect.wp_mono (store_op op hinv hpre) ?_ ?_⟩
    · exact fun _ _ hkept => ⟨hkept.1, fun _ _ => hkept.2⟩
    · exact fun _ _ hkept => ⟨trivial, hkept.1, fun _ _ => hkept.2⟩

end BitcoinClient
