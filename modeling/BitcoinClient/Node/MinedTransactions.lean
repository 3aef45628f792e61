import BitcoinClient.Node.MempoolSafety
import BitcoinClient.Node.OffMiner

/-! # What happens to mined transactions

The miner removes the transactions of a block from the mempool as soon as it has queued
the block, and nothing puts them back. A transaction is not lost as long as the miner worker
accepts every block with it that it takes from the queue and no stored block with it is replaced
by one without it. What becomes of other blocks does not matter.
-/

namespace BitcoinClient

open NodeProgram (call)

/-- What the miner removed from the mempool and what its worker took from the queue. -/
structure MinerHistory where
  removed : List SignedTransaction := []
  /-- What the worker's last look at the queue returned. -/
  taken : Option Block := none

def MinerHistory.record (op : Op) (result : op.Result) (s : Shared) (history : MinerHistory) :
    MinerHistory :=
  match op, result with
  | .mempoolRemove hash, _ =>
    { history with removed := history.removed ++ (s.mempool.value.trans.get hash).toList }
  | .takeFinishedBlock, finished => { history with taken := finished }
  | _, _ => history

variable (C : Crypto) (txHash : H256)

/-- The transaction is in a stored block. -/
def Shared.Confirms (s : Shared) : Prop :=
  ∃ hash entry, s.blockchain.value.blocks.get hash = some entry ∧ entry.1.Contains C txHash

/-- Where a mined transaction can be. -/
inductive Located (s : Shared × MinerHistory) : Prop
  | queued (block : Block) (hqueued : block ∈ s.1.finishedBlockChan) (h : block.Contains C txHash)
  | taken (block : Block) (htaken : block ∈ s.2.taken) (h : block.Contains C txHash)
  | stored (h : s.1.Confirms C txHash)

structure MinedInvariant (s : Shared × MinerHistory) : Prop where
  addressed : ∀ hash st, s.1.mempool.value.trans.get hash = some st → st.hash C = hash
  located : ∀ st ∈ s.2.removed, st.hash C = txHash → Located C txHash s

/-- If the block that the worker took last has the transaction, so has a stored one. -/
def Settled (s : Shared × MinerHistory) : Prop :=
  ∀ block ∈ s.2.taken, block.Contains C txHash → s.1.Confirms C txHash

variable (build : Build) {workers requests : Nat}

/-- When the worker took a block with the transaction, the operation does not panic, and when it
reads the state for the check of the block, the check succeeds. -/
structure Accepts (op : Op) (s : Shared × MinerHistory) : Prop where
  returns : ∀ block ∈ s.2.taken, block.Contains C txHash →
    (op.action C build).wp (fun _ _ => True) (fun _ _ => False) s.1
  valid : ∀ block ∈ s.2.taken, block.Contains C txHash → ∀ state ∈ op.reading s.1,
    (checkTxs C build state block.cont.st).isOk = true

instance (op : Op) (s : Shared × MinerHistory) : Decidable (Accepts C txHash build op s) :=
  decidable_of_iff
    ((∀ block ∈ s.2.taken, block.Contains C txHash →
        (op.action C build).wp (fun _ _ => True) (fun _ _ => False) s.1) ∧
      ∀ block ∈ s.2.taken, block.Contains C txHash → ∀ state ∈ op.reading s.1,
        (checkTxs C build state block.cont.st).isOk = true)
    ⟨fun h => ⟨h.1, h.2⟩, fun h => ⟨h.returns, h.valid⟩⟩

/-- The operation replaces no stored block with the transaction by one without it. -/
def KeepsContents (op : Op) (s : Shared × MinerHistory) : Prop :=
  ∀ block ∈ op.inserting, ∀ entry ∈ s.1.blockchain.value.blocks.get (block.hash C),
    entry.1.Contains C txHash → block.Contains C txHash

instance (op : Op) (s : Shared × MinerHistory) : Decidable (KeepsContents C txHash op s) :=
  inferInstanceAs (Decidable (∀ block ∈ op.inserting,
    ∀ entry ∈ s.1.blockchain.value.blocks.get (block.hash C),
      entry.1.Contains C txHash → block.Contains C txHash))

/-- What the threads promise about mined transactions. -/
def minedContract (who : ThreadId workers requests) :
    Program.Contract Op (Shared × MinerHistory) where
  inv := MinedInvariant C txHash
  pre op s :=
    match op with
    | .mempoolInsert hash st => st.hash C = hash
    | .mempoolRemove hash => hash = txHash → Located C txHash s
    | .takeFinishedBlock => who = .minerWorker ∧ Settled C txHash s
    | _ => True
  allowed op s := (who = .minerWorker → Accepts C txHash build op s) ∧ KeepsContents C txHash op s
  rely _ s s' := (Located C txHash s → Located C txHash s') ∧ (who = .minerWorker →
    s'.2.taken = s.2.taken ∧ (s.1.Confirms C txHash → s'.1.Confirms C txHash))

/-- What a thread knows between two rounds. -/
def minedLoop (who : ThreadId workers requests) : Task → Shared × MinerHistory → Prop
  | .miner miner, _ =>
    who ≠ .minerWorker ∧ miner.toRemove = miner.transaction.map (SignedTransaction.hash C)
  | .minerWorker, s => who = .minerWorker ∧ Settled C txHash s
  | _, _ => who ≠ .minerWorker

/-- What an operation keeps. -/
structure MinedKept (op : Op) (s s' : Shared × MinerHistory) : Prop where
  inv : MinedInvariant C txHash s'
  located : Located C txHash s → Located C txHash s'
  confirms : s.1.Confirms C txHash → s'.1.Confirms C txHash
  taken : op ≠ .takeFinishedBlock → s'.2.taken = s.2.taken

variable {C txHash build} {s : Shared} {history : MinerHistory} {who : ThreadId workers requests}

theorem mined_initial (icoKey : Ed25519KeyPair) :
    MinedInvariant C txHash (Shared.initial C icoKey, {}) where
  addressed hash st hget := by simp [Shared.initial, Mempool.new] at hget
  located := nofun

theorem Settled.of_eq {s s' : Shared × MinerHistory} (h : Settled C txHash s)
    (htaken : s'.2.taken = s.2.taken)
    (hconfirms : s.1.Confirms C txHash → s'.1.Confirms C txHash) : Settled C txHash s' := by
  intro block hmem hcontains
  rw [htaken] at hmem
  exact hconfirms (h block hmem hcontains)

/-- An operation beside the block tree and the queue. -/
theorem MinedKept.frame {op : Op} {s' : Shared} {history' : MinerHistory}
    (h : MinedInvariant C txHash (s, history)) (hblocks : s'.blockchain.value = s.blockchain.value)
    (hqueue : s'.finishedBlockChan = s.finishedBlockChan) (htaken : history'.taken = history.taken)
    (haddressed : ∀ hash st, s'.mempool.value.trans.get hash = some st → st.hash C = hash)
    (hremoved : ∀ st ∈ history'.removed, st.hash C = txHash →
      st ∈ history.removed ∨ Located C txHash (s, history)) :
    MinedKept C txHash op (s, history) (s', history') := by
  have hconfirms : s.Confirms C txHash → s'.Confirms C txHash := by
    rw [Shared.Confirms, Shared.Confirms, hblocks]
    exact id
  have hlocated : Located C txHash (s, history) → Located C txHash (s', history') := by
    intro hlocated
    cases hlocated with
    | queued block hqueued h => exact .queued block (hqueue ▸ hqueued) h
    | taken block hmem h => exact .taken block (htaken ▸ hmem) h
    | stored h => exact .stored (hconfirms h)
  refine ⟨⟨haddressed, fun st hmem hhash => ?_⟩, hlocated, hconfirms, fun _ => htaken⟩
  rcases hremoved st hmem hhash with hmem | hfound
  · exact hlocated (h.located st hmem hhash)
  · exact hlocated hfound

/-- A block is inserted where there was none, or one that it may replace. -/
theorem MinedKept.insert {block : Block} {next : Blockchain}
    (h : MinedInvariant C txHash (s, history))
    (hkeeps : KeepsContents C txHash (.insertBlock block) (s, history))
    (hinsert : s.blockchain.value.insert C build block = .ok next) :
    MinedKept C txHash (.insertBlock block) (s, history)
      ({ s with blockchain := { s.blockchain with value := next } }, history) := by
  have hconfirms : s.Confirms C txHash →
      Shared.Confirms C txHash { s with blockchain := { s.blockchain with value := next } } := by
    rintro ⟨hash, entry, hget, hcontains⟩
    rcases Blockchain.get_of_insert hinsert hget with hget' | ⟨rfl, height, hget'⟩
    · exact ⟨hash, entry, hget', hcontains⟩
    · exact ⟨_, _, hget', hkeeps block rfl entry hget hcontains⟩
  have hlocated : Located C txHash (s, history) → Located C txHash
      ({ s with blockchain := { s.blockchain with value := next } }, history) := by
    intro hlocated
    cases hlocated with
    | queued block hqueued h => exact .queued block hqueued h
    | taken block hmem h => exact .taken block hmem h
    | stored h => exact .stored (hconfirms h)
  exact ⟨⟨h.addressed, fun st hmem hhash => hlocated (h.located st hmem hhash)⟩, hlocated,
    hconfirms, fun _ => rfl⟩

/-- No operation loses a transaction that was mined. -/
theorem mined_kept (build : Build) (op : Op) (h : MinedInvariant C txHash (s, history))
    (hpre : (minedContract C txHash build who).pre op (s, history))
    (hkeeps : KeepsContents C txHash op (s, history)) :
    (Program.recording (Op.action C build) MinerHistory.record op).wp
      (fun _ s' => MinedKept C txHash op (s, history) s')
      (fun _ s' => MinedKept C txHash op (s, history) s') (s, history) := by
  have hsame : ∀ s', s'.blockchain.value = s.blockchain.value →
      s'.finishedBlockChan = s.finishedBlockChan → s'.mempool.value = s.mempool.value →
      MinedKept C txHash op (s, history) (s', history) := by
    intro s' hblocks hqueue hmempool
    exact .frame h hblocks hqueue rfl (hmempool ▸ h.addressed) fun _ hmem _ => Or.inl hmem
  rw [Program.wp_recording]
  cases op with
  | insertBlock block =>
      simp only [Op.action, wp_insertBlock]
      refine ⟨fun _ => hsame _ rfl rfl rfl, fun _ => ?_⟩
      cases hinsert : s.blockchain.value.insert C build block with
      | error reason => exact hsame _ rfl rfl rfl
      | ok next => exact .insert h hkeeps hinsert
  | finishBlock block =>
      have hlocated : Located C txHash (s, history) → Located C txHash
          ({ s with finishedBlockChan := s.finishedBlockChan ++ [block] }, history) := by
        intro hlocated
        cases hlocated with
        | queued other hqueued h => exact .queued other (List.mem_append_left _ hqueued) h
        | taken other hmem h => exact .taken other hmem h
        | stored h => exact .stored h
      exact ⟨⟨h.addressed, fun st hmem hhash => hlocated (h.located st hmem hhash)⟩, hlocated, id,
        fun _ => rfl⟩
  | takeFinishedBlock =>
      have hlocated : Located C txHash (s, history) → Located C txHash
          ({ s with finishedBlockChan := s.finishedBlockChan.tail },
            { history with taken := s.finishedBlockChan.head? }) := by
        intro hlocated
        cases hlocated with
        | queued block hqueued h =>
            cases hqueue : s.finishedBlockChan with
            | nil =>
                rw [hqueue] at hqueued
                cases hqueued
            | cons first rest =>
                rw [hqueue] at hqueued
                rcases List.mem_cons.mp hqueued with rfl | hrest
                · exact .taken block rfl h
                · exact .queued block hrest h
        | taken block hmem hcontains => exact .stored (hpre.2 block hmem hcontains)
        | stored h => exact .stored h
      exact ⟨⟨h.addressed, fun st hmem hhash => hlocated (h.located st hmem hhash)⟩, hlocated, id,
        fun hop => absurd rfl hop⟩
  | mempoolInsert hash st =>
      simp only [Op.action, wp_mempoolInsert]
      refine ⟨fun _ => hsame _ rfl rfl rfl, fun _ => ?_⟩
      exact .frame h rfl rfl rfl (HashMap.forall_insert h.addressed hpre) fun _ hmem _ =>
        Or.inl hmem
  | mempoolRemove hash =>
      simp only [Op.action, wp_mempoolRemove]
      refine ⟨fun _ => hsame _ rfl rfl rfl, fun _ => ?_⟩
      refine .frame h rfl rfl rfl (HashMap.forall_remove h.addressed) fun st hmem hhash => ?_
      rcases List.mem_append.mp hmem with hmem | hmem
      · exact Or.inl hmem
      · -- What is removed has the hash that the mempool kept it under.
        exact Or.inr (hpre ((h.addressed hash st (Option.mem_toList.mp hmem)).symm.trans hhash))
  | mempoolContains hash =>
      simp only [Op.action, wp_mempoolContains]
      exact ⟨fun _ => hsame _ rfl rfl rfl, fun _ => hsame _ rfl rfl rfl⟩
  | mempoolGet hash =>
      simp only [Op.action, wp_mempoolGet]
      refine ⟨fun _ => hsame _ rfl rfl rfl, fun _ => ?_⟩
      split
      next => exact hsame _ rfl rfl rfl
      next => exact hsame _ rfl rfl rfl
  | iterateMempool iteration limit =>
      simp only [Op.action, iterateMempool, wp_withMempool]
      exact ⟨fun _ => hsame _ rfl rfl rfl, fun _ => hsame _ rfl rfl rfl⟩
  | _ =>
      refine Effect.wp_mono (Op.wp_frame C build _) (fun _ s' hframe => ?_) fun _ s' hframe => ?_
      · exact hsame s' (hframe.blocks rfl) (hframe.queue rfl) (congrArg _ (hframe.mempool rfl))
      · exact hsame s' (hframe.1.blocks rfl) (hframe.1.queue rfl)
          (congrArg _ (hframe.1.mempool rfl))

/-! ## The rounds meet the contract -/

/-- A program that meets the contract about mined transactions. -/
abbrev NodeProgram.MinedMeets {α : Type} (C : Crypto) (txHash : H256) (build : Build)
    (program : NodeProgram α) (who : ThreadId workers requests)
    (post : α → Shared × MinerHistory → Prop) (s : Shared × MinerHistory) : Prop :=
  Program.Meets (Program.recording (Op.action C build) MinerHistory.record)
    (minedContract C txHash build who) post program s

/-- The rule for an operation that a thread may perform whatever it knows. -/
theorem mined_call {α : Type} {op : Op} {f : op.Result → NodeProgram α}
    {post : α → Shared × MinerHistory → Prop} {s : Shared × MinerHistory}
    (hpre : ∀ s', (minedContract C txHash build who).rely (some op) s s' →
      (minedContract C txHash build who).pre op s')
    (hnext : ∀ result s' s'', (minedContract C txHash build who).rely (some op) s s' →
      MinedKept C txHash op s' s'' → (f result).MinedMeets C txHash build who post s'') :
    (call op >>= f).MinedMeets C txHash build who post s := by
  intro s' hrely hinv
  refine ⟨hpre s' hrely, fun hallowed => ?_⟩
  obtain ⟨shared, history⟩ := s'
  refine Effect.wp_mono (mined_kept build op hinv (hpre _ hrely) hallowed.2) ?_ fun _ _ _ => trivial
  exact fun result s'' hkept _ => hnext result _ s'' hrely hkept

theorem removal_minedMeets {items : List H256} {s : Shared × MinerHistory}
    (h : txHash ∈ items → Located C txHash s) :
    NodeProgram.MinedMeets C txHash build (items.forM fun item => call (.mempoolRemove item)) who
      (fun _ s => txHash ∈ items → Located C txHash s) s := by
  refine Program.meets_forM h fun item hitem s hlocated => ?_
  refine mined_call (f := .done) (fun s' hrely heq => hrely.1 (hlocated (heq ▸ hitem))) ?_
  exact fun _ s' s'' hrely hkept hmem => hkept.located (hrely.1 (hlocated hmem))

/-- The miner removes what it has just queued. -/
theorem mineBlock_minedMeets (miner : Miner) (nonce : UInt32) (timestamp : BitVec 128)
    (hremove : miner.toRemove = miner.transaction.map (SignedTransaction.hash C))
    (s : Shared × MinerHistory) :
    (mineBlock C miner nonce timestamp).MinedMeets C txHash build who
      (fun miner _ => miner.toRemove = miner.transaction.map (SignedTransaction.hash C)) s := by
  obtain ⟨tree, root, htree, hroot⟩ :=
    MerkleTree.new_root_ok (C := C) (SignedTransaction.hash C) miner.transaction
  simp only [mineBlock, htree, NodeProgram.ofExcept, Program.done_bind, hroot]
  refine mined_call (fun _ _ => trivial) fun parent _ s₁ _ _ => ?_
  split
  next =>
    refine Program.meets_call fun s₂ _ _ => ⟨trivial, fun _ _ => ?_⟩
    refine (Program.meets_bind _ _).mpr ((removal_minedMeets fun hitem => ?_).mono ?_)
    · rw [hremove] at hitem
      obtain ⟨st, hst, hhash⟩ := List.mem_map.mp hitem
      exact .queued _ (List.mem_append_right _ List.mem_cons_self) ⟨st, hst, hhash⟩
    · exact fun _ _ _ => rfl
  next => exact hremove

/-- The mempool keeps every transaction under its hash, so the miner knows what to remove. -/
theorem selectTransactions_minedMeets (miner : Miner)
    (iteration : HashMap.Iteration H256 SignedTransaction)
    (hremove : miner.toRemove = miner.transaction.map (SignedTransaction.hash C))
    (s : Shared × MinerHistory) :
    (selectTransactions miner iteration).MinedMeets C txHash build who
      (fun miner _ => miner.toRemove = miner.transaction.map (SignedTransaction.hash C)) s := by
  unfold selectTransactions
  split
  next =>
    refine Program.meets_call fun s' _ hinv => ⟨trivial, fun _ => ?_⟩
    obtain ⟨shared, history⟩ := s'
    rw [Program.wp_recording]
    simp only [Op.action, iterateMempool, wp_withMempool]
    refine ⟨fun _ => trivial, fun _ _ => ?_⟩
    change miner.toRemove ++ _ = List.map _ (miner.transaction ++ _)
    rw [List.map_append, hremove, List.map_map]
    congr 1
    refine List.map_congr_left fun entry hentry => ?_
    have hget := (HashMap.Enumerates.mem_iff (iteration.enumerates _)).mp
      (List.mem_of_mem_take hentry)
    exact (hinv.addressed _ _ hget).symm
  next => exact hremove

theorem minerRound_minedMeets {miner : Miner} (nonce : UInt32) (timestamp : BitVec 128)
    (iteration : HashMap.Iteration H256 SignedTransaction)
    (hremove : miner.toRemove = miner.transaction.map (SignedTransaction.hash C))
    (s : Shared × MinerHistory) :
    (minerRound C miner nonce timestamp iteration).MinedMeets C txHash build who
      (fun result _ => ∀ miner ∈ result,
        miner.toRemove = miner.transaction.map (SignedTransaction.hash C)) s := by
  unfold minerRound
  split
  next =>
    refine mined_call (fun _ _ => trivial) fun signal _ s' _ _ => ?_
    rintro miner ⟨⟩
    exact hremove
  next => exact nofun
  next =>
    refine mined_call (fun _ _ => trivial) fun signal _ s' _ _ => ?_
    simp only
    split
    next => exact nofun
    next =>
      refine (Program.meets_bind _ _).mpr (Program.Meets.mono
        (selectTransactions_minedMeets _ iteration ?_ s') fun miner s'' hselected => ?_)
      · exact hremove
      refine (Program.meets_bind _ _).mpr
        ((mineBlock_minedMeets miner nonce timestamp hselected s'').mono fun miner _ hmined => ?_)
      rintro _ ⟨⟩
      exact hmined

/-- When the block that the worker took has the transaction, it is valid and ends up stored. -/
theorem admitBlock_minedMeets {block : Block} {s : Shared × MinerHistory}
    (hwho : who = .minerWorker) (htaken : s.2.taken = some block) :
    (admitBlock C build block).MinedMeets C txHash build who
      (fun _ s => s.2.taken = some block ∧ Settled C txHash s) s := by
  have hsettled : ∀ s : Shared × MinerHistory, s.2.taken = some block →
      (block.Contains C txHash → s.1.Confirms C txHash) →
      s.2.taken = some block ∧ Settled C txHash s := by
    refine fun s htaken hconfirms => ⟨htaken, fun other hother => ?_⟩
    obtain rfl : block = other := Option.some.inj (htaken.symm.trans hother)
    exact hconfirms
  unfold admitBlock checkTxState
  rw [NodeProgram.MinedMeets, Program.meets_bind]
  refine Program.meets_call fun s₁ hrely₁ _ => ⟨trivial, fun hallowed => ?_⟩
  have htaken₁ := (hrely₁.2 hwho).1.trans htaken
  have hvalid := (hallowed.1 hwho).valid block htaken₁
  obtain ⟨shared, history⟩ := s₁
  rw [Program.wp_recording]
  simp only [Op.action, wp_readBlockState]
  refine ⟨fun _ => trivial, fun _ => ?_⟩
  split
  next state hget =>
    intro _
    cases hcheck : checkTxs C build state block.cont.st with
    | error failure =>
        cases failure with
        | rejected =>
            refine hsettled _ htaken₁ fun hcontains => ?_
            have hok := hvalid hcontains state hget
            rw [hcheck] at hok
            cases hok
        | overflow => exact mined_call (fun _ _ => trivial) fun result => result.elim
    | ok next =>
        refine mined_call (fun _ _ => trivial) fun _ s₂ s₃ hrely₂ hkept₂ => ?_
        have htaken₃ : s₃.2.taken = some block :=
          (hkept₂.taken fun heq => Op.noConfusion heq).trans ((hrely₂.2 hwho).1.trans htaken₁)
        refine Program.meets_call fun s₄ hrely₄ _ => ⟨trivial, fun _ => ?_⟩
        have htaken₄ := (hrely₄.2 hwho).1.trans htaken₃
        obtain ⟨shared₄, history₄⟩ := s₄
        rw [Program.wp_recording]
        simp only [Op.action, wp_insertBlock]
        refine ⟨fun _ => trivial, fun _ => ?_⟩
        cases hinsert : shared₄.blockchain.value.insert C build block with
        | error reason => trivial
        | ok blockchain =>
            obtain ⟨_, _, height, _, _, -, -, -, hblocks, -⟩ := Blockchain.insert_ok hinsert
            refine fun _ => hsettled _ htaken₄ fun hcontains =>
              ⟨block.hash C, (block, height), ?_, hcontains⟩
            change blockchain.blocks.get (block.hash C) = _
            rw [hblocks, HashMap.get_insert_self]
  next => trivial

theorem minerWorkerRound_minedMeets {s : Shared × MinerHistory} (hwho : who = .minerWorker)
    (hsettled : Settled C txHash s) :
    (minerWorkerRound C build).MinedMeets C txHash build who
      (fun _ s => Settled C txHash s) s := by
  unfold minerWorkerRound
  refine Program.meets_call fun s₁ hrely₁ _ => ⟨⟨hwho, ?_⟩, fun _ _ => ?_⟩
  · exact hsettled.of_eq (hrely₁.2 hwho).1 (hrely₁.2 hwho).2
  cases hhead : s₁.1.finishedBlockChan.head? with
  | none => exact nofun
  | some block =>
      refine (Program.meets_bind _ _).mpr
        ((admitBlock_minedMeets hwho rfl).mono fun admitted s₂ hadmitted => ?_)
      cases admitted with
      | false => exact hadmitted.2
      | true =>
          refine mined_call (f := .done) (fun _ _ => trivial) ?_
          intro _ s₃ s₄ hrely₃ hkept₃
          exact (hadmitted.2.of_eq (hrely₃.2 hwho).1 (hrely₃.2 hwho).2).of_eq (hkept₃.taken nofun)
            hkept₃.confirms

/-- Every round of every thread meets the contract. -/
theorem nodeBody_minedMeets {geneLoop : GeneLoop} {task : Task} {choice : Choice}
    {program : NodeProgram Task} {s : Shared × MinerHistory}
    (hloop : minedLoop C txHash who task s)
    (hbody : nodeBody C build geneLoop task choice = some program) :
    program.MinedMeets C txHash build who (minedLoop C txHash who) s := by
  have hoff : task.offMiner = true → who ≠ .minerWorker →
      program.MinedMeets C txHash build who (minedLoop C txHash who) s := by
    intro htask hwho
    refine (nodeBody_offMiner htask hbody).meets (fun op hop s => ?_) fun task s htask => ?_
    · cases op with
      | mempoolRemove hash => cases hop
      | takeFinishedBlock => cases hop
      | mempoolInsert hash st => exact hop
      | _ => trivial
    · cases task with
      | miner miner => cases htask
      | minerWorker => cases htask
      | _ => exact hwho
  cases task with
  | miner miner =>
      cases choice with
      | mine nonce timestamp iteration =>
          obtain rfl := Option.some.inj hbody
          refine (Program.meets_bind _ _).mpr
            ((minerRound_minedMeets nonce timestamp iteration hloop.2 s).mono ?_)
          intro result _ hresult
          cases result with
          | none => exact hloop.1
          | some miner => exact ⟨hloop.1, hresult miner rfl⟩
      | _ => cases hbody
  | minerWorker =>
      cases choice with
      | go =>
          obtain rfl := Option.some.inj hbody
          refine (Program.meets_bind _ _).mpr
            ((minerWorkerRound_minedMeets hloop.1 hloop.2).mono fun _ _ hstored => ?_)
          exact ⟨hloop.1, hstored⟩
      | _ => cases hbody
  | network orphanBlocks => exact hoff rfl hloop
  | generatorStart => exact hoff rfl hloop
  | generator generator => exact hoff rfl hloop
  | api => exact hoff rfl hloop
  | exited => exact hoff rfl hloop

/-- The miner worker accepts every block with the transaction that it takes, and no stored block
with it is replaced by one without it. -/
def AcceptsMined (C : Crypto) (build : Build) (txHash : H256)
    (node : RecordedNode MinerHistory workers requests) (who : ThreadId workers requests)
    (_ : Choice) : Prop :=
  ∀ op ∈ (node.threads who).pending,
    (who = .minerWorker → Accepts C txHash build op node.shared) ∧
      KeepsContents C txHash op node.shared

instance (C : Crypto) (build : Build) (txHash : H256)
    (node : RecordedNode MinerHistory workers requests) (who : ThreadId workers requests)
    (choice : Choice) : Decidable (AcceptsMined C build txHash node who choice) :=
  inferInstanceAs (Decidable (∀ op ∈ (node.threads who).pending,
    (who = .minerWorker → Accepts C txHash build op node.shared) ∧
      KeepsContents C txHash op node.shared))

section Runs

variable {geneLoop : GeneLoop} {icoKey : Ed25519KeyPair}
  {node : RecordedNode MinerHistory workers requests}

theorem node_minedInvariant (hreach : (recordedMachine C build geneLoop
      MinerHistory.record).Reachable (AcceptsMined C build txHash)
        (RecordedNode.start C icoKey {} workers requests) node) :
    MinedInvariant C txHash node.shared ∧ ∀ who, (node.threads who).Meets
      (Program.recording (Op.action C build) MinerHistory.record) (minedContract C txHash build who)
      (fun _ => True) (minedLoop C txHash who) node.shared := by
  refine Program.Reachable.meetsEach (MinedInvariant C txHash) (minedContract C txHash build)
    (fun _ _ => True) (minedLoop C txHash) (fun _ _ => Iff.rfl) ?_ ?_ ?_ ?_ ?_ ?_ hreach
  · exact fun _ _ _ => ⟨id, fun _ => ⟨rfl, id⟩⟩
  · intro who op s s' s'' h h'
    refine ⟨fun hlocated => h'.1 (h.1 hlocated), fun hwho => ?_⟩
    exact ⟨(h'.2 hwho).1.trans (h.2 hwho).1,
      fun hconfirms => (h'.2 hwho).2 ((h.2 hwho).2 hconfirms)⟩
  · refine ⟨mined_initial icoKey, fun who => ⟨.start who, rfl, ?_⟩⟩
    cases who with
    | miner => exact ⟨nofun, rfl⟩
    | minerWorker => exact ⟨rfl, nofun⟩
    | _ => exact nofun
  · intro who task s s' hrely _ _ hloop
    cases task with
    | minerWorker =>
        exact ⟨hloop.1, hloop.2.of_eq (hrely.2 hloop.1).1 (hrely.2 hloop.1).2⟩
    | _ => exact hloop
  · exact fun node who choice task program _ _ _ hloop hbody => nodeBody_minedMeets hloop hbody
  · intro node who choice op next hguard hthread hinv hpre
    have hallowed := hguard op (by rw [hthread]; rfl)
    -- Only the worker takes blocks from the queue, so no other thread loses the one it took.
    have hothers : ∀ s', MinedKept C txHash op node.shared s' → ∀ other, other ≠ who →
        (minedContract C txHash build other).rely (node.threads other).pending node.shared s' := by
      intro s' hkept other hother
      refine ⟨hkept.located, fun hworker => ⟨hkept.taken fun htake => ?_, hkept.confirms⟩⟩
      subst htake
      exact hother (hworker.trans hpre.1.symm)
    refine ⟨hallowed, Effect.wp_mono (mined_kept build op hinv hpre hallowed.2) ?_ ?_⟩
    · exact fun _ s' h => ⟨h.inv, hothers s' h⟩
    · exact fun _ s' h => ⟨trivial, h.inv, hothers s' h⟩

/-- An operation can panic only while the worker has no block with the transaction. -/
theorem Accepts.settled {op : Op} (h : Accepts C txHash build op (s, history)) :
    (Program.recording (Op.action C build) MinerHistory.record op).wp (fun _ _ => True)
      (fun _ s' => Settled C txHash s') (s, history) := by
  rw [Program.wp_recording]
  by_cases htaken : ∃ block ∈ history.taken, block.Contains C txHash
  · obtain ⟨block, hmem, hcontains⟩ := htaken
    exact Effect.wp_mono (h.returns block hmem hcontains) (fun _ _ h => h) fun _ _ => False.elim
  · refine Effect.wp_mono Effect.wp_true (fun _ _ h => h) fun _ _ _ block hmem hcontains => ?_
    exact absurd ⟨block, hmem, hcontains⟩ htaken

/-- When the worker has stopped, it was not over a block with the transaction. -/
theorem minerWorker_stopped (hreach : (recordedMachine C build geneLoop
      MinerHistory.record).Reachable (AcceptsMined C build txHash)
        (RecordedNode.start C icoKey {} workers requests) node) :
    ∀ reason, node.threads .minerWorker = .error reason → Settled C txHash node.shared := by
  refine hreach.invariant (fun node => ∀ reason,
    node.threads .minerWorker = .error reason → Settled C txHash node.shared) nofun ?_
  intro node node' who choice hnode hstopped hguard hnext reason hthread'
  obtain ⟨hinv, hthreads⟩ := node_minedInvariant hnode
  rcases Program.next_cases hnext with ⟨_, _, _, _, rfl⟩ | ⟨op, next, hthread, houtcome⟩
  · dsimp only at hthread'
    by_cases hwho : who = .minerWorker
    · subst hwho
      rw [Function.update_self] at hthread'
      cases hthread'
    · rw [Function.update_of_ne (Ne.symm hwho)] at hthread'
      exact hstopped reason hthread'
  · have hpending : (node.threads who).pending = some op := by
      rw [hthread]
      rfl
    have hpre := (hthreads who).pre ⟨id, fun _ => ⟨rfl, id⟩⟩ hinv hpending
    have hallowed := hguard op hpending
    have hkept := mined_kept build op hinv hpre hallowed.2
    by_cases hwho : who = .minerWorker
    · -- The worker stops in this step, so the operation has failed.
      subst hwho
      rcases houtcome (hallowed.1 rfl).settled with ⟨_, _, _, rfl⟩ | ⟨_, _, hsettled, rfl⟩
      · dsimp only at hthread'
        rw [Function.update_self] at hthread'
        cases hthread'
      · exact hsettled
    · -- The steps of the others keep what the stopped worker has left.
      have hsettled : ∀ s', MinedKept C txHash op node.shared s' →
          node.threads .minerWorker = .error reason → Settled C txHash s' := by
        intro s' hkept hbefore
        refine (hstopped reason hbefore).of_eq (hkept.taken fun htake => ?_) hkept.confirms
        subst htake
        exact hwho hpre.1
      rcases houtcome hkept with ⟨_, _, hkept, rfl⟩ | ⟨_, _, hkept, rfl⟩
      all_goals
        dsimp only at hthread'
        rw [Function.update_of_ne (Ne.symm hwho)] at hthread'
        exact hsettled _ hkept hthread'

end Runs

/-- Between two rounds of the worker, the block it took last is stored. -/
theorem minerWorker_idle {thread : Program.Thread Panic Op Op.Result Task}
    {s : Shared × MinerHistory}
    (h : thread.Meets (Program.recording (Op.action C build) MinerHistory.record)
      (minedContract C txHash build (.minerWorker : ThreadId workers requests))
      (fun _ => True) (minedLoop C txHash (.minerWorker : ThreadId workers requests)) s)
    (hstopped : ∀ reason, thread = .error reason → Settled C txHash s)
    (hpending : thread.pending = none) : Settled C txHash s := by
  cases thread with
  | error reason => exact hstopped reason rfl
  | ok program =>
      cases program with
      | perform op next => cases hpending
      | done task =>
          have hloop : minedLoop C txHash (.minerWorker : ThreadId workers requests) task s := h
          cases task with
          | minerWorker => exact hloop.2
          | miner miner => exact absurd rfl hloop.1
          | _ => exact absurd rfl hloop

/-- A transaction with a valid signature that spends a coin nobody has. -/
def spendMissingCoin : SignedTransaction := .signedBy .sample Crypto.sampleKey ⟨[⟨.hex 1, 0⟩], []⟩

/-- The worker takes a block that it does not accept. -/
noncomputable def mineRefused : List (ThreadId 1 1 × Choice) :=
  startMiner ++ mineArrived spendMissingCoin ++ List.replicate 3 (.minerWorker, .go)

end BitcoinClient
