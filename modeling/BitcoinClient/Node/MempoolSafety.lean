import BitcoinClient.Node.ProofOfWork
import BitcoinClient.Node.Rounds

/-! # Mempool requests while mining

The arm for `GetTransactions` tests for each hash and fetches it under two
acquisitions of the lock. Only the miner removes transactions, so a request is
safe as long as the miner does not remove a hash between the test and the fetch.
Otherwise the fetch panics while it holds the lock, and the mempool is lost to
every other thread.
-/

namespace BitcoinClient

variable (C : Crypto) (build : Build)

/-- A write in reply to a request for transactions holds one for each hash, in order. -/
def AnswersRequest : Sent → Prop
  | .write _ (.getTransactions hashes) reply =>
    ∃ trans, reply = .transactions trans ∧ trans.map (SignedTransaction.hash C) = hashes
  | _ => True

/-- The mempool is usable and content-addressed, and answers fit their requests. -/
structure MempoolInvariant (s : Shared) : Prop where
  usable : s.mempool.poisoned = false
  addressed : ∀ hash trans, s.mempool.value.trans.get hash = some trans → trans.hash C = hash
  answers : ∀ message ∈ s.sent, AnswersRequest C message

/-- What the threads promise about the mempool. A thread that is about to fetch a
transaction relies on it staying there. -/
def mempoolContract : Program.Contract Op Shared where
  inv := MempoolInvariant C
  pre op s :=
    match op with
    | .mempoolGet hash => s.mempool.value.trans.containsKey hash = true
    | .mempoolInsert hash transaction => transaction.hash C = hash
    | .send message => AnswersRequest C message
    | .panic reason => reason ≠ .mempoolLookup
    | _ => True
  allowed _ _ := True
  rely op s s' :=
    match op with
    | some (.mempoolGet hash) => s.mempool.value.trans.containsKey hash = true →
      s'.mempool.value.trans.containsKey hash = true
    | _ => True

/-- The next step of the thread removes no transaction that another thread is about to fetch. -/
def RemovesNoTested {workers requests : Nat} (node : Node workers requests)
    (who : ThreadId workers requests) (_ : Choice) : Prop :=
  ∀ hash ∈ node.removing who, ∀ other, node.fetching other ≠ some hash

/-- No transaction is lost but the one that the operation removes. -/
def MempoolKept (op : Op) (s s' : Shared) : Prop :=
  ∀ hash, (∀ removed, op = .mempoolRemove removed → hash ≠ removed) →
    s.mempool.value.trans.containsKey hash = true → s'.mempool.value.trans.containsKey hash = true

variable {C build} {s s' : Shared}

theorem mempool_initial (icoKey : Ed25519KeyPair) :
    MempoolInvariant C (Shared.initial C icoKey) where
  usable := rfl
  addressed := by
    intro hash trans hget
    simp [Shared.initial, Mempool.new] at hget
  answers := by
    intro message hmem
    cases hmem

/-- Only a fetch from the mempool panics on a missing transaction. -/
theorem Op.wp_mempoolLookup (op : Op) (hlocks : op.locksMempool = false)
    (hpanic : ∀ reason, op = .panic reason → reason ≠ .mempoolLookup) :
    (op.action C build).wp (fun _ _ => True) (fun reason _ => reason ≠ .mempoolLookup) s := by
  cases op with
  | containsBlock hash => simp [Op.action]
  | getBlock hash =>
      simp only [Op.action, wp_getBlock]
      refine ⟨fun _ => by decide, fun _ => ?_⟩
      split
      next => trivial
      next => decide
  | readTip => simp [Op.action]
  | insertBlock block =>
      simp only [Op.action, wp_insertBlock]
      refine ⟨fun _ => by decide, fun _ => ?_⟩
      split
      next => trivial
      next reason hinsert =>
        rcases Blockchain.insert_error hinsert with rfl | rfl <;> decide
  | longestChain =>
      simp only [Op.action, BitcoinClient.longestChain, wp_withBlockchain]
      refine ⟨fun _ => by decide, fun _ => ?_⟩
      split
      next => trivial
      next reason hbody =>
        rcases except_bind_eq_error.mp hbody with hwalk | ⟨hashes, _, hbody⟩
        · rw [Blockchain.allBlocksInLongestChain_error hwalk]
          decide
        · cases hbody
  | readBlockState hash =>
      simp only [Op.action, wp_readBlockState]
      refine ⟨fun _ => by decide, fun _ => ?_⟩
      split
      next => trivial
      next => decide
  | writeBlockState hash state => simp [Op.action]
  | answerNewBlockHashes peer hashes =>
      simp only [Op.action, BitcoinClient.answerNewBlockHashes, Effect.wp_bind, wp_withBlockchain]
      refine ⟨fun _ => by decide, fun _ => ?_⟩
      split <;> trivial
  | answerGetBlocks peer blockHashes =>
      simp only [Op.action, BitcoinClient.answerGetBlocks, Effect.wp_bind, wp_withBlockchain]
      refine ⟨fun _ => by decide, fun _ => ?_⟩
      split <;> trivial
  | panic reason => exact hpanic reason rfl
  | mempoolContains hash => cases hlocks
  | mempoolGet hash => cases hlocks
  | mempoolInsert hash transaction => cases hlocks
  | mempoolRemove hash => cases hlocks
  | iterateMempool iteration limit => cases hlocks
  | _ => trivial

/-- The invariant only reads the mempool and the messages. -/
theorem MempoolInvariant.of_sent (h : MempoolInvariant C s) (hmempool : s'.mempool = s.mempool)
    (hsent : ∀ message ∈ s'.sent, message ∈ s.sent ∨ AnswersRequest C message) :
    MempoolInvariant C s' where
  usable := hmempool ▸ h.usable
  addressed := hmempool ▸ h.addressed
  answers := fun message hmem => (hsent message hmem).elim (h.answers message) id

/-- An operation beside the mempool only has to send proper answers. -/
theorem mempool_op_sends {op : Op} (hinv : MempoolInvariant C s) (hlocks : op.locksMempool = false)
    (hpanic : ∀ reason, op = .panic reason → reason ≠ .mempoolLookup)
    (hsent : (op.action C build).wp
      (fun _ s' => ∀ message ∈ s'.sent, message ∈ s.sent ∨ AnswersRequest C message)
      (fun _ s' => ∀ message ∈ s'.sent, message ∈ s.sent ∨ AnswersRequest C message) s) :
    (op.action C build).wp (fun _ s' => MempoolInvariant C s' ∧ MempoolKept op s s')
      (fun reason s' => reason ≠ .mempoolLookup ∧ MempoolInvariant C s' ∧ MempoolKept op s s')
      s := by
  have hkept : ∀ s', op.Frame s s' →
      (∀ message ∈ s'.sent, message ∈ s.sent ∨ AnswersRequest C message) →
      MempoolInvariant C s' ∧ MempoolKept op s s' := by
    intro s' hframe hsent
    refine ⟨hinv.of_sent (hframe.mempool hlocks) hsent, fun hash _ hknown => ?_⟩
    rwa [hframe.mempool hlocks]
  have hframe : (op.action C build).wp (fun _ s' => MempoolInvariant C s' ∧ MempoolKept op s s')
      (fun _ s' => MempoolInvariant C s' ∧ MempoolKept op s s') s :=
    Effect.wp_and (Op.wp_frame C build op) hsent (fun _ s' h hsent => hkept s' h hsent)
      fun _ s' h hsent => hkept s' h.1 hsent
  exact Effect.wp_and hframe (op.wp_mempoolLookup hlocks hpanic) (fun _ _ h _ => h)
    fun _ _ h hreason => ⟨hreason, h⟩

/-- What one operation does to the mempool. Only a removal loses a transaction. -/
theorem mempool_op (op : Op) (hinv : MempoolInvariant C s)
    (hpre : (mempoolContract C).pre op s) :
    (op.action C build).wp (fun _ s' => MempoolInvariant C s' ∧ MempoolKept op s s')
      (fun reason s' => reason ≠ .mempoolLookup ∧ MempoolInvariant C s' ∧ MempoolKept op s s')
      s := by
  have husable : ∀ {P : Prop}, s.mempool.poisoned = true → P := by
    intro P hpoisoned
    rw [hinv.usable] at hpoisoned
    cases hpoisoned
  cases op with
  | mempoolContains hash =>
      simp only [Op.action, wp_mempoolContains]
      exact ⟨husable, fun _ => ⟨hinv, fun _ _ => id⟩⟩
  | mempoolGet hash =>
      simp only [Op.action, wp_mempoolGet]
      refine ⟨husable, fun _ => ?_⟩
      obtain ⟨transaction, hget⟩ := HashMap.containsKey_iff.mp hpre
      rw [hget]
      exact ⟨hinv, fun _ _ => id⟩
  | mempoolInsert hash transaction =>
      simp only [Op.action, wp_mempoolInsert]
      refine ⟨husable, fun _ => ⟨⟨hinv.usable, ?_, hinv.answers⟩, ?_⟩⟩
      · exact HashMap.forall_insert hinv.addressed hpre
      · intro other _ hknown
        change (s.mempool.value.trans.insert hash transaction).containsKey other = true
        rw [HashMap.containsKey_insert]
        exact Or.inr hknown
  | mempoolRemove hash =>
      simp only [Op.action, wp_mempoolRemove]
      refine ⟨husable, fun _ => ⟨⟨hinv.usable, ?_, hinv.answers⟩, ?_⟩⟩
      · exact HashMap.forall_remove hinv.addressed
      · intro other hne hknown
        change (s.mempool.value.trans.remove hash).containsKey other = true
        rwa [HashMap.containsKey, HashMap.get_remove_ne (hne hash rfl)]
  | iterateMempool iteration limit =>
      simp only [Op.action, iterateMempool, wp_withMempool]
      exact ⟨husable, fun _ => ⟨hinv, fun _ _ => id⟩⟩
  | panic reason =>
      exact ⟨hpre, hinv, fun _ _ => id⟩
  | send message =>
      refine mempool_op_sends hinv rfl (by simp) fun other hmem => ?_
      rcases List.mem_append.mp hmem with hmem | hmem
      · exact Or.inl hmem
      · exact Or.inr (List.mem_singleton.mp hmem ▸ hpre)
  | answerNewBlockHashes peer hashes =>
      refine mempool_op_sends hinv rfl (by simp) ?_
      simp only [Op.action, answerNewBlockHashes, Effect.wp_bind, wp_withBlockchain]
      refine ⟨fun _ _ => Or.inl, fun _ => ?_⟩
      split
      next =>
        rw [wp_send]
        intro message hmem
        rcases List.mem_append.mp hmem with hmem | hmem
        · exact Or.inl hmem
        · rw [List.mem_singleton.mp hmem]
          exact Or.inr trivial
      next => exact fun _ => Or.inl
  | answerGetBlocks peer blockHashes =>
      refine mempool_op_sends hinv rfl (by simp) ?_
      simp only [Op.action, answerGetBlocks, Effect.wp_bind, wp_withBlockchain]
      refine ⟨fun _ _ => Or.inl, fun _ => ?_⟩
      split
      next =>
        rw [wp_send]
        intro message hmem
        rcases List.mem_append.mp hmem with hmem | hmem
        · exact Or.inl hmem
        · rw [List.mem_singleton.mp hmem]
          exact Or.inr trivial
      next => exact fun _ => Or.inl
  | _ =>
      refine mempool_op_sends hinv rfl (by simp) ?_
      exact Effect.wp_mono (Op.wp_frame C build _) (fun _ _ h _ hmem => Or.inl (h.sent rfl ▸ hmem))
        fun _ _ h _ hmem => Or.inl (h.1.sent rfl ▸ hmem)

/-! ## The rounds meet the contract -/

/-- What the request loop collects answers the hashes that it went through. -/
theorem fetchTransactions_meets {trans : List SignedTransaction} {hashes done : List H256}
    (hdone : trans.map (SignedTransaction.hash C) = done) :
    (fetchTransactions trans hashes).Meets (Op.action C build) (mempoolContract C)
      (fun result _ => ∀ trans, result = some trans →
        trans.map (SignedTransaction.hash C) = done ++ hashes) s := by
  induction hashes generalizing trans done s with
  | nil =>
      intro trans' heq
      obtain rfl := Option.some.inj heq
      rw [List.append_nil, hdone]
  | cons hash rest ih =>
      refine Program.meets_call fun s₁ _ hinv₁ => ⟨trivial, fun _ => ?_⟩
      simp only [Op.action, wp_mempoolContains]
      refine ⟨fun _ => trivial, fun _ _ => ?_⟩
      split
      next hknown =>
        refine Program.meets_call fun s₂ hkept hinv₂ => ⟨hkept hknown, fun _ => ?_⟩
        simp only [Op.action, wp_mempoolGet]
        refine ⟨fun _ => trivial, fun _ => ?_⟩
        split
        next transaction hget =>
          intro _
          have hhash := hinv₂.addressed hash transaction hget
          rw [List.append_cons]
          exact ih (by rw [List.map_append, hdone, List.map_singleton, hhash])
        next => trivial
      next => simp

theorem part_mempoolMeets {α : Type} {program : NodeProgram α} (h : IsPart C build α program)
    (s : Shared) :
    program.Meets (Op.action C build) (mempoolContract C) (fun _ _ => True) s := by
  cases h with
  | admitBlock block =>
      have hall : (admitBlock C build block).All (fun op => ∀ s, (mempoolContract C).pre op s)
          fun _ => True := by
        unfold admitBlock checkTxState
        refine ⟨fun _ => trivial, fun state => ?_⟩
        simp only [bind, Program.bind]
        split
        next => trivial
        next => exact ⟨fun _ => nofun, nofun⟩
        next => exact ⟨fun _ => trivial, fun _ => ⟨fun _ => trivial, fun _ => trivial⟩⟩
      exact hall.meets (fun _ h => h) fun _ _ _ => trivial
  | answerGetTransactions peer hashes =>
      unfold answerGetTransactions
      rw [Program.meets_bind]
      refine (fetchTransactions_meets rfl).mono fun result s' hresult => ?_
      cases result with
      | none => trivial
      | some trans =>
          refine Program.meets_call (f := .done) fun _ _ _ => ⟨?_, fun _ => ?_⟩
          · exact ⟨trans, rfl, hresult trans rfl⟩
          · exact fun _ => trivial
  | storeTransaction newTrans trans =>
      have hall : (storeTransaction C newTrans trans).All
          (fun op => ∀ s, (mempoolContract C).pre op s) fun _ => True := by
        unfold storeTransaction
        split
        next =>
          refine ⟨fun _ => trivial, fun known => ?_⟩
          cases known with
          | true => trivial
          | false => exact ⟨fun _ => rfl, fun _ => trivial⟩
        next => trivial
      exact hall.meets (fun _ h => h) fun _ _ _ => trivial
  | generate geneLoop generator iteration =>
      have hall : (geneLoop.generate C generator iteration).All
          (fun op => ∀ s, (mempoolContract C).pre op s) fun _ => True := by
        unfold GeneLoop.generate
        split
        next inputs balance _ =>
          split
          next => trivial
          next =>
            refine ⟨fun _ => trivial, fun known => ?_⟩
            cases known with
            | true => exact ⟨fun _ => trivial, fun _ => trivial⟩
            | false => exact ⟨fun _ => rfl, fun _ => ⟨fun _ => trivial, fun _ => trivial⟩⟩
      exact hall.meets (fun _ h => h) fun _ _ _ => trivial

/-- The operations outside of the parts need no knowledge of the mempool. -/
theorem plain_mempoolPre (op : Op) (hplain : op.isPlain = true) (s : Shared) :
    (mempoolContract C).pre op s := by
  cases op with
  | mempoolGet hash => cases hplain
  | mempoolInsert hash transaction => cases hplain
  | panic reason => cases hplain
  | send message =>
      cases message with
      | broadcast message => trivial
      | write peer inReplyTo reply =>
          cases inReplyTo with
          | getTransactions hashes => cases hplain
          | _ => trivial
  | _ => trivial

/-- A run in which no transaction is removed before its fetch keeps the contract. -/
theorem node_mempoolInvariant {geneLoop : GeneLoop} {icoKey : Ed25519KeyPair}
    {workers requests : Nat} {node : Node workers requests}
    (hreach : (nodeMachine C build geneLoop).Reachable RemovesNoTested
      (Node.start C icoKey workers requests) node) :
    MempoolInvariant C node.shared ∧ ∀ who, (node.threads who).Meets (Op.action C build)
      (mempoolContract C) (fun reason => reason ≠ .mempoolLookup) (fun _ _ => True)
      node.shared := by
  refine Program.Reachable.meets (mempoolContract C) (fun reason => reason ≠ .mempoolLookup)
    (fun _ _ => True) ?_ ?_ ?_ (fun _ _ _ _ _ _ => id) ?_ ?_ hreach
  · intro op s
    cases op with
    | none => trivial
    | some op => cases op <;> first | trivial | exact id
  · intro op s s' s'' h h'
    cases op with
    | none => trivial
    | some op => cases op <;> first | trivial | exact h' ∘ h
  · exact ⟨mempool_initial icoKey, fun who => ⟨.start who, rfl, trivial⟩⟩
  · intro node who choice task program _ _ _ _ hbody
    exact (nodeBody_composed hbody).meets plain_mempoolPre (fun _ => part_mempoolMeets) _
  · intro node who choice op next hguard hthread hinv hpre
    -- Another thread relies on the mempool only while it is about to fetch from it.
    have hrely : ∀ s', MempoolKept op node.shared s' → ∀ other, other ≠ who →
        (mempoolContract C).rely (node.threads other).pending node.shared s' := by
      intro s' hkept other _
      cases hpending : (node.threads other).pending with
      | none => trivial
      | some pending =>
          cases pending with
          | mempoolGet hash =>
              refine hkept hash fun removed hremove hsame => ?_
              subst hremove
              refine hguard removed ?_ other ?_
              · rw [Node.removing, hthread]
                rfl
              · rw [Node.fetching, hpending, hsame]
          | _ => trivial
    refine ⟨trivial, Effect.wp_mono (mempool_op op hinv hpre) ?_ ?_⟩
    · exact fun _ s' h => ⟨h.1, hrely s' h.2⟩
    · exact fun _ s' h => ⟨h.1, h.2.1, hrely s' h.2.2⟩

/-- While the miner removes no transaction between a worker's test and its fetch, the
mempool stays usable, no fetch fails, and every request for transactions that is
answered is answered in full and in order. -/
theorem mempoolRequests_safe (C : Crypto) (build : Build) (geneLoop : GeneLoop)
    (icoKey : Ed25519KeyPair) (workers requests : Nat) (node : Node workers requests)
    (hreach : (nodeMachine C build geneLoop).Reachable RemovesNoTested
      (Node.start C icoKey workers requests) node) :
    node.shared.mempool.poisoned = false ∧
      (∀ who, node.threads who ≠ .error .mempoolLookup) ∧
      ∀ peer hashes reply, Sent.write peer (.getTransactions hashes) reply ∈ node.shared.sent →
        ∃ trans, reply = .transactions trans ∧ trans.map (SignedTransaction.hash C) = hashes := by
  obtain ⟨hinv, hthreads⟩ := node_mempoolInvariant hreach
  refine ⟨hinv.usable, fun who heq => ?_, fun peer hashes reply => hinv.answers _⟩
  have hthread := hthreads who
  rw [heq] at hthread
  exact hthread rfl

/-- The threads of a node with one worker and one API request. -/
def fewThreads : List (ThreadId 1 1) := [.network 0, .miner, .minerWorker, .generator, .api 0]

theorem mem_fewThreads (who : ThreadId 1 1) : who ∈ fewThreads := by
  cases who with
  | network i => simp [fewThreads, Subsingleton.elim i 0]
  | api i => simp [fewThreads, Subsingleton.elim i 0]
  | _ => simp [fewThreads]

/-- A transaction arrives, the miner queues a block with it, and a worker that is asked for the
transaction finds it before the miner removes it. -/
noncomputable def requestBeforeRemove : List (ThreadId 1 1 × Choice) :=
  (.network 0, .deliver 0 (.transactions [moveInitialCoin])) ::
    List.replicate 3 (.network 0, .go) ++
  startMiner ++ (.miner, .mine 0 0 (onlyTransaction moveInitialCoin)) ::
    List.replicate 4 (.miner, .go) ++
  [(.network 0, .deliver 0 (.getTransactions [moveInitialCoin.hash .sample])), (.network 0, .go)]

/-- The worker fetches the transaction before it is removed, and answers after that. -/
theorem mempoolRequests_safe_requestBeforeRemove :
    ∃ node : Node 1 1, node.shared.mempool.poisoned = false ∧
      node.shared.mempool.value.trans.containsKey (moveInitialCoin.hash .sample) = false ∧
      ∃ trans, .write 0 (.getTransactions [moveInitialCoin.hash .sample]) (.transactions trans) ∈
        node.shared.sent ∧ trans.map (SignedTransaction.hash .sample) =
          [moveInitialCoin.hash .sample] := by
  have hrun : ((nodeMachine .sample .release sampleGeneLoop).run
      (fun (node : Node 1 1) who _ => decide (∀ hash ∈ node.removing who,
        ∀ other ∈ fewThreads, node.fetching other ≠ some hash))
      (Node.start .sample Crypto.sampleKey 1 1) (requestBeforeRemove ++
        [(.network 0, .go), (.miner, .go), (.network 0, .go)])).any (fun node : Node 1 1 =>
        decide (node.shared.mempool.value.trans.containsKey (moveInitialCoin.hash .sample) = false ∧
          .write 0 (.getTransactions [moveInitialCoin.hash .sample])
            (.transactions [moveInitialCoin]) ∈ node.shared.sent)) = true := by
    decide +kernel
  have hguard : ∀ (node : Node 1 1) who choice, decide (∀ hash ∈ node.removing who,
      ∀ other ∈ fewThreads, node.fetching other ≠ some hash) = true →
        RemovesNoTested node who choice := by
    intro node who choice hallowed hash hremoving other
    exact of_decide_eq_true hallowed hash hremoving other (mem_fewThreads other)
  obtain ⟨node, hreach, hcheck⟩ := Machine.exists_reachable hguard hrun
  obtain ⟨hremoved, hmem⟩ := of_decide_eq_true hcheck
  have hsafe :=
    mempoolRequests_safe .sample .release sampleGeneLoop Crypto.sampleKey 1 1 node hreach
  obtain ⟨trans, heq, hmap⟩ := hsafe.2.2 _ _ _ hmem
  refine ⟨node, hsafe.1, hremoved, trans, ?_, hmap⟩
  rwa [← heq]

/-- The miner removes the transaction after the worker has found it there and before that worker
fetches it. -/
noncomputable def removeBeforeFetch : List (ThreadId 1 1 × Choice) :=
  requestBeforeRemove ++ [(.miner, .go), (.network 0, .go)]

/-- With the miner running a request for a transaction can poison the mempool. -/
theorem not_mempoolRequests_safe :
    ¬ ∀ node : Node 1 1, (nodeMachine .sample .release sampleGeneLoop).Reachable
      (fun _ _ _ => True) (Node.start .sample Crypto.sampleKey 1 1) node →
      node.shared.mempool.poisoned = false ∧
        (∀ who, node.threads who ≠ .error .mempoolLookup) ∧
        ∀ peer hashes reply, Sent.write peer (.getTransactions hashes) reply ∈ node.shared.sent →
          ∃ trans, reply = .transactions trans ∧
            trans.map (SignedTransaction.hash .sample) = hashes := by
  intro hall
  have hrun : ((nodeMachine .sample .release sampleGeneLoop).run (fun _ _ _ => true)
      (Node.start .sample Crypto.sampleKey 1 1) removeBeforeFetch).any
        (fun node : Node 1 1 => node.shared.mempool.poisoned) = true := by decide +kernel
  obtain ⟨node, hreach, hpoisoned⟩ := Machine.exists_reachable (fun _ _ _ _ => trivial) hrun
  have husable := (hall node hreach).1
  rw [hpoisoned] at husable
  cases husable

end BitcoinClient
