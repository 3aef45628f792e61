import BitcoinClient.Foundation.Interference
import BitcoinClient.Node.StoredContent

/-! # Requests are answered in full or not at all

A worker answers a request for blocks or transactions if and only if it has everything that
is asked for, and because the stores are content-addressed each item of the reply has the
requested hash. Each message, mined block and generated transaction is handled in one step
here; the mempool's lock is then never lost.
-/

namespace BitcoinClient

section Lookups

variable {K V : Type}

theorem mapM_lookup_eq_some {lookup : K → Option V} {keys : List K} {items : List V} :
    keys.mapM lookup = some items ↔ keys.map lookup = items.map some := by
  induction keys generalizing items with
  | nil => cases items <;> simp
  | cons key rest ih =>
      rw [List.mapM_cons]
      cases hlookup : lookup key with
      | none => cases items <;> simp [hlookup]
      | some item =>
          have hmap : (some item >>= fun item => rest.mapM lookup >>= fun others =>
              pure (item :: others)) = (rest.mapM lookup).map (item :: ·) := by
            cases rest.mapM lookup <;> rfl
          rw [hmap, Option.map_eq_some_iff]
          cases items with
          | nil => simp
          | cons first others => simp [hlookup, ih, and_comm]

theorem exists_mapM_lookup {lookup : K → Option V} {keys : List K}
    (h : ∀ key ∈ keys, (lookup key).isSome = true) : ∃ items, keys.mapM lookup = some items := by
  induction keys with
  | nil => exact ⟨[], rfl⟩
  | cons key rest ih =>
      obtain ⟨item, hitem⟩ := Option.isSome_iff_exists.mp (h key List.mem_cons_self)
      obtain ⟨items, hitems⟩ := ih fun other hmem => h other (List.mem_cons_of_mem _ hmem)
      exact ⟨item :: items, by simp [List.mapM_cons, hitem, hitems]⟩

end Lookups

section Definitions

variable (C : Crypto) {α : Type}

/-- What a worker hands to the network layer when it handles a request for `hashes`. -/
structure Answered (hash : α → H256) (lookup : H256 → Option α) (hashes : List H256)
    (reply : List α → Sent) (sent sent' : List Sent) : Prop where
  /-- It answers exactly when all of them are stored. -/
  answered : (∃ items, sent' = sent ++ [reply items]) ↔
    ∀ requested ∈ hashes, (lookup requested).isSome = true
  /-- The reply is what is stored under the hashes, and it hashes to them. -/
  faithful : ∀ items, sent' = sent ++ [reply items] →
    hashes.map lookup = items.map some ∧ items.map hash = hashes
  silent : sent' = sent ∨ ∃ items, sent' = sent ++ [reply items]

end Definitions

variable {C : Crypto} {build : Build} {geneLoop : GeneLoop} {icoKey : Ed25519KeyPair}
  {workers requests : Nat} {s : Shared}

/-- A handler that looks up all hashes and writes what it found when nothing is missing. -/
theorem Answered.of_mapM {α : Type} {hash : α → H256} {lookup : H256 → Option α}
    {hashes : List H256} {reply : List α → Sent} {sent sent' : List Sent}
    (hreply : Function.Injective reply)
    (haddressed : ∀ requested item, lookup requested = some item → hash item = requested)
    (hsent : sent' = sent ++ ((hashes.mapM lookup).map reply).toList) :
    Answered hash lookup hashes reply sent sent' := by
  -- Only a complete lookup adds a reply.
  have hfound : ∀ items, sent' = sent ++ [reply items] → hashes.mapM lookup = some items := by
    intro items heq
    rw [hsent, List.append_cancel_left_eq] at heq
    cases hitems : hashes.mapM lookup with
    | none =>
        rw [hitems] at heq
        cases heq
    | some found =>
        rw [hitems] at heq
        rw [hreply (List.singleton_inj.mp heq)]
  refine ⟨⟨?_, fun hstored => ?_⟩, fun items heq => ?_, ?_⟩
  · rintro ⟨items, heq⟩ requested hmem
    have hmap := mapM_lookup_eq_some.mp (hfound items heq)
    have hlookup : lookup requested ∈ items.map some := hmap ▸ List.mem_map_of_mem hmem
    obtain ⟨item, -, hitem⟩ := List.mem_map.mp hlookup
    rw [← hitem]
    rfl
  · obtain ⟨items, hitems⟩ := exists_mapM_lookup hstored
    exact ⟨items, by rw [hsent, hitems]; rfl⟩
  · have hmap := mapM_lookup_eq_some.mp (hfound items heq)
    refine ⟨hmap, ?_⟩
    apply List.ext_getElem
    · simpa using (congrArg List.length hmap).symm
    · intro i hi hi'
      have hentry := congrArg (fun entries : List (Option α) => entries[i]?) hmap
      simp only [List.getElem?_map, List.getElem?_eq_getElem hi', Option.map_some] at hentry
      rw [List.getElem_map]
      rw [List.length_map] at hi
      rw [List.getElem?_eq_getElem hi, Option.map_some, Option.some.injEq] at hentry
      exact haddressed _ _ hentry
  · cases hitems : hashes.mapM lookup with
    | none =>
        rw [hitems] at hsent
        exact Or.inl (hsent.trans (List.append_nil sent))
    | some items =>
        rw [hitems] at hsent
        exact Or.inr ⟨items, hsent⟩

/-- A worker that handles a message without a panic. -/
theorem round_returns {node : IdleNode workers requests} {who : ThreadId workers requests}
    {orphanBlocks : List Block} {peer : PeerId} {message : Message}
    {post : List Block → Shared → Prop} (hwho : node.threads who = .ok (.network orphanBlocks))
    (hwp : ((handleMessage C build peer orphanBlocks message).run C build).wp post
      (fun _ _ => False) node.shared) :
    ∃ orphanBlocks' s', (nodeRounds C build geneLoop).next node who (.deliver peer message) =
      some ⟨s', Function.update node.threads who (.ok (.network orphanBlocks'))⟩ ∧
      post orphanBlocks' s' := by
  obtain ⟨orphanBlocks', s', hrun, hpost⟩ := Effect.exists_ok_of_wp hwp
  have hhandled : Program.run (Op.action C build) (handleMessage C build peer orphanBlocks message)
      node.shared = .ok orphanBlocks' s' := hrun
  refine ⟨orphanBlocks', s', Program.round_of_run hwho rfl ?_, hpost⟩
  rw [Program.run_bind]
  simp only [bind, EStateM.bind, hhandled]
  rfl

/-! ## The two handlers -/

/-- The request loop finds what is in the mempool, as long as nobody interferes. -/
theorem wp_fetchTransactions (husable : s.mempool.poisoned = false)
    (trans : List SignedTransaction) (hashes : List H256) :
    ((fetchTransactions trans hashes).run C build).wp
      (fun result s' => s' = s ∧
        result = (hashes.mapM s.mempool.value.trans.get).map (trans ++ ·))
      (fun _ _ => False) s := by
  induction hashes generalizing trans with
  | nil => simp [fetchTransactions]
  | cons hash rest ih =>
      have hlocked : ∀ {P : Prop}, s.mempool.poisoned = true → P := by
        intro P hpoisoned
        rw [husable] at hpoisoned
        cases hpoisoned
      simp only [fetchTransactions, NodeProgram.call, Program.call_bind, Program.run_perform,
        Effect.wp_bind, Op.action, wp_mempoolContains]
      refine ⟨hlocked, fun _ => ?_⟩
      cases hget : s.mempool.value.trans.get hash with
      | none => simp [HashMap.containsKey, hget, List.mapM_cons]
      | some transaction =>
          rw [HashMap.containsKey_of_get hget]
          simp only [if_true, Program.run_perform, Effect.wp_bind, Op.action, wp_mempoolGet, hget]
          refine ⟨hlocked, fun _ => Effect.wp_mono (ih _) ?_ fun _ _ h => h⟩
          rintro result s' ⟨rfl, rfl⟩
          refine ⟨rfl, ?_⟩
          cases hrest : rest.mapM s'.mempool.value.trans.get with
          | none => simp [List.mapM_cons, hget, hrest]
          | some others => simp [List.mapM_cons, hget, hrest]

theorem wp_getTransactions (husable : s.mempool.poisoned = false) (peer : PeerId)
    (orphanBlocks : List Block) (hashes : List H256) :
    ((handleMessage C build peer orphanBlocks (.getTransactions hashes)).run C build).wp
      (fun _ s' => s'.sent = s.sent ++ ((hashes.mapM s.mempool.value.trans.get).map fun trans =>
        .write peer (.getTransactions hashes) (.transactions trans)).toList)
      (fun _ _ => False) s := by
  simp only [handleMessage, answerGetTransactions, NodeProgram.run, Program.run_bind,
    Effect.wp_bind]
  refine Effect.wp_mono (wp_fetchTransactions husable [] hashes) ?_ fun _ _ h => h
  rintro result s' ⟨rfl, rfl⟩
  cases hfound : hashes.mapM s'.mempool.value.trans.get with
  | none => simp
  | some trans => simp [NodeProgram.call, Program.call, Op.action]

theorem wp_getBlocks (husable : s.blockchain.poisoned = false) (peer : PeerId)
    (orphanBlocks : List Block) (hashes : List H256) :
    ((handleMessage C build peer orphanBlocks (.getBlocks hashes)).run C build).wp
      (fun _ s' => s'.sent = s.sent ++ ((hashes.mapM fun hash =>
        (s.blockchain.value.blocks.get hash).map Prod.fst).map fun blocks =>
          .write peer (.getBlocks hashes) (.blocks blocks)).toList)
      (fun _ _ => False) s := by
  simp only [handleMessage, NodeProgram.call, Program.call_bind, NodeProgram.run,
    Program.run_perform, Effect.wp_bind, Op.action, answerGetBlocks, wp_withBlockchain]
  refine ⟨fun hpoisoned => ?_, fun _ => ?_⟩
  · rw [husable] at hpoisoned
    cases hpoisoned
  · cases hfound : hashes.mapM fun hash => (s.blockchain.value.blocks.get hash).map Prod.fst with
    | none => simp
    | some blocks => simp

/-! ## Whole runs -/

/-- Without interference no fetch from the mempool fails. -/
theorem idle_mempoolInvariant {guard : IdleNode workers requests → ThreadId workers requests →
      Choice → Prop} {node : IdleNode workers requests}
    (hreach : (nodeRounds C build geneLoop).Reachable guard
      (IdleNode.start C icoKey workers requests) node) : MempoolInvariant C node.shared := by
  have hkept : (mempoolContract C).inv node.shared := by
    refine Program.Reachable.roundsMeet (fun reason => reason ≠ .mempoolLookup) ?_ ?_ ?_ ?_ hreach
    · intro op s
      cases op with
      | none => trivial
      | some op => cases op <;> first | trivial | exact id
    · exact mempool_initial icoKey
    · intro node who choice task program _ _ hbody
      exact (nodeBody_composed hbody).meets plain_mempoolPre (fun _ => part_mempoolMeets) _
    · intro op s hinv hpre
      refine ⟨trivial, Effect.wp_mono (mempool_op op hinv hpre) ?_ ?_⟩
      · exact fun _ _ h => h.1
      · exact fun _ _ h => ⟨h.1, h.2.1⟩
  exact hkept

theorem idle_storeInvariant {quiet : Prop} {guard : IdleNode workers requests →
      ThreadId workers requests → Choice → Prop} {node : IdleNode workers requests}
    (hsign : ∀ t, verify C t geneLoop.publicKey.publicKey (sign C t geneLoop.publicKey) = true)
    (hguard : ∀ node who choice, guard node who choice → quiet →
      ∀ request ∈ choice.requests, request.walks = false)
    (hreach : (nodeRounds C build geneLoop).Reachable guard
      (IdleNode.start C icoKey workers requests) node) :
    StoreInvariant C build quiet node.shared := by
  have hkept : (storeContract C build quiet).inv node.shared := by
    refine Program.Reachable.roundsMeet (fun _ => True) (fun _ => BlocksGrow.refl) ?_ ?_ ?_ hreach
    · exact storeInvariant_initial icoKey
    · intro node who choice task program hmeets _ hbody
      exact nodeBody_storeMeets hsign (hguard node who choice hmeets) hbody
    · intro op s hinv hpre
      refine ⟨trivial, Effect.wp_mono (store_op op hinv hpre) ?_ ?_⟩
      · exact fun _ _ hkept => hkept.1
      · exact fun _ _ hkept => ⟨trivial, hkept.1⟩
  exact hkept

/-- The thread is a worker that waits for its next message. -/
def listens {workers requests : Nat} (node : IdleNode workers requests)
    (who : ThreadId workers requests) : Bool :=
  match node.threads who with
  | .ok (.network _) => true
  | _ => false

theorem exists_of_listens {workers requests : Nat} {node : IdleNode workers requests}
    {who : ThreadId workers requests} (h : listens node who = true) :
    ∃ orphanBlocks, node.threads who = .ok (.network orphanBlocks) := by
  unfold listens at h
  split at h
  next orphanBlocks hthread => exact ⟨orphanBlocks, hthread⟩
  next => cases h

/-- In every state that is reached by whole rounds the stores are content-addressed and what
the mempool holds is signed. A worker answers a request for transactions exactly when all of
them are stored, with the transactions that have these hashes, and the same holds of a request
for blocks as long as the lock of the block tree is not lost. Without requests that walk
through the tree, that only happens when a height no longer fits. -/
theorem stores_faithful (C : Crypto) (build : Build) (geneLoop : GeneLoop)
    (icoKey : Ed25519KeyPair) (workers requests : Nat) (served : Set ApiRequest)
    (hsign : ∀ t, verify C t geneLoop.publicKey.publicKey (sign C t geneLoop.publicKey) = true)
    (node : IdleNode workers requests)
    (hreach : (nodeRounds C build geneLoop).Reachable
      (fun _ _ choice => ∀ request ∈ choice.requests, request ∈ served)
      (IdleNode.start C icoKey workers requests) node) :
    ContentAddressed C node.shared ∧
    ((∀ request ∈ served, request.walks = false) → node.shared.blockchain.poisoned = true →
      HeightExhausted build node.shared) ∧
    ∀ who orphanBlocks, node.threads who = .ok (.network orphanBlocks) → ∀ peer hashes,
      (∃ node', (nodeRounds C build geneLoop).next node who
          (.deliver peer (.getTransactions hashes)) = some node' ∧
        Answered (SignedTransaction.hash C) node.shared.mempool.value.trans.get hashes
          (fun trans => .write peer (.getTransactions hashes) (.transactions trans))
          node.shared.sent node'.shared.sent) ∧
      (node.shared.blockchain.poisoned = false →
        ∃ node', (nodeRounds C build geneLoop).next node who
            (.deliver peer (.getBlocks hashes)) = some node' ∧
          Answered (Block.hash C)
            (fun hash => (node.shared.blockchain.value.blocks.get hash).map Prod.fst) hashes
            (fun blocks => .write peer (.getBlocks hashes) (.blocks blocks))
            node.shared.sent node'.shared.sent) := by
  have hstore := idle_storeInvariant hsign
    (fun _ _ choice hguard (hquiet : ∀ request ∈ served, request.walks = false) request hmem =>
      hquiet request (hguard request hmem)) hreach
  have hmempool := idle_mempoolInvariant hreach
  refine ⟨hstore.addressed, hstore.poisoned, ?_⟩
  intro who orphanBlocks hwho peer hashes
  constructor
  · obtain ⟨task, s', hround, hsent⟩ := round_returns hwho
      (wp_getTransactions hmempool.usable peer orphanBlocks hashes)
    refine ⟨_, hround, .of_mapM ?_ hmempool.addressed hsent⟩
    intro left right heq
    injection heq with _ _ hreply
    exact Message.transactions.inj hreply
  · intro husable
    obtain ⟨task, s', hround, hsent⟩ := round_returns hwho
      (wp_getBlocks husable peer orphanBlocks hashes)
    refine ⟨_, hround, .of_mapM ?_ ?_ hsent⟩
    · intro left right heq
      injection heq with _ _ hreply
      exact Message.blocks.inj hreply
    · intro requested block hlookup
      obtain ⟨entry, hentry, rfl⟩ := Option.map_eq_some_iff.mp hlookup
      exact hstore.addressed.blocks requested entry hentry

/-- A transaction arrives, and another peer asks for it. -/
theorem stores_faithful_moveInitialCoin :
    ∃ node node' : IdleNode 1 0, (nodeRounds .sample .release sampleGeneLoop).next node (.network 0)
        (.deliver 1 (.getTransactions [moveInitialCoin.hash .sample])) = some node' ∧
      ∃ trans, node'.shared.sent = node.shared.sent ++
        [.write 1 (.getTransactions [moveInitialCoin.hash .sample]) (.transactions trans)] := by
  have hrun : ((nodeRounds .sample .release sampleGeneLoop).run
      (fun _ _ choice => choice.requests.isEmpty) (IdleNode.start .sample Crypto.sampleKey 1 0)
      [(.network 0, .deliver 0 (.transactions [moveInitialCoin]))]).any
      (fun node : IdleNode 1 0 => node.shared.mempool.value.trans.containsKey
        (moveInitialCoin.hash .sample) && listens node (.network 0)) = true := by
    decide +kernel
  have hguard : ∀ (_ : IdleNode 1 0) (_ : ThreadId 1 0) (choice : Choice),
      choice.requests.isEmpty = true →
        ∀ request ∈ choice.requests, request ∈ (∅ : Set ApiRequest) := by
    intro _ _ choice hallowed request hmem
    rw [List.isEmpty_iff.mp hallowed] at hmem
    cases hmem
  obtain ⟨node, hreach, hcheck⟩ := Machine.exists_reachable hguard hrun
  obtain ⟨hstored, hidle⟩ := Bool.and_eq_true_iff.mp hcheck
  have hfaithful := (stores_faithful .sample .release sampleGeneLoop Crypto.sampleKey 1 0 ∅
    (fun _ => beq_self_eq_true _) node hreach).2.2 (.network 0)
  obtain ⟨orphanBlocks, hthread⟩ := exists_of_listens hidle
  obtain ⟨node', hnext, hanswered⟩ :=
    (hfaithful orphanBlocks hthread 1 [moveInitialCoin.hash .sample]).1
  exact ⟨node, node', hnext, hanswered.answered.mpr (List.forall_mem_singleton.mpr hstored)⟩

end BitcoinClient
