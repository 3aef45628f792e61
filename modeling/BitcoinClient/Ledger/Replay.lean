import BitcoinClient.Ledger.Coins

/-! # Which transactions can be executed again

Nothing in the checks records the executed transactions: what stops a replay is
that the inputs are gone. An outpoint comes back only when its creator is
executed again, so along a chain of creators a replay needs a first transaction
that has no inputs, or one that creates entries beside the initial coin, under
the all-zero hash.
-/

namespace BitcoinClient

variable (C : Crypto)

/-- An outpoint that a further execution of its creator can bring back: the creator
hashes to zero, or all its inputs can come back as well. -/
inductive Recreatable (txs : List SignedTransaction) : H256 × UInt8 → Prop
  | zeroHash {creator : SignedTransaction} {outpoint : H256 × UInt8} (hmem : creator ∈ txs)
      (hhash : creator.hash C = outpoint.1) (hzero : creator.hash C = .hex 0) :
      Recreatable txs outpoint
  | again {creator : SignedTransaction} {outpoint : H256 × UInt8} (hmem : creator ∈ txs)
      (hhash : creator.hash C = outpoint.1)
      (hinputs : ∀ input ∈ creator.transaction.input.map Input.outpoint, Recreatable txs input) :
      Recreatable txs outpoint

/-- A transaction of the list whose inputs can all come back. One without inputs is rootless. -/
def Rootless (txs : List SignedTransaction) (st : SignedTransaction) : Prop :=
  st ∈ txs ∧ ∀ outpoint ∈ st.transaction.input.map Input.outpoint, Recreatable C txs outpoint

/-- Some transaction of the list names this outpoint. -/
def Consumed (txs : List SignedTransaction) (outpoint : H256 × UInt8) : Prop :=
  ∃ st ∈ txs, outpoint ∈ st.transaction.input.map Input.outpoint

/-- No two positions of the list hold the same transaction or share an input. -/
def NoReplay (txs : List SignedTransaction) : Prop :=
  ∀ (i j : Nat) (first second : SignedTransaction), i < j → txs[i]? = some first →
    txs[j]? = some second →
    first ≠ second ∧ ∀ outpoint ∈ first.transaction.input.map Input.outpoint,
      outpoint ∉ second.transaction.input.map Input.outpoint

/-- What holds after a prefix of the chain has been executed. -/
structure ReplayInvariant (icoKey : Ed25519KeyPair) (done : List SignedTransaction)
    (state : State) : Prop where
  origin : state.OriginatesFrom C icoKey {st | st ∈ done}
  consumed : ∀ outpoint, Consumed done outpoint →
    outpoint.1 = .hex 0 ∨ ∃ creator ∈ done, creator.hash C = outpoint.1
  respent : ∀ outpoint coin, Consumed done outpoint → state.states.get outpoint = some coin →
    Recreatable C done outpoint

variable {C} {build : Build} {icoKey : Ed25519KeyPair}

theorem Recreatable.mono {txs more : List SignedTransaction} (hsubset : txs ⊆ more)
    {outpoint : H256 × UInt8} (h : Recreatable C txs outpoint) : Recreatable C more outpoint := by
  induction h with
  | zeroHash hmem hhash hzero => exact .zeroHash (hsubset hmem) hhash hzero
  | again hmem hhash _ ih => exact .again (hsubset hmem) hhash ih

theorem Rootless.mono {txs more : List SignedTransaction} (hsubset : txs ⊆ more)
    {st : SignedTransaction} (h : Rootless C txs st) : Rootless C more st :=
  ⟨hsubset h.1, fun outpoint houtpoint => (h.2 outpoint houtpoint).mono hsubset⟩

/-- Where every transaction has an input and none hashes to zero, no outpoint comes back. -/
theorem Recreatable.not_of_inputs {txs : List SignedTransaction}
    (hinputs : ∀ st ∈ txs, st.transaction.input ≠ []) (hzero : AvoidsZeroHash C {st | st ∈ txs})
    {outpoint : H256 × UInt8} : ¬ Recreatable C txs outpoint := by
  intro h
  induction h with
  | zeroHash hmem _ hhash => exact hzero _ hmem hhash
  | again hmem _ _ ih =>
      obtain ⟨input, rest, hcons⟩ := List.exists_cons_of_ne_nil (hinputs _ hmem)
      apply ih input.outpoint
      rw [hcons]
      exact List.mem_cons_self

theorem Rootless.not_of_inputs {txs : List SignedTransaction}
    (hinputs : ∀ st ∈ txs, st.transaction.input ≠ []) (hzero : AvoidsZeroHash C {st | st ∈ txs})
    {st : SignedTransaction} : ¬ Rootless C txs st := by
  rintro ⟨hmem, hback⟩
  obtain ⟨input, rest, hcons⟩ := List.exists_cons_of_ne_nil (hinputs st hmem)
  apply Recreatable.not_of_inputs hinputs hzero (hback input.outpoint _)
  rw [hcons]
  exact List.mem_cons_self

namespace ReplayInvariant

theorem start : ReplayInvariant C icoKey [] (State.new C icoKey) where
  origin := State.new_originatesFrom
  consumed := by
    rintro outpoint ⟨st, hst, _⟩
    cases hst
  respent := by
    rintro outpoint coin ⟨st, hst, _⟩
    cases hst

variable {done : List SignedTransaction} {state next : State} {st : SignedTransaction}

/-- A transaction that was executed before and is accepted again is rootless. -/
theorem rootless_of_mem (h : ReplayInvariant C icoKey done state)
    (haccepted : Accepted C build state st next) (hmem : st ∈ done) : Rootless C done st := by
  refine ⟨hmem, fun outpoint houtpoint => ?_⟩
  obtain ⟨value, hget⟩ := haccepted.owned houtpoint
  exact h.respent outpoint _ ⟨st, hmem, houtpoint⟩ hget

/-- An input that was consumed before and is accepted again is recreatable. -/
theorem recreatable_of_consumed (h : ReplayInvariant C icoKey done state)
    (haccepted : Accepted C build state st next) {outpoint : H256 × UInt8}
    (houtpoint : outpoint ∈ st.transaction.input.map Input.outpoint)
    (hconsumed : Consumed done outpoint) : Recreatable C done outpoint := by
  obtain ⟨value, hget⟩ := haccepted.owned houtpoint
  exact h.respent outpoint _ hconsumed hget

theorem step (hfree : CollisionFree C {other | other ∈ done ++ [st]})
    (h : ReplayInvariant C icoKey done state) (haccepted : Accepted C build state st next) :
    ReplayInvariant C icoKey (done ++ [st]) next := by
  have hsubset : done ⊆ done ++ [st] := List.subset_append_left done [st]
  have hlast : st ∈ done ++ [st] := List.mem_append_right done List.mem_cons_self
  -- A consumed outpoint was in the state, so its creator came earlier.
  have hcreated : ∀ outpoint, Consumed (done ++ [st]) outpoint →
      outpoint.1 = .hex 0 ∨ ∃ creator ∈ done, creator.hash C = outpoint.1 := by
    rintro outpoint ⟨spender, hspender, houtpoint⟩
    rcases List.mem_append.mp hspender with hdone | hst
    · exact h.consumed outpoint ⟨spender, hdone, houtpoint⟩
    · rw [List.mem_singleton] at hst
      subst hst
      obtain ⟨value, hget⟩ := haccepted.owned houtpoint
      rcases h.origin outpoint _ hget with ⟨rfl, _⟩ | ⟨creator, hcreator, hhash, _⟩
      · exact Or.inl rfl
      · exact Or.inr ⟨creator, hcreator, hhash⟩
  refine ⟨?_, fun outpoint hconsumed => ?_, fun outpoint coin hconsumed hget => ?_⟩
  · rw [haccepted.next_eq]
    exact (h.origin.mono hsubset).execute hlast
  · rcases hcreated outpoint hconsumed with hzero | ⟨creator, hcreator, hhash⟩
    · exact Or.inl hzero
    · exact Or.inr ⟨creator, hsubset hcreator, hhash⟩
  · rw [haccepted.next_eq, State.get_execute] at hget
    rcases Option.or_eq_some_iff.mp hget with hnew | ⟨_, hkept⟩
    · obtain ⟨hhash, _⟩ := Option.ite_none_right_eq_some.mp hnew
      rcases hcreated outpoint hconsumed with hzero | ⟨creator, hcreator, hcreatorHash⟩
      · exact .zeroHash hlast hhash.symm (hhash.symm.trans hzero)
      · -- The earlier creator has the same hash: it is this transaction.
        obtain rfl : creator = st :=
          hfree (hsubset hcreator) hlast (hcreatorHash.trans hhash)
        exact .again hlast hhash.symm ((h.rootless_of_mem haccepted hcreator).mono hsubset).2
    · obtain ⟨hnotInput, hbefore⟩ := Option.ite_none_left_eq_some.mp hkept
      obtain ⟨spender, hspender, houtpoint⟩ := hconsumed
      rcases List.mem_append.mp hspender with hdone | hst
      · exact (h.respent outpoint coin ⟨spender, hdone, houtpoint⟩ hbefore).mono hsubset
      · rw [List.mem_singleton] at hst
        subst hst
        exact absurd houtpoint hnotInput

theorem checkTxs {txs : List SignedTransaction} {final : State}
    (hfree : CollisionFree C {other | other ∈ done ++ txs})
    (h : ReplayInvariant C icoKey done state)
    (hrun : checkTxs C build state txs = .ok final) :
    ReplayInvariant C icoKey (done ++ txs) final := by
  induction txs generalizing done state with
  | nil =>
      obtain rfl : state = final := Except.ok.inj hrun
      rwa [List.append_nil]
  | cons st rest ih =>
      obtain ⟨next, hfirst, hrest⟩ := checkTxs_cons_ok hrun
      have hassoc : done ++ st :: rest = (done ++ [st]) ++ rest := by simp
      rw [hassoc] at hfree ⊢
      have hfree' : CollisionFree C {other | other ∈ done ++ [st]} :=
        hfree.mono fun other hother => List.mem_append_left rest hother
      exact ih hfree (h.step hfree' (checkTx_ok hfirst)) hrest

end ReplayInvariant

section Executed

variable {txs : List SignedTransaction} {final : State}

/-- What is accepted at two positions is rootless, and what is spent at two positions can come
back. -/
theorem checkTxs_replayed (hfree : CollisionFree C {st | st ∈ txs})
    (hrun : checkTxs C build (State.new C icoKey) txs = .ok final) {i j : Nat}
    {first second : SignedTransaction} (hlt : i < j) (hfirst : txs[i]? = some first)
    (hsecond : txs[j]? = some second) : (first = second → Rootless C txs first) ∧
      ∀ outpoint ∈ first.transaction.input.map Input.outpoint,
        outpoint ∈ second.transaction.input.map Input.outpoint → Recreatable C txs outpoint := by
  obtain ⟨hj, rfl⟩ := List.getElem?_eq_some_iff.mp hsecond
  have hsplit : txs = txs.take j ++ txs[j] :: txs.drop (j + 1) := by
    rw [List.getElem_cons_drop, List.take_append_drop]
  rw [hsplit] at hrun
  obtain ⟨middle, hbefore, hafter⟩ := checkTxs_append_ok hrun
  obtain ⟨next, haccepted, _⟩ := checkTxs_cons_ok hafter
  have hsubset : txs.take j ⊆ txs := List.take_subset j txs
  -- What the invariant says of the transactions before the second position.
  have hinvariant : ReplayInvariant C icoKey (txs.take j) middle :=
    ReplayInvariant.start.checkTxs (hfree.mono fun _ hst => hsubset hst) hbefore
  have hmem : first ∈ txs.take j := by
    rw [← List.getElem?_take_of_lt hlt] at hfirst
    exact List.mem_of_getElem? hfirst
  constructor
  · rintro rfl
    exact (hinvariant.rootless_of_mem (checkTx_ok haccepted) hmem).mono hsubset
  · intro outpoint hinFirst hinSecond
    exact (hinvariant.recreatable_of_consumed (checkTx_ok haccepted) hinSecond
      ⟨first, hmem, hinFirst⟩).mono hsubset

theorem checkTxs_noReplay (hfree : CollisionFree C {st | st ∈ txs})
    (hinputs : ∀ st ∈ txs, st.transaction.input ≠ []) (hzero : AvoidsZeroHash C {st | st ∈ txs})
    (hrun : checkTxs C build (State.new C icoKey) txs = .ok final) : NoReplay txs := by
  intro i j first second hlt hfirst hsecond
  obtain ⟨hsame, hshared⟩ := checkTxs_replayed hfree hrun hlt hfirst hsecond
  constructor
  · exact fun heq => Rootless.not_of_inputs hinputs hzero (hsame heq)
  · exact fun outpoint hinFirst hinSecond =>
      Recreatable.not_of_inputs hinputs hzero (hshared outpoint hinFirst hinSecond)

end Executed

/-- A transaction accepted at two positions of a chain is rootless, and so is, or
hashes to zero, the creator of an outpoint that two of its transactions consume.
Without transactions that have no input or hash to zero, nothing is replayed. -/
theorem replayed_rootless (C : Crypto) (build : Build) (icoKey : Ed25519KeyPair)
    (chain : List (List SignedTransaction)) (final : State)
    (hfree : CollisionFree C {st | st ∈ chain.flatten})
    (hrun : checkChain C build (State.new C icoKey) chain = .ok final) :
    (∀ (i j : Nat) (first second : SignedTransaction), i < j →
      chain.flatten[i]? = some first → chain.flatten[j]? = some second →
      (first = second → Rootless C chain.flatten first) ∧
      ∀ outpoint ∈ first.transaction.input.map Input.outpoint,
        outpoint ∈ second.transaction.input.map Input.outpoint →
        Recreatable C chain.flatten outpoint) ∧
    ((∀ st ∈ chain.flatten, st.transaction.input ≠ []) →
      AvoidsZeroHash C {st | st ∈ chain.flatten} → NoReplay chain.flatten) := by
  rw [checkChain_eq_checkTxs] at hrun
  constructor
  · intro i j first second hlt hfirst hsecond
    exact checkTxs_replayed hfree hrun hlt hfirst hsecond
  · exact fun hinputs hzero => checkTxs_noReplay hfree hinputs hzero hrun

/-- A transaction that moves nothing. -/
def emptyTransaction : SignedTransaction := .signedBy .sample Crypto.sampleKey ⟨[], []⟩

theorem emptyTransaction_collisionFree :
    CollisionFree .sample {st | st ∈ [[emptyTransaction], [emptyTransaction]].flatten} := by
  intro left hleft right hright _
  have hsame : ∀ st ∈ [[emptyTransaction], [emptyTransaction]].flatten, st = emptyTransaction := by
    simp
  rw [hsame left hleft, hsame right hright]

theorem checkChain_emptyTransaction :
    checkChain .sample .release (State.new .sample Crypto.sampleKey)
      [[emptyTransaction], [emptyTransaction]] = .ok (State.new .sample Crypto.sampleKey) := by
  decide +kernel

theorem replayed_rootless_emptyTransaction :
    Rootless .sample [emptyTransaction, emptyTransaction] emptyTransaction := by
  have hrootless := replayed_rootless .sample .release Crypto.sampleKey _ _
    emptyTransaction_collisionFree checkChain_emptyTransaction
  exact (hrootless.1 0 1 emptyTransaction emptyTransaction (by decide) rfl rfl).1 rfl

/-- The same transaction is executed in two blocks of an accepted chain. -/
theorem not_noReplay :
    ¬ ∀ (build : Build) (chain : List (List SignedTransaction)) (final : State),
      CollisionFree .sample {st | st ∈ chain.flatten} →
      checkChain .sample build (State.new .sample Crypto.sampleKey) chain = .ok final →
      NoReplay chain.flatten := by
  intro hall
  have hreplay := hall .release _ _ emptyTransaction_collisionFree checkChain_emptyTransaction
  exact (hreplay 0 1 emptyTransaction emptyTransaction (by decide) rfl rfl).1 rfl

end BitcoinClient
