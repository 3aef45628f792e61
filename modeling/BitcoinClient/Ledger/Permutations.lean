import BitcoinClient.Ledger.Reordering
import BitcoinClient.Node.Operation

/-! # The order of independent transactions

Two transactions that share no input, and of which none spends an output of the other, can
be executed in either order: both orders give the same answer and leave the same ledger
state. A list of such transactions can therefore be permuted at will.
-/

namespace BitcoinClient

/-- Transactions with different hashes and different inputs, none of which names a hash among
them. -/
structure Interchangeable (C : Crypto) (order : List SignedTransaction) : Prop where
  distinct : (order.map (SignedTransaction.hash C)).Nodup
  disjoint : order.Pairwise InputsDisjoint
  independent : Independent C order

variable {C : Crypto} {build : Build} {state : State}

/-- The answer for a transaction depends on the coins of its inputs alone. -/
theorem checkTx_eq_map {left right : State} {st : SignedTransaction}
    (hinputs : ∀ input ∈ st.transaction.input,
      left.states.get input.outpoint = right.states.get input.outpoint) :
    checkTx C build right st = (checkTx C build left st).map fun _ => right.execute C st := by
  simp only [checkTx, sumInputs_congr hinputs]
  split
  next =>
    split
    next => rfl
    next =>
      split
      next => rfl
      next =>
        split
        next => rfl
        next => rfl
  next => rfl

/-- What a transaction leaves of an outpoint that is not its own. -/
theorem get_execute_of_independent {st other : SignedTransaction}
    (hdisjoint : InputsDisjoint st other)
    (hother : ∀ input ∈ other.transaction.input, input.prevTrans ≠ st.hash C) :
    ∀ input ∈ other.transaction.input,
      state.states.get input.outpoint = (state.execute C st).states.get input.outpoint := by
  intro input hinput
  rw [State.get_execute_of_ne C (hother input hinput), if_neg]
  intro hmem
  obtain ⟨spent, hspent, heq⟩ := List.mem_map.mp hmem
  exact hdisjoint spent hspent input hinput heq

/-- Two transactions that share nothing leave the same state in either order. -/
theorem State.execute_comm {first second : SignedTransaction}
    (hne : first.hash C ≠ second.hash C)
    (hfirst : ∀ input ∈ first.transaction.input, input.prevTrans ≠ second.hash C)
    (hsecond : ∀ input ∈ second.transaction.input, input.prevTrans ≠ first.hash C) :
    (state.execute C first).execute C second = (state.execute C second).execute C first := by
  have hspent : ∀ {st : SignedTransaction} {hash : H256},
      (∀ input ∈ st.transaction.input, input.prevTrans ≠ hash) → ∀ outpoint : H256 × UInt8,
        outpoint.1 = hash → outpoint ∉ st.transaction.input.map Input.outpoint := by
    rintro st hash hinputs outpoint rfl hmem
    obtain ⟨input, hinput, rfl⟩ := List.mem_map.mp hmem
    exact hinputs input hinput rfl
  have hstates : ((state.execute C first).execute C second).states =
      ((state.execute C second).execute C first).states := by
    apply HashMap.ext
    intro outpoint
    simp only [get_execute]
    by_cases hown : outpoint.1 = first.hash C
    · have hnot := hspent hsecond outpoint hown
      simp [hown, hne, hnot]
    · by_cases hother : outpoint.1 = second.hash C
      · have hnot := hspent hfirst outpoint hother
        simp [hother, hne.symm, hnot]
      · by_cases hmem : outpoint ∈ first.transaction.input.map Input.outpoint
        · simp only [if_neg hown, if_neg hother, if_pos hmem, Option.none_or, ite_self]
        · simp only [if_neg hown, if_neg hother, if_neg hmem, Option.none_or]
  exact congrArg State.mk hstates

/-- In a release build two such transactions give the same answer in either order. -/
theorem checkTx_comm {first second : SignedTransaction} (hne : first.hash C ≠ second.hash C)
    (hdisjoint : InputsDisjoint first second)
    (hfirst : ∀ input ∈ first.transaction.input, input.prevTrans ≠ second.hash C)
    (hsecond : ∀ input ∈ second.transaction.input, input.prevTrans ≠ first.hash C) :
    (checkTx C .release state first >>= fun next => checkTx C .release next second) =
      (checkTx C .release state second >>= fun next => checkTx C .release next first) := by
  have hrejected : ∀ {st : SignedTransaction} {failure : CheckFailure},
      checkTx C .release state st = .error failure → failure = .rejected := by
    intro st failure hfailure
    cases failure with
    | rejected => rfl
    | overflow => exact absurd hfailure checkTx_release
  have hthen : ∀ {st other : SignedTransaction} {next : State}, InputsDisjoint st other →
      (∀ input ∈ other.transaction.input, input.prevTrans ≠ st.hash C) →
      checkTx C .release state st = .ok next → checkTx C .release next other =
        (checkTx C .release state other).map fun _ => (state.execute C st).execute C other := by
    intro st other next hdisjoint hother hcheck
    rw [(checkTx_ok hcheck).next_eq]
    exact checkTx_eq_map (get_execute_of_independent hdisjoint hother)
  cases hcheck : checkTx C .release state first with
  | error failure =>
      cases hcheck' : checkTx C .release state second with
      | error failure' =>
          rw [hrejected hcheck, hrejected hcheck']
          rfl
      | ok next =>
          change _ = checkTx C .release next first
          rw [hthen hdisjoint.symm hfirst hcheck', hcheck]
          rfl
  | ok next =>
      change checkTx C .release next second = _
      rw [hthen hdisjoint hsecond hcheck]
      cases hcheck' : checkTx C .release state second with
      | error failure' => rfl
      | ok next' =>
          change _ = checkTx C .release next' first
          rw [hthen hdisjoint.symm hfirst hcheck', hcheck, Except.map, Except.map,
            State.execute_comm hne hfirst hsecond]

/-- The loop as a fold over its own results. -/
theorem checkTxs_eq_foldl (state : State) (order : List SignedTransaction) :
    checkTxs C build state order =
      order.foldl (fun result st => result >>= fun next => checkTx C build next st)
        (.ok state) := by
  have hfold : ∀ result : Except CheckFailure State,
      (result >>= fun next => checkTxs C build next order) =
        order.foldl (fun result st => result >>= fun next => checkTx C build next st) result := by
    induction order with
    | nil =>
        intro result
        cases result with
        | error failure => rfl
        | ok next => rfl
    | cons st rest ih =>
        intro result
        rw [List.foldl_cons, ← ih]
        cases result with
        | error failure => rfl
        | ok next =>
            change checkTxs C build next (st :: rest) = _
            rw [checkTxs, List.foldlM_cons]
            rfl
  exact hfold (.ok state)

/-- A permutation of interchangeable transactions. -/
theorem Interchangeable.checkTxs_perm {order order' : List SignedTransaction}
    (h : Interchangeable C order) (hperm : order.Perm order') :
    checkTxs C .release state order = checkTxs C .release state order' := by
  rw [checkTxs_eq_foldl, checkTxs_eq_foldl]
  refine hperm.foldl_eq' (fun first hfirst second hsecond result => ?_) _
  by_cases heq : first = second
  · rw [heq]
  have hsymm : Std.Symm InputsDisjoint := ⟨fun _ _ => InputsDisjoint.symm⟩
  have hne : first.hash C ≠ second.hash C :=
    fun hhash => heq (List.inj_on_of_nodup_map h.distinct hfirst hsecond hhash)
  have hdisjoint : InputsDisjoint first second := h.disjoint.forall hfirst hsecond heq
  cases result with
  | error failure => rfl
  | ok next =>
      exact checkTx_comm hne hdisjoint (h.independent first hfirst second hsecond)
        (h.independent second hsecond first hfirst)

/-- `check_tx_state` treats all permutations of interchangeable transactions alike. -/
theorem checkTxState_perm (C : Crypto) (parentHash blockHash : H256)
    (order order' : List SignedTransaction) (hperm : order.Perm order')
    (hdistinct : (order.map (SignedTransaction.hash C)).Nodup)
    (hdisjoint : order.Pairwise InputsDisjoint) (hindependent : Independent C order) (s : Shared) :
    (checkTxState C .release parentHash order blockHash).run C .release s =
      (checkTxState C .release parentHash order' blockHash).run C .release s := by
  have hsame : ∀ state, checkTxs C .release state order = checkTxs C .release state order' :=
    fun state => Interchangeable.checkTxs_perm ⟨hdistinct, hdisjoint, hindependent⟩ hperm
  unfold checkTxState
  simp only [hsame]

/-- The initial coin is moved before or after a transaction that moves nothing. -/
theorem checkTxState_perm_moveInitialCoin :
    (checkTxState .sample .release (Blockchain.genesis.hash .sample)
        [moveInitialCoin, .signedBy .sample Crypto.sampleKey ⟨[], []⟩] (.hex 1)).run
      .sample .release (Shared.initial .sample Crypto.sampleKey) =
    (checkTxState .sample .release (Blockchain.genesis.hash .sample)
        [.signedBy .sample Crypto.sampleKey ⟨[], []⟩, moveInitialCoin] (.hex 1)).run
      .sample .release (Shared.initial .sample Crypto.sampleKey) := by
  have hindependent : ∀ st ∈ [moveInitialCoin, .signedBy .sample Crypto.sampleKey ⟨[], []⟩],
      ∀ other ∈ [moveInitialCoin, .signedBy .sample Crypto.sampleKey ⟨[], []⟩],
      ∀ input ∈ st.transaction.input, input.prevTrans ≠ other.hash .sample := by decide +kernel
  exact checkTxState_perm .sample _ _ _ _ (.swap _ _ _) (by decide +kernel)
    (List.pairwise_pair.mpr fun _ _ => List.forall_mem_nil _) hindependent _

end BitcoinClient
