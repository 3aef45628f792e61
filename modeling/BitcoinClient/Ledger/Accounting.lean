import Mathlib
import BitcoinClient.Node.Operation

/-! # The value of a ledger state

An accepted transaction may destroy value (a fee, an output that overwrites
another entry), and it creates value exactly when it names an outpoint more than
once: the sum over its inputs then counts a coin several times that is removed
only once. The accounting identity below is exact, so it says precisely when a
block inflates the supply.
-/

namespace BitcoinClient

variable (C : Crypto)

namespace SignedTransaction

/-- The sum of the values of the inputs, as the check adds them up. -/
def inputValue (state : State) (st : SignedTransaction) : Nat :=
  ((st.transaction.input.map Input.outpoint).map state.valueAt).sum

/-- The same sum with every outpoint counted once. -/
def distinctInputValue (state : State) (st : SignedTransaction) : Nat :=
  ((st.transaction.input.map Input.outpoint).dedup.map state.valueAt).sum

def outputValue (st : SignedTransaction) : Nat :=
  ((st.transaction.output.map Output.value).map UInt32.toNat).sum

/-- What naming outpoints repeatedly counts in addition. -/
def repeatedValue (state : State) (st : SignedTransaction) : Nat :=
  st.inputValue state - st.distinctInputValue state

/-- The value lost where outputs overwrite entries, of the state or of each other. -/
def overwrittenValue (state : State) (st : SignedTransaction) : Nat :=
  (state.removeInputs st.transaction.input).states.overwritten (fun coin => coin.1.toNat)
    (State.outputEntries (st.hash C) st.transaction.output)

/-- The value that the transaction gives up: its fee and what it overwrites. -/
def forfeitedValue (state : State) (st : SignedTransaction) : Nat :=
  (st.inputValue state - st.outputValue) + st.overwrittenValue C state

end SignedTransaction

/-- The repeated value of all transactions of a list, replayed with `State::update`. -/
def repeatedTotal : State → List SignedTransaction → Nat
  | _, [] => 0
  | state, st :: rest => st.repeatedValue state + repeatedTotal (state.update C st) rest

/-- The forfeited value of all transactions of a list, replayed with `State::update`. -/
def forfeitedTotal : State → List SignedTransaction → Nat
  | _, [] => 0
  | state, st :: rest => st.forfeitedValue C state + forfeitedTotal (state.update C st) rest

variable {C}

theorem SignedTransaction.distinctInputValue_le (state : State) (st : SignedTransaction) :
    st.distinctInputValue state ≤ st.inputValue state :=
  ((List.dedup_sublist _).map _).sum_le_sum fun _ _ => Nat.zero_le _

/-- A transaction that names no outpoint twice repeats no value. -/
theorem SignedTransaction.repeatedValue_eq_zero {state : State} {st : SignedTransaction}
    (hnodup : (st.transaction.input.map Input.outpoint).Nodup) : st.repeatedValue state = 0 := by
  rw [repeatedValue, distinctInputValue, hnodup.dedup, inputValue, Nat.sub_self]

theorem State.total_new (key : Ed25519KeyPair) : (State.new C key).total = 100 := by
  have h := HashMap.total_insert (fun coin : UInt32 × Address => coin.1.toNat) ∅
    ((H256.hex 0, 0) : H256 × UInt8) (100, Address.fromPublicKeyBytes C key.publicKey)
  rw [HashMap.weightAt, HashMap.get_empty] at h
  exact h

/-- Removing inputs takes away every named coin once. -/
theorem State.total_removeInputs (state : State) (st : SignedTransaction) :
    (state.removeInputs st.transaction.input).total + st.distinctInputValue state =
      state.total := by
  rw [State.total, State.removeInputs_states]
  exact HashMap.total_removeAll _ _ _

theorem State.total_insertOutputs (state : State) (st : SignedTransaction) :
    (state.execute C st).total + st.overwrittenValue C state =
      (state.removeInputs st.transaction.input).total + st.outputValue := by
  have hvalues : (State.outputEntries (st.hash C) st.transaction.output).map
      (fun entry => entry.2.1.toNat) =
        (st.transaction.output.map Output.value).map UInt32.toNat := by
    rw [State.outputEntries, List.map_map, List.map_map, ← List.zipIdx_map_fst 0
      st.transaction.output, List.map_map]
    simp [Function.comp_def]
  rw [State.total, State.execute, State.insertOutputs_states, SignedTransaction.outputValue,
    ← hvalues]
  exact HashMap.total_insertAll _ _ _

/-- With overflow checks the compared sums are exact. -/
theorem Accepted.outputValue_le {state next : State} {st : SignedTransaction}
    (h : Accepted C .overflowChecked state st next) : st.outputValue ≤ st.inputValue state := by
  obtain ⟨sumInput, sumOutput, hinput, houtput, hle⟩ := h.sums
  have hin := sumInputs_checked hinput
  have hout := sumU32_checked_eq_some houtput
  rw [UInt32.toNat_zero, Nat.zero_add] at hin hout
  rw [SignedTransaction.outputValue, SignedTransaction.inputValue, ← hin, ← hout]
  exact UInt32.le_iff_toNat_le.mp hle

/-- The accounting identity of one transaction. -/
theorem Accepted.total_eq {state next : State} {st : SignedTransaction}
    (h : Accepted C .overflowChecked state st next) :
    next.total + st.forfeitedValue C state = state.total + st.repeatedValue state := by
  have hle := h.outputValue_le
  have hdistinct := st.distinctInputValue_le state
  have hremove := state.total_removeInputs st
  have hinsert := state.total_insertOutputs (C := C) st
  rw [h.next_eq, SignedTransaction.forfeitedValue, SignedTransaction.repeatedValue]
  omega

/-- The accounting identity of a block. -/
theorem checkTxs_total_eq {state final : State} {txs : List SignedTransaction}
    (h : checkTxs C .overflowChecked state txs = .ok final) :
    final.total + forfeitedTotal C state txs = state.total + repeatedTotal C state txs := by
  induction txs generalizing state with
  | nil =>
      obtain rfl : state = final := Except.ok.inj h
      rfl
  | cons st rest ih =>
      obtain ⟨next, hfirst, hrest⟩ := checkTxs_cons_ok h
      have haccepted := checkTx_ok hfirst
      have htail := ih hrest
      have hhead := haccepted.total_eq
      have hupdate : state.update C st = next := by
        rw [State.update_eq_execute, haccepted.next_eq]
      rw [repeatedTotal, forfeitedTotal, hupdate]
      omega

theorem repeatedTotal_eq_zero {state : State} {txs : List SignedTransaction}
    (hnodup : ∀ st ∈ txs, (st.transaction.input.map Input.outpoint).Nodup) :
    repeatedTotal C state txs = 0 := by
  induction txs generalizing state with
  | nil => rfl
  | cons st rest ih =>
      obtain ⟨hst, hrest⟩ := List.forall_mem_cons.mp hnodup
      rw [repeatedTotal, SignedTransaction.repeatedValue_eq_zero hst, ih hrest]

/-- In particular a block does not raise the total value when no transaction of it names an
outpoint twice. -/
theorem checkTxs_total_le_of_nodup {txs : List SignedTransaction} {state final : State}
    (hnodup : ∀ st ∈ txs, (st.transaction.input.map Input.outpoint).Nodup)
    (h : checkTxs C .overflowChecked state txs = .ok final) : final.total ≤ state.total := by
  have htotal := checkTxs_total_eq h
  have hrepeated : repeatedTotal C state txs = 0 := repeatedTotal_eq_zero hnodup
  omega

/-- The state that `check_tx_state` stores when it returns true. -/
theorem checkTxState_ok_true {build : Build} {parentHash blockHash : H256}
    {txs : List SignedTransaction} {s s' : Shared}
    (hrun : (checkTxState C build parentHash txs blockHash).run C build s = .ok true s') :
    ∃ parent next, s.blockState.value.get parentHash = some parent ∧
      checkTxs C build parent txs = .ok next ∧ s'.blockState.value.get blockHash = some next := by
  have hwp : ((checkTxState C build parentHash txs blockHash).run C build).wp
      (fun result s' => result = true → ∃ parent next,
        s.blockState.value.get parentHash = some parent ∧
        checkTxs C build parent txs = .ok next ∧ s'.blockState.value.get blockHash = some next)
      (fun _ _ => True) s := by
    rw [wp_checkTxState]
    refine ⟨fun _ => trivial, fun _ => ?_⟩
    cases hparent : s.blockState.value.get parentHash with
    | none => trivial
    | some parent =>
        dsimp only
        split
        next => exact nofun
        next => trivial
        next next hcheck =>
          exact fun _ => ⟨parent, next, rfl, hcheck, HashMap.get_insert_self _ _ _⟩
  exact (Effect.wp_of_ok hrun).mp hwp rfl

/-- With overflow checks, an accepted block does not raise the total value exactly
when the value its transactions count repeatedly is at most the value they
forfeit. On a chain of such blocks the total stays within the 100 issued units. -/
theorem noInflation_iff (C : Crypto) :
    (∀ (parentHash blockHash : H256) (txs : List SignedTransaction) (s s' : Shared)
      (parent next : State), s.blockState.value.get parentHash = some parent →
      parent.total < 2 ^ 32 →
      (checkTxState C .overflowChecked parentHash txs blockHash).run C .overflowChecked s =
        .ok true s' →
      s'.blockState.value.get blockHash = some next →
      (next.total ≤ parent.total ↔ repeatedTotal C parent txs ≤ forfeitedTotal C parent txs)) ∧
    (∀ (icoKey : Ed25519KeyPair) (blocks : List (List SignedTransaction)) (final : State),
      checkChain C .overflowChecked (State.new C icoKey) blocks = .ok final →
      (∀ before block after parent, blocks = before ++ block :: after →
        checkChain C .overflowChecked (State.new C icoKey) before = .ok parent →
        repeatedTotal C parent block ≤ forfeitedTotal C parent block) →
      final.total ≤ 100) := by
  constructor
  · intro parentHash blockHash txs s s' parent next hparent _ hrun hnext
    obtain ⟨parent', next', hparent', hcheck, hnext'⟩ := checkTxState_ok_true hrun
    obtain rfl : parent' = parent := Option.some.inj (hparent'.symm.trans hparent)
    obtain rfl : next' = next := Option.some.inj (hnext'.symm.trans hnext)
    have htotal := checkTxs_total_eq hcheck
    omega
  · intro icoKey blocks final
    induction blocks using List.reverseRecOn generalizing final with
    | nil =>
        intro hrun _
        obtain rfl : State.new C icoKey = final := Except.ok.inj hrun
        exact (State.total_new icoKey).le
    | append_singleton blocks block ih =>
        intro hrun hblocks
        obtain ⟨parent, hparent, hlast⟩ := checkChain_concat_ok hrun
        have hbefore : parent.total ≤ 100 := by
          apply ih parent hparent
          intro before inner after state hsplit hstate
          exact hblocks before inner (after ++ [block]) state (by simp [hsplit]) hstate
        have hblock := hblocks blocks block [] parent rfl hparent
        have htotal := checkTxs_total_eq hlast
        omega

/-- The initial coin named twice, for one output of twice its value. -/
def spendInitialCoinTwice : SignedTransaction :=
  .signedBy .sample Crypto.sampleKey ⟨[⟨.hex 0, 0⟩, ⟨.hex 0, 0⟩],
    [⟨.fromPublicKeyBytes .sample Crypto.sampleKey.publicKey, 200⟩]⟩

theorem noInflation_iff_moveInitialCoin :
    (∃ s' next,
      (checkTxState .sample .overflowChecked (Blockchain.genesis.hash .sample) [moveInitialCoin]
        (.hex 1)).run .sample .overflowChecked (Shared.initial .sample Crypto.sampleKey) =
          .ok true s' ∧
      s'.blockState.value.get (.hex 1) = some next ∧
      (next.total ≤ (State.new .sample Crypto.sampleKey).total ↔
        repeatedTotal .sample (State.new .sample Crypto.sampleKey) [moveInitialCoin] ≤
          forfeitedTotal .sample (State.new .sample Crypto.sampleKey) [moveInitialCoin])) ∧
    ∃ final, checkChain .sample .overflowChecked (State.new .sample Crypto.sampleKey)
      [[moveInitialCoin]] = .ok final ∧ final.total ≤ 100 := by
  obtain ⟨hblock, hchain⟩ := noInflation_iff .sample
  have hwp : ((checkTxState .sample .overflowChecked (Blockchain.genesis.hash .sample)
      [moveInitialCoin] (.hex 1)).run .sample .overflowChecked).wp
        (fun result _ => result = true) (fun _ _ => False)
      (Shared.initial .sample Crypto.sampleKey) := by decide +kernel
  obtain ⟨result, s', hrun, rfl⟩ := Effect.exists_ok_of_wp hwp
  obtain ⟨parent, next, hparent, hcheck, hnext⟩ := checkTxState_ok_true hrun
  have hgenesis : (Shared.initial .sample Crypto.sampleKey).blockState.value.get
      (Blockchain.genesis.hash .sample) = some (State.new .sample Crypto.sampleKey) := by
    exact HashMap.get_insert_self _ _ _
  obtain rfl : parent = State.new .sample Crypto.sampleKey :=
    Option.some.inj (hparent.symm.trans hgenesis)
  have hchecked : checkChain .sample .overflowChecked (State.new .sample Crypto.sampleKey)
      [[moveInitialCoin]] = .ok next := by
    rw [checkChain_eq_checkTxs]
    exact hcheck
  refine ⟨⟨s', next, hrun, hnext, hblock _ _ _ _ _ _ _ hgenesis ?_ hrun hnext⟩,
    next, hchecked, hchain _ _ _ hchecked ?_⟩
  · decide +kernel
  · intro before block after state hsplit hstate
    cases before with
    | nil =>
        obtain ⟨rfl, rfl⟩ := List.cons_eq_cons.mp hsplit
        obtain rfl : State.new .sample Crypto.sampleKey = state := Except.ok.inj hstate
        decide +kernel
    | cons first rest => simp at hsplit

/-- With overflow checks and without any overflow, the supply doubles. -/
theorem not_noInflation :
    ¬ ∀ (txs : List SignedTransaction) (s' : Shared) (next : State),
      (checkTxState .sample .overflowChecked (Blockchain.genesis.hash .sample) txs
        (.hex 1)).run .sample .overflowChecked (Shared.initial .sample Crypto.sampleKey) =
          .ok true s' →
      s'.blockState.value.get (.hex 1) = some next →
      next.total ≤ (State.new .sample Crypto.sampleKey).total := by
  intro hall
  have hwp : ((checkTxState .sample .overflowChecked (Blockchain.genesis.hash .sample)
      [spendInitialCoinTwice] (.hex 1)).run .sample .overflowChecked).wp
      (fun result s' => result = true ∧
        (s'.blockState.value.get (.hex 1)).map State.total = some 200)
      (fun _ _ => False) (Shared.initial .sample Crypto.sampleKey) := by decide +kernel
  obtain ⟨result, s', hrun, rfl, htotal⟩ := Effect.exists_ok_of_wp hwp
  obtain ⟨next, hnext, hvalue⟩ := Option.map_eq_some_iff.mp htotal
  have hle := hall _ s' next hrun hnext
  rw [hvalue, State.total_new] at hle
  omega

end BitcoinClient
