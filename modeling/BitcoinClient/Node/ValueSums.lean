import BitcoinClient.Ledger.Accounting
import BitcoinClient.Node.ProofOfWork

/-! # When the sums of a transaction are exact

`check_tx_state` adds input and output values up in 32 bits. The sender chooses the
outputs, and may name an input any number of times, so either sum can leave that range
before the two are compared.
-/

namespace BitcoinClient

section Definitions

variable (C : Crypto) (build : Build) (state : State) (st : SignedTransaction)

/-- Whether an input passes the lookup and the comparison of addresses. -/
def State.owned (publicKey : List UInt8) (i : Input) : Bool :=
  match state.states.get i.outpoint with
  | some (_, recipient) => decide (recipient = .fromPublicKeyBytes C publicKey)
  | none => false

/-- The exact sum of the values of inputs. -/
def State.inputSum (inputs : List Input) : Nat :=
  ((inputs.map Input.outpoint).map state.valueAt).sum

/-- The inputs that the loop adds up before it returns. -/
def SignedTransaction.summedInputs : List Input :=
  st.transaction.input.takeWhile (state.owned C st.publicKeyVector)

/-- The signature is that of the transaction. -/
def SignedTransaction.Signed : Prop :=
  verify C st.transaction st.publicKeyVector st.signatureVector = true

instance : Decidable (st.Signed C) :=
  inferInstanceAs (Decidable (verify C _ _ _ = true))

/-- The accumulations of one iteration of `check_tx_state` are exact: `sumInput` after
any number of inputs, and `sumOutput` once all inputs passed. -/
structure ExactSums : Prop where
  input : ∀ before after, st.transaction.input = before ++ after →
    sumInputs C build state st.publicKeyVector 0 before ≠ .error .overflow ∧
      ∀ sumInput, sumInputs C build state st.publicKeyVector 0 before = .ok sumInput →
        sumInput.toNat = state.inputSum before
  output : ∀ sumInput,
    sumInputs C build state st.publicKeyVector 0 st.transaction.input = .ok sumInput →
      ∃ sumOutput, sumU32 build 0 (st.transaction.output.map Output.value) = some sumOutput ∧
        sumOutput.toNat = st.outputValue

/-- The values that are added up fit into 32 bits. -/
structure SumsFit : Prop where
  input : state.inputSum (st.summedInputs C state) < 2 ^ 32
  output : (∀ i ∈ st.transaction.input, state.owned C st.publicKeyVector i = true) →
    st.outputValue < 2 ^ 32

end Definitions

variable {C : Crypto} {build : Build} {state : State} {st : SignedTransaction} {key : List UInt8}
  {acc : UInt32}

theorem State.inputSum_cons (i : Input) (rest : List Input) :
    state.inputSum (i :: rest) = state.valueAt i.outpoint + state.inputSum rest := by
  rw [inputSum, inputSum, List.map_cons, List.map_cons, List.sum_cons]

/-- The loop over the inputs at one that passes. -/
theorem sumInputs_cons_owned (build : Build) (acc : UInt32) {i : Input} (rest : List Input)
    (howned : state.owned C key i = true) :
    ∃ value, state.valueAt i.outpoint = value.toNat ∧
      sumInputs C build state key acc (i :: rest) =
        match addU32 build acc value with
        | some sumInput => sumInputs C build state key sumInput rest
        | none => .error .overflow := by
  cases hget : state.states.get i.outpoint with
  | some entry =>
      obtain ⟨value, recipient⟩ := entry
      have howner : recipient = .fromPublicKeyBytes C key := by
        simpa [State.owned, hget] using howned
      refine ⟨value, HashMap.weightAt_of_get hget, ?_⟩
      rw [sumInputs, hget]
      exact if_neg (not_not.mpr howner)
  | none => simp [State.owned, hget] at howned

theorem sumInputs_cons_not_owned {i : Input} {rest : List Input}
    (howned : state.owned C key i = false) :
    sumInputs C build state key acc (i :: rest) = .error .rejected := by
  cases hget : state.states.get i.outpoint with
  | some entry =>
      obtain ⟨value, recipient⟩ := entry
      have howner : recipient ≠ .fromPublicKeyBytes C key := by
        simpa [State.owned, hget] using howned
      rw [sumInputs, hget]
      simp only [howner, ne_eq, not_false_eq_true, if_true]
  | none => rw [sumInputs, hget]

/-- A sum of owned inputs is either returned or overflows. -/
theorem sumInputs_not_rejected {inputs : List Input}
    (howned : ∀ i ∈ inputs, state.owned C key i = true) :
    sumInputs C build state key acc inputs ≠ .error .rejected := by
  induction inputs generalizing acc with
  | nil => simp [sumInputs]
  | cons i rest ih =>
      obtain ⟨value, _, hsum⟩ :=
        sumInputs_cons_owned build acc rest (howned i List.mem_cons_self)
      rw [hsum]
      split
      next => exact ih fun other hmem => howned other (List.mem_cons_of_mem _ hmem)
      next => simp

/-- Where the values that are added up fit, the loop computes with exact numbers. -/
theorem sumInputs_of_lt (build : Build) {inputs : List Input}
    (hfit : acc.toNat + state.inputSum (inputs.takeWhile (state.owned C key)) < 2 ^ 32) :
    (∃ sum, sumInputs C build state key acc inputs = .ok sum ∧
        (∀ i ∈ inputs, state.owned C key i = true) ∧
        sum.toNat = acc.toNat + state.inputSum inputs) ∨
      (sumInputs C build state key acc inputs = .error .rejected ∧
        ∃ i ∈ inputs, state.owned C key i = false) := by
  induction inputs generalizing acc with
  | nil => exact Or.inl ⟨acc, rfl, nofun, rfl⟩
  | cons i rest ih =>
      cases howned : state.owned C key i with
      | false =>
          exact Or.inr ⟨sumInputs_cons_not_owned howned, i, List.mem_cons_self, howned⟩
      | true =>
          obtain ⟨value, hvalue, hsum⟩ := sumInputs_cons_owned build acc rest howned
          rw [List.takeWhile_cons_of_pos howned, State.inputSum_cons, hvalue] at hfit
          have hfirst : acc.toNat + value.toNat < 2 ^ 32 := by omega
          obtain ⟨next, hadd, hnext⟩ := addU32_of_lt build hfirst
          rw [hadd] at hsum
          have hafter : next.toNat +
              state.inputSum (rest.takeWhile (state.owned C key)) < 2 ^ 32 := by omega
          rcases ih hafter with ⟨sum, hrest, hall, hexact⟩ | ⟨hrest, other, hmem, hother⟩
          · refine Or.inl ⟨sum, hsum.trans hrest, ?_, ?_⟩
            · intro other hmem
              rcases List.mem_cons.mp hmem with rfl | hmem
              · exact howned
              · exact hall other hmem
            · rw [hexact, State.inputSum_cons]
              omega
          · exact Or.inr ⟨hsum.trans hrest, other, List.mem_cons_of_mem _ hmem, hother⟩

/-- Fewer inputs are added up of a prefix. -/
theorem State.inputSum_takeWhile_le (state : State) (owned : Input → Bool)
    (before after : List Input) :
    state.inputSum (before.takeWhile owned) ≤
      state.inputSum ((before ++ after).takeWhile owned) := by
  induction before with
  | nil => exact Nat.zero_le _
  | cons i rest ih =>
      cases howned : owned i with
      | false => simp [howned]
      | true =>
          rw [List.cons_append, List.takeWhile_cons_of_pos howned,
            List.takeWhile_cons_of_pos howned, State.inputSum_cons, State.inputSum_cons]
          omega

/-- The part of the values that a prefix of the inputs adds up. -/
theorem SumsFit.input_le (h : SumsFit C state st) {before after : List Input}
    (hsplit : st.transaction.input = before ++ after) :
    (0 : UInt32).toNat +
      state.inputSum (before.takeWhile (state.owned C st.publicKeyVector)) < 2 ^ 32 := by
  have hle := state.inputSum_takeWhile_le (state.owned C st.publicKeyVector) before after
  have hfit := h.input
  rw [SignedTransaction.summedInputs, hsplit] at hfit
  rw [UInt32.toNat_zero]
  omega

theorem SumsFit.exact (h : SumsFit C state st) : ExactSums C build state st := by
  refine ⟨fun before after hsplit => ?_, fun sumInput hsum => ?_⟩
  · rcases sumInputs_of_lt build (h.input_le hsplit) with
      ⟨sum, hsum, _, hexact⟩ | ⟨hrejected, _⟩
    · rw [UInt32.toNat_zero, Nat.zero_add] at hexact
      rw [hsum]
      exact ⟨by simp, fun sumInput heq => Except.ok.inj heq ▸ hexact⟩
    · rw [hrejected]
      exact ⟨by simp, fun sumInput heq => by cases heq⟩
  · rcases sumInputs_of_lt build (h.input_le (List.append_nil _).symm) with
      ⟨_, _, howned, _⟩ | ⟨hrejected, _⟩
    · have hfit := h.output howned
      rw [SignedTransaction.outputValue] at hfit ⊢
      have houtput : (0 : UInt32).toNat +
          ((st.transaction.output.map Output.value).map UInt32.toNat).sum < 2 ^ 32 := by
        rw [UInt32.toNat_zero]
        omega
      obtain ⟨sumOutput, hsumOutput, hexact⟩ := sumU32_of_lt build houtput
      rw [UInt32.toNat_zero, Nat.zero_add] at hexact
      exact ⟨sumOutput, hsumOutput, hexact⟩
    · rw [hrejected] at hsum
      cases hsum

theorem ExactSums.fit (h : ExactSums C build state st) : SumsFit C state st := by
  -- A sum of owned inputs that does not overflow is returned, and is below the limit.
  have hreturns : ∀ before after, st.transaction.input = before ++ after →
      (∀ i ∈ before, state.owned C st.publicKeyVector i = true) →
      ∃ sumInput, sumInputs C build state st.publicKeyVector 0 before = .ok sumInput ∧
        sumInput.toNat = state.inputSum before := by
    intro before after hsplit howned
    obtain ⟨hoverflow, hexact⟩ := h.input before after hsplit
    cases hsum : sumInputs C build state st.publicKeyVector 0 before with
    | ok sumInput => exact ⟨sumInput, rfl, hexact sumInput hsum⟩
    | error failure =>
        cases failure with
        | rejected => exact absurd hsum (sumInputs_not_rejected howned)
        | overflow => exact absurd hsum hoverflow
  refine ⟨?_, fun howned => ?_⟩
  · obtain ⟨sumInput, _, hexact⟩ := hreturns (st.summedInputs C state)
      (st.transaction.input.dropWhile (state.owned C st.publicKeyVector))
      List.takeWhile_append_dropWhile.symm fun i hmem => List.mem_takeWhile_imp hmem
    rw [← hexact]
    exact sumInput.toNat_lt
  · obtain ⟨sumInput, hsum, _⟩ := hreturns st.transaction.input [] (by simp) howned
    obtain ⟨sumOutput, _, hexact⟩ := h.output sumInput hsum
    rw [← hexact]
    exact sumOutput.toNat_lt

/-- With exact sums, acceptance is the exact comparison. -/
theorem SumsFit.checkTx_iff (build : Build) (h : SumsFit C state st) :
    (∃ next, checkTx C build state st = .ok next) ↔
      st.Signed C ∧ (∀ i ∈ st.transaction.input, state.owned C st.publicKeyVector i = true) ∧
        st.outputValue ≤ st.inputValue state := by
  unfold checkTx SignedTransaction.Signed
  rcases sumInputs_of_lt build (h.input_le (List.append_nil _).symm) with
    ⟨sumInput, hsum, howned, hexact⟩ | ⟨hrejected, i, hmem, hi⟩
  · obtain ⟨sumOutput, hsumOutput, hexactOutput⟩ := h.exact.output sumInput hsum
    rw [UInt32.toNat_zero, Nat.zero_add] at hexact
    have hcompare : sumInput < sumOutput ↔ ¬ st.outputValue ≤ st.inputValue state := by
      rw [UInt32.lt_iff_toNat_lt, hexact, hexactOutput, Nat.not_le]
      rfl
    simp only [hsum, hsumOutput, hcompare]
    constructor
    · rintro ⟨next, hnext⟩
      split at hnext
      next hsigned =>
        split at hnext
        next => cases hnext
        next hle => exact ⟨hsigned, howned, not_not.mp hle⟩
      next => cases hnext
    · rintro ⟨hsigned, _, hle⟩
      rw [if_pos hsigned, if_neg (not_not.mpr hle)]
      exact ⟨_, rfl⟩
  · constructor
    · rintro ⟨next, hnext⟩
      simp only [hrejected] at hnext
      split at hnext <;> cases hnext
    · rintro ⟨_, howned, _⟩
      rw [howned i hmem] at hi
      cases hi

/-- The two sums of a signed transaction are exact, in either build and on any state, if
and only if the values that are added up fit into 32 bits; the comparison is then exact. -/
theorem valueSums_exact_iff (C : Crypto) (build : Build) (state : State) (st : SignedTransaction) :
    ((st.Signed C → ExactSums C build state st) ↔ (st.Signed C → SumsFit C state st)) ∧
      ((st.Signed C → SumsFit C state st) →
        ((∃ next, checkTx C build state st = .ok next) ↔
          st.Signed C ∧
            (∀ i ∈ st.transaction.input, state.owned C st.publicKeyVector i = true) ∧
            st.outputValue ≤ st.inputValue state)) := by
  refine ⟨⟨fun h hsigned => (h hsigned).fit, fun h hsigned => (h hsigned).exact⟩, fun h => ?_⟩
  by_cases hsigned : st.Signed C
  · exact (h hsigned).checkTx_iff build
  · constructor
    · rintro ⟨next, hnext⟩
      exact absurd (checkTx_ok hnext).signed hsigned
    · exact fun haccepted => absurd haccepted.1 hsigned

theorem valueSums_exact_iff_moveInitialCoin :
    ∃ next, checkTx .sample .overflowChecked (State.new .sample Crypto.sampleKey)
      moveInitialCoin = .ok next := by
  have hfit : SumsFit .sample (State.new .sample Crypto.sampleKey) moveInitialCoin :=
    ⟨by decide +kernel, by decide +kernel⟩
  exact ((valueSums_exact_iff .sample .overflowChecked (State.new .sample Crypto.sampleKey)
    moveInitialCoin).2 fun _ => hfit).mpr ⟨by decide +kernel, by decide +kernel, by decide +kernel⟩

/-- Outputs whose sum wraps to zero, paid with the initial coin. -/
def overflowingOutputs : SignedTransaction :=
  .signedBy .sample Crypto.sampleKey ⟨[⟨.hex 0, 0⟩],
    [⟨.fromPublicKeyBytes .sample Crypto.sampleKey.publicKey, 4294967295⟩,
      ⟨.fromPublicKeyBytes .sample Crypto.sampleKey.publicKey, 1⟩]⟩

/-- On the state of the genesis block the sums of this transaction are not exact, with and
without overflow checks. -/
theorem not_valueSums_exact :
    ¬ ∃ build : Build, ∀ (node : Node 1 0), (nodeMachine .sample build sampleGeneLoop).Reachable
      (fun _ _ _ => True) (Node.start .sample Crypto.sampleKey 1 0) node →
      ∀ hash state, node.shared.blockState.value.get hash = some state →
        ∀ st : SignedTransaction, st.Signed .sample → ExactSums .sample build state st := by
  rintro ⟨build, hall⟩
  have hexact := hall _ .start (Blockchain.genesis.hash .sample)
    (State.new .sample Crypto.sampleKey) (HashMap.get_insert_self _ _ _) overflowingOutputs
    (by decide +kernel)
  have hvalue := hexact.fit.output (by decide +kernel)
  revert hvalue
  decide +kernel

end BitcoinClient
