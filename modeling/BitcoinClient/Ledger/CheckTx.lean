import BitcoinClient.Foundation.Arithmetic
import BitcoinClient.Foundation.Effect
import BitcoinClient.Ledger.State

/-! # The transaction checks of `check_tx_state`

`network/worker.rs` and `miner/worker.rs` hold the same function. Its loop over
the transactions of a block works on a private copy of the parent's state and
is modelled here; the two lock acquisitions around it belong to the workers.
-/

namespace BitcoinClient

/-- How the loop ends early: with `return false`, or with the panic of an
overflowing sum. -/
inductive CheckFailure where
  | rejected
  | overflow
deriving DecidableEq, Repr

section Definitions

variable (C : Crypto) (build : Build)

/-- The loop over the inputs: each must be present and belong to the signer. -/
def sumInputs (state : State) (ownerPublicKey : List UInt8) (sumInput : UInt32) :
    List Input → Except CheckFailure UInt32
  | [] => .ok sumInput
  | i :: rest =>
    match state.states.get i.outpoint with
    | some (value, recipient) =>
      if recipient ≠ Address.fromPublicKeyBytes C ownerPublicKey then .error .rejected
      else
        match addU32 build sumInput value with
        | some sumInput => sumInputs state ownerPublicKey sumInput rest
        | none => .error .overflow
    | none => .error .rejected

/-- One iteration of the loop over the transactions. -/
def checkTx (state : State) (st : SignedTransaction) : Except CheckFailure State :=
  let tx := st.transaction
  if verify C tx st.publicKeyVector st.signatureVector then
    match sumInputs C build state st.publicKeyVector 0 tx.input with
    | .error failure => .error failure
    | .ok sumInput =>
      match sumU32 build 0 (tx.output.map Output.value) with
      | none => .error .overflow
      | some sumOutput =>
        if sumInput < sumOutput then .error .rejected else .ok (state.execute C st)
  else .error .rejected

/-- The loop over the transactions of a block, on a copy of the parent's state. -/
def checkTxs (state : State) (signedTxs : List SignedTransaction) : Except CheckFailure State :=
  signedTxs.foldlM (checkTx C build) state

/-- The states along a chain of blocks, each executed on its predecessor's. -/
def checkChain (state : State) (blocks : List (List SignedTransaction)) :
    Except CheckFailure State :=
  blocks.foldlM (checkTxs C build) state

end Definitions

variable {C : Crypto} {build : Build}

theorem sumInputs_ok {state : State} {key : List UInt8} {acc sum : UInt32} {inputs : List Input}
    (h : sumInputs C build state key acc inputs = .ok sum) :
    ∀ i ∈ inputs, ∃ value,
      state.states.get i.outpoint = some (value, Address.fromPublicKeyBytes C key) := by
  induction inputs generalizing acc with
  | nil => simp
  | cons input rest ih =>
      unfold sumInputs at h
      split at h
      next value recipient hget =>
        split at h
        next => cases h
        next howner =>
          split at h
          next =>
            intro i hi
            rcases List.mem_cons.mp hi with rfl | hrest
            · exact ⟨value, by rw [hget, not_not.mp howner]⟩
            · exact ih h i hrest
          next => cases h
      next => cases h

/-- With overflow checks the accumulated sum is the exact one. -/
theorem sumInputs_checked {state : State} {key : List UInt8} {acc sum : UInt32}
    {inputs : List Input} (h : sumInputs C .overflowChecked state key acc inputs = .ok sum) :
    sum.toNat = acc.toNat + ((inputs.map Input.outpoint).map state.valueAt).sum := by
  induction inputs generalizing acc with
  | nil =>
      obtain rfl : acc = sum := Except.ok.inj h
      simp
  | cons input rest ih =>
      unfold sumInputs at h
      split at h
      next value recipient hget =>
        split at h
        next => cases h
        next =>
          split at h
          next next hadd =>
            have hvalue : state.valueAt input.outpoint = value.toNat :=
              HashMap.weightAt_of_get hget
            rw [ih h, addU32_checked_eq_some hadd]
            simp only [List.map_cons, List.sum_cons, hvalue]
            omega
          next => cases h
      next => cases h

/-- What an accepted transaction has passed, and the state it leaves. -/
structure Accepted (C : Crypto) (build : Build) (state : State) (st : SignedTransaction)
    (next : State) : Prop where
  signed : verify C st.transaction st.publicKeyVector st.signatureVector = true
  sums : ∃ sumInput sumOutput,
    sumInputs C build state st.publicKeyVector 0 st.transaction.input = .ok sumInput ∧
      sumU32 build 0 (st.transaction.output.map Output.value) = some sumOutput ∧
      sumOutput ≤ sumInput
  next_eq : next = state.execute C st

theorem checkTx_ok {state next : State} {st : SignedTransaction}
    (h : checkTx C build state st = .ok next) : Accepted C build state st next := by
  simp only [checkTx] at h
  split at h
  next hsigned =>
    split at h
    next => cases h
    next sumInput hinput =>
      split at h
      next => cases h
      next sumOutput houtput =>
        split at h
        next => cases h
        next hle =>
          exact ⟨hsigned, ⟨sumInput, sumOutput, hinput, houtput, UInt32.not_lt.mp hle⟩,
            (Except.ok.inj h).symm⟩
  next => cases h

/-- Every input of an accepted transaction is a coin of its signer. -/
theorem Accepted.owned {state next : State} {st : SignedTransaction}
    (h : Accepted C build state st next) {outpoint : H256 × UInt8}
    (hmem : outpoint ∈ st.transaction.input.map Input.outpoint) :
    ∃ value, state.states.get outpoint =
      some (value, Address.fromPublicKeyBytes C st.publicKeyVector) := by
  obtain ⟨sumInput, sumOutput, hinput, _, _⟩ := h.sums
  obtain ⟨input, hinputMem, rfl⟩ := List.mem_map.mp hmem
  exact sumInputs_ok hinput input hinputMem

@[simp] theorem checkTxs_nil (state : State) : checkTxs C build state [] = .ok state := rfl

theorem checkTxs_cons_ok {state final : State} {st : SignedTransaction}
    {rest : List SignedTransaction} (h : checkTxs C build state (st :: rest) = .ok final) :
    ∃ next, checkTx C build state st = .ok next ∧ checkTxs C build next rest = .ok final := by
  rw [checkTxs, List.foldlM_cons] at h
  exact except_bind_eq_ok.mp h

theorem checkTxs_append_ok {state final : State} {first second : List SignedTransaction}
    (h : checkTxs C build state (first ++ second) = .ok final) :
    ∃ middle, checkTxs C build state first = .ok middle ∧
      checkTxs C build middle second = .ok final := by
  rw [checkTxs, List.foldlM_append] at h
  exact except_bind_eq_ok.mp h

/-- Executing the blocks of a chain is executing their transactions in a row. -/
theorem checkChain_eq_checkTxs (state : State) (blocks : List (List SignedTransaction)) :
    checkChain C build state blocks = checkTxs C build state blocks.flatten := by
  induction blocks generalizing state with
  | nil => rfl
  | cons block rest ih =>
      simp only [checkChain, checkTxs, List.foldlM_cons, List.flatten_cons, List.foldlM_append]
      congr 1
      funext next
      exact ih next

/-- A chain with a last block: the chain before it ends in the state it runs on. -/
theorem checkChain_concat_ok {state final : State} {blocks : List (List SignedTransaction)}
    {block : List SignedTransaction}
    (h : checkChain C build state (blocks ++ [block]) = .ok final) :
    ∃ parent, checkChain C build state blocks = .ok parent ∧
      checkTxs C build parent block = .ok final := by
  rw [checkChain_eq_checkTxs, List.flatten_concat] at h
  obtain ⟨parent, hparent, hblock⟩ := checkTxs_append_ok h
  exact ⟨parent, by rw [checkChain_eq_checkTxs, hparent], hblock⟩

/-! ## Release builds -/

theorem sumInputs_release {state : State} {key : List UInt8} {acc : UInt32} {inputs : List Input} :
    sumInputs C .release state key acc inputs ≠ .error .overflow := by
  induction inputs generalizing acc with
  | nil => nofun
  | cons input rest ih =>
      unfold sumInputs
      split
      next =>
        split
        next => nofun
        next => exact ih
      next => nofun

theorem checkTx_release {state : State} {st : SignedTransaction} :
    checkTx C .release state st ≠ .error .overflow := by
  simp only [checkTx, sumU32_release]
  split
  next =>
    split
    next failure hinput =>
      intro heq
      rw [Except.error.inj heq] at hinput
      exact sumInputs_release hinput
    next =>
      split <;> nofun
  next => nofun

/-- Where sums wrap, no block overflows. -/
theorem checkTxs_release {state : State} {signedTxs : List SignedTransaction} :
    checkTxs C .release state signedTxs ≠ .error .overflow := by
  induction signedTxs generalizing state with
  | nil => nofun
  | cons st rest ih =>
      intro h
      rw [checkTxs, List.foldlM_cons] at h
      rcases except_bind_eq_error.mp h with hfirst | ⟨next, _, hrest⟩
      · exact checkTx_release hfirst
      · exact ih hrest

end BitcoinClient
