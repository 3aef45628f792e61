import BitcoinClient.Types.Crypto

/-! # The effect of a transaction on a ledger state

Executing a transaction removes the outpoints its inputs name and then inserts
one entry for each output. The result under an outpoint depends only on the
state before and on the last output that maps to the same index byte.
-/

namespace BitcoinClient

variable (C : Crypto)

/-- The coin that the outputs of `t` leave under an index: the last output whose
position truncates to it. -/
def Transaction.coinAt (t : Transaction) (index : UInt8) : Option (UInt32 × Address) :=
  HashMap.lastValue index
    (t.output.zipIdx.map fun (output, i) => (UInt8.ofNat i, output.value, output.recipientAddr))

namespace State

/-- The exact sum of all unspent values, over the naturals. -/
def total (state : State) : Nat := state.states.total fun coin => coin.1.toNat

/-- The value found under an outpoint, zero when it is absent. -/
def valueAt (state : State) (outpoint : H256 × UInt8) : Nat :=
  state.states.weightAt (fun coin => coin.1.toNat) outpoint

/-- The two loops at the end of each iteration of `check_tx_state`. -/
def execute (state : State) (st : SignedTransaction) : State :=
  (state.removeInputs st.transaction.input).insertOutputs (st.hash C) st.transaction.output

/-- The entries that the outputs of a transaction insert, in order. -/
def outputEntries (txHash : H256) (outputs : List Output) :
    List ((H256 × UInt8) × (UInt32 × Address)) :=
  outputs.zipIdx.map fun (output, index) =>
    ((txHash, UInt8.ofNat index), (output.value, output.recipientAddr))

theorem removeInputs_states (state : State) (inputs : List Input) :
    (state.removeInputs inputs).states = state.states.removeAll (inputs.map Input.outpoint) := by
  unfold removeInputs HashMap.removeAll
  induction inputs generalizing state with
  | nil => rfl
  | cons input rest ih => exact ih _

theorem insertOutputs_states (state : State) (txHash : H256) (outputs : List Output) :
    (state.insertOutputs txHash outputs).states =
      state.states.insertAll (outputEntries txHash outputs) := by
  unfold insertOutputs HashMap.insertAll outputEntries
  induction outputs.zipIdx generalizing state with
  | nil => rfl
  | cons entry rest ih => exact ih _

/-- The unused copy of the two loops in `State::update` computes the same state. -/
theorem update_eq_execute (state : State) (st : SignedTransaction) :
    state.update C st = state.execute C st := by
  have hremove : ∀ (inputs : List Input) (state : State), inputs.foldl (fun state i =>
      if state.states.containsKey i.outpoint then (⟨state.states.remove i.outpoint⟩ : State)
      else state) state = state.removeInputs inputs := by
    intro inputs
    induction inputs with
    | nil => exact fun _ => rfl
    | cons input rest ih =>
        intro state
        rw [List.foldl_cons, ih]
        split
        next => rfl
        next hcontains =>
          have hnone := HashMap.containsKey_eq_false_iff.mp (Bool.eq_false_iff.mpr hcontains)
          simp only [removeInputs, List.foldl_cons, HashMap.remove_eq_self hnone]
  unfold update execute
  rw [hremove]

theorem lastValue_outputEntries (txHash : H256) (t : Transaction) (outpoint : H256 × UInt8) :
    HashMap.lastValue outpoint (outputEntries txHash t.output) =
      if outpoint.1 = txHash then t.coinAt outpoint.2 else none := by
  unfold outputEntries Transaction.coinAt
  induction t.output.zipIdx with
  | nil => simp [HashMap.lastValue]
  | cons entry rest ih =>
      obtain ⟨hash, index⟩ := outpoint
      simp only [List.map_cons, HashMap.lastValue, ih, Prod.mk.injEq]
      by_cases heq : hash = txHash
      · simp [heq]
      · simp [heq, Ne.symm heq]

/-- The entry under an outpoint after a transaction. -/
theorem get_execute (state : State) (st : SignedTransaction) (outpoint : H256 × UInt8) :
    (state.execute C st).states.get outpoint =
      (if outpoint.1 = st.hash C then st.transaction.coinAt outpoint.2 else none).or
        (if outpoint ∈ st.transaction.input.map Input.outpoint then none
          else state.states.get outpoint) := by
  rw [execute, insertOutputs_states, HashMap.get_insertAll, lastValue_outputEntries,
    removeInputs_states, HashMap.get_removeAll]
  congr

/-- An outpoint of another transaction is only ever removed. -/
theorem get_execute_of_ne {state : State} {st : SignedTransaction} {outpoint : H256 × UInt8}
    (hne : outpoint.1 ≠ st.hash C) :
    (state.execute C st).states.get outpoint =
      if outpoint ∈ st.transaction.input.map Input.outpoint then none
      else state.states.get outpoint := by
  rw [get_execute, if_neg hne, Option.none_or]

end State

end BitcoinClient
