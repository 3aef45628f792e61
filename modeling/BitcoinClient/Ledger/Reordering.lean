import BitcoinClient.Ledger.Coins

/-! # Transactions in another order

Coins are the same wherever they are found, so a transaction that was accepted on one
ledger state is accepted on every other one that has its inputs. Whether a list of
transactions is accepted is then only a matter of whether each finds its inputs at its
turn.
-/

namespace BitcoinClient

/-- Executed in this order, every transaction finds its inputs at its turn. -/
def FindsInputs (C : Crypto) (state : State) : List SignedTransaction → Prop
  | [] => True
  | st :: rest =>
    (∀ input ∈ st.transaction.input, state.states.containsKey input.outpoint = true) ∧
      FindsInputs C (state.execute C st) rest

variable {C : Crypto} {build : Build} {icoKey : Ed25519KeyPair} {txs : Set SignedTransaction}

/-- The loop over the inputs only looks at their coins. -/
theorem sumInputs_congr {left right : State} {key : List UInt8} {acc : UInt32} {inputs : List Input}
    (h : ∀ input ∈ inputs, left.states.get input.outpoint = right.states.get input.outpoint) :
    sumInputs C build left key acc inputs = sumInputs C build right key acc inputs := by
  induction inputs generalizing acc with
  | nil => rfl
  | cons input rest ih =>
      have hrest : ∀ acc, sumInputs C build left key acc rest =
          sumInputs C build right key acc rest :=
        fun acc => ih fun other hother => h other (List.mem_cons_of_mem _ hother)
      simp only [sumInputs, h input List.mem_cons_self, hrest]

/-- A transaction that one state accepts is accepted by all states with the same inputs. -/
theorem checkTx_congr {left right next : State} {st : SignedTransaction}
    (h : checkTx C build left st = .ok next)
    (hinputs : ∀ input ∈ st.transaction.input,
      left.states.get input.outpoint = right.states.get input.outpoint) :
    checkTx C build right st = .ok (right.execute C st) := by
  obtain ⟨hsigned, ⟨sumInput, sumOutput, hinput, houtput, hle⟩, -⟩ := checkTx_ok h
  rw [sumInputs_congr hinputs] at hinput
  simp only [checkTx, hsigned, if_true, hinput, houtput, if_neg (UInt32.not_lt.mpr hle)]

/-- In an accepted list every transaction is accepted by some state on the way. -/
theorem exists_checkTx_of_mem {state final : State} {order : List SignedTransaction}
    (horigin : state.OriginatesFrom C icoKey txs) (horder : ∀ st ∈ order, st ∈ txs)
    (h : checkTxs C build state order = .ok final) {st : SignedTransaction} (hst : st ∈ order) :
    ∃ middle next, middle.OriginatesFrom C icoKey txs ∧ checkTx C build middle st = .ok next := by
  obtain ⟨first, second, rfl⟩ := List.append_of_mem hst
  obtain ⟨middle, hfirst, hsecond⟩ := checkTxs_append_ok h
  obtain ⟨next, hcheck, -⟩ := checkTxs_cons_ok hsecond
  have hmem : ∀ other ∈ first, other ∈ txs :=
    fun other hother => horder other (List.mem_append_left _ hother)
  exact ⟨middle, next, horigin.checkTxs hmem hfirst, hcheck⟩

/-- A list of transactions that are accepted somewhere is accepted if and only if each
finds its inputs at its turn. -/
theorem checkTxs_iff_findsInputs (build : Build) (hfree : CollisionFree C txs)
    (hzero : AvoidsZeroHash C txs)
    {state : State} {block : List SignedTransaction} (horigin : state.OriginatesFrom C icoKey txs)
    (hblock : ∀ st ∈ block, st ∈ txs)
    (hvalid : ∀ st ∈ block, ∃ middle next, middle.OriginatesFrom C icoKey txs ∧
      checkTx C build middle st = .ok next) :
    (∃ final, checkTxs C build state block = .ok final) ↔ FindsInputs C state block := by
  induction block generalizing state with
  | nil => exact iff_of_true ⟨state, rfl⟩ trivial
  | cons st rest ih =>
      have hexecute := horigin.execute (hblock st List.mem_cons_self)
      have hrest := ih hexecute (fun other hother => hblock other (List.mem_cons_of_mem _ hother))
        fun other hother => hvalid other (List.mem_cons_of_mem _ hother)
      constructor
      · rintro ⟨final, hfinal⟩
        obtain ⟨next, hfirst, hnext⟩ := checkTxs_cons_ok hfinal
        have haccepted := checkTx_ok hfirst
        refine ⟨fun input hinput => ?_, hrest.mp ⟨final, haccepted.next_eq ▸ hnext⟩⟩
        obtain ⟨value, hget⟩ := haccepted.owned (List.mem_map_of_mem hinput)
        exact HashMap.containsKey_of_get hget
      · rintro ⟨hfound, hothers⟩
        obtain ⟨middle, next, hmiddle, hcheck⟩ := hvalid st List.mem_cons_self
        have hsame : ∀ input ∈ st.transaction.input,
            middle.states.get input.outpoint = state.states.get input.outpoint := by
          intro input hinput
          obtain ⟨value, hget⟩ := (checkTx_ok hcheck).owned (List.mem_map_of_mem hinput)
          obtain ⟨coin, hcoin⟩ := HashMap.containsKey_iff.mp (hfound input hinput)
          rw [hget, hcoin, hmiddle.coherent hfree hzero horigin hget hcoin]
        obtain ⟨final, hfinal⟩ := hrest.mpr hothers
        refine ⟨final, ?_⟩
        rw [checkTxs, List.foldlM_cons, checkTx_congr hcheck hsame]
        exact hfinal

/-! ## Independent transactions -/

/-- No transaction of the list spends an output of one of them. -/
def Independent (C : Crypto) (order : List SignedTransaction) : Prop :=
  ∀ st ∈ order, ∀ other ∈ order, ∀ input ∈ st.transaction.input, input.prevTrans ≠ other.hash C

/-- The transactions have no input in common. -/
def InputsDisjoint (left right : SignedTransaction) : Prop :=
  ∀ input ∈ left.transaction.input, ∀ other ∈ right.transaction.input,
    input.outpoint ≠ other.outpoint

theorem InputsDisjoint.symm {left right : SignedTransaction} (h : InputsDisjoint left right) :
    InputsDisjoint right left :=
  fun input hinput other hother heq => h other hother input hinput heq.symm

/-- Nobody spends a coin that is not there and that nobody creates. -/
theorem not_spent_of_missing {state final : State} {order : List SignedTransaction}
    {outpoint : H256 × UInt8} (hmissing : state.states.get outpoint = none)
    (hcreated : ∀ st ∈ order, st.hash C ≠ outpoint.1)
    (h : checkTxs C build state order = .ok final) :
    ∀ st ∈ order, ∀ input ∈ st.transaction.input, input.outpoint ≠ outpoint := by
  induction order generalizing state with
  | nil => exact nofun
  | cons first rest ih =>
      obtain ⟨next, hfirst, hrest⟩ := checkTxs_cons_ok h
      have haccepted := checkTx_ok hfirst
      have hnext : next.states.get outpoint = none := by
        rw [haccepted.next_eq,
          State.get_execute_of_ne C (hcreated first List.mem_cons_self).symm, hmissing, ite_self]
      intro st hst
      rcases List.mem_cons.mp hst with rfl | hst
      · intro input hinput heq
        obtain ⟨value, hget⟩ := haccepted.owned (List.mem_map_of_mem hinput)
        rw [heq, hmissing] at hget
        cases hget
      · exact ih hnext (fun other hother => hcreated other (List.mem_cons_of_mem _ hother)) hrest
          st hst

/-- Independent transactions spend different coins, all of which are there at the start. -/
theorem Independent.spend {state final : State} {order : List SignedTransaction}
    (hindependent : Independent C order) (h : checkTxs C build state order = .ok final) :
    order.Pairwise InputsDisjoint ∧ ∀ st ∈ order, ∀ input ∈ st.transaction.input,
      state.states.containsKey input.outpoint = true := by
  have hpresent : ∀ st ∈ order, ∀ input ∈ st.transaction.input,
      state.states.containsKey input.outpoint = true := by
    intro st hst input hinput
    by_contra hmissing
    rw [Bool.not_eq_true, HashMap.containsKey_eq_false_iff] at hmissing
    exact not_spent_of_missing hmissing (fun other hother heq =>
      hindependent st hst other hother input hinput heq.symm) h st hst input hinput rfl
  refine ⟨?_, hpresent⟩
  clear hpresent
  induction order generalizing state with
  | nil => exact .nil
  | cons first rest ih =>
      obtain ⟨next, hfirst, hrest⟩ := checkTxs_cons_ok h
      have hothers : Independent C rest := fun st hst other hother =>
        hindependent st (List.mem_cons_of_mem _ hst) other (List.mem_cons_of_mem _ hother)
      refine List.pairwise_cons.mpr ⟨fun other hother input hinput input' hinput' heq => ?_,
        ih hothers hrest⟩
      have hfresh := hindependent first List.mem_cons_self
      have hmissing : next.states.get input.outpoint = none := by
        rw [(checkTx_ok hfirst).next_eq,
          State.get_execute_of_ne C (hfresh first List.mem_cons_self input hinput)]
        exact if_pos (List.mem_map_of_mem hinput)
      refine not_spent_of_missing hmissing (fun st hst hhash => ?_) hrest other hother input'
        hinput'
        heq.symm
      exact hfresh st (List.mem_cons_of_mem _ hst) input hinput hhash.symm

/-- Transactions that spend different coins of the state find them in any order. -/
theorem findsInputs_of_disjoint {state : State} {block : List SignedTransaction}
    (hdisjoint : block.Pairwise InputsDisjoint)
    (hpresent : ∀ st ∈ block, ∀ input ∈ st.transaction.input,
      state.states.containsKey input.outpoint = true) : FindsInputs C state block := by
  induction block generalizing state with
  | nil => trivial
  | cons first rest ih =>
      obtain ⟨hfirst, hrest⟩ := List.pairwise_cons.mp hdisjoint
      refine ⟨hpresent first List.mem_cons_self, ih hrest fun st hst input hinput => ?_⟩
      obtain ⟨coin, hcoin⟩ :=
        HashMap.containsKey_iff.mp (hpresent st (List.mem_cons_of_mem _ hst) input hinput)
      have hkept : input.outpoint ∉ first.transaction.input.map Input.outpoint := by
        intro hmem
        obtain ⟨spent, hspent, heq⟩ := List.mem_map.mp hmem
        exact hfirst st hst spent hspent input hinput heq
      rw [HashMap.containsKey, State.get_execute, if_neg hkept, hcoin, Option.isSome_or]
      simp

end BitcoinClient
