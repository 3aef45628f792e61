import BitcoinClient.Ledger.OutputCoins
import BitcoinClient.Ledger.Replay
import BitcoinClient.Node.GeneratorLog

/-! # Coins that generators pass on

A generator spends one whole coin in each transaction, and its outputs add up to that coin. What
generators make, starting from the initial coin, therefore moves the coins of a ledger without
making any. When the hashes of the transactions that they have really made do not collide, none
of these is executed twice in a row of blocks, so that no output replaces a coin and nothing is
lost either.
-/

namespace BitcoinClient

/-- The transactions that generators can make, starting from the initial coin. -/
inductive Generated (C : Crypto) (icoKey : Ed25519KeyPair) (generators : Set GeneLoop) :
    SignedTransaction → Prop
  | initial {geneLoop : GeneLoop} {value : UInt32} (hmem : geneLoop ∈ generators)
      (hcoin : initialCoin C icoKey = (value, geneLoop.addr)) :
      Generated C icoKey generators (geneLoop.newSignedTransaction C [⟨.hex 0, 0⟩] value)
  | output {geneLoop : GeneLoop} {previous : SignedTransaction} {index : UInt8} {value : UInt32}
      (hmem : geneLoop ∈ generators) (hprevious : Generated C icoKey generators previous)
      (hcoin : previous.transaction.coinAt index = some (value, geneLoop.addr)) :
      Generated C icoKey generators
        (geneLoop.newSignedTransaction C [⟨previous.hash C, index⟩] value)

/-- A generator makes the transaction of the initial coin or of a coin of one in the set. -/
inductive MadeFrom (C : Crypto) (icoKey : Ed25519KeyPair) (generators : Set GeneLoop)
    (txs : Set SignedTransaction) : SignedTransaction → Prop
  | initial {geneLoop : GeneLoop} {value : UInt32} (hmem : geneLoop ∈ generators)
      (hcoin : initialCoin C icoKey = (value, geneLoop.addr)) :
      MadeFrom C icoKey generators txs (geneLoop.newSignedTransaction C [⟨.hex 0, 0⟩] value)
  | output {geneLoop : GeneLoop} {previous : SignedTransaction} {index : UInt8} {value : UInt32}
      (hmem : geneLoop ∈ generators) (hprevious : previous ∈ txs)
      (hcoin : previous.transaction.coinAt index = some (value, geneLoop.addr)) :
      MadeFrom C icoKey generators txs
        (geneLoop.newSignedTransaction C [⟨previous.hash C, index⟩] value)

/-- The state that `check_tx_state` computes from the initial coin and transactions of the set. -/
def ExecutedFrom (C : Crypto) (build : Build) (icoKey : Ed25519KeyPair)
    (txs : Set SignedTransaction) (state : State) : Prop :=
  ∃ executed, (∀ st ∈ executed, st ∈ txs) ∧
    checkTxs C build (State.new C icoKey) executed = .ok state

variable {C : Crypto} {build : Build} {icoKey : Ed25519KeyPair} {generators : Set GeneLoop}
  {txs made : Set SignedTransaction} {geneLoop : GeneLoop} {state next : State}
  {st : SignedTransaction}

theorem ExecutedFrom.new : ExecutedFrom C build icoKey txs (State.new C icoKey) :=
  ⟨[], List.forall_mem_nil _, rfl⟩

theorem ExecutedFrom.originates (h : ExecutedFrom C build icoKey txs state) :
    state.OriginatesFrom C icoKey txs := by
  obtain ⟨executed, hmem, hcheck⟩ := h
  exact State.new_originatesFrom.checkTxs hmem hcheck

theorem checkTxs_append {first second : List SignedTransaction} {middle : State}
    (hfirst : checkTxs C build state first = .ok middle)
    (hsecond : checkTxs C build middle second = .ok next) :
    checkTxs C build state (first ++ second) = .ok next := by
  rw [checkTxs] at hfirst hsecond ⊢
  rw [List.foldlM_append, hfirst]
  exact hsecond

theorem ExecutedFrom.checkTxs {block : List SignedTransaction}
    (h : ExecutedFrom C build icoKey txs state) (hblock : ∀ st ∈ block, st ∈ txs)
    (hcheck : checkTxs C build state block = .ok next) :
    ExecutedFrom C build icoKey txs next := by
  obtain ⟨executed, hmem, hexecuted⟩ := h
  exact ⟨executed ++ block, List.forall_mem_append.mpr ⟨hmem, hblock⟩,
    checkTxs_append hexecuted hcheck⟩

/-! ## One transaction -/

/-- What a generator spends is a coin of a transaction of the set, or the initial one. -/
theorem GeneLoop.Spends.madeFrom (h : geneLoop.Spends C state st)
    (hstate : state.OriginatesFrom C icoKey txs) (hmem : geneLoop ∈ generators) :
    MadeFrom C icoKey generators txs st := by
  obtain ⟨⟨txHash, index⟩, value, hget, _, rfl⟩ := h
  rcases hstate _ _ hget with ⟨houtpoint, hcoin⟩ | ⟨previous, hprevious, hhash, hcoin⟩
  · obtain ⟨rfl, rfl⟩ := Prod.mk.inj houtpoint
    exact .initial hmem hcoin.symm
  · rw [Input.outpoint] at hhash
    subst hhash
    exact .output hmem hprevious hcoin

theorem MadeFrom.generated
    (h : MadeFrom C icoKey generators {st | Generated C icoKey generators st} st) :
    Generated C icoKey generators st := by
  cases h with
  | initial hmem hcoin => exact .initial hmem hcoin
  | output hmem hprevious hcoin => exact .output hmem hprevious hcoin

/-- It has one input. -/
theorem MadeFrom.exists_eq (h : MadeFrom C icoKey generators txs st) :
    ∃ geneLoop ∈ generators, ∃ (input : Input) (value : UInt32),
      st = geneLoop.newSignedTransaction C [input] value := by
  cases h with
  | initial hmem _ => exact ⟨_, hmem, _, _, rfl⟩
  | output hmem _ _ => exact ⟨_, hmem, _, _, rfl⟩

theorem MadeFrom.input_ne_nil (h : MadeFrom C icoKey generators txs st) :
    st.transaction.input ≠ [] := by
  obtain ⟨_, _, _, _, rfl⟩ := h.exists_eq
  exact List.cons_ne_nil _ _

theorem Output.passCheck_length (balance : UInt32) (peerAddrs : Address × Address) :
    (Output.passCheck balance peerAddrs).length ≤ 256 := by
  unfold Output.passCheck
  dsimp only
  split
  next => simp
  next => simp

theorem outputValue_newSignedTransaction (geneLoop : GeneLoop) (inputs : List Input)
    (value : UInt32) :
    (geneLoop.newSignedTransaction C inputs value).outputValue = value.toNat := by
  rw [← Output.passCheck_sum value geneLoop.peerAddrs, SignedTransaction.outputValue,
    List.map_map]
  rfl

/-- What one accepted transaction with one input does to the total, where the outputs add up
to the `value` that it takes its input to have. -/
theorem Accepted.total_newSignedTransaction {input : Input} {value : UInt32}
    (h : Accepted C build state (geneLoop.newSignedTransaction C [input] value) next) :
    ∃ coin : UInt32 × Address, state.states.get input.outpoint = some coin ∧ value ≤ coin.1 ∧
      next.total + (geneLoop.newSignedTransaction C [input] value).overwrittenValue C state +
        coin.1.toNat = state.total + value.toNat := by
  generalize hst : geneLoop.newSignedTransaction C [input] value = st at h
  have hinput : st.transaction.input = [input] := by rw [← hst]; rfl
  have hvalue : st.outputValue = value.toNat := by
    rw [← hst]
    exact outputValue_newSignedTransaction geneLoop [input] value
  have howned : input.outpoint ∈ st.transaction.input.map Input.outpoint := by simp [hinput]
  obtain ⟨coin, hget⟩ := h.owned howned
  have hweight : state.valueAt input.outpoint = coin.toNat := HashMap.weightAt_of_get hget
  obtain ⟨sumInput, sumOutput, hsumInput, hsumOutput, hle⟩ := h.sums
  -- Neither sum leaves the range of 32 bits, in either build.
  have hexactInput : sumInput = coin := by
    obtain ⟨sum, hadd, hsum⟩ : ∃ sum, addU32 build 0 coin = some sum ∧
        sum.toNat = (0 : UInt32).toNat + coin.toNat := addU32_of_lt build (by simp [coin.toNat_lt])
    rw [hinput] at hsumInput
    simp only [sumInputs, hget, ne_eq, not_true_eq_false, if_false, hadd, Except.ok.injEq]
      at hsumInput
    rw [← hsumInput, ← UInt32.toNat_inj, hsum, UInt32.toNat_zero, Nat.zero_add]
  have hexactOutput : sumOutput = value := by
    have hfit : (0 : UInt32).toNat +
        ((st.transaction.output.map Output.value).map UInt32.toNat).sum < 2 ^ 32 := by
      rw [← SignedTransaction.outputValue, hvalue]
      simp [value.toNat_lt]
    obtain ⟨sum, hadd, hsum⟩ := sumU32_of_lt build hfit
    rw [hsumOutput] at hadd
    obtain rfl := Option.some.inj hadd
    rw [← UInt32.toNat_inj, hsum, ← SignedTransaction.outputValue, hvalue, UInt32.toNat_zero,
      Nat.zero_add]
  refine ⟨_, hget, hexactInput ▸ hexactOutput ▸ hle, ?_⟩
  have hdistinct : st.distinctInputValue state = coin.toNat := by
    rw [SignedTransaction.distinctInputValue, hinput]
    simp [hweight]
  have hremove := state.total_removeInputs st
  have hinsert := state.total_insertOutputs (C := C) st
  rw [h.next_eq]
  dsimp only
  omega

/-- A transaction whose hash is not in the state overwrites nothing. -/
theorem SignedTransaction.overwrittenValue_eq_zero (hlength : st.transaction.output.length ≤ 256)
    (hfresh : ∀ index, state.states.get (st.hash C, index) = none) :
    st.overwrittenValue C state = 0 := by
  apply HashMap.overwritten_eq_zero
  · rw [State.outputEntries, List.map_map]
    change (st.transaction.output.zipIdx.map
      ((fun i => (st.hash C, UInt8.ofNat i)) ∘ Prod.snd)).Nodup
    rw [← List.map_map, List.zipIdx_map_snd]
    refine List.Nodup.map_on ?_ List.nodup_range'
    intro i hi j hj heq
    have hi := (List.mem_range'_1.mp hi).2
    have hj := (List.mem_range'_1.mp hj).2
    exact ofNat_injOn (by omega) (by omega) (Prod.mk.inj heq).2
  · intro entry hentry
    obtain ⟨⟨output, index⟩, _, rfl⟩ := List.mem_map.mp hentry
    rw [State.removeInputs_states, HashMap.get_removeAll, hfresh, ite_self]

/-! ## Rows of blocks -/

/-- Such transactions make no coins. -/
theorem checkTxs_total_le {block : List SignedTransaction}
    (hblock : ∀ st ∈ block, MadeFrom C icoKey generators txs st)
    (hcheck : checkTxs C build state block = .ok next) : next.total ≤ state.total := by
  induction block generalizing state with
  | nil =>
      obtain rfl : state = next := Except.ok.inj hcheck
      exact le_rfl
  | cons st rest ih =>
      obtain ⟨hst, hrest⟩ := List.forall_mem_cons.mp hblock
      obtain ⟨middle, hfirst, hlast⟩ := checkTxs_cons_ok hcheck
      obtain ⟨geneLoop, _, input, value, rfl⟩ := hst.exists_eq
      obtain ⟨coin, _, hle, htotal⟩ := (checkTx_ok hfirst).total_newSignedTransaction
      rw [UInt32.le_iff_toNat_le] at hle
      have hmiddle := ih hrest hlast
      omega

/-- Without collisions the coin that the transaction spends has the value that its generator took
it to have. -/
theorem MadeFrom.value_eq {input : Input} {value : UInt32} {coin : UInt32 × Address}
    (h : MadeFrom C icoKey generators txs st)
    (hst : st = geneLoop.newSignedTransaction C [input] value)
    (hfree : CollisionFree C txs) (hzero : AvoidsZeroHash C txs)
    (hstate : state.OriginatesFrom C icoKey txs)
    (hget : state.states.get input.outpoint = some coin) : coin.1.toNat = value.toNat := by
  have hparts : ∀ {other : GeneLoop} {input' : Input} {value' : UInt32},
      other.newSignedTransaction C [input'] value' =
        geneLoop.newSignedTransaction C [input] value → input' = input ∧ value' = value := by
    intro other input' value' heq
    refine ⟨(List.cons.inj (congrArg (fun st => st.transaction.input) heq)).1, ?_⟩
    have hvalue := congrArg SignedTransaction.outputValue heq
    rwa [outputValue_newSignedTransaction, outputValue_newSignedTransaction, UInt32.toNat_inj]
      at hvalue
  cases h with
  | initial hmem hcoin =>
      obtain ⟨rfl, rfl⟩ := hparts hst
      rcases hstate _ _ hget with ⟨_, rfl⟩ | ⟨creator, hcreator, hhash, _⟩
      · rw [hcoin]
      · exact absurd hhash (hzero creator hcreator)
  | output hmem hprevious hcoin =>
      obtain ⟨rfl, rfl⟩ := hparts hst
      rcases hstate _ _ hget with ⟨houtpoint, _⟩ | ⟨creator, hcreator, hhash, hcreated⟩
      · exact absurd (congrArg Prod.fst houtpoint) (hzero _ hprevious)
      · obtain rfl := hfree hcreator hprevious hhash
        rw [Option.some.inj (hcreated.symm.trans hcoin)]

/-- None of them is executed again, so that the next one has a new hash. -/
theorem ReplayInvariant.hash_fresh {done : List SignedTransaction}
    (h : ReplayInvariant C icoKey done state)
    (hfree : CollisionFree C {other | other ∈ done ++ [st]})
    (hzero : AvoidsZeroHash C {other | other ∈ done ++ [st]})
    (hinputs : ∀ other ∈ done, other.transaction.input ≠ [])
    (haccepted : Accepted C build state st next) (index : UInt8) :
    state.states.get (st.hash C, index) = none := by
  have hlast : st ∈ done ++ [st] := List.mem_append_right done (List.mem_singleton_self st)
  by_contra hsome
  obtain ⟨coin, hget⟩ := Option.ne_none_iff_exists'.mp hsome
  rcases h.origin _ _ hget with ⟨houtpoint, _⟩ | ⟨creator, hcreator, hhash, _⟩
  · exact hzero st hlast (congrArg Prod.fst houtpoint)
  · obtain rfl := hfree (List.mem_append_left [st] hcreator) hlast hhash
    apply Rootless.not_of_inputs hinputs fun other hother =>
      hzero other (List.mem_append_left [creator] hother)
    exact h.rootless_of_mem haccepted hcreator

/-- Without collisions they lose none either. -/
theorem ExecutedFrom.total_eq (hfree : CollisionFree C txs) (hzero : AvoidsZeroHash C txs)
    (hsubset : made ⊆ txs) (hmade : ∀ st ∈ made, MadeFrom C icoKey generators txs st)
    (h : ExecutedFrom C build icoKey made state) : state.total = 100 := by
  obtain ⟨executed, hmem, hcheck⟩ := h
  induction executed using List.reverseRecOn generalizing state with
  | nil =>
      obtain rfl : State.new C icoKey = state := Except.ok.inj hcheck
      exact State.total_new icoKey
  | append_singleton done st ih =>
      obtain ⟨hdone, hlast⟩ := List.forall_mem_append.mp hmem
      have hst := hmade st (hlast st (List.mem_singleton_self st))
      have hsource : ∀ other ∈ done ++ [st], other ∈ txs := fun other h => hsubset (hmem other h)
      obtain ⟨parent, hbefore, hafter⟩ := checkTxs_append_ok hcheck
      obtain ⟨middle, hfirst, hrest⟩ := checkTxs_cons_ok hafter
      obtain rfl : middle = state := Except.ok.inj hrest
      have haccepted := checkTx_ok hfirst
      have hparent := ih hdone hbefore
      have hreplay : ReplayInvariant C icoKey done parent := by
        apply ReplayInvariant.start.checkTxs ?_ hbefore
        exact hfree.mono fun other hother => hsubset (hdone other hother)
      obtain ⟨geneLoop, _, input, value, heq⟩ := hst.exists_eq
      have hlength : st.transaction.output.length ≤ 256 := by
        rw [heq]
        exact Output.passCheck_length _ _
      have hkept := SignedTransaction.overwrittenValue_eq_zero hlength
        (hreplay.hash_fresh (hfree.mono hsource) (fun other h => hzero other (hsource other h))
          (fun other h => (hmade other (hdone other h)).input_ne_nil) haccepted)
      rw [heq] at haccepted hkept
      obtain ⟨coin, hget, _, htotal⟩ := haccepted.total_newSignedTransaction
      have hstate := hreplay.origin.mono fun other h => hsubset (hdone other h)
      have hvalue := hst.value_eq heq hfree hzero hstate hget
      omega

/-- At most the initial coin is in circulation. -/
theorem ExecutedFrom.total_le (hmade : ∀ st ∈ made, MadeFrom C icoKey generators txs st)
    (h : ExecutedFrom C build icoKey made state) : state.total ≤ 100 := by
  obtain ⟨executed, hmem, hcheck⟩ := h
  rw [← State.total_new (C := C) icoKey]
  exact checkTxs_total_le (fun st hst => hmade st (hmem st hst)) hcheck

end BitcoinClient
