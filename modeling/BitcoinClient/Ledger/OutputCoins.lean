import BitcoinClient.Ledger.Accounting

/-! # One coin for every output

The position of an output is truncated to a byte, so that outputs 256 positions apart
share an outpoint and the last of them stays. An accepted transaction leaves a coin for
each of its outputs exactly when it has at most 256 of them (`outputCoins_iff`).
-/

namespace BitcoinClient

/-- From `parent` to `next` the inputs of the transaction turn into one coin for each output,
and nothing else changes. -/
structure OwnCoins (C : Crypto) (parent next : State) (st : SignedTransaction) : Prop where
  count : {index : UInt8 | next.states.containsKey (st.hash C, index) = true}.ncard =
    st.transaction.output.length
  coins : ∃ place : Fin st.transaction.output.length → UInt8, Function.Injective place ∧
    ∀ i, next.states.get (st.hash C, place i) =
      some (st.transaction.output[i].value, st.transaction.output[i].recipientAddr)
  spent : ∀ input ∈ st.transaction.input, next.states.get input.outpoint = none
  kept : ∀ outpoint : H256 × UInt8, outpoint.1 ≠ st.hash C →
    outpoint ∉ st.transaction.input.map Input.outpoint →
    next.states.get outpoint = parent.states.get outpoint

variable {C : Crypto} {build : Build}

/-- Different positions below 256 are different bytes. -/
theorem ofNat_injOn {i j : Nat} (hi : i < 256) (hj : j < 256)
    (h : UInt8.ofNat i = UInt8.ofNat j) : i = j := by
  have htoNat := congrArg UInt8.toNat h
  rwa [UInt8.toNat_ofNat_of_lt' hi, UInt8.toNat_ofNat_of_lt' hj] at htoNat

/-- The coins of a transaction whose outputs do not share an index. -/
theorem coinAt_eq_some_iff {t : Transaction} (hlength : t.output.length ≤ 256) {index : UInt8}
    {coin : UInt32 × Address} :
    t.coinAt index = some coin ↔ ∃ (i : Nat) (hi : i < t.output.length), UInt8.ofNat i = index ∧
      coin = (t.output[i].value, t.output[i].recipientAddr) := by
  rw [Transaction.coinAt, HashMap.lastValue_eq_some_iff]
  · rw [List.mem_map]
    constructor
    · rintro ⟨⟨output, i⟩, hmem, heq⟩
      obtain ⟨hindex, hcoin⟩ := Prod.mk.inj heq
      obtain ⟨hi, houtput⟩ := List.getElem?_eq_some_iff.mp (List.mem_zipIdx_iff_getElem?.mp hmem)
      exact ⟨i, hi, hindex, by rw [← hcoin, houtput]⟩
    · rintro ⟨i, hi, hindex, rfl⟩
      exact ⟨(t.output[i], i), List.mem_zipIdx_iff_getElem?.mpr (List.getElem?_eq_getElem hi),
        Prod.ext hindex rfl⟩
  · rw [List.map_map]
    change (t.output.zipIdx.map (UInt8.ofNat ∘ Prod.snd)).Nodup
    rw [← List.map_map, List.zipIdx_map_snd]
    refine List.Nodup.map_on ?_ List.nodup_range'
    intro i hi j hj
    have hi := (List.mem_range'_1.mp hi).2
    have hj := (List.mem_range'_1.mp hj).2
    exact ofNat_injOn (by omega) (by omega)

/-- A byte cannot tell more than 256 outputs apart. -/
theorem OwnCoins.length_le {parent next : State} {st : SignedTransaction}
    (h : OwnCoins C parent next st) : st.transaction.output.length ≤ 256 := by
  obtain ⟨place, hplace, _⟩ := h.coins
  have hinjective : Function.Injective fun i => (⟨(place i).toNat, (place i).toNat_lt⟩ : Fin 256) :=
    fun i j heq => hplace (UInt8.toNat_inj.mp (Fin.mk.inj heq))
  have hcard := Fintype.card_le_of_injective _ hinjective
  rwa [Fintype.card_fin, Fintype.card_fin] at hcard

/-- An accepted transaction with a fresh hash. -/
theorem Accepted.ownCoins {parent next : State} {st : SignedTransaction}
    (h : Accepted C build parent st next)
    (hfresh : ∀ index, parent.states.get (st.hash C, index) = none)
    (hlength : st.transaction.output.length ≤ 256) : OwnCoins C parent next st := by
  have hother : ∀ input ∈ st.transaction.input, input.prevTrans ≠ st.hash C := by
    intro input hinput heq
    obtain ⟨value, hget⟩ := h.owned (List.mem_map_of_mem hinput)
    rw [Input.outpoint, heq, hfresh] at hget
    cases hget
  have hown : ∀ index, next.states.get (st.hash C, index) = st.transaction.coinAt index := by
    intro index
    rw [h.next_eq, State.get_execute, if_pos rfl, hfresh, ite_self, Option.or_none]
  have hplace : Function.Injective fun i : Fin st.transaction.output.length => UInt8.ofNat i :=
    fun i j heq => Fin.ext (ofNat_injOn (by omega) (by omega) heq)
  have hcoin : ∀ i : Fin st.transaction.output.length, next.states.get (st.hash C, UInt8.ofNat i) =
      some (st.transaction.output[i].value, st.transaction.output[i].recipientAddr) := by
    intro i
    rw [hown]
    exact (coinAt_eq_some_iff hlength).mpr ⟨i, i.isLt, rfl, rfl⟩
  have hrange : {index : UInt8 | next.states.containsKey (st.hash C, index) = true} =
      Set.range fun i : Fin st.transaction.output.length => UInt8.ofNat i := by
    ext index
    constructor
    · intro hmem
      obtain ⟨coin, hget⟩ := HashMap.containsKey_iff.mp hmem
      rw [hown] at hget
      obtain ⟨i, hi, hindex, _⟩ := (coinAt_eq_some_iff hlength).mp hget
      exact ⟨⟨i, hi⟩, hindex⟩
    · rintro ⟨i, rfl⟩
      exact HashMap.containsKey_of_get (hcoin i)
  refine ⟨?_, ⟨_, hplace, hcoin⟩, ?_, ?_⟩
  · rw [hrange, Set.ncard_range_of_injective hplace, Nat.card_eq_fintype_card, Fintype.card_fin]
  · intro input hinput
    rw [h.next_eq, State.get_execute_of_ne C (hother input hinput),
      if_pos (List.mem_map_of_mem hinput)]
  · intro outpoint hne hkept
    rw [h.next_eq, State.get_execute_of_ne C hne, if_neg hkept]

/-- Each output of a transaction that `check_tx_state` accepts gets a coin of its own exactly
when there are at most 256 of them. -/
theorem outputCoins_iff (C : Crypto) (build : Build) (parentHash blockHash : H256)
    (st : SignedTransaction) (s s' : Shared) (parent next : State)
    (hparent : s.blockState.value.get parentHash = some parent)
    (hfresh : ∀ index, parent.states.get (st.hash C, index) = none)
    (hrun : (checkTxState C build parentHash [st] blockHash).run C build s = .ok true s')
    (hnext : s'.blockState.value.get blockHash = some next) :
    OwnCoins C parent next st ↔ st.transaction.output.length ≤ 256 := by
  obtain ⟨parent', next', hparent', hcheck, hnext'⟩ := checkTxState_ok_true hrun
  obtain rfl := Option.some.inj (hparent'.symm.trans hparent)
  obtain rfl := Option.some.inj (hnext'.symm.trans hnext)
  obtain ⟨middle, hfirst, hrest⟩ := checkTxs_cons_ok hcheck
  obtain rfl : middle = next' := Except.ok.inj hrest
  constructor
  · exact OwnCoins.length_le
  · exact (checkTx_ok hfirst).ownCoins hfresh

/-- The initial state holds nothing but the initial coin. -/
theorem State.new_get_of_ne {icoKey : Ed25519KeyPair} {outpoint : H256 × UInt8}
    (hne : outpoint.1 ≠ .hex 0) : (State.new C icoKey).states.get outpoint = none := by
  rw [State.new, HashMap.get_insert_ne (fun heq => hne (congrArg Prod.fst heq)),
    HashMap.get_empty]

theorem outputCoins_iff_moveInitialCoin :
    ∃ s' next,
      (checkTxState .sample .overflowChecked (Blockchain.genesis.hash .sample) [moveInitialCoin]
        (.hex 1)).run .sample .overflowChecked (Shared.initial .sample Crypto.sampleKey) =
          .ok true s' ∧
      s'.blockState.value.get (.hex 1) = some next ∧
      (OwnCoins .sample (State.new .sample Crypto.sampleKey) next moveInitialCoin ↔
        moveInitialCoin.transaction.output.length ≤ 256) := by
  have hwp : ((checkTxState .sample .overflowChecked (Blockchain.genesis.hash .sample)
      [moveInitialCoin] (.hex 1)).run .sample .overflowChecked).wp
      (fun result _ => result = true) (fun _ _ => False)
      (Shared.initial .sample Crypto.sampleKey) := by decide +kernel
  obtain ⟨result, s', hrun, rfl⟩ := Effect.exists_ok_of_wp hwp
  obtain ⟨parent, next, _, _, hnext⟩ := checkTxState_ok_true hrun
  have hhash : moveInitialCoin.hash .sample ≠ .hex 0 := by decide +kernel
  exact ⟨s', next, hrun, hnext, outputCoins_iff .sample .overflowChecked _ _ moveInitialCoin _ s'
    _ next (HashMap.get_insert_self _ _ _) (fun _ => State.new_get_of_ne hhash) hrun hnext⟩

/-- The initial coin, given away in 257 empty shares. -/
def spendInShares : SignedTransaction :=
  .signedBy .sample Crypto.sampleKey ⟨[⟨.hex 0, 0⟩],
    List.replicate 257 ⟨.fromPublicKeyBytes .sample Crypto.sampleKey.publicKey, 0⟩⟩

/-- The last of 257 outputs takes the outpoint of the first one. -/
theorem not_outputCoins :
    ¬ ∀ (C : Crypto) (build : Build) (parentHash blockHash : H256) (st : SignedTransaction)
      (s s' : Shared) (parent next : State), s.blockState.value.get parentHash = some parent →
      (∀ index, parent.states.get (st.hash C, index) = none) →
      (∀ input ∈ st.transaction.input, input.prevTrans ≠ st.hash C) →
      (checkTxState C build parentHash [st] blockHash).run C build s = .ok true s' →
      s'.blockState.value.get blockHash = some next → OwnCoins C parent next st := by
  intro hall
  have hwp : ((checkTxState .sample .overflowChecked (Blockchain.genesis.hash .sample)
      [spendInShares] (.hex 1)).run .sample .overflowChecked).wp
      (fun result _ => result = true) (fun _ _ => False)
      (Shared.initial .sample Crypto.sampleKey) := by decide +kernel
  obtain ⟨result, s', hrun, rfl⟩ := Effect.exists_ok_of_wp hwp
  obtain ⟨parent, next, _, _, hnext⟩ := checkTxState_ok_true hrun
  have hhash : spendInShares.hash .sample ≠ .hex 0 := by decide +kernel
  have hcoins := hall .sample .overflowChecked _ _ spendInShares _ s' _ next
    (HashMap.get_insert_self _ _ _) (fun _ => State.new_get_of_ne hhash)
    (fun input hinput => by rw [List.mem_singleton.mp hinput]; exact hhash.symm) hrun hnext
  have hlength : spendInShares.transaction.output.length = 257 := List.length_replicate
  have hle := hcoins.length_le
  omega

end BitcoinClient
