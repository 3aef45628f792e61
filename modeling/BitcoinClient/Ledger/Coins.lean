import Mathlib
import BitcoinClient.Ledger.CheckTx

/-! # Where a coin comes from and who may spend it

Every entry of a reachable ledger state is either the initial coin or what one
executed transaction leaves under its own hash. When transaction hashes do not
collide and none is all zero, the entry under an outpoint is therefore fixed
once and for all, and the only way to lose it is an input of its recipient.
-/

namespace BitcoinClient

variable (C : Crypto)

/-- The coin that `State::new` issues. -/
def initialCoin (icoKey : Ed25519KeyPair) : UInt32 × Address :=
  (100, .fromPublicKeyBytes C icoKey.publicKey)

/-- No two transactions of the set share a hash. -/
def CollisionFree (txs : Set SignedTransaction) : Prop :=
  Set.InjOn (SignedTransaction.hash C) txs

/-- The all-zero hash, under which the initial coin is kept, is not one of theirs. -/
def AvoidsZeroHash (txs : Set SignedTransaction) : Prop :=
  ∀ st ∈ txs, st.hash C ≠ .hex 0

namespace State

/-- Every entry is the initial coin or an output of a transaction in `txs`. -/
def OriginatesFrom (icoKey : Ed25519KeyPair) (txs : Set SignedTransaction) (state : State) :
    Prop :=
  ∀ outpoint coin, state.states.get outpoint = some coin →
    (outpoint = (.hex 0, 0) ∧ coin = initialCoin C icoKey) ∨
      ∃ st ∈ txs, st.hash C = outpoint.1 ∧ st.transaction.coinAt outpoint.2 = some coin

variable {C} {icoKey : Ed25519KeyPair} {txs : Set SignedTransaction}

theorem new_originatesFrom : (State.new C icoKey).OriginatesFrom C icoKey txs := by
  intro outpoint coin hget
  rcases HashMap.of_get_insert hget with hinitial | hget
  · exact Or.inl hinitial
  · rw [HashMap.get_empty] at hget
    cases hget

theorem OriginatesFrom.mono {state : State} {more : Set SignedTransaction}
    (h : state.OriginatesFrom C icoKey txs) (hsubset : txs ⊆ more) :
    state.OriginatesFrom C icoKey more := by
  intro outpoint coin hget
  rcases h outpoint coin hget with hinitial | ⟨st, hst, hcreated⟩
  · exact Or.inl hinitial
  · exact Or.inr ⟨st, hsubset hst, hcreated⟩

theorem OriginatesFrom.execute {state : State} {st : SignedTransaction}
    (h : state.OriginatesFrom C icoKey txs) (hst : st ∈ txs) :
    (state.execute C st).OriginatesFrom C icoKey txs := by
  intro outpoint coin hget
  rw [get_execute] at hget
  rcases Option.or_eq_some_iff.mp hget with hcreated | ⟨_, hkept⟩
  · obtain ⟨heq, hcoin⟩ := Option.ite_none_right_eq_some.mp hcreated
    exact Or.inr ⟨st, hst, heq.symm, hcoin⟩
  · exact h outpoint coin (Option.ite_none_left_eq_some.mp hkept).2

theorem OriginatesFrom.checkTxs {build : Build} {state final : State}
    {block : List SignedTransaction} (h : state.OriginatesFrom C icoKey txs)
    (hblock : ∀ st ∈ block, st ∈ txs) (hrun : checkTxs C build state block = .ok final) :
    final.OriginatesFrom C icoKey txs := by
  induction block generalizing state with
  | nil =>
      obtain rfl : state = final := Except.ok.inj hrun
      exact h
  | cons st rest ih =>
      obtain ⟨next, hfirst, hrest⟩ := checkTxs_cons_ok hrun
      have hnext : next.OriginatesFrom C icoKey txs := by
        rw [(checkTx_ok hfirst).next_eq]
        exact h.execute (hblock st List.mem_cons_self)
      exact ih hnext (fun other hother => hblock other (List.mem_cons_of_mem _ hother)) hrest

/-- An outpoint present in two states stands for the same coin in both. -/
theorem OriginatesFrom.coherent {left right : State} (hfree : CollisionFree C txs)
    (hzero : AvoidsZeroHash C txs) (hleft : left.OriginatesFrom C icoKey txs)
    (hright : right.OriginatesFrom C icoKey txs) {outpoint : H256 × UInt8}
    {coin coin' : UInt32 × Address} (hcoin : left.states.get outpoint = some coin)
    (hcoin' : right.states.get outpoint = some coin') : coin = coin' := by
  rcases hleft outpoint coin hcoin with ⟨rfl, rfl⟩ | ⟨st, hst, hhash, hat⟩
  · rcases hright _ coin' hcoin' with ⟨_, rfl⟩ | ⟨st, hst, hhash, _⟩
    · rfl
    · exact absurd hhash (hzero st hst)
  · rcases hright outpoint coin' hcoin' with ⟨rfl, _⟩ | ⟨st', hst', hhash', hat'⟩
    · exact absurd hhash (hzero st hst)
    · obtain rfl : st = st' := hfree hst hst' (hhash.trans hhash'.symm)
      exact Option.some.inj (hat.symm.trans hat')

end State

variable {C} {build : Build} {icoKey : Ed25519KeyPair}

/-- A transaction of the list spends this outpoint of `recipient` with a valid signature. -/
def Authorised (C : Crypto) (txs : List SignedTransaction) (outpoint : H256 × UInt8)
    (recipient : Address) : Prop :=
  ∃ st ∈ txs, outpoint ∈ st.transaction.input.map Input.outpoint ∧
    verify C st.transaction st.publicKeyVector st.signatureVector = true ∧
    Address.fromPublicKeyBytes C st.publicKeyVector = recipient

/-- Only an input of the recipient makes a coin disappear. -/
theorem Accepted.lost_authorised {state next : State} {st : SignedTransaction}
    (h : Accepted C build state st next) {outpoint : H256 × UInt8} {value : UInt32}
    {recipient : Address} (hcoin : state.states.get outpoint = some (value, recipient))
    (hlost : next.states.get outpoint = none) : Authorised C [st] outpoint recipient := by
  rw [h.next_eq, State.get_execute, Option.or_eq_none_iff] at hlost
  have hinput : outpoint ∈ st.transaction.input.map Input.outpoint := by
    by_contra hnot
    rw [if_neg hnot, hcoin] at hlost
    cases hlost.2
  obtain ⟨value', howned⟩ := h.owned hinput
  have howner := congrArg Prod.snd (Option.some.inj (howned.symm.trans hcoin))
  exact ⟨st, List.mem_singleton_self st, hinput, h.signed, howner⟩

/-- A block executed on any state with known coins keeps each of them or spends it
with its recipient's signature. -/
theorem checkTxs_keeps_or_authorised {txs : Set SignedTransaction} (hfree : CollisionFree C txs)
    (hzero : AvoidsZeroHash C txs) {state next : State} {block : List SignedTransaction}
    (horigin : state.OriginatesFrom C icoKey txs) (hblock : ∀ st ∈ block, st ∈ txs)
    (hrun : checkTxs C build state block = .ok next) {outpoint : H256 × UInt8} {value : UInt32}
    {recipient : Address} (hcoin : state.states.get outpoint = some (value, recipient)) :
    next.states.get outpoint = some (value, recipient) ∨
      Authorised C block outpoint recipient := by
  induction block generalizing state with
  | nil =>
      obtain rfl : state = next := Except.ok.inj hrun
      exact Or.inl hcoin
  | cons st rest ih =>
      obtain ⟨middle, hfirst, hrest⟩ := checkTxs_cons_ok hrun
      have haccepted := checkTx_ok hfirst
      have hmiddle : middle.OriginatesFrom C icoKey txs := by
        rw [haccepted.next_eq]
        exact horigin.execute (hblock st List.mem_cons_self)
      cases hget : middle.states.get outpoint with
      | none =>
          obtain ⟨spender, hspender, hspends⟩ := haccepted.lost_authorised hcoin hget
          rw [List.mem_singleton] at hspender
          exact Or.inr ⟨spender, hspender ▸ List.mem_cons_self, hspends⟩
      | some coin =>
          obtain rfl : (value, recipient) = coin :=
            horigin.coherent hfree hzero hmiddle hcoin hget
          rcases ih hmiddle (fun other hother => hblock other (List.mem_cons_of_mem _ hother))
            hrest hget with hkept | ⟨spender, hspender, hspends⟩
          · exact Or.inl hkept
          · exact Or.inr ⟨spender, List.mem_cons_of_mem _ hspender, hspends⟩

/-- No block removes, revalues or reassigns a coin without its owner's signature. -/
theorem spending_authorised (C : Crypto) (build : Build) (icoKey : Ed25519KeyPair)
    (chain : List (List SignedTransaction)) (block : List SignedTransaction)
    (state next : State) (hfree : CollisionFree C {st | st ∈ chain.flatten ++ block})
    (hzero : AvoidsZeroHash C {st | st ∈ chain.flatten ++ block})
    (hstate : checkChain C build (State.new C icoKey) chain = .ok state)
    (hblock : checkTxs C build state block = .ok next)
    (outpoint : H256 × UInt8) (value : UInt32) (recipient : Address)
    (hcoin : state.states.get outpoint = some (value, recipient)) :
    next.states.get outpoint = some (value, recipient) ∨
      ∃ st ∈ block, outpoint ∈ st.transaction.input.map Input.outpoint ∧
        verify C st.transaction st.publicKeyVector st.signatureVector = true ∧
        Address.fromPublicKeyBytes C st.publicKeyVector = recipient := by
  rw [checkChain_eq_checkTxs] at hstate
  have horigin : state.OriginatesFrom C icoKey {st | st ∈ chain.flatten ++ block} :=
    State.new_originatesFrom.checkTxs
      (fun st hst => List.mem_append_left block hst) hstate
  exact checkTxs_keeps_or_authorised hfree hzero horigin
    (fun st hst => List.mem_append_right chain.flatten hst) hblock hcoin

theorem spending_authorised_moveInitialCoin :
    ∃ st ∈ [moveInitialCoin], (H256.hex 0, 0) ∈ st.transaction.input.map Input.outpoint ∧
      verify .sample st.transaction st.publicKeyVector st.signatureVector = true ∧
      Address.fromPublicKeyBytes .sample st.publicKeyVector =
        .fromPublicKeyBytes .sample Crypto.sampleKey.publicKey := by
  have hfree : CollisionFree .sample {st | st ∈ [].flatten ++ [moveInitialCoin]} := by
    intro left hleft right hright _
    rw [List.mem_singleton.mp hleft, List.mem_singleton.mp hright]
  have hzero : AvoidsZeroHash .sample {st | st ∈ [].flatten ++ [moveInitialCoin]} := by
    intro st hst
    rw [List.mem_singleton.mp hst]
    decide +kernel
  have hblock : checkTxs .sample .release (State.new .sample Crypto.sampleKey) [moveInitialCoin] =
      .ok ((State.new .sample Crypto.sampleKey).execute .sample moveInitialCoin) := by
    decide +kernel
  have hspent : ((State.new .sample Crypto.sampleKey).execute .sample moveInitialCoin).states.get
      (.hex 0, 0) = none := by decide +kernel
  rcases spending_authorised .sample .release Crypto.sampleKey [] [moveInitialCoin]
    (State.new .sample Crypto.sampleKey) _ hfree hzero rfl hblock (.hex 0, 0) 100 _
    (HashMap.get_insert_self _ _ _) with hkept | hauthorised
  · rw [hspent] at hkept
    cases hkept
  · exact hauthorised

end BitcoinClient
