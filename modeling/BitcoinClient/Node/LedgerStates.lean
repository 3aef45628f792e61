import BitcoinClient.Node.Rounds

/-! # The ledger states of a running node

Every entry of `block_state` was executed block by block from the initial coin, in
any interleaving. This carries what is known about chains over to the node.
-/

namespace BitcoinClient

variable (C : Crypto) (build : Build) (icoKey : Ed25519KeyPair)

/-- The state at the end of an accepted chain. -/
def FromChain (state : State) : Prop :=
  ∃ chain, checkChain C build (State.new C icoKey) chain = .ok state

/-- What the threads promise about the ledger states. -/
def ledgerContract : Program.Contract Op Shared where
  inv s := ∀ hash state, s.blockState.value.get hash = some state → FromChain C build icoKey state
  pre op _ :=
    match op with
    | .writeBlockState _ state => FromChain C build icoKey state
    | _ => True
  allowed _ _ := True
  rely _ _ _ := True

variable {C build icoKey} {s : Shared}

/-- An accepted block extends the chain. -/
theorem FromChain.extend {state next : State} {txs : List SignedTransaction}
    (h : FromChain C build icoKey state) (hcheck : checkTxs C build state txs = .ok next) :
    FromChain C build icoKey next := by
  obtain ⟨chain, hchain⟩ := h
  refine ⟨chain ++ [txs], ?_⟩
  rw [checkChain] at hchain ⊢
  rw [List.foldlM_append, hchain]
  change (checkTxs C build state txs >>= pure) = .ok next
  rw [hcheck]
  rfl

theorem ledger_initial : (ledgerContract C build icoKey).inv (Shared.initial C icoKey) := by
  intro hash state hget
  simp only [Shared.initial, HashMap.get_insert, HashMap.get_empty,
    Option.ite_none_right_eq_some, Option.some.injEq] at hget
  exact ⟨[], hget.2 ▸ rfl⟩

theorem ledger_op (op : Op) (hinv : (ledgerContract C build icoKey).inv s)
    (hpre : (ledgerContract C build icoKey).pre op s) :
    (op.action C build).wp (fun _ s' => (ledgerContract C build icoKey).inv s')
      (fun _ s' => (ledgerContract C build icoKey).inv s') s := by
  have hframe : ∀ s', op.writesStates = false → op.Frame s s' →
      (ledgerContract C build icoKey).inv s' := by
    intro s' hstates h hash state hget
    rw [h.states hstates] at hget
    exact hinv hash state hget
  cases op with
  | writeBlockState hash state =>
      simp only [Op.action, wp_writeBlockState]
      exact ⟨fun _ => hinv, fun _ => HashMap.forall_insert hinv hpre⟩
  | _ =>
      exact Effect.wp_mono (Op.wp_frame C build _) (fun _ s' h => hframe s' rfl h)
        fun _ s' h => hframe s' rfl h.1

/-- The parent's state ends a chain, which the block extends. -/
theorem admitBlock_ledgerMeets (block : Block) (s : Shared) :
    (admitBlock C build block).Meets (Op.action C build) (ledgerContract C build icoKey)
      (fun _ _ => True) s := by
  unfold admitBlock checkTxState
  rw [Program.meets_bind]
  refine Program.meets_call fun s₁ _ hinv₁ => ⟨trivial, fun _ => ?_⟩
  simp only [Op.action, wp_readBlockState]
  refine ⟨fun _ => trivial, fun _ => ?_⟩
  split
  next parent hparent =>
    intro _
    split
    next => trivial
    next => exact fun _ _ _ => ⟨trivial, fun _ => trivial⟩
    next state hcheck =>
      refine Program.meets_call fun s₂ _ _ => ⟨(hinv₁ _ _ hparent).extend hcheck, fun _ => ?_⟩
      refine Effect.wp_mono Effect.wp_true (fun _ _ _ _ => ?_) fun _ _ h => h
      exact fun _ _ _ => ⟨trivial, fun _ => Effect.wp_mono Effect.wp_true
        (fun _ _ _ _ => trivial) fun _ _ h => h⟩
  next => trivial

/-- No other part writes to `block_state`. -/
theorem part_ledgerMeets {α : Type} {program : NodeProgram α} (h : IsPart C build α program)
    (s : Shared) :
    program.Meets (Op.action C build) (ledgerContract C build icoKey) (fun _ _ => True) s := by
  have hpre : ∀ op : Op, op.isFree = true → ∀ s, (ledgerContract C build icoKey).pre op s := by
    intro op hfree s
    cases op with
    | writeBlockState hash state => cases hfree
    | _ => trivial
  cases h with
  | admitBlock block => exact admitBlock_ledgerMeets block s
  | answerGetTransactions peer hashes =>
      exact (answerGetTransactions_free peer hashes).meets hpre fun _ _ _ => trivial
  | storeTransaction newTrans trans =>
      exact (storeTransaction_free newTrans trans).meets hpre fun _ _ _ => trivial
  | generate geneLoop generator iteration =>
      exact (generate_free geneLoop generator iteration).meets hpre fun _ _ _ => trivial

/-- Every ledger state of a running node is at the end of an accepted chain. -/
theorem blockStates_fromChains (C : Crypto) (build : Build) (geneLoop : GeneLoop)
    (icoKey : Ed25519KeyPair) (workers requests : Nat) (node : Node workers requests)
    (hreach : (nodeMachine C build geneLoop).Reachable (fun _ _ _ => True)
      (Node.start C icoKey workers requests) node)
    (hash : H256) (state : State) (hget : node.shared.blockState.value.get hash = some state) :
    ∃ chain, checkChain C build (State.new C icoKey) chain = .ok state := by
  refine (Program.Reachable.meets (ledgerContract C build icoKey) (fun _ => True)
    (fun _ _ => True) (fun _ _ => trivial) (fun _ _ _ _ _ _ => trivial) ?_
    (fun _ _ _ _ _ _ => id) ?_ ?_ hreach).1 hash state hget
  · exact ⟨ledger_initial, fun who => ⟨.start who, rfl, trivial⟩⟩
  · intro node who choice task program _ _ _ _ hbody
    refine (nodeBody_composed hbody).meets ?_ (fun _ => part_ledgerMeets) _
    intro op hplain s
    cases op with
    | writeBlockState hash state => cases hplain
    | _ => trivial
  · intro node who choice op next _ _ hinv hpre
    refine ⟨trivial, Effect.wp_mono (ledger_op op hinv hpre) ?_ ?_⟩
    · exact fun _ _ h => ⟨h, fun _ _ => trivial⟩
    · exact fun _ _ h => ⟨trivial, h, fun _ _ => trivial⟩

end BitcoinClient
