import BitcoinClient.Node.GeneratorLog

/-! # Which coins the generator finds

`get_tx_balance` stops at the first own coin that it meets, and an iteration takes a balance
of zero for an empty purse. Anybody may create a coin without value for the generator. When
the iteration over the ledger state meets such a coin first, the generator does not see the
others (`spendable_found_iff`).
-/

namespace BitcoinClient

section Definitions

variable (C : Crypto) (build : Build) (geneLoop : GeneLoop)
  (iteration : HashMap.Iteration (H256 × UInt8) (UInt32 × Address)) (state : State)

/-- Other threads leave the mempool usable and only add to what was sent. -/
def Undisturbed (s s' : Shared) : Prop := s'.mempool.poisoned = false ∧ s.sent <+: s'.sent

/-- The search returns a positive balance with the outpoint that holds it, and the iteration
announces a transaction that spends it, whatever other threads do between its steps. -/
def GeneLoop.FindsCoin : Prop :=
  ∃ input balance, geneLoop.getTxBalance iteration state = ([input], balance) ∧ 0 < balance ∧
    state.states.get input.outpoint = some (balance, geneLoop.addr) ∧
    ∀ generator s, generator.state = state → s.mempool.poisoned = false →
      (geneLoop.generate C generator iteration).Returns (Op.action C build) Undisturbed
        (fun _ s' => .broadcast (.newTransactionHashes
          [(geneLoop.newSignedTransaction C [input] balance).hash C]) ∈ s'.sent) s

/-- The iteration meets no own coin of value zero before the first one of positive value. -/
def GeneLoop.MeetsValueFirst : Prop :=
  ∀ before outpoint after,
    iteration.entries state.states = before ++ (outpoint, (0, geneLoop.addr)) :: after →
    ∃ other value, (other, (value, geneLoop.addr)) ∈ before ∧ 0 < value

end Definitions

variable {C : Crypto} {build : Build} {geneLoop : GeneLoop}
  {iteration : HashMap.Iteration (H256 × UInt8) (UInt32 × Address)} {state : State}

/-- Other threads cannot keep the generator from announcing what it generates. -/
theorem generate_announces {generator : Generator} {inputs : List Input} {balance : UInt32}
    {s : Shared} (hsearch : geneLoop.getTxBalance iteration generator.state = (inputs, balance))
    (hbalance : balance ≠ 0) (hmempool : s.mempool.poisoned = false) :
    (geneLoop.generate C generator iteration).Returns (Op.action C build) Undisturbed
      (fun _ s' => .broadcast (.newTransactionHashes
        [(geneLoop.newSignedTransaction C inputs balance).hash C]) ∈ s'.sent) s := by
  have hannounce : ∀ s (message : Sent) (generator' : Generator), Program.Returns
      (Op.action C build) Undisturbed (fun _ s' => message ∈ s'.sent)
      (do NodeProgram.call (.send message); pure generator') s := by
    intro s message generator' s' hsent
    exact hsent.2.subset (List.mem_append_right _ (List.mem_singleton_self _))
  unfold GeneLoop.generate
  rw [hsearch]
  dsimp only
  rw [if_neg hbalance]
  refine (wp_mempoolContains _).mpr ⟨fun hpoisoned => ?_, fun _ s' hs' => ?_⟩
  · cases hmempool.symm.trans hpoisoned
  cases s.mempool.value.trans.containsKey
      ((geneLoop.newSignedTransaction C inputs balance).hash C) with
  | true => exact hannounce s' _ _
  | false =>
      refine (wp_mempoolInsert _ _).mpr ⟨fun hpoisoned => ?_, fun _ s'' _ => ?_⟩
      · cases hs'.1.symm.trans hpoisoned
      · exact hannounce s'' _ _

/-- What the search returns, by the first own coin of the iteration. -/
theorem getTxBalance_of_first {before after : List ((H256 × UInt8) × (UInt32 × Address))}
    {outpoint : H256 × UInt8} {value : UInt32}
    (hentries : iteration.entries state.states =
      before ++ (outpoint, (value, geneLoop.addr)) :: after)
    (hbefore : ∀ entry ∈ before, entry.2.2 ≠ geneLoop.addr) :
    geneLoop.getTxBalance iteration state = ([⟨outpoint.1, outpoint.2⟩], value) := by
  have hfind : (iteration.entries state.states).find? (fun entry => entry.2.2 = geneLoop.addr) =
      some (outpoint, (value, geneLoop.addr)) := by
    rw [List.find?_eq_some_iff_append]
    refine ⟨decide_eq_true rfl, before, after, hentries, fun entry hmem => ?_⟩
    rw [Bool.not_eq_true', decide_eq_false_iff_not]
    exact hbefore entry hmem
  rw [GeneLoop.getTxBalance, hfind]

/-- A state with an own coin has a first one in every iteration. -/
theorem exists_first (iteration : HashMap.Iteration (H256 × UInt8) (UInt32 × Address))
    {outpoint : H256 × UInt8} {value : UInt32}
    (hcoin : state.states.get outpoint = some (value, geneLoop.addr)) :
    ∃ before first value after, iteration.entries state.states =
        before ++ (first, (value, geneLoop.addr)) :: after ∧
      (∀ entry ∈ before, entry.2.2 ≠ geneLoop.addr) ∧
      state.states.get first = some (value, geneLoop.addr) := by
  have hmem := (iteration.enumerates state.states).mem_iff.mpr hcoin
  have hsome : ((iteration.entries state.states).find? fun entry =>
      entry.2.2 = geneLoop.addr).isSome = true := by
    rw [List.find?_isSome]
    exact ⟨_, hmem, decide_eq_true rfl⟩
  obtain ⟨⟨first, value', address⟩, hfind⟩ := Option.isSome_iff_exists.mp hsome
  obtain ⟨hown, before, after, hentries, hbefore⟩ := List.find?_eq_some_iff_append.mp hfind
  obtain rfl : address = geneLoop.addr := of_decide_eq_true hown
  refine ⟨before, first, value', after, hentries, fun entry hentry => ?_, ?_⟩
  · have hother := hbefore entry hentry
    rwa [Bool.not_eq_true', decide_eq_false_iff_not] at hother
  · exact (iteration.enumerates state.states).mem_iff.mp (List.mem_of_find?_eq_some hfind)

/-- With a coin to spend, the generator finds one exactly when the iteration meets no worthless
own coin before it. -/
theorem spendable_found_iff (C : Crypto) (build : Build) (geneLoop : GeneLoop)
    (iteration : HashMap.Iteration (H256 × UInt8) (UInt32 × Address)) (state : State)
    (hfunds : ∃ outpoint value, state.states.get outpoint = some (value, geneLoop.addr) ∧
      0 < value) :
    geneLoop.FindsCoin C build iteration state ↔ geneLoop.MeetsValueFirst iteration state := by
  obtain ⟨outpoint, funds, hcoin, _⟩ := hfunds
  obtain ⟨before, first, value, after, hentries, hbefore, hfirst⟩ :=
    exists_first iteration hcoin
  have hsearch := getTxBalance_of_first hentries hbefore
  constructor
  · rintro ⟨input, balance, hfound, hpositive, _⟩ before' worthless after' hentries'
    obtain ⟨_, rfl⟩ := Prod.mk.inj (hsearch.symm.trans hfound)
    have hvalue : value ≠ 0 := UInt32.pos_iff_ne_zero.mp hpositive
    -- The worthless coin is own, so that it cannot come before the first own coin.
    rcases List.append_eq_append_iff.mp (hentries.symm.trans hentries') with
      ⟨between, rfl, hrest⟩ | ⟨between, rfl, hrest⟩
    · cases between with
      | nil => exact absurd (Prod.mk.inj (Prod.mk.inj (List.cons.inj hrest).1).2).1 hvalue
      | cons entry between =>
          obtain rfl := (List.cons.inj hrest).1
          exact ⟨first, value, List.mem_append_right _ List.mem_cons_self, hpositive⟩
    · cases between with
      | nil => exact absurd (Prod.mk.inj (Prod.mk.inj (List.cons.inj hrest).1).2).1.symm hvalue
      | cons entry between =>
          obtain rfl := (List.cons.inj hrest).1
          exact absurd rfl (hbefore _ (List.mem_append_right _ List.mem_cons_self))
  · intro hmeets
    have hvalue : value ≠ 0 := by
      rintro rfl
      obtain ⟨other, value, hmem, _⟩ := hmeets before first after hentries
      exact hbefore _ hmem rfl
    refine ⟨⟨first.1, first.2⟩, value, hsearch, UInt32.pos_iff_ne_zero.mpr hvalue, hfirst, ?_⟩
    rintro generator s rfl hmempool
    exact generate_announces hsearch hvalue hmempool

/-- The initial coin, and a coin without value for its owner. -/
def worthlessCoin : SignedTransaction :=
  .signedBy .sample Crypto.sampleKey ⟨[⟨.hex 0, 0⟩],
    [⟨sampleGeneLoop.addr, 0⟩, ⟨sampleGeneLoop.addr, 100⟩]⟩

/-- The state after `worthlessCoin`. -/
def worthlessState : State := (State.new .sample Crypto.sampleKey).execute .sample worthlessCoin

/-- The coin without value comes first. -/
noncomputable def worthlessFirst : HashMap.Iteration (H256 × UInt8) (UInt32 × Address) :=
  .ofOrder worthlessState.states
    [((worthlessCoin.hash .sample, 0), (0, sampleGeneLoop.addr)),
      ((worthlessCoin.hash .sample, 1), (100, sampleGeneLoop.addr))] (by decide +kernel)

/-- The coin without value comes last. -/
noncomputable def worthlessLast : HashMap.Iteration (H256 × UInt8) (UInt32 × Address) :=
  .ofOrder worthlessState.states
    [((worthlessCoin.hash .sample, 1), (100, sampleGeneLoop.addr)),
      ((worthlessCoin.hash .sample, 0), (0, sampleGeneLoop.addr))] (by decide +kernel)

theorem worthlessFirst_entries : worthlessFirst.entries worthlessState.states =
    [((worthlessCoin.hash .sample, 0), (0, sampleGeneLoop.addr)),
      ((worthlessCoin.hash .sample, 1), (100, sampleGeneLoop.addr))] := if_pos rfl

theorem worthlessState_get : worthlessState.states.get (worthlessCoin.hash .sample, 1) =
    some (100, sampleGeneLoop.addr) := by
  decide +kernel

/-- Of the two orders of one state, the generator finds the coin in one. -/
theorem spendable_found_iff_bothOrders :
    sampleGeneLoop.FindsCoin .sample .release worthlessLast worthlessState ∧
      ¬ sampleGeneLoop.FindsCoin .sample .release worthlessFirst worthlessState := by
  have hfunds : ∃ outpoint value, worthlessState.states.get outpoint =
      some (value, sampleGeneLoop.addr) ∧ 0 < value := ⟨_, 100, worthlessState_get, by decide⟩
  constructor
  · refine (spendable_found_iff .sample .release sampleGeneLoop worthlessLast worthlessState
      hfunds).mpr fun before outpoint after hentries => ?_
    have horder : worthlessLast.entries worthlessState.states =
        [((worthlessCoin.hash .sample, 1), (100, sampleGeneLoop.addr)),
          ((worthlessCoin.hash .sample, 0), (0, sampleGeneLoop.addr))] := if_pos rfl
    have hsplit := horder.symm.trans hentries
    cases before with
    | nil =>
        have hvalue : (100 : UInt32) = 0 :=
          (Prod.mk.inj (Prod.mk.inj (List.cons.inj hsplit).1).2).1
        exact absurd hvalue (by decide)
    | cons entry before =>
        obtain rfl := (List.cons.inj hsplit).1
        exact ⟨(worthlessCoin.hash .sample, 1), 100, List.mem_cons_self, by decide⟩
  · intro hfinds
    have hmeets := (spendable_found_iff .sample .release sampleGeneLoop worthlessFirst
      worthlessState hfunds).mp hfinds
    obtain ⟨_, _, hmem, _⟩ := hmeets [] _ _ worthlessFirst_entries
    cases hmem

/-- `check_tx_state` accepts the coin without value, and the generator stops at it. -/
theorem not_spendable_found :
    ¬ ∀ (chain : List (List SignedTransaction)) (state : State)
      (iteration : HashMap.Iteration (H256 × UInt8) (UInt32 × Address)),
      checkChain .sample .release (State.new .sample Crypto.sampleKey) chain = .ok state →
      (∃ outpoint value, state.states.get outpoint = some (value, sampleGeneLoop.addr) ∧
        0 < value) →
      sampleGeneLoop.FindsCoin .sample .release iteration state := by
  intro hfound
  have hchain : checkChain .sample .release (State.new .sample Crypto.sampleKey)
      [[worthlessCoin]] = .ok worthlessState := by decide +kernel
  have horder : worthlessFirst.entries worthlessState.states =
      [] ++ ((worthlessCoin.hash .sample, 0), (0, sampleGeneLoop.addr)) ::
        [((worthlessCoin.hash .sample, 1), (100, sampleGeneLoop.addr))] := worthlessFirst_entries
  have hfunds : ∃ outpoint value, worthlessState.states.get outpoint =
      some (value, sampleGeneLoop.addr) ∧ 0 < value := ⟨_, 100, worthlessState_get, by decide⟩
  obtain ⟨input, balance, hsearch, hpositive, _⟩ :=
    hfound [[worthlessCoin]] worthlessState worthlessFirst hchain hfunds
  rw [getTxBalance_of_first horder (List.forall_mem_nil _)] at hsearch
  obtain ⟨_, rfl⟩ := Prod.mk.inj hsearch
  exact absurd hpositive (by decide)

end BitcoinClient
