import BitcoinClient.Node.ForkedCoins
import BitcoinClient.Node.GeneratorLog

/-! # The generator does not double-spend

When the tip moves, the generator forgets what it has generated and may spend the same coin
again. The value of a coin is the same on all forks, and the generator spends one coin with
outputs that the value determines, so that it generates the same transaction again
(`generated_consistent`).
-/

namespace BitcoinClient

section Definitions

variable (C : Crypto) (geneLoop : GeneLoop) (icoKey : Ed25519KeyPair)
  (txs : Set SignedTransaction)

/-- The coins of the local state, and those that were spent, come from the set. -/
structure KnownCoins (all : List SignedTransaction) (state : State) : Prop where
  state : state.OriginatesFrom C icoKey txs
  spent : ∀ st ∈ all, ∃ before : State, before.OriginatesFrom C icoKey txs ∧
    geneLoop.Spends C before st

/-- What a thread knows between two rounds, as long as the generated transactions are in the
set. -/
def knownLoop : Task × GeneratorLog → Shared → Prop
  | (.generator generator, log), _ => (∀ st ∈ log.all, st ∈ txs) →
      KnownCoins C geneLoop icoKey txs log.all generator.state
  | (task, _), s => coinLoop txs task s

end Definitions

variable {C : Crypto} {build : Build} {geneLoop : GeneLoop} {icoKey : Ed25519KeyPair}
  {txs : Set SignedTransaction} {s : Shared}

/-- One more generated transaction. -/
theorem KnownCoins.add {log : GeneratorLog} {state : State}
    (iteration : HashMap.Iteration (H256 × UInt8) (UInt32 × Address))
    (h : (∀ st ∈ log.all, st ∈ txs) → KnownCoins C geneLoop icoKey txs log.all state)
    (hlog : ∀ st ∈ (log.add (geneLoop.generated C iteration state)).all, st ∈ txs) :
    KnownCoins C geneLoop icoKey txs (log.add (geneLoop.generated C iteration state)).all
      ((geneLoop.generated C iteration state).foldl (State.execute C) state) := by
  obtain ⟨hold, hnew⟩ := List.forall_mem_append.mp hlog
  have hknown := h hold
  rcases geneLoop.generated_cases iteration state with hnone | ⟨st, hst, hspends⟩
  · have hall : (log.add []).all = log.all := List.append_nil _
    rw [hnone, hall]
    exact hknown
  · rw [hst] at hnew ⊢
    refine ⟨hknown.state.execute (hnew st (List.mem_singleton_self st)), ?_⟩
    refine List.forall_mem_append.mpr ⟨hknown.spent, ?_⟩
    exact List.forall_mem_singleton.mpr ⟨state, hknown.state, hspends⟩

/-- The generator starts over from a state in `block_state`. -/
theorem readBlockState_knownMeets {α : Type} {hash : H256} {next : State → NodeProgram α}
    {post : α → Shared → Prop}
    (hnext : ∀ state s, state.OriginatesFrom C icoKey txs →
      NodeProgram.CoinMeets C build icoKey txs post (next state) s) :
    NodeProgram.CoinMeets C build icoKey txs post (NodeProgram.call (.readBlockState hash) >>= next)
      s := by
  refine Program.meets_call fun s' _ hinv => ⟨trivial, fun _ => ?_⟩
  simp only [Op.action, wp_readBlockState]
  refine ⟨fun _ => trivial, fun _ => ?_⟩
  cases hstate : s'.blockState.value.get hash with
  | none => trivial
  | some state => exact fun _ => hnext state s' (hinv.1 hash state hstate)

theorem refresh_knownMeets {log : GeneratorLog} (before generator : Generator)
    (h : (∀ st ∈ log.all, st ∈ txs) →
      KnownCoins C geneLoop icoKey txs log.all generator.state) :
    NodeProgram.CoinMeets C build icoKey txs
      (fun refreshed _ => (∀ st ∈ (log.refresh before refreshed).all, st ∈ txs) →
        KnownCoins C geneLoop icoKey txs (log.refresh before refreshed).all refreshed.state)
      (GeneLoop.refresh generator) s := by
  have hall : ∀ refreshed, (log.refresh before refreshed).all = log.all := by
    intro refreshed
    unfold GeneratorLog.refresh
    by_cases hsame : refreshed.prevTip = before.prevTip
    · rw [if_pos hsame]
    · rw [if_neg hsame]
  simp only [hall]
  refine coin_call rfl fun tip s' => ?_
  by_cases htip : generator.prevTip = tip
  · rw [if_pos htip]
    exact h
  · rw [if_neg htip]
    exact readBlockState_knownMeets fun state s hstate hlog => ⟨hstate, (h hlog).spent⟩

/-- An iteration of the generator. -/
theorem roundLogged_knownMeets {generator : Generator} {log : GeneratorLog}
    (h : (∀ st ∈ log.all, st ∈ txs) → KnownCoins C geneLoop icoKey txs log.all generator.state)
    (iteration : HashMap.Iteration (H256 × UInt8) (UInt32 × Address)) :
    NodeProgram.CoinMeets C build icoKey txs
      (fun next _ => ∀ result ∈ next, (∀ st ∈ result.2.all, st ∈ txs) →
        KnownCoins C geneLoop icoKey txs result.2.all result.1.state)
      (geneLoop.roundLogged C generator log iteration) s := by
  obtain ⟨operatingState, prevTip, state⟩ := generator
  cases operatingState with
  | paused =>
      refine coin_call rfl fun signal s' result hresult => ?_
      obtain rfl := Option.some.inj hresult
      exact h
  | shutDown => exact fun result hresult => (Option.some_ne_none result hresult.symm).elim
  | run interval =>
      refine coin_call rfl fun signal s' => ?_
      by_cases hshutDown : signal.elim (OperatingState.run interval)
          (OperatingState.run interval).react = .shutDown
      · rw [if_pos hshutDown]
        exact fun result hresult => (Option.some_ne_none result hresult.symm).elim
      · rw [if_neg hshutDown, NodeProgram.CoinMeets, Program.meets_bind]
        refine (refresh_knownMeets ⟨.run interval, prevTip, state⟩
          ⟨signal.elim (.run interval) (OperatingState.run interval).react, prevTip, state⟩
          h).mono fun refreshed s'' hrefreshed => ?_
        rw [Program.meets_bind]
        refine (geneLoop.generate_result refreshed iteration).meets ?_ ?_
        · intro op hfree s
          cases op with
          | writeBlockState hash state => cases hfree
          | _ => trivial
        · intro next s hnext result hresult
          obtain rfl := Option.some.inj hresult
          dsimp only
          rw [hnext]
          exact KnownCoins.add iteration hrefreshed

/-- Every round of every thread meets the contract about coins. -/
theorem loggedBody_knownMeets {task : Task × GeneratorLog} {choice : Choice}
    {program : NodeProgram (Task × GeneratorLog)}
    (hdelivered : ∀ block ∈ choice.blocks, block.Uses txs)
    (hloop : knownLoop C geneLoop icoKey txs task s)
    (hbody : loggedBody C build geneLoop task choice = some program) :
    NodeProgram.CoinMeets C build icoKey txs (knownLoop C geneLoop icoKey txs) program s := by
  obtain ⟨task, log⟩ := task
  by_cases htask : task.offGenerator = true
  · rw [loggedBody_offGenerator htask] at hbody
    obtain ⟨plain, hplain, rfl⟩ := Option.map_eq_some_iff.mp hbody
    rw [NodeProgram.CoinMeets, Program.meets_bind]
    have hcoins : coinLoop txs task s := by
      cases task with
      | generator generator => cases htask
      | _ => exact hloop
    refine ((nodeBody_coinMeets hdelivered hcoins hplain).and_all
      (nodeBody_offGenerator htask hplain)).mono fun task s' htask => ?_
    cases task with
    | generator generator => cases htask.2
    | _ => exact htask.1
  cases task with
  | generatorStart =>
      cases choice with
      | go =>
          obtain rfl := Option.some.inj hbody
          refine coin_call rfl fun tip s' => readBlockState_knownMeets fun state s hstate _ => ?_
          exact ⟨hstate, List.forall_mem_nil _⟩
      | _ => cases hbody
  | generator generator =>
      cases choice with
      | generate iteration =>
          obtain rfl := Option.some.inj hbody
          rw [NodeProgram.CoinMeets, Program.meets_bind]
          refine (roundLogged_knownMeets hloop iteration).mono fun next s' hnext => ?_
          cases next with
          | none => trivial
          | some result => exact hnext result rfl
      | _ => cases hbody
  | _ => exact absurd rfl htask

/-- What the generator has spent. -/
theorem generator_knownCoins {workers requests : Nat} {node : LoggedNode workers requests}
    (hreach : (loggedMachine C build geneLoop).Reachable
      (fun (node : LoggedNode workers requests) => BringsIn txs node.node)
      (LoggedNode.start (Shared.initial C icoKey) workers requests) node)
    {generator : Generator} {log : GeneratorLog}
    (hgenerator : node.generator = some (generator, log)) (hlog : ∀ st ∈ log.all, st ∈ txs) :
    KnownCoins C geneLoop icoKey txs log.all generator.state := by
  have hmeets := (Program.Reachable.meets (coinContract C icoKey txs) (fun _ => True)
    (knownLoop C geneLoop icoKey txs) (fun _ _ => trivial) (fun _ _ _ _ _ _ => trivial)
    ?_ ?_ ?_ ?_ hreach).2 .generator
  · rw [LoggedNode.generator_eq_some.mp hgenerator] at hmeets
    exact hmeets hlog
  · refine ⟨coin_initial, fun who => ⟨_, rfl, ?_⟩⟩
    cases who <;> simp [Task.start, knownLoop, coinLoop]
  · rintro ⟨task, log⟩ s s' _ _ _ hloop
    cases task <;> exact hloop
  · intro node who choice task program hguard _ _ hloop hbody
    exact loggedBody_knownMeets hguard.1 hloop hbody
  · intro node who choice op next hguard hthread hinv hpre
    have hallowed : (coinContract C icoKey txs).allowed op node.shared := by
      cases op with
      | finishBlock block =>
          apply hguard.2
          apply Node.finishing_eq_some.mpr
          have herased : (LoggedNode.node node).threads who =
              (node.threads who).map fun program => Prod.fst <$> program := rfl
          rw [herased, hthread]
          rfl
      | _ => trivial
    refine ⟨hallowed, Effect.wp_mono (coin_op op hinv hpre hallowed) ?_ ?_⟩
    · exact fun _ _ h => ⟨h, fun _ _ => trivial⟩
    · exact fun _ _ h => ⟨trivial, h, fun _ _ => trivial⟩

/-- Two transactions of the generator with a common input are the same one, whatever the tips
were between them. -/
theorem generated_consistent (C : Crypto) (build : Build) (geneLoop : GeneLoop)
    (icoKey : Ed25519KeyPair) (workers requests : Nat) (txs : Set SignedTransaction)
    (hfree : CollisionFree C txs) (hzero : AvoidsZeroHash C txs)
    (node : LoggedNode workers requests)
    (hreach : (loggedMachine C build geneLoop).Reachable
      (fun (node : LoggedNode workers requests) => BringsIn txs node.node)
      (LoggedNode.start (Shared.initial C icoKey) workers requests) node)
    (generator : Generator) (log : GeneratorLog)
    (hgenerator : node.generator = some (generator, log)) (hlog : ∀ st ∈ log.all, st ∈ txs)
    (first second : SignedTransaction) (hfirst : first ∈ log.all) (hsecond : second ∈ log.all)
    (input : Input) (hinput : input ∈ first.transaction.input)
    (hinput' : input ∈ second.transaction.input) : first = second := by
  have hknown := generator_knownCoins hreach hgenerator hlog
  obtain ⟨before, horigin, spent, value, hcoin, _, rfl⟩ := hknown.spent first hfirst
  obtain ⟨before', horigin', spent', value', hcoin', _, rfl⟩ := hknown.spent second hsecond
  obtain rfl := List.mem_singleton.mp hinput
  obtain rfl := List.mem_singleton.mp hinput'
  have hsame := horigin.coherent hfree hzero horigin' hcoin hcoin'
  rw [(Prod.mk.inj hsame).1]

/-- The transaction that the generator makes of the initial coin. -/
def spendInitialCoin : SignedTransaction :=
  sampleGeneLoop.newSignedTransaction .sample [⟨.hex 0, 0⟩] 100

/-- A new tip on which the initial coin is still there. -/
noncomputable def generateAgain : List (ThreadId 1 1 × Choice) :=
  generateFirst ++ (.network 0, .deliver 0 (.blocks [uncommittedBlock])) ::
    List.replicate 7 (.network 0, .go) ++
    List.replicate 6 (.generator, .generate initialIteration)

theorem generated_consistent_spendInitialCoin :
    ∃ (node : LoggedNode 1 1) (generator : Generator) (log : GeneratorLog),
      node.generator = some (generator, log) ∧ log.all = [spendInitialCoin, spendInitialCoin] ∧
      ∀ first ∈ log.all, ∀ second ∈ log.all, ∀ input ∈ first.transaction.input,
        input ∈ second.transaction.input → first = second := by
  have hrun : ((loggedMachine .sample .release sampleGeneLoop).run
      (fun (node : LoggedNode 1 1) who choice => decide (
        (∀ block ∈ choice.blocks, block.cont.st = []) ∧
          ∀ block ∈ node.node.finishing who, block.cont.st = []))
      (LoggedNode.start (Shared.initial .sample Crypto.sampleKey) 1 1) generateAgain).any
        (fun node : LoggedNode 1 1 => node.generator.any fun result =>
          decide (result.2.all = [spendInitialCoin, spendInitialCoin])) = true := by
    decide +kernel
  have hguard : ∀ (node : LoggedNode 1 1) who choice,
      ((∀ block ∈ choice.blocks, block.cont.st = []) ∧
        ∀ block ∈ node.node.finishing who, block.cont.st = []) →
      BringsIn {spendInitialCoin} node.node who choice := by
    intro node who choice hempty
    refine ⟨fun block hmem st hst => ?_, fun block hmem st hst => ?_⟩
    · rw [hempty.1 block hmem] at hst
      cases hst
    · rw [hempty.2 block hmem] at hst
      cases hst
  obtain ⟨node, hreach, hcheck⟩ := Machine.exists_reachable
    (fun node who choice hallowed => hguard node who choice (of_decide_eq_true hallowed)) hrun
  obtain ⟨⟨generator, log⟩, hgenerator, hall⟩ := (Option.any_eq_true _ _).mp hcheck
  have hlog : ∀ st ∈ log.all, st ∈ ({spendInitialCoin} : Set SignedTransaction) := by
    rw [of_decide_eq_true hall]
    simp
  have hfree : CollisionFree .sample {spendInitialCoin} := Set.injOn_singleton _ _
  have hzero : AvoidsZeroHash .sample {spendInitialCoin} := by
    rintro st rfl
    decide +kernel
  refine ⟨node, generator, log, hgenerator, of_decide_eq_true hall, ?_⟩
  intro first hfirst second hsecond input hinput hinput'
  exact generated_consistent .sample .release sampleGeneLoop Crypto.sampleKey 1 1
    {spendInitialCoin} hfree hzero node hreach generator log hgenerator hlog first second hfirst
    hsecond input hinput hinput'

end BitcoinClient
