import BitcoinClient.Node.NetworkAgreement
import BitcoinClient.Node.NetworkSupply

/-! # What the ledger states of a network stand for

A ledger state is stored next to a block, and nothing in it names the blocks that it comes from.
Still it is what the transactions of all blocks from the genesis block up to that block make of
the initial coin. The generators only make transactions that spend a coin, so that none is found
twice below a block, and no two there spend the same coin.
-/

namespace BitcoinClient

open Blockchain (Ancestry)

variable {n requests : Nat} {C : Crypto} {build : Build} {geneLoop : Fin n → GeneLoop}
  {links : Links n} {icoKey : Ed25519KeyPair} {mining : Mining C n} {mined : Set Block}
  {network : NodeNetwork n requests} {orphanBlocks : List Block} {node : IdleNode 1 requests}

/-- The transactions of blocks that are listed from the newest to the oldest, in the order of
their execution. -/
def chainTransactions (entries : List (H256 × Block)) : List SignedTransaction :=
  entries.reverse.flatMap fun entry => entry.2.cont.st

/-- Nothing but the genesis block is stored in the beginning. -/
theorem initial_entry {hash : H256} {entry : Entry}
    (h : (Shared.initial C icoKey).entry hash = some entry) :
    hash = Blockchain.genesis.hash C ∧ entry = ⟨Blockchain.genesis, 0, State.new C icoKey⟩ := by
  obtain ⟨hblock, hstate⟩ := Shared.entry_eq_some.mp h
  obtain rfl := initial_contains.mp (HashMap.containsKey_of_get hblock)
  simp only [Shared.initial, Blockchain.new, HashMap.get_insert_self, Option.some.injEq,
    Prod.mk.injEq] at hblock hstate
  obtain ⟨block, height, state⟩ := entry
  exact ⟨rfl, by rw [hblock.1, hblock.2, hstate]⟩

/-- The ancestry of a stored block leads to the genesis block, and its execution to the state that
is stored for the block. -/
theorem Participates.exists_replay (h : Participates C icoKey mined orphanBlocks node)
    (hchain : ChainInvariant C (fun _ => True) node.shared) (hfree : HashesDistinct C mined)
    {hash : H256} {entry : Entry} (hmined : MinedEntry C icoKey mined hash entry)
    (hentry : node.shared.entry hash = some entry) :
    ∃ entries, Ancestry node.shared.blockchain.value.blocks hash entries ∧
      entries.getLast? = some (Blockchain.genesis.hash C, Blockchain.genesis) ∧
      entry.height = .ofNat (entries.length - 1) ∧
      checkTxs C .release (State.new C icoKey) (chainTransactions entries) = .ok entry.state := by
  have hget := (Shared.entry_eq_some.mp hentry).1
  induction hmined with
  | start hstart =>
      obtain ⟨rfl, rfl⟩ := initial_entry hstart
      exact ⟨[_], .cons hget (.nil _), rfl, rfl, rfl⟩
  | @extend block parent next hblock hparent hextend ih =>
      obtain ⟨_, state, height, hcheck, hheight, rfl⟩ := admission_extend_eq_some.mp hextend
      -- The parent is stored with the entry that it was derived with.
      have hstored := h.parent hchain hfree hblock (HashMap.containsKey_of_get hget)
      obtain ⟨entry', hentry', hmined'⟩ := h.exists_entry hfree hstored
      obtain rfl := hfree.unique hmined' hparent
      obtain ⟨entries, hancestry, hlast, hlength, hreplay⟩ :=
        ih hentry' (Shared.entry_eq_some.mp hentry').1
      have hne : entries ≠ [] := by
        rintro rfl
        cases hlast
      refine ⟨(block.hash C, block) :: entries, .cons hget hancestry, ?_, ?_, ?_⟩
      · rw [List.getLast?_cons_of_ne_nil hne, hlast]
      · have hsum : entry'.height + 1 = height := Option.some.inj hheight
        rw [← hsum, hlength, List.length_cons, Nat.add_sub_cancel]
        calc UInt32.ofNat (entries.length - 1) + 1
            = .ofNat (entries.length - 1 + 1) := (UInt32.ofNat_add _ _).symm
          _ = .ofNat entries.length := by rw [Nat.sub_add_cancel (List.length_pos_of_ne_nil hne)]
      · have hsplit : chainTransactions ((block.hash C, block) :: entries) =
            chainTransactions entries ++ block.cont.st := by
          simp [chainTransactions]
        rw [hsplit]
        exact checkTxs_append hreplay hcheck

/-! ## Every run -/

/-- In every tree of every node the walk from a stored block leads to the genesis block, and the
ledger state stored for the block is what the transactions on the way make of the initial coin, in
their order. None of them is there twice, and no two share an input, unless two transactions on
the way have one hash. -/
theorem networkLedgers_replay (C : Crypto) (n requests : Nat) (geneLoop : Fin n → GeneLoop)
    (links : Links n) (icoKey : Ed25519KeyPair) (mining : Mining C n)
    (network : NodeNetwork n requests)
    (hreach : network.Reachable .release geneLoop links icoKey mining) (who : Fin n) (hash : H256)
    (block : Block) (height : UInt32)
    (hget : (network.memory who).blockchain.value.blocks.get hash = some (block, height)) :
    ∃ entries state, Ancestry (network.memory who).blockchain.value.blocks hash entries ∧
      entries.getLast? = some (Blockchain.genesis.hash C, Blockchain.genesis) ∧
      height = .ofNat (entries.length - 1) ∧
      (network.memory who).blockState.value.get hash = some state ∧
      checkTxs C .release (State.new C icoKey) (chainTransactions entries) = .ok state ∧
      (CollisionFree C {st | st ∈ chainTransactions entries} →
        AvoidsZeroHash C {st | st ∈ chainTransactions entries} →
        NoReplay (chainTransactions entries)) := by
  have hinv := networkInvariant_of_reachable hreach
  have hparticipates := hinv.participates who
  obtain ⟨entry, hentry, hmined⟩ := hparticipates.exists_entry mining.hashesDistinct
    (HashMap.containsKey_of_get hget)
  obtain ⟨entries, hancestry, hlast, hheight, hreplay⟩ := hparticipates.exists_replay
    (node_keeps hreach who).1 mining.hashesDistinct hmined hentry
  obtain ⟨hget', hstate⟩ := Shared.entry_eq_some.mp hentry
  obtain ⟨_, rfl⟩ := Prod.mk.inj (Option.some.inj (hget.symm.trans hget'))
  refine ⟨entries, entry.state, hancestry, hlast, hheight, hstate, hreplay, fun hfree hzero => ?_⟩
  refine checkTxs_noReplay hfree (fun st hst => ?_) hzero hreplay
  obtain ⟨⟨other, ancestor⟩, hmem, hcontent⟩ := List.mem_flatMap.mp hst
  obtain ⟨_, hstored⟩ := hancestry.stored _ (List.mem_reverse.mp hmem)
  have hmemory := ((conforms_generated hreach).nodes who).memory
  exact (hmemory.blocks other _ hstored st hcontent).2.input_ne_nil

/-- The walk goes on with the stored block. -/
theorem exists_rest {blocks : HashMap H256 (Block × UInt32)} {hash : H256} {block : Block}
    {height : UInt32} {entries : List (H256 × Block)} (h : Ancestry blocks hash entries)
    (hget : blocks.get hash = some (block, height)) (hne : entries ≠ []) :
    ∃ rest, entries = (hash, block) :: rest ∧ Ancestry blocks block.head.parent rest := by
  cases h with
  | nil => exact absurd rfl hne
  | cons hget' hrest =>
      obtain ⟨rfl, rfl⟩ := Prod.mk.inj (Option.some.inj (hget.symm.trans hget'))
      exact ⟨_, rfl, hrest⟩

/-- The second node has stored both blocks, and the second transaction spends a coin of the
first one. -/
theorem networkLedgers_replay_generatedBlock : ∃ (network : NodeNetwork 2 1) (state : State),
    (network.memory 1).blockState.value.get ((generatedBlock 1).hash .sample) = some state ∧
      checkTxs .sample .release (State.new .sample configuredKey)
        [firstGenerated, secondGenerated] = .ok state ∧
      NoReplay [firstGenerated, secondGenerated] := by
  have hrun : (configuredRun (fun network _ => network.MinesIn generatedMining)
      (sharedCoin ++ mineOn 1 secondGenerated)).any (fun network => decide (
        (network.memory 1).blockchain.value.blocks.get ((generatedBlock 1).hash .sample) =
          some (generatedBlock 1, 2) ∧
        (network.memory 1).blockchain.value.blocks.get ((generatedBlock 0).hash .sample) =
          some (generatedBlock 0, 1) ∧
        (network.memory 1).blockchain.value.blocks.get (Blockchain.genesis.hash .sample) =
          some (Blockchain.genesis, 0) ∧
        (network.memory 1).blockchain.value.blocks.get (.hex 0) = none)) = true := by
    decide +kernel
  obtain ⟨network, hreach, hcheck⟩ := Transition.exists_reachable _ _ _ _ _ hrun
  obtain ⟨hsecond, hfirst, hgenesis, hnone⟩ := of_decide_eq_true hcheck
  obtain ⟨entries, state, hancestry, hlast, _, hstate, hreplay, hdistinct⟩ := networkLedgers_replay
    .sample 2 1 configuredGeneLoop pairLinks configuredKey generatedMining network hreach 1 _ _ _
    hsecond
  -- The walk is over both blocks and the genesis block.
  have hwalk : entries = [((generatedBlock 1).hash .sample, generatedBlock 1),
      ((generatedBlock 0).hash .sample, generatedBlock 0),
      (Blockchain.genesis.hash .sample, Blockchain.genesis)] := by
    have hends : ∀ block : Block, block ≠ Blockchain.genesis →
        (Blockchain.genesis.hash .sample, Blockchain.genesis) ≠ (block.hash .sample, block) :=
      fun block hne heq => hne (congrArg Prod.snd heq).symm
    obtain ⟨older, rfl, holder⟩ := exists_rest hancestry hsecond (by rintro rfl; cases hlast)
    obtain ⟨oldest, rfl, holdest⟩ := exists_rest holder hfirst (by
      rintro rfl
      exact hends _ (by decide +kernel) (Option.some.inj hlast).symm)
    obtain ⟨rest, rfl, hrest⟩ := exists_rest holdest hgenesis (by
      rintro rfl
      exact hends _ (by decide +kernel) (Option.some.inj hlast).symm)
    cases hrest with
    | nil => rfl
    | cons hget _ => cases hnone.symm.trans hget
  subst hwalk
  exact ⟨network, state, hstate, hreplay, hdistinct generated_collisionFree
    generated_avoidsZeroHash⟩

end BitcoinClient
