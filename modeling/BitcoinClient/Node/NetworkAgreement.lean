import BitcoinClient.LongestChain
import BitcoinClient.Node.NetworkInvariant
import BitcoinClient.Node.OwnChain

/-! # Agreement in a network of nodes

At any moment nodes agree on the blocks that they share, with all that is below them, and
every block comes from the node that mined it. Once no message is on its way, connected nodes
store the same.
-/

namespace BitcoinClient

open Blockchain (Ancestry)

/-- The same blocks and ledger states are stored, the tips have one height, and where there is
a single highest block the longest chains are the same. -/
structure Agree (s s' : Shared) : Prop where
  blocks : s.blockchain.value.blocks = s'.blockchain.value.blocks
  states : ∀ hash, s.Holds hash → s.blockState.value.get hash = s'.blockState.value.get hash
  height : ∃ tip tip' height,
    s.blockchain.value.blocks.get s.blockchain.value.tip = some (tip, height) ∧
    s'.blockchain.value.blocks.get s'.blockchain.value.tip = some (tip', height)
  chain : (∃! hash, s.blockchain.value.Highest hash) →
    s.blockchain.value.tip = s'.blockchain.value.tip ∧
    s.blockchain.value.allBlocksInLongestChain = s'.blockchain.value.allBlocksInLongestChain

/-- A node stores the block, its worker holds it back, or it is on its way. -/
inductive NodeNetwork.Contains {n requests : Nat} (network : NodeNetwork n requests)
    (block : Block) : Prop
  | stored {who : Fin n} {hash : H256} {height : UInt32} :
      (network.memory who).blockchain.value.blocks.get hash = some (block, height) →
      Contains network block
  | held {who : Fin n} : block ∈ network.orphans who → Contains network block
  | sent {source target : Fin n} {received : List Block} :
      .blocks received ∈ network.channel source target → block ∈ received →
      Contains network block

variable {n requests : Nat} {C : Crypto} {geneLoop : Fin n → GeneLoop} {links : Links n}
  {icoKey : Ed25519KeyPair} {mined : Set Block} {mining : Mining C n} {s s' : Shared}
  {network : NodeNetwork n requests} {orphanBlocks orphanBlocks' : List Block}
  {node node' : IdleNode 1 requests} {who other : Fin n} {hash : H256}

theorem Shared.entry_eq_none (h : ¬ s.Holds hash) : s.entry hash = none := by
  cases hentry : s.entry hash with
  | none => rfl
  | some entry =>
      exact absurd (HashMap.containsKey_of_get (Shared.entry_eq_some.mp hentry).1) h

/-- Live memories with the same entries agree. -/
theorem Live.agree (h : Live .release s) (h' : Live .release s') (hentry : s.entry = s'.entry) :
    Agree s s' := by
  obtain ⟨hblocks, hstates⟩ := h.stores_eq h' hentry
  have htip' : s.blockchain.value.Highest s'.blockchain.value.tip := by
    have htip := h'.tip
    unfold Blockchain.Highest at htip ⊢
    rwa [hblocks]
  refine ⟨hblocks, hstates, ?_, ?_⟩
  · rw [← hblocks]
    exact h.tip.height_eq htip'
  · rintro ⟨highest, _, hunique⟩
    have htip : s.blockchain.value.tip = s'.blockchain.value.tip :=
      (hunique _ h.tip).trans (hunique _ htip').symm
    have hchain : s.blockchain.value = s'.blockchain.value := by
      cases hvalue : s.blockchain.value
      cases hvalue' : s'.blockchain.value
      rw [hvalue, hvalue'] at hblocks htip
      exact congr (congrArg Blockchain.mk hblocks) htip
    exact ⟨htip, congrArg Blockchain.allBlocksInLongestChain hchain⟩

namespace Participates

/-- What two nodes store under one hash is the same. -/
theorem exists_common (h : Participates C icoKey mined orphanBlocks node)
    (h' : Participates C icoKey mined orphanBlocks' node') (hfree : HashesDistinct C mined)
    (hholds : node.shared.Holds hash) (hholds' : node'.shared.Holds hash) :
    ∃ entry, MinedEntry C icoKey mined hash entry ∧ node.shared.entry hash = some entry ∧
      node'.shared.entry hash = some entry := by
  obtain ⟨entry, hentry, hmined⟩ := h.exists_entry hfree hholds
  obtain ⟨entry', hentry', hmined'⟩ := h'.exists_entry hfree hholds'
  obtain rfl := hfree.unique hmined hmined'
  exact ⟨entry, hmined, hentry, hentry'⟩

/-- Nodes that store the same hashes agree. -/
theorem agree (h : Participates C icoKey mined orphanBlocks node)
    (h' : Participates C icoKey mined orphanBlocks' node') (hfree : HashesDistinct C mined)
    (hsame : ∀ hash, node.shared.Holds hash ↔ node'.shared.Holds hash) :
    Agree node.shared node'.shared := by
  apply (h.live hfree).agree (h'.live hfree)
  funext hash
  by_cases hholds : node.shared.Holds hash
  · obtain ⟨entry, _, hentry, hentry'⟩ := h.exists_common h' hfree hholds ((hsame hash).mp hholds)
    rw [hentry, hentry']
  · have hholds' : ¬ node'.shared.Holds hash := fun hstored => hholds ((hsame hash).mpr hstored)
    rw [Shared.entry_eq_none hholds, Shared.entry_eq_none hholds']

/-- An ancestry in the tree of one node is one in that of the other, up to genesis. -/
theorem ancestry (h : Participates C icoKey mined orphanBlocks node)
    (h' : Participates C icoKey mined orphanBlocks' node')
    (hchain' : ChainInvariant C (fun _ => True) node'.shared) (hfree : HashesDistinct C mined)
    {entry : Entry} (hmined : MinedEntry C icoKey mined hash entry)
    (hholds' : node'.shared.Holds hash) {entries : List (H256 × Block)}
    (hlength : entries.length ≤ entry.height.toNat + 1)
    (hancestry : Ancestry node.shared.blockchain.value.blocks hash entries) :
    Ancestry node'.shared.blockchain.value.blocks hash entries := by
  induction hancestry generalizing entry with
  | nil => exact .nil _
  | @cons hash block height rest hget _ ih =>
      obtain ⟨entry', hmined', hentry, hentry'⟩ :=
        h.exists_common h' hfree (HashMap.containsKey_of_get hget) hholds'
      obtain rfl := hfree.unique hmined hmined'
      have hsame := (Shared.entry_eq_some.mp hentry).1
      rw [hget] at hsame
      obtain ⟨rfl, rfl⟩ := Prod.mk.inj (Option.some.inj hsame)
      refine .cons (Shared.entry_eq_some.mp hentry').1 ?_
      cases hmined with
      | start hstart =>
          have hzero := initial_height hstart
          rw [hzero] at hlength
          obtain rfl : rest = [] := List.eq_nil_of_length_eq_zero (by simpa using hlength)
          exact .nil _
      | @extend child parent _ hmem hparent hextend =>
          obtain ⟨_, _, height', _, hheight, rfl⟩ := admission_extend_eq_some.mp hextend
          refine ih hparent (h'.parent hchain' hfree hmem hholds') ?_
          have hle := addU32_toNat_le hheight
          simp only [List.length_cons, UInt32.toNat_one] at hlength hle
          omega

end Participates

/-- What an entry is about was mined, unless it is the genesis block. -/
theorem MinedEntry.block_cases {entry : Entry} (h : MinedEntry C icoKey mined hash entry) :
    entry.block = Blockchain.genesis ∨ (entry.block ∈ mined ∧ entry.block.hash C = hash) := by
  cases h with
  | start hstart =>
      have hinitial := (Shared.entry_eq_some.mp hstart).1
      obtain rfl := initial_contains.mp (HashMap.containsKey_of_get hinitial)
      simp only [Shared.initial, Blockchain.new, HashMap.get_insert_self, Option.some.injEq,
        Prod.mk.injEq] at hinitial
      exact Or.inl hinitial.1.symm
  | extend hblock _ hextend =>
      obtain ⟨_, _, _, _, _, rfl⟩ := admission_extend_eq_some.mp hextend
      exact Or.inr ⟨hblock, rfl⟩

namespace NetworkInvariant

/-! ## At any moment -/

/-- A block of the network was mined, and it is stored. -/
theorem exists_holder (h : NetworkInvariant links icoKey mining network) {block : Block}
    (hfound : network.Contains block) (hgenesis : block ≠ Blockchain.genesis) :
    block ∈ mining.all ∧ ∃ other, (network.memory other).Holds (block.hash C) := by
  cases hfound with
  | @stored other hash height hget =>
      have hholds := HashMap.containsKey_of_get hget
      obtain ⟨entry, hentry, hmined⟩ :=
        (h.participates other).exists_entry mining.hashesDistinct hholds
      have hsame := (Shared.entry_eq_some.mp hentry).1
      rw [hget] at hsame
      obtain rfl := congrArg Prod.fst (Option.some.inj hsame)
      obtain ⟨hall, rfl⟩ := hmined.block_cases.resolve_left hgenesis
      exact ⟨hall, other, hholds⟩
  | held hmem =>
      exact ⟨((h.participates _).orphans block hmem).mem, h.found _ block hmem⟩
  | sent hsent hmem =>
      obtain ⟨hoffered, hholds⟩ := h.justified _ _ _ hsent block hmem
      exact ⟨hoffered.mem, _, hholds⟩

/-- The node that mined a block of the network stores it. -/
theorem exists_miner (h : NetworkInvariant links icoKey mining network) {block : Block}
    (hfound : network.Contains block) (hgenesis : block ≠ Blockchain.genesis) :
    ∃ who height, block ∈ mining.blocks who ∧
      (network.memory who).blockchain.value.blocks.get (block.hash C) = some (block, height) := by
  obtain ⟨⟨who, hblock⟩, other, hholds⟩ := h.exists_holder hfound hgenesis
  have hstored := h.origin who block hblock other hholds
  obtain ⟨entry, hentry, hmined⟩ :=
    (h.participates who).exists_entry mining.hashesDistinct hstored
  obtain ⟨rfl, _⟩ := mining.hashesDistinct.entry_cases ⟨who, hblock⟩ hmined
  exact ⟨who, entry.height, hblock, (Shared.entry_eq_some.mp hentry).1⟩

/-! ## When no message is on its way -/

theorem not_arrives (hquiet : network.Quiet) : ¬ network.Arrives C who hash := by
  intro harrives
  obtain ⟨_, htransit⟩ := harrives.exists_transit
  have hempty : ∀ {source target : Fin n} {message : Message},
      message ∉ network.channel source target := by
    intro source target message hmem
    rw [hquiet source target] at hmem
    cases hmem
  cases htransit with
  | announced hmem _ => exact hempty hmem
  | requested hmem _ => exact hempty hmem
  | delivered hmem _ _ => exact hempty hmem

/-- No block waits for another one. -/
theorem orphans_eq_nil (h : NetworkInvariant links icoKey mining network)
    (hquiet : network.Quiet) : network.orphans who = [] :=
  List.eq_nil_iff_forall_not_mem.mpr fun block hmem =>
    not_arrives hquiet (h.awaited who block hmem)

/-- What a node stores is stored by every node that it is connected with. -/
theorem holds_of_path (h : NetworkInvariant links icoKey mining network) (hquiet : network.Quiet)
    (hpath : Relation.ReflTransGen (fun i j => links.linked i j = true) who other)
    (hholds : (network.memory who).Holds hash) : (network.memory other).Holds hash := by
  induction hpath with
  | refl => exact hholds
  | tail _ hlinked ih =>
      exact (h.reaches _ _ hlinked hash ih).resolve_right (not_arrives hquiet)

theorem agree_of_quiet (h : NetworkInvariant links icoKey mining network) (hquiet : network.Quiet)
    (hpath : Relation.ReflTransGen (fun i j => links.linked i j = true) who other) :
    Agree (network.memory who) (network.memory other) := by
  have hback : Relation.ReflTransGen (fun i j => links.linked i j = true) other who :=
    Relation.ReflTransGen.mono (fun i j => links.symm j i) _ _ hpath.swap
  exact (h.participates who).agree (h.participates other) mining.hashesDistinct fun _ =>
    ⟨h.holds_of_path hquiet hpath, h.holds_of_path hquiet hback⟩

end NetworkInvariant

/-! ## Every run -/

/-- The first block that a miner makes of an empty mempool. -/
def firstBlock : Block :=
  ⟨⟨Blockchain.genesis.hash .sample, 1, Blockchain.genesisDifficulty, 0, .hex 0⟩, ⟨[]⟩⟩

def pairLinks : Links 2 where
  linked i j := decide (i ≠ j)
  symm := by decide

/-- The first of two nodes mines the block. -/
def firstMining : Mining .sample 2 where
  blocks who := {block | who = 0 ∧ block = firstBlock}
  distinct := by
    rintro _ _ _ ⟨rfl, rfl⟩ _ ⟨rfl, rfl⟩ _
    exact ⟨rfl, rfl⟩
  genesis := by
    rintro _ _ ⟨rfl, rfl⟩
    decide +kernel

instance (s : Shared) (hash : H256) : Decidable (s.Holds hash) :=
  inferInstanceAs (Decidable (_ = true))

instance (network : NodeNetwork 2 1) : Decidable (network.MinesIn firstMining) :=
  inferInstanceAs (Decidable (∀ who : Fin 2,
    ∀ block ∈ (network.state who).shared.finishedBlockChan, who = 0 ∧ block = firstBlock))

/-- The states of the pair. -/
abbrev PairReachable : NodeNetwork 2 1 → Prop :=
  NodeNetwork.Reachable .release (fun _ => sampleGeneLoop) pairLinks Crypto.sampleKey firstMining

/-- The first node mines the block and announces it, and then messages are delivered. -/
noncomputable def pairRun (deliveries : List (Fin 2 × Fin 2)) : Option (NodeNetwork 2 1) :=
  Transition.run (fun network => network.next
      (nodeProtocol .sample .release (fun _ => sampleGeneLoop) pairLinks))
    (fun network _ => network.MinesIn firstMining) (.start .sample Crypto.sampleKey 2 1)
    ([.act 0 (.api 0, .request (.minerStart 0)), .act 0 (.miner, .mine 0 0 emptyIteration),
      .act 0 (.miner, .mine 1 0 emptyIteration), .act 0 (.minerWorker, .go)] ++
      deliveries.map fun delivery => .deliver delivery.1 delivery.2 0)

theorem exists_pairReachable {deliveries : List (Fin 2 × Fin 2)}
    {check : NodeNetwork 2 1 → Bool} (hrun : (pairRun deliveries).any check = true) :
    ∃ network, PairReachable network ∧ check network = true :=
  Transition.exists_reachable _ _ _ _ check hrun

/-- Two nodes that store a hash store the same block, height, ledger state and ancestry for it,
whatever is still on its way. -/
theorem commonBlocks_agree (C : Crypto) (n requests : Nat) (geneLoop : Fin n → GeneLoop)
    (links : Links n) (icoKey : Ed25519KeyPair) (mining : Mining C n)
    (network : NodeNetwork n requests)
    (hreach : network.Reachable .release geneLoop links icoKey mining) (who other : Fin n)
    (hash : H256) (hwho : (network.memory who).Holds hash)
    (hother : (network.memory other).Holds hash) :
    ∃ block height state,
      (network.memory who).blockchain.value.blocks.get hash = some (block, height) ∧
      (network.memory other).blockchain.value.blocks.get hash = some (block, height) ∧
      (network.memory who).blockState.value.get hash = some state ∧
      (network.memory other).blockState.value.get hash = some state ∧
      ∀ entries : List (H256 × Block), entries.length ≤ height.toNat + 1 →
        (Ancestry (network.memory who).blockchain.value.blocks hash entries ↔
          Ancestry (network.memory other).blockchain.value.blocks hash entries) := by
  have hinv := networkInvariant_of_reachable hreach
  have hfree := mining.hashesDistinct
  obtain ⟨entry, hmined, hentry, hentry'⟩ :=
    (hinv.participates who).exists_common (hinv.participates other) hfree hwho hother
  obtain ⟨hget, hstate⟩ := Shared.entry_eq_some.mp hentry
  obtain ⟨hget', hstate'⟩ := Shared.entry_eq_some.mp hentry'
  refine ⟨entry.block, entry.height, entry.state, hget, hget', hstate, hstate',
    fun entries hlength => ⟨?_, ?_⟩⟩
  · exact (hinv.participates who).ancestry (hinv.participates other) (node_keeps hreach other).1
      hfree hmined hother hlength
  · exact (hinv.participates other).ancestry (hinv.participates who) (node_keeps hreach who).1
      hfree hmined hwho hlength

/-- The second node has stored the block, and its announcement is on the way back. -/
theorem commonBlocks_agree_firstBlock : ∃ network : NodeNetwork 2 1,
    network.channel 1 0 ≠ [] ∧ ∃ state,
      (network.memory 0).blockState.value.get (firstBlock.hash .sample) = some state ∧
      (network.memory 1).blockState.value.get (firstBlock.hash .sample) = some state := by
  have hrun : (pairRun [(0, 1), (1, 0), (0, 1)]).any (fun network =>
      decide (∀ who, (network.memory who).Holds (firstBlock.hash .sample)) &&
        !(network.channel 1 0).isEmpty) = true := by
    decide +kernel
  obtain ⟨network, hreach, hcheck⟩ := exists_pairReachable hrun
  obtain ⟨hholds, hmoving⟩ := Bool.and_eq_true_iff.mp hcheck
  obtain ⟨_, _, state, _, _, hstate, hstate', _⟩ := commonBlocks_agree .sample 2 1
    (fun _ => sampleGeneLoop) pairLinks Crypto.sampleKey firstMining network hreach 0 1
    (firstBlock.hash .sample) (of_decide_eq_true hholds 0) (of_decide_eq_true hholds 1)
  exact ⟨network, by simpa using hmoving, state, hstate, hstate'⟩

/-- Every block of the network, apart from the genesis block, was mined by one of the nodes, which
stores it. -/
theorem blocks_originate (C : Crypto) (n requests : Nat) (geneLoop : Fin n → GeneLoop)
    (links : Links n) (icoKey : Ed25519KeyPair) (mining : Mining C n)
    (network : NodeNetwork n requests)
    (hreach : network.Reachable .release geneLoop links icoKey mining) (block : Block)
    (hfound : network.Contains block) (hgenesis : block ≠ Blockchain.genesis) :
    ∃ who height, block ∈ mining.blocks who ∧
      (network.memory who).blockchain.value.blocks.get (block.hash C) = some (block, height) :=
  (networkInvariant_of_reachable hreach).exists_miner hfound hgenesis

theorem blocks_originate_firstBlock : ∃ (network : NodeNetwork 2 1) (who : Fin 2),
    firstBlock ∈ firstMining.blocks who ∧
      (network.memory who).Holds (firstBlock.hash .sample) := by
  have hrun : (pairRun [(0, 1), (1, 0), (0, 1)]).any (fun network =>
      decide ((network.memory 1).blockchain.value.blocks.get (firstBlock.hash .sample) =
        some (firstBlock, 1))) = true := by
    decide +kernel
  obtain ⟨network, hreach, hcheck⟩ := exists_pairReachable hrun
  obtain ⟨who, height, hmined, hget⟩ := blocks_originate .sample 2 1 (fun _ => sampleGeneLoop)
    pairLinks Crypto.sampleKey firstMining network hreach firstBlock
    (.stored (of_decide_eq_true hcheck)) (by decide +kernel)
  exact ⟨network, who, hmined, HashMap.containsKey_of_get hget⟩

/-- When no message is on its way, the workers hold no block back and connected nodes agree. -/
theorem quietNetwork_agrees (C : Crypto) (n requests : Nat) (geneLoop : Fin n → GeneLoop)
    (links : Links n) (icoKey : Ed25519KeyPair) (mining : Mining C n)
    (network : NodeNetwork n requests)
    (hreach : network.Reachable .release geneLoop links icoKey mining) (hquiet : network.Quiet)
    (who other : Fin n)
    (hpath : Relation.ReflTransGen (fun i j => links.linked i j = true) who other) :
    (network.state who).threads (.network 0) = .ok (.network []) ∧
      Agree (network.memory who) (network.memory other) := by
  have hinv := networkInvariant_of_reachable hreach
  refine ⟨?_, hinv.agree_of_quiet hquiet hpath⟩
  rw [← hinv.orphans_eq_nil hquiet]
  exact (hinv.participates who).worker

theorem quietNetwork_agrees_firstBlock : ∃ network : NodeNetwork 2 1,
    (network.memory 1).Holds (firstBlock.hash .sample) ∧
      Agree (network.memory 0) (network.memory 1) := by
  have hrun : (pairRun [(0, 1), (1, 0), (0, 1), (1, 0)]).any (fun network =>
      decide ((network.memory 1).Holds (firstBlock.hash .sample)) &&
        decide (∀ source target, (network.channel source target).isEmpty = true)) = true := by
    decide +kernel
  obtain ⟨network, hreach, hcheck⟩ := exists_pairReachable hrun
  obtain ⟨hholds, hquiet⟩ := Bool.and_eq_true_iff.mp hcheck
  have hagrees := quietNetwork_agrees .sample 2 1 (fun _ => sampleGeneLoop) pairLinks
    Crypto.sampleKey firstMining network hreach
    (fun source target => List.isEmpty_iff.mp (of_decide_eq_true hquiet source target)) 0 1
    (.single rfl)
  exact ⟨network, of_decide_eq_true hholds, hagrees.2⟩

end BitcoinClient
