import BitcoinClient.Node.NetworkAgreement

/-! # What never happens in a network

No thread of a node stops with a panic, and no lock gets poisoned. What a node stores stays as
it is, and its chain gets no shorter.
-/

namespace BitcoinClient

variable {n requests : Nat} {C : Crypto} {geneLoop : Fin n → GeneLoop} {links : Links n}
  {icoKey : Ed25519KeyPair} {mining : Mining C n} {network later : NodeNetwork n requests}
  {who : Fin n} {hash : H256}

/-- Nodes of a network do not lose hashes. -/
theorem holds_of_later (hreach : network.Reachable .release geneLoop links icoKey mining)
    (hlater : Transition.Reachable
      (fun network => network.next (nodeProtocol C .release geneLoop links))
      (fun network _ => network.MinesIn mining) network later)
    (hholds : (network.memory who).Holds hash) :
    later.Reachable .release geneLoop links icoKey mining ∧ (later.memory who).Holds hash := by
  induction hlater with
  | refl => exact ⟨hreach, hholds⟩
  | tail _ hstep ih =>
      obtain ⟨hbefore, hkept⟩ := ih
      obtain ⟨event, hmines, hnext⟩ := hstep
      obtain ⟨_, _, _, _, _, _, _, hturn⟩ :=
        (networkInvariant_of_reachable hbefore).exists_turn hbefore hmines hnext
      exact ⟨hbefore.tail ⟨event, hmines, hnext⟩, hturn.grows who hash hkept⟩

/-- What a node stores under a hash never changes, and its tip gets no lower. -/
theorem networkHistory_kept (C : Crypto) (n requests : Nat) (geneLoop : Fin n → GeneLoop)
    (links : Links n) (icoKey : Ed25519KeyPair) (mining : Mining C n)
    (network later : NodeNetwork n requests)
    (hreach : network.Reachable .release geneLoop links icoKey mining)
    (hlater : Transition.Reachable
      (fun network => network.next (nodeProtocol C .release geneLoop links))
      (fun network _ => network.MinesIn mining) network later) (who : Fin n) :
    (∀ hash, (network.memory who).Holds hash →
      (later.memory who).blockchain.value.blocks.get hash =
          (network.memory who).blockchain.value.blocks.get hash ∧
        (later.memory who).blockState.value.get hash =
          (network.memory who).blockState.value.get hash) ∧
    ∃ tip tip' height height',
      (network.memory who).blockchain.value.blocks.get
        (network.memory who).blockchain.value.tip = some (tip, height) ∧
      (later.memory who).blockchain.value.blocks.get
        (later.memory who).blockchain.value.tip = some (tip', height') ∧ height ≤ height' := by
  have hinv := networkInvariant_of_reachable hreach
  have hfree := mining.hashesDistinct
  have hkept : ∀ hash, (network.memory who).Holds hash → ∃ entry,
      (network.memory who).entry hash = some entry ∧
        (later.memory who).entry hash = some entry := by
    intro hash hholds
    obtain ⟨hreach', hholds'⟩ := holds_of_later hreach hlater hholds
    have hinv' := networkInvariant_of_reachable hreach'
    obtain ⟨entry, _, hentry, hentry'⟩ :=
      (hinv.participates who).exists_common (hinv'.participates who) hfree hholds hholds'
    exact ⟨entry, hentry, hentry'⟩
  constructor
  · intro hash hholds
    obtain ⟨entry, hentry, hentry'⟩ := hkept hash hholds
    obtain ⟨hget, hstate⟩ := Shared.entry_eq_some.mp hentry
    obtain ⟨hget', hstate'⟩ := Shared.entry_eq_some.mp hentry'
    exact ⟨hget'.trans hget.symm, hstate'.trans hstate.symm⟩
  · obtain ⟨tip, height, htip, _⟩ := ((hinv.participates who).live hfree).tip
    have hholds : (network.memory who).Holds (network.memory who).blockchain.value.tip :=
      HashMap.containsKey_of_get htip
    have hinv' := networkInvariant_of_reachable (holds_of_later hreach hlater hholds).1
    obtain ⟨tip', height', htip', hhighest⟩ := ((hinv'.participates who).live hfree).tip
    obtain ⟨entry, hentry, hentry'⟩ := hkept _ hholds
    have hget := (Shared.entry_eq_some.mp hentry).1
    rw [htip] at hget
    obtain ⟨rfl, rfl⟩ := Prod.mk.inj (Option.some.inj hget)
    exact ⟨_, tip', _, height', htip, htip',
      hhighest _ _ _ (Shared.entry_eq_some.mp hentry').1⟩

/-- The first node keeps its block while the second one fetches it. -/
theorem networkHistory_kept_firstBlock : ∃ network later : NodeNetwork 2 1,
    ¬ (network.memory 1).Holds (firstBlock.hash .sample) ∧
    (later.memory 1).Holds (firstBlock.hash .sample) ∧
    (later.memory 0).blockchain.value.blocks.get (firstBlock.hash .sample) =
      (network.memory 0).blockchain.value.blocks.get (firstBlock.hash .sample) := by
  have hrun : (pairRun []).any (fun network =>
      decide (¬ (network.memory 1).Holds (firstBlock.hash .sample)) &&
      decide ((network.memory 0).Holds (firstBlock.hash .sample)) &&
      (Transition.run (fun network => network.next
          (nodeProtocol .sample .release (fun _ => sampleGeneLoop) pairLinks))
        (fun network _ => network.MinesIn firstMining) network
        [.deliver 0 1 0, .deliver 1 0 0, .deliver 0 1 0]).any
          fun later => decide ((NodeNetwork.memory later 1).Holds (firstBlock.hash .sample))) =
        true := by
    decide +kernel
  obtain ⟨network, hreach, hcheck⟩ := exists_pairReachable hrun
  obtain ⟨hbefore, hlater⟩ := Bool.and_eq_true_iff.mp hcheck
  obtain ⟨hmissing, hholds⟩ := Bool.and_eq_true_iff.mp hbefore
  obtain ⟨later, hreach', hfetched⟩ := Transition.exists_reachable _ _ _ _ _ hlater
  have hkept := networkHistory_kept .sample 2 1 (fun _ => sampleGeneLoop) pairLinks
    Crypto.sampleKey firstMining network later hreach hreach' 0
  exact ⟨network, later, of_decide_eq_true hmissing, of_decide_eq_true hfetched,
    (hkept.1 _ (of_decide_eq_true hholds)).1⟩

end BitcoinClient
