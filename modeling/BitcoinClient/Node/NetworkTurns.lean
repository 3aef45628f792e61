import BitcoinClient.Node.Gossip
import BitcoinClient.Node.PeerNetwork

/-! # One turn of a node in a network

A node asks for the announced blocks that it misses, answers requests for blocks that it
stores, keeps what it receives, and announces what is new in its tree. `Turn` says so for
every turn, and the weight of what it sends is less than that of the message it handled,
unless a block is new.
-/

namespace BitcoinClient

/-- The blocks that a message brings. -/
def Message.received : Message → List Block
  | .blocks received => received
  | _ => []

/-- The hashes that the receiver of a message may ask for. -/
def Message.Asks : Message → H256 → Prop
  | .newBlockHashes hashes, hash => hash ∈ hashes
  | .blocks received, hash => ∃ block ∈ received, block.head.parent = hash
  | _, _ => False

/-- What a message still costs the network, where `n` nodes may hear of a transaction and
`depth` bounds the blocks that are asked for in turn. -/
def Message.weight (n : Nat) (depth : H256 → Nat) (hash : Block → H256) : Message → Nat
  | .ping _ => 2
  | .pong _ => 1
  | .newBlockHashes hashes => 3 + 2 * (hashes.map depth).sum
  | .getBlocks hashes => 2 + 2 * (hashes.map depth).sum
  | .blocks received => 1 + 2 * (received.map fun block => depth (hash block)).sum
  | .newTransactionHashes _ => 1
  | .getTransactions _ => n + 2
  | .transactions _ => n + 1

/-- A broadcast goes to `n` nodes at most. -/
def Sent.weight (n : Nat) (weight : Message → Nat) : Sent → Nat
  | .write _ _ reply => weight reply
  | .broadcast message => n * weight message

section Definitions

variable (C : Crypto) (icoKey : Ed25519KeyPair) (mined : Set Block)

/-- What a message says about its source and its target. -/
def Message.Justified (source target : Shared) : Message → Prop
  | .newBlockHashes hashes => ∀ hash ∈ hashes, source.Holds hash
  | .getBlocks hashes => ∀ hash ∈ hashes, target.Holds hash ∧ hash ≠ Blockchain.genesis.hash C
  | .blocks received =>
    ∀ block ∈ received, Offered C icoKey mined block ∧ source.Holds (block.hash C)
  | _ => True

/-- What a node sends when it handles `incoming` or acts by itself. -/
def Sent.Sound (incoming : Option (PeerId × Message)) (s s' : Shared) : Sent → Prop
  | .broadcast (.newBlockHashes hashes) => ∀ hash ∈ hashes, s'.Holds hash
  | .write peer _ (.getBlocks hashes) => ∃ message, incoming = some (peer, message) ∧
    ∀ hash ∈ hashes, message.Asks hash ∧ ¬ s.Holds hash
  | .write _ _ (.blocks blocks) =>
    ∀ block ∈ blocks, Offered C icoKey mined block ∧ s'.Holds (block.hash C)
  | sent => sent.message.isAboutBlocks = false

/-- What a node does about a message. -/
def Message.Served (peer : PeerId) (orphanBlocks' : List Block) (s s' : Shared) (new : List Sent)
    (message : Message) : Prop :=
  match message with
  | .newBlockHashes hashes => ∀ hash ∈ hashes, s.Holds hash ∨
    ∃ asked, .write peer message (.getBlocks asked) ∈ new ∧ hash ∈ asked
  | .getBlocks hashes => ∃ blocks, .write peer message (.blocks blocks) ∈ new ∧
    ∀ hash ∈ hashes, ∃ block ∈ blocks, block.hash C = hash
  | .blocks received => ∀ block ∈ received, s'.Holds (block.hash C) ∨ (block ∈ orphanBlocks' ∧
    .write peer message (.getBlocks [block.head.parent]) ∈ new)
  | _ => True

/-- How a turn changes the memory and the orphans of a node, and what it sends. The blocks
`fresh` are those that it may store. -/
structure Turn (incoming : Option (PeerId × Message))
    (fresh orphanBlocks orphanBlocks' : List Block) (s s' : Shared) (new : List Sent) : Prop where
  sent : s'.sent = s.sent ++ new
  grows : ∀ hash, s.Holds hash → s'.Holds hash
  gains : ∀ hash, s'.Holds hash → s.Holds hash ∨ ∃ block ∈ fresh, block.hash C = hash
  announced : ∀ hash, s'.Holds hash → s.Holds hash ∨
    ∃ hashes, .broadcast (.newBlockHashes hashes) ∈ new ∧ hash ∈ hashes
  released : ∀ block ∈ orphanBlocks, block ∈ orphanBlocks' ∨ s'.Holds (block.hash C)
  kept : ∀ block ∈ orphanBlocks', block ∈ orphanBlocks ∨
    (block ∈ fresh ∧ ∃ peer reason, .write peer reason (.getBlocks [block.head.parent]) ∈ new)
  sound : ∀ sent ∈ new, sent.Sound C icoKey mined incoming s s'
  served : ∀ peer message, incoming = some (peer, message) →
    message.Served C peer orphanBlocks' s s' new

end Definitions

variable {n requests : Nat} {C : Crypto} {build : Build} {geneLoop : GeneLoop}
  {icoKey : Ed25519KeyPair} {mined : Set Block} {orphanBlocks : List Block} {s s' : Shared}
  {node : IdleNode 1 requests} {peer : PeerId} {message : Message}

/-- The weight of messages about blocks that the mined ones lead to. -/
noncomputable abbrev messageWeight (n : Nat) (C : Crypto) (icoKey : Ed25519KeyPair)
    (mined : Set Block) : Message → Nat :=
  Message.weight n (minedDepth C icoKey mined) (Block.hash C)

noncomputable abbrev turnWeight (n : Nat) (C : Crypto) (icoKey : Ed25519KeyPair)
    (mined : Set Block) (new : List Sent) : Nat :=
  (new.map (Sent.weight n (messageWeight n C icoKey mined))).sum

/-- What a node has done about a message: its worker goes on, and what it sends weighs less
than the message unless a block is new. -/
structure Handled (n : Nat) (C : Crypto) (icoKey : Ed25519KeyPair) (mined : Set Block)
    (peer : PeerId) (message : Message) (orphanBlocks : List Block) (s : Shared)
    (orphanBlocks' : List Block) (s' : Shared) : Prop where
  loop : LoopInvariant C .release (Shared.initial C icoKey) mined []
    { orphanBlocks := orphanBlocks' } 0 s'
  orphans : ∀ block ∈ orphanBlocks', Offered C icoKey mined block
  turn : ∃ new, Turn C icoKey mined (some (peer, message)) (orphanBlocks ++ message.received)
      orphanBlocks orphanBlocks' s s' new ∧
    ((∀ hash, s'.Holds hash → s.Holds hash) →
      turnWeight n C icoKey mined new < messageWeight n C icoKey mined message)

/-! ## What the node stores -/

theorem initial_height {hash : H256} {entry : Entry}
    (h : (Shared.initial C icoKey).entry hash = some entry) : entry.height = 0 := by
  have hinitial := (Shared.entry_eq_some.mp h).1
  obtain rfl := initial_contains.mp (HashMap.containsKey_of_get hinitial)
  simp only [Shared.initial, Blockchain.new, HashMap.get_insert_self, Option.some.injEq,
    Prod.mk.injEq] at hinitial
  exact hinitial.2.symm

/-- Only the block tree and the ledger states matter. -/
theorem LoopInvariant.aside {start : Shared} {received : List Block} {loop : BlocksLoop} {i : Nat}
    (h : LoopInvariant C build start mined received loop i s) (haside : Aside s s') :
    LoopInvariant C build start mined received loop i s' := by
  obtain ⟨blockchain, blockState, mempool, finished, miner, generator, sent⟩ := s'
  obtain rfl : blockchain = s.blockchain := haside.blockchain
  obtain rfl : blockState = s.blockState := haside.blockState
  refine ⟨⟨h.memory.sound, h.memory.stored, h.memory.grows, fun horderly => ?_⟩, h.orphans,
    h.newBlocks, h.position, h.scanned, h.waiting, h.handled⟩
  have hlive := h.memory.live horderly
  exact ⟨hlive.release, hlive.blockchain, hlive.blockState, hlive.states, hlive.tip⟩

namespace Participates

theorem live (h : Participates C icoKey mined orphanBlocks node) (hfree : HashesDistinct C mined) :
    Live .release node.shared :=
  h.loop.memory.live (hfree.orderly icoKey)

/-- A stored block has the entry that the mined blocks lead to. -/
theorem exists_entry (h : Participates C icoKey mined orphanBlocks node)
    (hfree : HashesDistinct C mined) {hash : H256} (hholds : node.shared.Holds hash) :
    ∃ entry, node.shared.entry hash = some entry ∧ MinedEntry C icoKey mined hash entry := by
  obtain ⟨⟨block, height⟩, hget⟩ := HashMap.containsKey_iff.mp hholds
  obtain ⟨state, hentry⟩ := (h.live hfree).exists_entry hget
  exact ⟨_, hentry, h.loop.memory.sound _ _ hentry⟩

theorem genesis (h : Participates C icoKey mined orphanBlocks node) :
    node.shared.Holds (Blockchain.genesis.hash C) :=
  h.loop.memory.grows _ (initial_contains.mpr rfl)

/-- A stored block that is not the genesis block is offered to the others. -/
theorem offered (h : Participates C icoKey mined orphanBlocks node)
    (hchain : ChainInvariant C (fun _ => True) node.shared) {hash : H256} {block : Block}
    {height : UInt32} (hfree : HashesDistinct C mined)
    (hget : node.shared.blockchain.value.blocks.get hash = some (block, height))
    (hne : hash ≠ Blockchain.genesis.hash C) :
    block.hash C = hash ∧ Offered C icoKey mined block := by
  obtain ⟨rfl, hcases⟩ := hchain.stored hash block height hget
  obtain ⟨entry, hentry, hmined⟩ := h.exists_entry hfree (HashMap.containsKey_of_get hget)
  rcases hcases with rfl | hinsertable
  · exact absurd rfl hne
  refine ⟨rfl, ?_, ?_, entry, hmined⟩
  · generalize hhash : block.hash C = hash at hmined
    cases hmined with
    | start hstart =>
        have hstored := HashMap.containsKey_of_get (Shared.entry_eq_some.mp hstart).1
        exact absurd (hhash.trans (initial_contains.mp hstored)) hne
    | @extend other parent _ hother _ hextend =>
        -- The entry holds both blocks.
        obtain ⟨_, _, _, _, _, rfl⟩ := admission_extend_eq_some.mp hextend
        have hsame := (Shared.entry_eq_some.mp hentry).1
        rw [hget] at hsame
        obtain rfl := congrArg Prod.fst (Option.some.inj hsame)
        exact hother
  · rw [hinsertable.wellMined.1]
    exact hinsertable.wellMined.2

/-- The parent of a mined block is stored with it. -/
theorem parent (h : Participates C icoKey mined orphanBlocks node)
    (hchain : ChainInvariant C (fun _ => True) node.shared) (hfree : HashesDistinct C mined)
    {block : Block} (hmem : block ∈ mined) (hholds : node.shared.Holds (block.hash C)) :
    node.shared.Holds block.head.parent := by
  obtain ⟨entry, hentry, hmined⟩ := h.exists_entry hfree hholds
  obtain ⟨rfl, _⟩ := hfree.entry_cases hmem hmined
  obtain ⟨_, hgenesis | hinsertable⟩ := hchain.stored _ _ _ (Shared.entry_eq_some.mp hentry).1
  · exact absurd (congrArg (Block.hash C) hgenesis) (hfree.genesis entry.block hmem)
  · exact hinsertable.parent

/-- The walk down from a block finds as many blocks as its height says. -/
theorem descends (h : Participates C icoKey mined orphanBlocks node)
    (hchain : ChainInvariant C (fun _ => True) node.shared) (hfree : HashesDistinct C mined)
    {hash : H256} {entry : Entry} (hmined : MinedEntry C icoKey mined hash entry)
    (hentry : node.shared.entry hash = some entry) :
    Descends node.shared.blockchain.value.blocks entry.height.toNat hash := by
  have hget := (Shared.entry_eq_some.mp hentry).1
  induction hmined with
  | @start hash entry hstart =>
      rw [initial_height hstart]
      exact HashMap.containsKey_of_get hget
  | @extend block parent next hblock hparent hextend ih =>
      obtain ⟨_, _, height, _, hheight, rfl⟩ := admission_extend_eq_some.mp hextend
      -- The parent is stored with the entry that it was derived with.
      have hstored := h.parent hchain hfree hblock (HashMap.containsKey_of_get hget)
      obtain ⟨entry', hentry', hmined'⟩ := h.exists_entry hfree hstored
      obtain rfl := hfree.unique hmined' hparent
      have hdescends := ih hentry' (Shared.entry_eq_some.mp hentry').1
      have hsucc : Descends node.shared.blockchain.value.blocks (entry'.height.toNat + 1)
          (block.hash C) := ⟨block, height, hget, hdescends⟩
      exact hsucc.le (addU32_toNat_le hheight)

theorem walkable (h : Participates C icoKey mined orphanBlocks node)
    (hchain : ChainInvariant C (fun _ => True) node.shared) (hfree : HashesDistinct C mined) :
    Walkable node.shared where
  tip := hchain.tip
  states := hchain.states
  heights hash block height hget := by
    obtain ⟨entry, hentry, hmined⟩ := h.exists_entry hfree (HashMap.containsKey_of_get hget)
    have hsame := (Shared.entry_eq_some.mp hentry).1
    rw [hget] at hsame
    obtain rfl := congrArg Prod.snd (Option.some.inj hsame)
    exact h.descends hchain hfree hmined hentry

/-- No lock of the node is poisoned. -/
theorem usable (h : Participates C icoKey mined orphanBlocks node)
    (hmempool : node.shared.mempool.poisoned = false) (hfree : HashesDistinct C mined) :
    Usable node.shared :=
  ⟨(h.live hfree).blockchain, (h.live hfree).blockState, hmempool⟩

end Participates

/-- No node rejects an offered block. -/
theorem Offered.not_rejected (hfree : HashesDistinct C mined) {block : Block}
    (h : Offered C icoKey mined block) :
    ¬ (admission C .release).Rejected (Shared.initial C icoKey).entry mined block := by
  rintro ⟨parent, hparent, hrejected⟩
  obtain ⟨entry, hentry⟩ := h.entry
  obtain ⟨_, parent', hparent', hextend⟩ := hfree.entry_cases h.mem hentry
  obtain rfl := hfree.unique hparent hparent'
  rw [hrejected] at hextend
  cases hextend

/-- An offered block is one deeper than its parent. -/
theorem Offered.depth_eq (hfree : HashesDistinct C mined) {block : Block}
    (h : Offered C icoKey mined block) : minedDepth C icoKey mined (block.hash C) =
      minedDepth C icoKey mined block.head.parent + 1 := by
  obtain ⟨entry, hentry⟩ := h.entry
  obtain ⟨_, parent, hparent, hextend⟩ := hfree.entry_cases h.mem hentry
  exact Derivation.depth_extend (hfree.orderly icoKey).2 h.mem hparent hextend

/-! ## Messages about transactions -/

theorem Sent.sound_of_aside {incoming : Option (PeerId × Message)} {sent : Sent}
    (h : sent.message.isAboutBlocks = false) : sent.Sound C icoKey mined incoming s s' := by
  cases sent with
  | write peer reason reply =>
      cases reply with
      | newBlockHashes hashes => cases h
      | getBlocks hashes => cases h
      | blocks blocks => cases h
      | _ => exact h
  | broadcast message =>
      cases message with
      | newBlockHashes hashes => cases h
      | getBlocks hashes => cases h
      | blocks blocks => cases h
      | _ => exact h

/-- A turn that leaves the block tree and the orphans as they are. -/
theorem Turn.of_blockchain {incoming : Option (PeerId × Message)} {fresh : List Block}
    {new : List Sent}
    (hblockchain : s'.blockchain = s.blockchain) (hsent : s'.sent = s.sent ++ new)
    (hsound : ∀ sent ∈ new, sent.Sound C icoKey mined incoming s s')
    (hserved : ∀ peer message, incoming = some (peer, message) →
      message.Served C peer orphanBlocks s s' new) :
    Turn C icoKey mined incoming fresh orphanBlocks orphanBlocks s s' new := by
  have hholds : ∀ hash, s'.Holds hash ↔ s.Holds hash := by
    intro hash
    rw [Shared.Holds, Shared.Holds, hblockchain]
  exact ⟨hsent, fun hash => (hholds hash).mpr,
    fun hash hstored => Or.inl ((hholds hash).mp hstored),
    fun hash hstored => Or.inl ((hholds hash).mp hstored), fun _ => Or.inl, fun _ => Or.inl, hsound,
    hserved⟩

/-- A turn without blocks. -/
theorem Aside.turn {incoming : Option (PeerId × Message)} {fresh : List Block} {new : List Sent}
    (h : Aside s s') (hsent : s'.sent = s.sent ++ new)
    (hincoming : ∀ peer message, incoming = some (peer, message) → message.isAboutBlocks = false) :
    Turn C icoKey mined incoming fresh orphanBlocks orphanBlocks s s' new := by
  refine .of_blockchain h.blockchain hsent (fun sent hmem => ?_) fun peer message heq => ?_
  · obtain ⟨new', hsent', haside⟩ := h.sent
    rw [hsent, List.append_cancel_left_eq] at hsent'
    exact Sent.sound_of_aside (haside sent (hsent' ▸ hmem))
  · have hmessage := hincoming peer message heq
    cases message with
    | newBlockHashes hashes => cases hmessage
    | getBlocks hashes => cases hmessage
    | blocks blocks => cases hmessage
    | _ => trivial

/-- A worker announces the transactions that it stored with one message at most. -/
theorem storeTransactions_sends (transactions : List SignedTransaction) :
    ((storeTransactions C transactions).run C build).wp
      (fun _ s' => s'.sent = s.sent ∨
        ∃ hashes, s'.sent = s.sent ++ [.broadcast (.newTransactionHashes hashes)])
      (fun _ _ => True) s := by
  have hquiet : ∀ newTrans (trans : SignedTransaction), (storeTransaction C newTrans trans).All
      (fun op => op.sends = false) fun _ => True := by
    intro newTrans trans
    unfold storeTransaction
    split
    next =>
      refine ⟨rfl, fun known => ?_⟩
      cases known with
      | true => trivial
      | false => exact ⟨rfl, fun _ => trivial⟩
    next => trivial
  have hloop : (NodeProgram.run C build (transactions.foldlM (storeTransaction C) [])).wp
      (fun _ s' => True ∧ s'.sent = s.sent) (fun _ s' => s'.sent = s.sent) s := by
    refine (Program.all_foldlM hquiet).wp_run (fun s s' : Shared => s'.sent = s.sent)
      (fun _ => rfl) (fun _ _ _ hfirst hrest => hrest.trans hfirst) (fun op hop s => ?_) s
    exact Effect.wp_mono (op.wp_frame C build) (fun _ _ hframe => hframe.sent hop)
      fun _ _ hframe => hframe.1.sent hop
  rw [storeTransactions, NodeProgram.run, Program.run_bind, Effect.wp_bind]
  refine Effect.wp_mono hloop ?_ fun _ _ _ => trivial
  rintro newTrans s' ⟨_, hsent⟩
  split
  next => exact Or.inr ⟨newTrans, congrArg (· ++ _) hsent⟩
  next => exact Or.inl hsent

variable (n icoKey mined) in
/-- A message that is not about blocks is handled, and what is sent weighs less. -/
theorem handleMessage_lighter (hmempool : s.mempool.poisoned = false)
    (hmessage : message.isAboutBlocks = false) (peer : PeerId) (orphanBlocks : List Block) :
    ((handleMessage C build peer orphanBlocks message).run C build).wp
      (fun _ s' => ∃ new, s'.sent = s.sent ++ new ∧
        turnWeight n C icoKey mined new < messageWeight n C icoKey mined message)
      (fun _ _ => False) s := by
  cases message with
  | ping nonce =>
      refine ⟨[.write peer (.ping nonce) (.pong nonce)], rfl, ?_⟩
      simp [turnWeight, Sent.weight, messageWeight, Message.weight]
  | pong nonce => exact ⟨[], (List.append_nil _).symm, Nat.one_pos⟩
  | newBlockHashes hashes => cases hmessage
  | getBlocks hashes => cases hmessage
  | blocks blocks => cases hmessage
  | newTransactionHashes hashes => exact ⟨[], (List.append_nil _).symm, Nat.one_pos⟩
  | getTransactions hashes =>
      refine Effect.wp_mono (wp_getTransactions hmempool peer orphanBlocks hashes)
        (fun _ s' hsent => ⟨_, hsent, ?_⟩) fun _ _ h => h
      cases hashes.mapM s.mempool.value.trans.get with
      | none => simp [turnWeight, messageWeight, Message.weight]
      | some trans => simp [turnWeight, Sent.weight, messageWeight, Message.weight]
  | transactions transactions =>
      rw [handleMessage, NodeProgram.run, Program.run_bind, Effect.wp_bind]
      refine Effect.wp_and (storeTransactions_sends transactions)
        (storeTransactions_gossips hmempool transactions) ?_ fun _ _ _ h => h
      rintro _ s' (hsilent | ⟨hashes, hsent⟩) _
      · exact ⟨[], hsilent.trans (List.append_nil _).symm, Nat.succ_pos n⟩
      · refine ⟨_, hsent, ?_⟩
        simp [turnWeight, Sent.weight, messageWeight, Message.weight]

theorem handled_aside (h : Participates C icoKey mined orphanBlocks node)
    (hmempool : node.shared.mempool.poisoned = false) (hmessage : message.isAboutBlocks = false)
    (peer : PeerId) : ((handleMessage C .release peer orphanBlocks message).run C .release).wp
      (Handled n C icoKey mined peer message orphanBlocks node.shared)
      (fun _ _ => False) node.shared := by
  have haside : ((handleMessage C .release peer orphanBlocks message).run C .release).wp
      (fun orphanBlocks' s' => orphanBlocks' = orphanBlocks ∧ Aside node.shared s')
      (fun _ s' => Aside node.shared s') node.shared :=
    (handleMessage_aside peer orphanBlocks hmessage).wp_run Aside .refl (fun _ _ _ => .trans)
      (fun op hop _ => op.aside C .release hop) node.shared
  refine Effect.wp_and haside
    (handleMessage_lighter n icoKey mined hmempool hmessage peer orphanBlocks) ?_ fun _ _ _ h => h
  rintro _ s' ⟨rfl, hkept⟩ ⟨new, hsent, hlighter⟩
  refine ⟨h.loop.aside hkept, h.orphans, new, hkept.turn hsent ?_, fun _ => hlighter⟩
  rintro peer' message' ⟨⟩
  exact hmessage

/-! ## Messages about blocks -/

/-- Announced blocks are asked for when they are missing. -/
theorem handled_newBlockHashes (h : Participates C icoKey mined orphanBlocks node)
    (hfree : HashesDistinct C mined) (peer : PeerId) (hashes : List H256) :
    ((handleMessage C .release peer orphanBlocks (.newBlockHashes hashes)).run C .release).wp
      (Handled n C icoKey mined peer (.newBlockHashes hashes) orphanBlocks node.shared)
      (fun _ _ => False) node.shared := by
  refine Effect.wp_mono (handleNewBlockHashes_wp (h.live hfree).blockchain hashes) ?_ fun _ _ h => h
  rintro _ s' ⟨rfl, hs'⟩
  set missing := hashes.filter fun hash => !node.shared.blockchain.value.blocks.containsKey hash
    with hmissing
  have hmem : ∀ hash, hash ∈ missing ↔ hash ∈ hashes ∧ ¬ node.shared.Holds hash := by
    intro hash
    simp [hmissing, Shared.Holds]
  split at hs'
  next hnone =>
    subst hs'
    refine ⟨h.loop, h.orphans, [], .of_blockchain rfl (List.append_nil _).symm
      (List.forall_mem_nil _) ?_, fun _ => ?_⟩
    · rintro peer' message' ⟨⟩ hash hhash
      by_contra hasked
      have hfound := (hmem hash).mpr ⟨hhash, fun hholds => hasked (Or.inl hholds)⟩
      rw [hnone] at hfound
      cases hfound
    · simp [turnWeight, messageWeight, Message.weight]
  next =>
    subst hs'
    refine ⟨h.loop.send, h.orphans, _, .of_blockchain rfl rfl ?_ ?_, fun _ => ?_⟩
    · refine List.forall_mem_singleton.mpr ⟨_, rfl, fun hash hhash => ?_⟩
      exact (hmem hash).mp hhash
    · rintro peer' message' ⟨⟩ hash hhash
      by_cases hholds : node.shared.Holds hash
      · exact Or.inl hholds
      · exact Or.inr ⟨missing, List.mem_singleton_self _, (hmem hash).mpr ⟨hhash, hholds⟩⟩
    · have hsublist : (missing.map (minedDepth C icoKey mined)).sum ≤
          (hashes.map (minedDepth C icoKey mined)).sum :=
        (List.filter_sublist.map _).sum_le_sum fun _ _ => Nat.zero_le _
      simp only [turnWeight, messageWeight, Message.weight, Sent.weight, List.map_cons,
        List.map_nil, List.sum_cons, List.sum_nil]
      omega

/-- Items that are found under their own keys. -/
theorem map_of_lookups {K V : Type} {lookup : K → Option V} {key : V → K} {keys : List K}
    {items : List V} (haddressed : ∀ requested item, lookup requested = some item →
      key item = requested) (h : keys.map lookup = items.map some) : items.map key = keys := by
  induction keys generalizing items with
  | nil =>
      rw [List.map_nil] at h
      rw [List.map_eq_nil_iff.mp h.symm, List.map_nil]
  | cons first rest ih =>
      cases items with
      | nil => cases h
      | cons item others =>
          rw [List.map_cons, List.map_cons, List.cons.injEq] at h
          rw [List.map_cons, haddressed first item h.1, ih h.2]

/-- A request is answered with all the blocks when they are stored. -/
theorem handleGetBlocks_found {hashes : List H256} {blocks : List Block}
    (husable : s.blockchain.poisoned = false)
    (hfound : hashes.mapM (fun hash => (s.blockchain.value.blocks.get hash).map Prod.fst) =
      some blocks) :
    ((handleMessage C build peer orphanBlocks (.getBlocks hashes)).run C build).wp
      (fun orphanBlocks' s' => orphanBlocks' = orphanBlocks ∧
        s' = { s with sent := s.sent ++ [.write peer (.getBlocks hashes) (.blocks blocks)] })
      (fun _ _ => False) s := by
  simp only [handleMessage, NodeProgram.call, Program.call_bind, Program.run_perform, Op.action,
    answerGetBlocks, Effect.wp_bind, wp_withBlockchain]
  refine ⟨fun hpoisoned => Bool.noConfusion (husable.symm.trans hpoisoned), fun _ => ?_⟩
  rw [hfound]
  exact ⟨rfl, rfl⟩

theorem handled_getBlocks (h : Participates C icoKey mined orphanBlocks node)
    (hchain : ChainInvariant C (fun _ => True) node.shared) (hfree : HashesDistinct C mined)
    (peer : PeerId) {hashes : List H256}
    (hstored : ∀ hash ∈ hashes, node.shared.Holds hash ∧ hash ≠ Blockchain.genesis.hash C) :
    ((handleMessage C .release peer orphanBlocks (.getBlocks hashes)).run C .release).wp
      (Handled n C icoKey mined peer (.getBlocks hashes) orphanBlocks node.shared)
      (fun _ _ => False) node.shared := by
  have hsome : ∀ hash ∈ hashes,
      ((node.shared.blockchain.value.blocks.get hash).map Prod.fst).isSome = true := by
    intro hash hmem
    simpa [Shared.Holds, HashMap.containsKey] using (hstored hash hmem).1
  obtain ⟨blocks, hfound⟩ := exists_mapM_lookup hsome
  have hlookups := mapM_lookup_eq_some.mp hfound
  have haddressed : ∀ requested block,
      (node.shared.blockchain.value.blocks.get requested).map Prod.fst = some block →
      block.hash C = requested := by
    intro requested block hlookup
    obtain ⟨⟨_, height⟩, hget, rfl⟩ := Option.map_eq_some_iff.mp hlookup
    exact (hchain.stored _ _ _ hget).1
  have hhashes : blocks.map (Block.hash C) = hashes := map_of_lookups haddressed hlookups
  -- What is found under the hash of a block is the block.
  have hfounds : ∀ block ∈ blocks,
      (node.shared.blockchain.value.blocks.get (block.hash C)).map Prod.fst = some block := by
    rw [← hhashes, List.map_map] at hlookups
    exact List.map_inj_left.mp hlookups
  refine Effect.wp_mono (handleGetBlocks_found (h.live hfree).blockchain hfound) ?_ fun _ _ h => h
  rintro _ s' ⟨rfl, rfl⟩
  refine ⟨h.loop.send, h.orphans, _, .of_blockchain rfl rfl ?_ ?_, fun _ => ?_⟩
  · refine List.forall_mem_singleton.mpr fun block hmem => ?_
    obtain ⟨hholds, hne⟩ := hstored (block.hash C) (hhashes ▸ List.mem_map_of_mem hmem)
    obtain ⟨⟨_, height⟩, hget, rfl⟩ := Option.map_eq_some_iff.mp (hfounds block hmem)
    exact ⟨(h.offered hchain hfree hget hne).2, hholds⟩
  · rintro peer' message' ⟨⟩
    refine ⟨blocks, List.mem_singleton_self _, fun hash hmem => ?_⟩
    rw [← hhashes] at hmem
    exact List.mem_map.mp hmem
  · rw [← hhashes]
    simp [turnWeight, messageWeight, Message.weight, Sent.weight, Function.comp_def]

/-- A request for the parent of a block weighs no more than the block. -/
theorem sum_parentRequests_le (hfree : HashesDistinct C mined) {asked blocks : List Block}
    (hsublist : asked.Sublist blocks) (hoffered : ∀ block ∈ asked, Offered C icoKey mined block) :
    (asked.map fun block => 2 + 2 * minedDepth C icoKey mined block.head.parent).sum ≤
      (blocks.map fun block => 2 * minedDepth C icoKey mined (block.hash C)).sum := by
  have hrequests : (asked.map fun block => 2 + 2 * minedDepth C icoKey mined block.head.parent) =
      asked.map fun block => 2 * minedDepth C icoKey mined (block.hash C) := by
    refine List.map_congr_left fun block hasked => ?_
    rw [(hoffered block hasked).depth_eq hfree]
    omega
  rw [hrequests]
  exact (hsublist.map _).sum_le_sum fun _ _ => Nat.zero_le _

/-- Received blocks are stored or wait for their parents, which are asked for. -/
theorem handled_blocks (h : Participates C icoKey mined orphanBlocks node)
    (hfree : HashesDistinct C mined) (peer : PeerId) {blocks : List Block}
    (hoffered : ∀ block ∈ blocks, Offered C icoKey mined block) :
    ((handleMessage C .release peer orphanBlocks (.blocks blocks)).run C .release).wp
      (Handled n C icoKey mined peer (.blocks blocks) orphanBlocks node.shared)
      (fun _ _ => False) node.shared := by
  have horderly := hfree.orderly icoKey
  -- The orphans count as received: they are stored, wait on, or are rejected.
  have hloop : LoopInvariant C .release (Shared.initial C icoKey) mined orphanBlocks
      { orphanBlocks } 0 node.shared :=
    { h.loop with handled := fun _ block hmem _ => Or.inr (Or.inl hmem) }
  refine Effect.wp_and (processBlocks_admits hloop fun block hmem _ _ => (hoffered block hmem).mem)
    processBlocks_asks ?_ fun _ _ hstopped _ => hstopped.disorderly horderly
  rintro _ _ hloop' ⟨asked, loop, final, hasking, rfl, rfl⟩
  have hall : ∀ block ∈ orphanBlocks ++ blocks, Offered C icoKey mined block :=
    List.forall_mem_append.mpr ⟨h.orphans, hoffered⟩
  have hhandled : ∀ block ∈ orphanBlocks ++ blocks,
      block ∈ loop.orphanBlocks ∨ final.Holds (block.hash C) := by
    intro block hmem
    rcases hloop'.handled horderly block hmem (hall block hmem).work with
      hstored | horphan | hrejected
    · exact Or.inr hstored
    · exact Or.inl horphan
    · exact absurd hrejected ((hall block hmem).not_rejected hfree)
  refine ⟨{ hloop' with handled := fun _ => List.forall_mem_nil _ }, fun block hmem => ?_,
    asked.map (askParent peer (.blocks blocks)) ++ announcement loop.newBlocks,
    ⟨?_, hasking.grows, fun hash hholds => ?_, fun hash hholds => ?_, ?_, fun block hmem => ?_,
      fun sent hmem => ?_, ?_⟩, fun hsame => ?_⟩
  · refine hall block (List.mem_append.mpr ?_)
    exact (hasking.orphans block hmem).imp_right fun hasked => hasking.sublist.subset hasked
  · exact (congrArg (· ++ _) hasking.sent).trans (List.append_assoc _ _ _)
  · exact (hasking.gained hash hholds).imp_right (hasking.origin hash)
  · refine (hasking.gained hash hholds).imp_right fun hnew => ⟨loop.newBlocks, ?_, hnew⟩
    rw [announcement, if_neg (List.ne_nil_of_mem hnew)]
    exact List.mem_append_right _ (List.mem_singleton_self _)
  · exact fun block hmem => hhandled block (List.mem_append_left _ hmem)
  · refine (hasking.orphans block hmem).imp_right fun hasked =>
      ⟨List.mem_append_right _ (hasking.sublist.subset hasked), peer, .blocks blocks, ?_⟩
    exact List.mem_append_left _ (List.mem_map_of_mem hasked)
  · rcases List.mem_append.mp hmem with hmem | hmem
    · obtain ⟨block, hasked, rfl⟩ := List.mem_map.mp hmem
      refine ⟨.blocks blocks, rfl, List.forall_mem_singleton.mpr ?_⟩
      refine ⟨⟨block, hasking.sublist.subset hasked, rfl⟩, ?_⟩
      rw [Shared.Holds, hasking.unknown block hasked]
      exact Bool.false_ne_true
    · unfold announcement at hmem
      split at hmem
      next => cases hmem
      next =>
        obtain rfl := List.mem_singleton.mp hmem
        exact hasking.known
  · rintro peer' message' ⟨⟩ block hmem
    rcases hhandled block (List.mem_append_right _ hmem) with horphan | hholds
    · -- Its parent was missing when its turn came, because it still is.
      rcases hasking.dealt block hmem (hoffered block hmem).work with hholds | hasked | hparent
      · exact Or.inl hholds
      · exact Or.inr ⟨horphan, List.mem_append_left _ (List.mem_map_of_mem hasked)⟩
      · exact Bool.noConfusion ((hloop'.parent_missing horphan).symm.trans hparent)
    · exact Or.inl hholds
  · -- Nothing is announced, and each request weighs as much as its block.
    have hnone : loop.newBlocks = [] := by
      by_contra hnonempty
      obtain ⟨hash, hholds, hmissing⟩ := hasking.fresh hnonempty
      exact Bool.noConfusion (hmissing.symm.trans (hsame hash hholds))
    have hrequests := sum_parentRequests_le hfree hasking.sublist
      fun block hasked => hoffered block (hasking.sublist.subset hasked)
    rw [hnone, announcement, if_pos rfl, List.append_nil]
    simp only [turnWeight, messageWeight, Message.weight, List.map_map, Function.comp_def,
      askParent, Sent.weight, List.map_cons, List.map_nil, List.sum_cons, List.sum_nil,
      Nat.add_zero]
    rw [← List.sum_map_mul_left]
    omega

/-- A node handles every message that its source can vouch for. -/
theorem handleMessage_handled (h : Participates C icoKey mined orphanBlocks node)
    (hchain : ChainInvariant C (fun _ => True) node.shared)
    (hmempool : node.shared.mempool.poisoned = false) (hfree : HashesDistinct C mined)
    (peer : PeerId) {source : Shared}
    (hjustified : message.Justified C icoKey mined source node.shared) :
    ((handleMessage C .release peer orphanBlocks message).run C .release).wp
      (Handled n C icoKey mined peer message orphanBlocks node.shared)
      (fun _ _ => False) node.shared := by
  cases message with
  | newBlockHashes hashes => exact handled_newBlockHashes h hfree peer hashes
  | getBlocks hashes => exact handled_getBlocks h hchain hfree peer hjustified
  | blocks blocks =>
      exact handled_blocks h hfree peer fun block hmem => (hjustified block hmem).1
  | _ => exact handled_aside h hmempool rfl peer

variable (geneLoop) in
/-- A node delivers a message to its worker, which handles it. -/
theorem deliver_turn (h : Participates C icoKey mined orphanBlocks node)
    (hchain : ChainInvariant C (fun _ => True) node.shared)
    (hmempool : node.shared.mempool.poisoned = false) (hfree : HashesDistinct C mined)
    (n : Nat) (peer : PeerId) {source : Shared}
    (hjustified : message.Justified C icoKey mined source node.shared) :
    ∃ next orphanBlocks', (nodeRounds C .release geneLoop).next node (.network 0)
        (.deliver peer message) = some next ∧
      Participates C icoKey mined orphanBlocks' next ∧
      Handled n C icoKey mined peer message orphanBlocks node.shared orphanBlocks' next.shared := by
  obtain ⟨orphanBlocks', s', hnext, hhandled⟩ := round_returns h.worker
    (handleMessage_handled (n := n) h hchain hmempool hfree peer hjustified)
  exact ⟨_, orphanBlocks', hnext, ⟨worker_of_update rfl, hhandled.loop, hhandled.orphans⟩, hhandled⟩

/-! ## Turns of the other threads -/

theorem forall_incoming_none {P : PeerId → Message → Prop} :
    ∀ peer message, (none : Option (PeerId × Message)) = some (peer, message) → P peer message := by
  rintro _ _ ⟨⟩

/-- The miner worker stores and announces the next mined block. -/
theorem minerWorkerRound_turn (h : Participates C icoKey mined orphanBlocks node)
    (hchain : ChainInvariant C (fun _ => True) node.shared) (hfree : HashesDistinct C mined)
    (hmined : ∀ block ∈ node.shared.finishedBlockChan, block ∈ mined)
    (hawaits : ∀ block ∈ node.shared.finishedBlockChan, ¬ node.shared.Holds (block.hash C) →
      ∀ orphan ∈ orphanBlocks, orphan.head.parent ≠ block.hash C) :
    ((minerWorkerRound C .release).run C .release).wp
      (fun _ s' => LoopInvariant C .release (Shared.initial C icoKey) mined [] { orphanBlocks } 0
          s' ∧
        ∃ new, Turn C icoKey mined none node.shared.finishedBlockChan orphanBlocks orphanBlocks
          node.shared s' new)
      (fun _ _ => False) node.shared := by
  set taken : Shared := { node.shared with
    finishedBlockChan := node.shared.finishedBlockChan.tail } with htaken
  have haside : Aside node.shared taken := .of_sent_eq rfl rfl rfl
  unfold minerWorkerRound
  rw [NodeProgram.run, NodeProgram.call, Program.call_bind, Program.run_perform, Effect.wp_bind]
  change Effect.wp _ _ _ taken
  cases hhead : node.shared.finishedBlockChan.head? with
  | none =>
      exact ⟨h.loop.aside haside, [], haside.turn (List.append_nil _).symm forall_incoming_none⟩
  | some block =>
      have hmem := List.mem_of_head? hhead
      have hinsertable := hchain.queued block hmem
      obtain ⟨⟨parent, parentHeight⟩, hparent⟩ := HashMap.containsKey_iff.mp hinsertable.parent
      have hdifficulty : block.head.difficulty = parent.head.difficulty :=
        hinsertable.wellMined.1.trans (hchain.difficulty_eq hparent).symm
      dsimp only
      rw [Program.run_bind, Effect.wp_bind]
      refine Effect.wp_and (admitBlock_admits (h.loop.aside haside).memory (hmined block hmem)
        hparent hdifficulty) admitBlock_stores ?_
        fun _ _ hstopped _ => hstopped.disorderly (hfree.orderly icoKey)
      rintro admitted s' ⟨hmemory, hcontains, _⟩ ⟨hsent, _⟩
      have hgrows : ∀ hash, node.shared.Holds hash → s'.Holds hash :=
        fun hash hholds => (hcontains hash).mpr (Or.inl hholds)
      have hgains : ∀ hash, s'.Holds hash → node.shared.Holds hash ∨
          (admitted = true ∧ hash = block.hash C) := fun hash => (hcontains hash).mp
      have hloop : LoopInvariant C .release (Shared.initial C icoKey) mined [] { orphanBlocks } 0
          s' := by
        refine ⟨hmemory, h.loop.orphans, List.forall_mem_nil _, Nat.le_refl _,
          List.forall_mem_nil _, fun orphan horphan hstored => ?_, fun _ => List.forall_mem_nil _⟩
        have hmissing := h.loop.parent_missing horphan
        have hnot : ¬ node.shared.Holds orphan.head.parent := by
          rw [Shared.Holds, hmissing]
          exact Bool.false_ne_true
        -- The block is new, and then no orphan waits for it.
        rcases hgains _ hstored with hholds | ⟨_, hparent'⟩
        · exact absurd hholds hnot
        · exact absurd hparent' (hawaits block hmem (hparent' ▸ hnot) orphan horphan)
      cases admitted with
      | false =>
          refine ⟨hloop, [], ⟨hsent.trans (List.append_nil _).symm, hgrows, fun hash hholds => ?_,
            fun hash hholds => ?_, fun _ => Or.inl, fun _ => Or.inl, List.forall_mem_nil _,
            forall_incoming_none⟩⟩
          · exact (hgains hash hholds).imp_right fun hfalse => Bool.noConfusion hfalse.1
          · exact (hgains hash hholds).imp_right fun hfalse => Bool.noConfusion hfalse.1
      | true =>
          refine ⟨hloop.send, [.broadcast (.newBlockHashes [block.hash C])],
            ⟨congrArg (· ++ _) hsent, hgrows, fun hash hholds => ?_, fun hash hholds => ?_,
              fun _ => Or.inl, fun _ => Or.inl, ?_, forall_incoming_none⟩⟩
          · exact (hgains hash hholds).imp_right fun hnew => ⟨block, hmem, hnew.2.symm⟩
          · refine (hgains hash hholds).imp_right fun hnew => ⟨_, List.mem_singleton_self _, ?_⟩
            exact List.mem_singleton.mpr hnew.2
          · refine List.forall_mem_singleton.mpr (List.forall_mem_singleton.mpr ?_)
            exact (hcontains _).mpr (Or.inr ⟨rfl, rfl⟩)

/-- Any other thread of the node, which does not stop. -/
theorem act_turn (h : Participates C icoKey mined orphanBlocks node)
    (hchain : ChainInvariant C (fun _ => True) node.shared)
    (hmempool : node.shared.mempool.poisoned = false) (hfree : HashesDistinct C mined)
    (hmined : ∀ block ∈ node.shared.finishedBlockChan, block ∈ mined)
    (hawaits : ∀ block ∈ node.shared.finishedBlockChan, ¬ node.shared.Holds (block.hash C) →
      ∀ orphan ∈ orphanBlocks, orphan.head.parent ≠ block.hash C)
    {thread : ThreadId 1 requests} {choice : Choice} {next : IdleNode 1 requests}
    (hthread : thread ≠ .network 0)
    (hkind : ∀ orphanBlocks, node.threads thread ≠ .ok (.network orphanBlocks))
    (hnext : (nodeRounds C .release geneLoop).next node thread choice = some next) :
    Participates C icoKey mined orphanBlocks next ∧ (∃ task, next.threads thread = .ok task) ∧
      ∃ new, Turn C icoKey mined none node.shared.finishedBlockChan orphanBlocks orphanBlocks
        node.shared next.shared new := by
  obtain ⟨task, program, htask, hbody, houtcome⟩ := Program.round_wp hnext
  let Post (s' : Shared) : Prop :=
    LoopInvariant C .release (Shared.initial C icoKey) mined [] { orphanBlocks } 0 s' ∧
      ∃ new, Turn C icoKey mined none node.shared.finishedBlockChan orphanBlocks orphanBlocks
        node.shared s' new
  have hwp : (NodeProgram.run C .release program).wp (fun _ s' => Post s') (fun _ _ => False)
      node.shared := by
    by_cases hworker : task = .minerWorker
    · subst hworker
      cases choice with
      | go =>
          cases hbody
          rw [NodeProgram.run, Program.run_bind, Effect.wp_bind]
          exact Effect.wp_mono (minerWorkerRound_turn h hchain hfree hmined hawaits)
            (fun _ _ hpost => hpost) fun _ _ h => h
      | _ => cases hbody
    · have haside := nodeBody_keepsAside (h.walkable hchain hfree)
        (fun orphanBlocks heq => hkind orphanBlocks (heq ▸ htask)) hworker hbody
      have hpost : ∀ s', Aside node.shared s' → Post s' := by
        intro s' hkept
        obtain ⟨new, hsent, _⟩ := hkept.sent
        exact ⟨h.loop.aside hkept, new, hkept.turn hsent forall_incoming_none⟩
      refine Effect.wp_mono haside (fun _ s' hkept => hpost s' hkept.toAside) ?_
      exact fun _ _ hkept => hkept.2 (h.usable hmempool hfree)
  obtain ⟨thread', hthreads, houtcome⟩ := houtcome hwp
  cases thread' with
  | error reason => exact houtcome.elim
  | ok task' =>
      refine ⟨⟨?_, houtcome.1, h.orphans⟩, ⟨task', ?_⟩, houtcome.2⟩
      · rw [hthreads, Function.update_of_ne hthread.symm]
        exact h.worker
      · rw [hthreads, Function.update_self]

/-! ## The threads keep their tasks -/

/-- Only a network worker goes on as one. -/
theorem nodeBody_kind {task : Task} {choice : Choice} {program : NodeProgram Task}
    (hbody : nodeBody C build geneLoop task choice = some program)
    (htask : ∀ orphanBlocks, task ≠ .network orphanBlocks) :
    program.All (fun _ => True) fun task' => ∀ orphanBlocks, task' ≠ .network orphanBlocks := by
  have hround : ∀ {α : Type} (program : NodeProgram α) (next : α → Task),
      (∀ result orphanBlocks, next result ≠ .network orphanBlocks) →
      (program >>= fun result => pure (next result)).All (fun _ => True)
        fun task' => ∀ orphanBlocks, task' ≠ .network orphanBlocks := by
    intro α program next hnext
    rw [Program.all_bind]
    induction program with
    | done result => exact hnext result
    | perform op rest ih => exact ⟨trivial, ih⟩
  unfold nodeBody at hbody
  split at hbody
  all_goals cases hbody
  next orphanBlocks _ _ => exact absurd rfl (htask orphanBlocks)
  next orphanBlocks => exact absurd rfl (htask orphanBlocks)
  next =>
    refine hround _ (fun miner : Option Miner => miner.elim .exited .miner) fun miner => ?_
    cases miner <;> nofun
  next => exact hround _ (fun _ => .minerWorker) nofun
  next => exact hround _ .generator nofun
  next =>
    refine hround _ (fun generator : Option Generator => generator.elim .exited .generator)
      fun generator => ?_
    cases generator <;> nofun
  next => exact hround _ (fun _ => .api) nofun

/-- Only the thread of the network worker ever has its task. -/
theorem node_kinds {guard : IdleNode 1 requests → ThreadId 1 requests → Choice → Prop}
    (hreach : (nodeRounds C build geneLoop).Reachable guard (IdleNode.start C icoKey 1 requests)
      node) {thread : ThreadId 1 requests} (hthread : thread ≠ .network 0) :
    ∀ orphanBlocks, node.threads thread ≠ .ok (.network orphanBlocks) := by
  refine Machine.Reachable.invariant (fun node : IdleNode 1 requests =>
    ∀ orphanBlocks, node.threads thread ≠ .ok (.network orphanBlocks)) ?_ ?_ hreach
  · cases thread with
    | network i => exact absurd (congrArg ThreadId.network (Subsingleton.elim i 0)) hthread
    | _ => nofun
  · intro node next who choice _ hkinds _ hnext
    obtain ⟨task, program, htask, hbody, houtcome⟩ := Program.round_wp hnext
    by_cases heq : thread = who
    · subst heq
      have hall := nodeBody_kind hbody fun orphanBlocks heq => hkinds orphanBlocks (heq ▸ htask)
      have hwp : (NodeProgram.run C build program).wp
          (fun task' _ => (∀ orphanBlocks, task' ≠ .network orphanBlocks) ∧ True)
          (fun _ _ => True) node.shared :=
        hall.wp_run (fun _ _ => True) (fun _ => trivial) (fun _ _ _ _ _ => trivial)
          (fun _ _ _ => Effect.wp_true) node.shared
      obtain ⟨thread', hthreads, hpost⟩ := houtcome hwp
      rw [hthreads, Function.update_self]
      cases thread' with
      | ok task' =>
          rintro orphanBlocks ⟨⟩
          exact hpost.1 orphanBlocks rfl
      | error reason => nofun
    · have hwp : (NodeProgram.run C build program).wp (fun _ _ => True) (fun _ _ => True)
          node.shared := Effect.wp_true
      obtain ⟨thread', hthreads, _⟩ := houtcome hwp
      rw [hthreads, Function.update_of_ne heq]
      exact hkinds

end BitcoinClient
