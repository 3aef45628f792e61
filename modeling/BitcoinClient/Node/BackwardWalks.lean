import BitcoinClient.LongestChain
import BitcoinClient.Node.LookupSafety
import BitcoinClient.Node.OffMiner

/-! # The walks from the tip back

`tx_exist_check` and two endpoints walk from the tip to its ancestors and release the lock
between any two steps. Blocks that other threads insert under new hashes leave the way of
the walk as it is, so each walk sees the chain that `all_blocks_in_longest_chain` would have
reported when the walk read the tip (`walks_agree`).
-/

namespace BitcoinClient

open NodeProgram (call)

/-- What other threads may do between two steps of a walk: store ledger states and insert
blocks under new hashes, and whatever leaves both maps alone. -/
inductive OthersInsert (C : Crypto) (build : Build) : Shared → Shared → Prop
  | refl (s : Shared) : OthersInsert C build s s
  | writeBlockState {s s' s'' : Shared} {hash : H256} {state : State} :
      OthersInsert C build s s' → s'.blockState.value.containsKey hash = false →
      writeBlockState hash state s' = .ok () s'' → OthersInsert C build s s''
  | insertBlock {s s' s'' : Shared} {block : Block} : OthersInsert C build s s' →
      s'.blockchain.value.blocks.containsKey (block.hash C) = false →
      insertBlock C build block s' = .ok () s'' → OthersInsert C build s s''
  | elsewhere {s s' s'' : Shared} : OthersInsert C build s s' →
      s''.blockchain = s'.blockchain → s''.blockState = s'.blockState →
      OthersInsert C build s s''

/-- Nobody panicked while holding the lock of the block tree or of the ledger states. -/
structure Unpoisoned (s : Shared) : Prop where
  blockchain : s.blockchain.poisoned = false
  blockState : s.blockState.poisoned = false

/-- What a walk relies on: entries stay as they are, and no lock becomes poisoned. -/
structure EntriesKept (s s' : Shared) : Prop where
  blocks : ∀ hash entry, s.blockchain.value.blocks.get hash = some entry →
    s'.blockchain.value.blocks.get hash = some entry
  states : ∀ hash state, s.blockState.value.get hash = some state →
    s'.blockState.value.get hash = some state
  locks : Unpoisoned s → Unpoisoned s'

/-- A program that returns while others insert blocks, with a result in `post`. -/
abbrev NodeProgram.ReturnsAmid {α : Type} (C : Crypto) (build : Build) (post : α → Prop)
    (program : NodeProgram α) (s : Shared) : Prop :=
  Program.Returns (Op.action C build) (OthersInsert C build) (fun result _ => post result) program s

/-- The number of stored blocks, counted as they are inserted. -/
def countBlocks (op : Op) (_ : op.Result) (_ : Shared) (count : Nat) : Nat :=
  match op with
  | .insertBlock _ => count + 1
  | _ => count

variable {C : Crypto} {build : Build} {s s' : Shared}

theorem EntriesKept.trans {s'' : Shared} (h : EntriesKept s s') (h' : EntriesKept s' s'') :
    EntriesKept s s'' :=
  ⟨fun hash entry hget => h'.blocks hash entry (h.blocks hash entry hget),
    fun hash state hget => h'.states hash state (h.states hash state hget),
    fun hlocks => h'.locks (h.locks hlocks)⟩

theorem writeBlockState_kept {hash : H256} {state : State}
    (hnew : s.blockState.value.containsKey hash = false) :
    (writeBlockState hash state).wp (fun _ s' => EntriesKept s s') (fun _ _ => True) s := by
  rw [wp_writeBlockState]
  refine ⟨fun _ => trivial, fun _ => ⟨fun _ _ => id, fun other state' hget => ?_, ?_⟩⟩
  · change (s.blockState.value.insert hash state).get other = some state'
    rw [HashMap.get_insert_ne, hget]
    rintro rfl
    rw [HashMap.containsKey_of_get hget] at hnew
    cases hnew
  · exact fun hlocks => ⟨hlocks.blockchain, hlocks.blockState⟩

theorem insertBlock_kept {block : Block}
    (hnew : s.blockchain.value.blocks.containsKey (block.hash C) = false) :
    (insertBlock C build block).wp (fun _ s' => EntriesKept s s') (fun _ _ => True) s := by
  rw [wp_insertBlock]
  refine ⟨fun _ => trivial, fun _ => ?_⟩
  cases hinsert : s.blockchain.value.insert C build block with
  | error reason => trivial
  | ok next =>
      refine ⟨fun hash entry hget => ?_, fun _ _ => id,
        fun hlocks => ⟨hlocks.blockchain, hlocks.blockState⟩⟩
      rcases Blockchain.get_of_insert hinsert hget with hget' | ⟨rfl, _, _⟩
      · exact hget'
      · rw [HashMap.containsKey_of_get hget] at hnew
        cases hnew

theorem OthersInsert.kept (h : OthersInsert C build s s') : EntriesKept s s' := by
  induction h with
  | refl => exact ⟨fun _ _ => id, fun _ _ => id, id⟩
  | writeBlockState _ hnew hrun ih =>
      exact ih.trans ((Effect.wp_of_ok hrun).mp (writeBlockState_kept hnew))
  | insertBlock _ hnew hrun ih =>
      exact ih.trans ((Effect.wp_of_ok hrun).mp (insertBlock_kept hnew))
  | elsewhere _ hblockchain hblockState ih =>
      refine ih.trans ⟨fun hash entry hget => ?_, fun hash state hget => ?_, fun hlocks => ?_⟩
      · rw [hblockchain]
        exact hget
      · rw [hblockState]
        exact hget
      · exact ⟨hblockchain ▸ hlocks.blockchain, hblockState ▸ hlocks.blockState⟩

/-! ## Steps of a walk -/

/-- A stored block is found, and the walk goes on where its entry and all others are kept. -/
theorem getBlock_returns {α : Type} {hash : H256} {block : Block} {height : UInt32}
    {next : Block × UInt32 → NodeProgram α} {post : α → Prop} (hlocks : Unpoisoned s)
    (hget : s.blockchain.value.blocks.get hash = some (block, height))
    (hnext : ∀ s', EntriesKept s s' → (next (block, height)).ReturnsAmid C build post s') :
    NodeProgram.ReturnsAmid C build post (call (.getBlock hash) >>= next) s := by
  refine Program.returns_call.mpr ((wp_getBlock hash).mpr ⟨fun hpoisoned => ?_, fun _ => ?_⟩)
  · rw [hlocks.blockchain] at hpoisoned
    cases hpoisoned
  · rw [hget]
    exact fun s' hothers => hnext s' hothers.kept

theorem readTip_returns {α : Type} {next : H256 → NodeProgram α} {post : α → Prop}
    (hlocks : Unpoisoned s)
    (hnext : ∀ s', EntriesKept s s' →
      (next s.blockchain.value.tip).ReturnsAmid C build post s') :
    NodeProgram.ReturnsAmid C build post (call .readTip >>= next) s := by
  refine Program.returns_call.mpr (wp_readTip.mpr ⟨fun hpoisoned => ?_, fun _ => ?_⟩)
  · rw [hlocks.blockchain] at hpoisoned
    cases hpoisoned
  · exact fun s' hothers => hnext s' hothers.kept

theorem readBlockState_returns {hash : H256} {state : State} (hlocks : Unpoisoned s)
    (hget : s.blockState.value.get hash = some state) :
    NodeProgram.ReturnsAmid C build (fun result => result = state)
      (call (.readBlockState hash)) s := by
  refine (wp_readBlockState hash).mpr ⟨fun hpoisoned => ?_, fun _ => ?_⟩
  · rw [hlocks.blockState] at hpoisoned
    cases hpoisoned
  · rw [hget]
    exact fun _ _ => rfl

/-! ## The loops -/

theorem Blockchain.Ancestry.kept {hash : H256} {entries : List (H256 × Block)}
    (h : Blockchain.Ancestry s.blockchain.value.blocks hash entries) (hkept : EntriesKept s s') :
    Blockchain.Ancestry s'.blockchain.value.blocks hash entries := by
  induction h with
  | nil hash => exact .nil hash
  | cons hget _ ih => exact .cons (hkept.blocks _ _ hget) ih

theorem walkTxs_returns {nextHash : H256} {entries : List (H256 × Block)}
    (hlocks : Unpoisoned s)
    (hentries : Blockchain.Ancestry s.blockchain.value.blocks nextHash entries)
    (hashes : List (List H256)) :
    (Api.walkTxs C entries.length nextHash hashes).ReturnsAmid C build
      (fun result => result = hashes ++ entries.map fun entry => Api.txHashes C entry.2) s := by
  induction entries generalizing s nextHash hashes with
  | nil => exact (List.append_nil hashes).symm
  | cons entry rest ih =>
      cases hentries with
      | cons hget hrest =>
          refine getBlock_returns hlocks hget fun s' hkept => ?_
          refine (ih (hkept.locks hlocks) (hrest.kept hkept) _).mono fun result _ hresult => ?_
          rw [hresult, List.map_cons, List.append_assoc, List.singleton_append]

theorem walkDown_returns {nextHash : H256} {block : Block} {entries : List (H256 × Block)}
    (hlocks : Unpoisoned s)
    (hentries : Blockchain.Ancestry s.blockchain.value.blocks block.head.parent entries)
    {steps : Nat} (hsteps : steps ≤ entries.length) :
    (Api.walkDown steps nextHash block).Returns (Op.action C build) (OthersInsert C build)
      (fun result s' => (nextHash :: entries.map Prod.fst)[steps]? = some result ∧
        EntriesKept s s') s := by
  induction steps generalizing s nextHash block entries with
  | zero => exact ⟨rfl, fun _ _ => id, fun _ _ => id, id⟩
  | succ steps ih =>
      cases hentries with
      | nil => cases hsteps
      | @cons _ parent height rest hget hrest =>
          refine Program.returns_call.mpr ((wp_getBlock _).mpr ⟨fun hpoisoned => ?_, fun _ => ?_⟩)
          · rw [hlocks.blockchain] at hpoisoned
            cases hpoisoned
          · rw [hget]
            intro s' hothers
            refine (ih (hothers.kept.locks hlocks) (hrest.kept hothers.kept)
              (Nat.le_of_succ_le_succ hsteps)).mono fun result s'' h => ?_
            exact ⟨h.1, hothers.kept.trans h.2⟩

theorem txExistLoop_returns {tx nextHash : H256} {entries : List (H256 × Block)}
    (hlocks : Unpoisoned s)
    (hentries : Blockchain.Ancestry s.blockchain.value.blocks nextHash entries) :
    (txExistLoop C tx entries.length nextHash).ReturnsAmid C build
      (fun result => result = false ↔ ∃ entry ∈ entries, hasTransaction C tx entry.2 = true) s := by
  induction entries generalizing s nextHash with
  | nil => exact iff_of_false (fun h => Bool.noConfusion h) (by simp)
  | cons entry rest ih =>
      cases hentries with
      | @cons _ block height _ hget hrest =>
          refine getBlock_returns hlocks hget fun s' hkept => ?_
          by_cases hfound : hasTransaction C tx block = true
          · rw [if_pos hfound]
            exact iff_of_true rfl ⟨_, List.mem_cons_self, hfound⟩
          · rw [if_neg hfound]
            refine (ih (hkept.locks hlocks) (hrest.kept hkept)).mono fun result _ hresult => ?_
            exact Iff.trans hresult (by simp [hfound])

/-! ## The locks -/

/-- Fewer than `2 ^ 32` blocks: no height overflows, and nobody panics with a lock. -/
structure ChainLocks (s : Shared × Nat) : Prop where
  heights : ∀ hash block height, s.1.blockchain.value.blocks.get hash = some (block, height) →
    height.toNat + 1 ≤ s.2
  unpoisoned : s.2 < 2 ^ 32 → Unpoisoned s.1

theorem Unpoisoned.withBlockchain {α : Type} {body : Blockchain → Except Panic (α × Blockchain)}
    (h : Unpoisoned s) {result : α} {value : Blockchain}
    (hbody : body s.blockchain.value = .ok (result, value)) :
    (withBlockchain body).wp (fun _ s' => Unpoisoned s') (fun _ s' => Unpoisoned s') s := by
  rw [wp_withBlockchain]
  refine ⟨fun _ => h, fun _ => ?_⟩
  rw [hbody]
  exact ⟨h.blockchain, h.blockState⟩

/-- An operation in its contract does not panic with a lock when no height overflows. -/
theorem unpoisoned_op {adm mined : Block → Prop} (op : Op) (h : Unpoisoned s)
    (hinv : ChainInvariant C adm s) (hdistinct : HeadersDistinct C adm)
    (hpre : (chainContract C adm mined).pre op s)
    (hfit : ∀ hash block height, s.blockchain.value.blocks.get hash = some (block, height) →
      height.toNat + 1 < 2 ^ 32) :
    (op.action C build).wp (fun _ s' => Unpoisoned s') (fun _ s' => Unpoisoned s') s := by
  cases op with
  | containsBlock hash => exact (wp_containsBlock hash).mpr ⟨fun _ => h, fun _ => h⟩
  | readTip => exact wp_readTip.mpr ⟨fun _ => h, fun _ => h⟩
  | getBlock hash =>
      obtain ⟨entry, hget⟩ := HashMap.containsKey_iff.mp (hpre hdistinct)
      refine (wp_getBlock hash).mpr ⟨fun _ => h, fun _ => ?_⟩
      rw [hget]
      exact h
  | insertBlock block =>
      obtain ⟨⟨parent, parentHeight⟩, hparent⟩ := HashMap.containsKey_iff.mp hpre.1.parent
      obtain ⟨tip, htip⟩ := HashMap.containsKey_iff.mp hinv.tip
      -- The heights leave room for one more.
      obtain ⟨height, hadd, _⟩ := addU32_of_lt build
        (show parentHeight.toNat + (1 : UInt32).toNat < 2 ^ 32 from hfit _ _ _ hparent)
      refine (wp_insertBlock C build block).mpr ⟨fun _ => h, fun _ => ?_⟩
      rw [Blockchain.insert_eq hparent htip, hadd]
      exact ⟨h.blockchain, h.blockState⟩
  | longestChain =>
      obtain ⟨hashes, hreport⟩ := hinv.allBlocksInLongestChain_ok hdistinct
      simp only [Op.action, longestChain]
      exact h.withBlockchain (except_bind_eq_ok.mpr ⟨hashes, hreport, rfl⟩)
  | answerNewBlockHashes peer hashes =>
      simp only [Op.action, answerNewBlockHashes, Effect.wp_bind]
      refine Effect.wp_mono (h.withBlockchain rfl) (fun missing s' h' => ?_) fun _ _ h => h
      split
      next => exact ⟨h'.blockchain, h'.blockState⟩
      next => exact h'
  | answerGetBlocks peer blockHashes =>
      simp only [Op.action, answerGetBlocks, Effect.wp_bind]
      refine Effect.wp_mono (h.withBlockchain rfl) (fun found s' h' => ?_) fun _ _ h => h
      cases found with
      | some blocks => exact ⟨h'.blockchain, h'.blockState⟩
      | none => exact h'
  | readBlockState hash =>
      obtain ⟨state, hget⟩ := HashMap.containsKey_iff.mp (hpre hdistinct)
      refine (wp_readBlockState hash).mpr ⟨fun _ => h, fun _ => ?_⟩
      rw [hget]
      exact h
  | writeBlockState hash state =>
      exact (wp_writeBlockState hash state).mpr
        ⟨fun _ => h, fun _ => ⟨h.blockchain, h.blockState⟩⟩
  | mempoolContains hash => exact (wp_mempoolContains hash).mpr ⟨fun _ => h, fun _ => h⟩
  | mempoolGet hash =>
      refine (wp_mempoolGet hash).mpr ⟨fun _ => h, fun _ => ?_⟩
      cases s.mempool.value.trans.get hash with
      | some st => exact h
      | none => exact ⟨h.blockchain, h.blockState⟩
  | mempoolInsert hash st =>
      exact (wp_mempoolInsert hash st).mpr ⟨fun _ => h, fun _ => ⟨h.blockchain, h.blockState⟩⟩
  | mempoolRemove hash =>
      exact (wp_mempoolRemove hash).mpr ⟨fun _ => h, fun _ => ⟨h.blockchain, h.blockState⟩⟩
  | iterateMempool iteration limit =>
      simp only [Op.action, iterateMempool, wp_withMempool]
      exact ⟨fun _ => h, fun _ => ⟨h.blockchain, h.blockState⟩⟩
  | panic reason => exact h
  | _ => exact ⟨h.blockchain, h.blockState⟩

/-- Heights grow by at most one with each block. -/
theorem heights_op (op : Op) {count : Nat}
    (h : ∀ hash block height, s.blockchain.value.blocks.get hash = some (block, height) →
      height.toNat + 1 ≤ count) :
    (op.action C build).wp (fun result s' => ∀ hash block height,
        s'.blockchain.value.blocks.get hash = some (block, height) →
          height.toNat + 1 ≤ countBlocks op result s count)
      (fun _ s' => ∀ hash block height,
        s'.blockchain.value.blocks.get hash = some (block, height) →
          height.toNat + 1 ≤ count) s := by
  have hframe : op.writesBlocks = false → (op.action C build).wp
      (fun result s' => ∀ hash block height,
        s'.blockchain.value.blocks.get hash = some (block, height) → height.toNat + 1 ≤ count)
      (fun _ s' => ∀ hash block height,
        s'.blockchain.value.blocks.get hash = some (block, height) →
          height.toNat + 1 ≤ count) s := by
    intro hwrites
    refine Effect.wp_mono (op.wp_frame C build) (fun _ s' hsame => ?_) fun _ s' hsame => ?_
    · rw [hsame.blocks hwrites]
      exact h
    · rw [hsame.1.blocks hwrites]
      exact h
  cases op with
  | insertBlock block =>
      refine (wp_insertBlock C build block).mpr ⟨fun _ => h, fun _ => ?_⟩
      cases hinsert : s.blockchain.value.insert C build block with
      | error reason => exact h
      | ok next =>
          obtain ⟨parent, parentHeight, height, _, _, hparent, hadd, _, hblocks, _⟩ :=
            Blockchain.insert_ok hinsert
          intro hash other otherHeight hget
          change next.blocks.get hash = some (other, otherHeight) at hget
          rw [hblocks] at hget
          change otherHeight.toNat + 1 ≤ count + 1
          rcases HashMap.of_get_insert hget with ⟨_, heq⟩ | hget
          · cases heq
            exact Nat.succ_le_succ ((addU32_toNat_le hadd).trans (h _ _ _ hparent))
          · exact Nat.le_succ_of_le (h _ _ _ hget)
  | _ => exact hframe rfl

/-- One operation of a thread that keeps its contract. -/
theorem chainLocks_op {adm mined : Block → Prop} (op : Op) {s : Shared × Nat} (h : ChainLocks s)
    (hinv : ChainInvariant C adm s.1) (hdistinct : HeadersDistinct C adm)
    (hpre : (chainContract C adm mined).pre op s.1) :
    (Program.recording (Op.action C build) countBlocks op).wp (fun _ s' => ChainLocks s')
      (fun _ s' => ChainLocks s') s := by
  rw [Program.wp_recording]
  have hgrows : ∀ result, s.2 ≤ countBlocks op result s.1 s.2 := by
    intro result
    cases op with
    | insertBlock block => exact Nat.le_succ s.2
    | _ => exact Nat.le_refl s.2
  have hlocks : (op.action C build).wp (fun _ s' => s.2 < 2 ^ 32 → Unpoisoned s')
      (fun _ s' => s.2 < 2 ^ 32 → Unpoisoned s') s.1 := by
    by_cases hfew : s.2 < 2 ^ 32
    · refine Effect.wp_mono (unpoisoned_op op (h.unpoisoned hfew) hinv hdistinct hpre ?_)
        (fun _ _ hlocks _ => hlocks) fun _ _ hlocks _ => hlocks
      exact fun hash block height hget => (h.heights hash block height hget).trans_lt hfew
    · exact Effect.wp_mono Effect.wp_true (fun _ _ _ hlt => absurd hlt hfew)
        fun _ _ _ hlt => absurd hlt hfew
  refine Effect.wp_and (heights_op op h.heights) hlocks ?_ ?_
  · exact fun result s' hheights hlocks =>
      ⟨hheights, fun hfew => hlocks ((hgrows result).trans_lt hfew)⟩
  · exact fun _ s' hheights hlocks => ⟨hheights, hlocks⟩

variable {geneLoop : GeneLoop} {icoKey : Ed25519KeyPair} {workers requests : Nat}
  {headers : Set Header}

/-- No run with fewer than `2 ^ 32` blocks poisons the locks that the walks take. -/
theorem node_chainLocks {node : RecordedNode Nat workers requests}
    (hfree : Set.InjOn (Header.hash C) headers) (hgenesis : Blockchain.genesis.head ∈ headers)
    (hreach : (recordedMachine C build geneLoop countBlocks).Reachable
      (fun (node : RecordedNode Nat workers requests) => HeadersIn headers node.node)
      (RecordedNode.start C icoKey 1 workers requests) node) : ChainLocks node.shared := by
  refine Machine.Reachable.invariant (fun node => ChainLocks node.shared) ⟨?_, ?_⟩ ?_ hreach
  · intro hash block height hget
    have hentry : height = 0 := by
      simp only [RecordedNode.start, Shared.initial, Blockchain.new, HashMap.get_insert,
        HashMap.get_empty, Option.ite_none_right_eq_some, Option.some.injEq, Prod.mk.injEq] at hget
      exact hget.2.2.symm
    rw [hentry]
    exact Nat.le_refl 1
  · exact fun _ => ⟨rfl, rfl⟩
  · intro node node' who choice hnode hlocks _ hnext
    obtain ⟨hinv, hthreads⟩ := node_chainInvariant (fun block => block.head ∈ headers)
      (fun block => block.head ∈ headers) (fun _ _ hmined => hmined) (fun _ _ _ => id)
      (Program.Reachable.forget_guard (fun _ _ _ => id) hnode)
    rcases Program.next_cases hnext with ⟨_, _, _, _, rfl⟩ | ⟨op, next, hthread, houtcome⟩
    · exact hlocks
    · have hpre := (hthreads who).pre (Grows.refl _) hinv
        (show ((Program.forget node).threads who).pending = some op by
          rw [Program.forget, hthread]
          rfl)
      rcases houtcome (chainLocks_op op hlocks hinv (.of_injOn hfree hgenesis) hpre) with
        ⟨_, _, hpost, rfl⟩ | ⟨_, _, hfail, rfl⟩
      · exact hpost
      · exact hfail

/-! ## Agreement -/

/-- The walks return what belongs to the chain that is reported when they read the tip. -/
structure WalksAgree (C : Crypto) (build : Build) (s : Shared) (hashes : List H256) : Prop where
  longestChainTx : (Api.longestChainTx C).ReturnsAmid C build (fun txs =>
    List.Forall₂ (fun hash blockTxs => ∃ block height,
      s.blockchain.value.blocks.get hash = some (block, height) ∧
        blockTxs = Api.txHashes C block) hashes txs) s
  stateAt : ∀ tipBlock tipHeight,
    s.blockchain.value.blocks.get s.blockchain.value.tip = some (tipBlock, tipHeight) →
    ∀ k : UInt32, k ≤ tipHeight → ∃ hash state, hashes[k.toNat]? = some hash ∧
      s.blockState.value.get hash = some state ∧
      (Api.stateAt k).ReturnsAmid C build (fun result => result = state) s
  txExistCheck : ∀ tx, (txExistCheck C tx).ReturnsAmid C build (fun result =>
    result = false ↔ ∃ hash ∈ hashes, ∃ block height,
      s.blockchain.value.blocks.get hash = some (block, height) ∧ tx ∈ Api.txHashes C block) s

theorem hasTransaction_iff {tx : H256} {block : Block} :
    hasTransaction C tx block = true ↔ tx ∈ Api.txHashes C block := by
  rw [hasTransaction, List.any_eq_true, Api.txHashes, List.mem_map]
  constructor
  · rintro ⟨st, hst, heq⟩
    exact ⟨st, hst, (beq_iff_eq.mp heq).symm⟩
  · rintro ⟨st, hst, heq⟩
    exact ⟨st, hst, beq_iff_eq.mpr heq.symm⟩

/-- The ancestors of the tip, as many as its height says. -/
structure TipAncestry (s : Shared) (block : Block) (height : UInt32)
    (rest : List (H256 × Block)) : Prop where
  tip : s.blockchain.value.blocks.get s.blockchain.value.tip = some (block, height)
  ancestors : Blockchain.Ancestry s.blockchain.value.blocks block.head.parent rest
  length : rest.length = height.toNat

namespace TipAncestry

variable {block : Block} {height : UInt32} {rest : List (H256 × Block)}

theorem stored (h : TipAncestry s block height rest) :
    ∀ entry ∈ (s.blockchain.value.tip, block) :: rest,
      ∃ height, s.blockchain.value.blocks.get entry.1 = some (entry.2, height) :=
  (Blockchain.Ancestry.cons h.tip h.ancestors).stored

/-- The walks begin in the same way: they read the tip and then its entry. -/
theorem start_returns {α : Type} {next : H256 → Block × UInt32 → NodeProgram α} {post : α → Prop}
    (h : TipAncestry s block height rest) (hlocks : Unpoisoned s)
    (hnext : ∀ s', EntriesKept s s' →
      (next s.blockchain.value.tip (block, height)).ReturnsAmid C build post s') :
    NodeProgram.ReturnsAmid C build post
      (call .readTip >>= fun tip => call (.getBlock tip) >>= next tip) s := by
  refine readTip_returns hlocks fun s₁ hkept₁ => ?_
  refine getBlock_returns (hkept₁.locks hlocks) (hkept₁.blocks _ _ h.tip) fun s₂ hkept₂ => ?_
  exact hnext s₂ (hkept₁.trans hkept₂)

theorem longestChainTx_returns (h : TipAncestry s block height rest) (hlocks : Unpoisoned s) :
    (Api.longestChainTx C).ReturnsAmid C build (fun txs =>
      List.Forall₂ (fun hash blockTxs => ∃ block height,
        s.blockchain.value.blocks.get hash = some (block, height) ∧
          blockTxs = Api.txHashes C block)
        (((s.blockchain.value.tip, block) :: rest).map Prod.fst).reverse txs) s := by
  refine h.start_returns hlocks fun s' hkept => ?_
  refine (Program.returns_bind _ _).mpr ?_
  rw [← h.length]
  refine (walkTxs_returns (hkept.locks hlocks) (h.ancestors.kept hkept) _).mono ?_
  intro txs _ htxs
  have hwhole : txs = ((s.blockchain.value.tip, block) :: rest).map
      fun entry => Api.txHashes C entry.2 := htxs
  change List.Forall₂ _ _ txs.reverse
  rw [hwhole, List.forall₂_reverse_iff, List.forall₂_map_left_iff, List.forall₂_map_right_iff,
    List.forall₂_same]
  intro entry hentry
  obtain ⟨entryHeight, hget⟩ := h.stored entry hentry
  exact ⟨entry.2, entryHeight, hget, rfl⟩

theorem stateAt_returns (h : TipAncestry s block height rest) (hlocks : Unpoisoned s)
    (hstates : ∀ hash, s.blockchain.value.blocks.containsKey hash = true →
      s.blockState.value.containsKey hash = true) {k : UInt32} (hk : k ≤ height) :
    ∃ hash state, (((s.blockchain.value.tip, block) :: rest).map Prod.fst).reverse[k.toNat]? =
        some hash ∧ s.blockState.value.get hash = some state ∧
      (Api.stateAt k).ReturnsAmid C build (fun result => result = state) s := by
  have hle : k.toNat ≤ height.toNat := hk
  have hlength := h.length
  have hcount : (((s.blockchain.value.tip, block) :: rest).map Prod.fst).length =
      height.toNat + 1 := by
    rw [List.length_map, List.length_cons, hlength]
  -- Counted from the tip, the walk stops after `height - k` steps.
  obtain ⟨hash, hhash⟩ : ∃ hash, (((s.blockchain.value.tip, block) :: rest).map Prod.fst)[
      height.toNat - k.toNat]? = some hash := ⟨_, List.getElem?_eq_getElem (by omega)⟩
  obtain ⟨entry, hentry, rfl⟩ := List.mem_map.mp (List.mem_of_getElem? hhash)
  obtain ⟨entryHeight, hget⟩ := h.stored entry hentry
  obtain ⟨state, hstate⟩ :=
    HashMap.containsKey_iff.mp (hstates entry.1 (HashMap.containsKey_of_get hget))
  refine ⟨entry.1, state, ?_, hstate, h.start_returns hlocks fun s₁ hkept₁ => ?_⟩
  · rw [List.getElem?_reverse (by omega), hcount, show height.toNat + 1 - 1 - k.toNat =
      height.toNat - k.toNat by omega, hhash]
  · refine (Program.returns_bind _ _).mpr ((walkDown_returns (hkept₁.locks hlocks)
      (h.ancestors.kept hkept₁) (show height.toNat - k.toNat ≤ rest.length by omega)).mono ?_)
    rintro hash s₂ ⟨hresult, hkept₂⟩
    obtain rfl := Option.some.inj (hresult.symm.trans hhash)
    have hkept := hkept₁.trans hkept₂
    exact readBlockState_returns (hkept.locks hlocks) (hkept.states _ _ hstate)

theorem txExistCheck_returns (h : TipAncestry s block height rest) (hlocks : Unpoisoned s)
    (tx : H256) : (txExistCheck C tx).ReturnsAmid C build (fun result => result = false ↔
      ∃ hash ∈ (((s.blockchain.value.tip, block) :: rest).map Prod.fst).reverse, ∃ block height,
        s.blockchain.value.blocks.get hash = some (block, height) ∧ tx ∈ Api.txHashes C block)
      s := by
  have hfound : (∃ hash ∈ (((s.blockchain.value.tip, block) :: rest).map Prod.fst).reverse,
      ∃ block height, s.blockchain.value.blocks.get hash = some (block, height) ∧
        tx ∈ Api.txHashes C block) ↔
      ∃ entry ∈ (s.blockchain.value.tip, block) :: rest, hasTransaction C tx entry.2 = true := by
    constructor
    · rintro ⟨hash, hmem, other, otherHeight, hget, htx⟩
      obtain ⟨entry, hentry, rfl⟩ := List.mem_map.mp (List.mem_reverse.mp hmem)
      obtain ⟨entryHeight, hget'⟩ := h.stored entry hentry
      obtain ⟨rfl, _⟩ := Prod.mk.inj (Option.some.inj (hget'.symm.trans hget))
      exact ⟨entry, hentry, hasTransaction_iff.mpr htx⟩
    · rintro ⟨entry, hentry, htx⟩
      obtain ⟨entryHeight, hget⟩ := h.stored entry hentry
      exact ⟨entry.1, List.mem_reverse.mpr (List.mem_map_of_mem hentry), entry.2, entryHeight,
        hget, hasTransaction_iff.mp htx⟩
  rw [hfound]
  refine h.start_returns hlocks fun s' hkept => ?_
  by_cases htx : hasTransaction C tx block = true
  · rw [if_pos htx]
    exact iff_of_true rfl ⟨_, List.mem_cons_self, htx⟩
  · rw [if_neg htx, ← h.length]
    refine (txExistLoop_returns (hkept.locks hlocks) (h.ancestors.kept hkept)).mono ?_
    exact fun result _ hresult => Iff.trans hresult (by simp [htx])

end TipAncestry

/-- For every chain that a run with fewer than `2 ^ 32` blocks reaches, and for all insertions of
new blocks while they run, the walks return what belongs to the reported longest chain. -/
theorem walks_agree (C : Crypto) (build : Build) (geneLoop : GeneLoop) (icoKey : Ed25519KeyPair)
    (workers requests : Nat) (headers : Set Header)
    (hfree : Set.InjOn (Header.hash C) headers) (hgenesis : Blockchain.genesis.head ∈ headers)
    (node : RecordedNode Nat workers requests)
    (hreach : (recordedMachine C build geneLoop countBlocks).Reachable
      (fun (node : RecordedNode Nat workers requests) => HeadersIn headers node.node)
      (RecordedNode.start C icoKey 1 workers requests) node)
    (hfew : node.shared.2 < 2 ^ 32) :
    ∃ hashes, node.node.shared.blockchain.value.allBlocksInLongestChain = .ok hashes ∧
      WalksAgree C build node.node.shared hashes := by
  obtain ⟨hinv, _⟩ := node_chainInvariant (fun block => block.head ∈ headers)
    (fun block => block.head ∈ headers) (fun _ _ hmined => hmined) (fun _ _ _ => id)
    (Program.Reachable.forget_guard (fun _ _ _ => id) hreach)
  have hlocks := (node_chainLocks hfree hgenesis hreach).unpoisoned hfew
  obtain ⟨hashes, hreport⟩ := hinv.allBlocksInLongestChain_ok (.of_injOn hfree hgenesis)
  obtain ⟨block, height, rest, htip, hrest, hlength, rfl⟩ :=
    Blockchain.allBlocksInLongestChain_eq_ok_iff.mp hreport
  have htipAncestry : TipAncestry node.node.shared block height rest := ⟨htip, hrest, hlength⟩
  refine ⟨_, hreport, htipAncestry.longestChainTx_returns hlocks, ?_,
    htipAncestry.txExistCheck_returns hlocks⟩
  intro tipBlock tipHeight htip' k hk
  obtain ⟨rfl, rfl⟩ := Prod.mk.inj (Option.some.inj (htip.symm.trans htip'))
  exact htipAncestry.stateAt_returns hlocks hinv.states hk

theorem walks_agree_uncommittedBlock :
    ∃ node : RecordedNode Nat 1 0,
      node.node.shared.blockchain.value.tip = uncommittedBlock.hash .sample ∧
      ∃ hashes, node.node.shared.blockchain.value.allBlocksInLongestChain = .ok hashes ∧
        WalksAgree .sample .release node.node.shared hashes := by
  let headers : List Header := [Blockchain.genesis.head, uncommittedBlock.head]
  have hfree : Set.InjOn (Header.hash .sample) {header | header ∈ headers} := by
    have hdistinct : ∀ left ∈ headers, ∀ right ∈ headers,
        left.hash .sample = right.hash .sample → left = right := by decide +kernel
    exact fun left hleft right hright heq => hdistinct left hleft right hright heq
  have hrun : ((recordedMachine .sample .release sampleGeneLoop countBlocks).run
      (fun (node : RecordedNode Nat 1 0) who choice =>
        decide ((∀ block ∈ choice.blocks, block.head ∈ headers) ∧
          ∀ block ∈ node.node.finishing who, block.head ∈ headers))
      (RecordedNode.start .sample Crypto.sampleKey 1 1 0) deliverUncommittedBlock).any
        (fun node => decide (node.shared.2 < 2 ^ 32 ∧
          node.shared.1.blockchain.value.tip = uncommittedBlock.hash .sample)) = true := by
    decide +kernel
  obtain ⟨node, hreach, hcheck⟩ :=
    Machine.exists_reachable (fun _ _ _ hallowed => of_decide_eq_true hallowed) hrun
  obtain ⟨hfew, htip⟩ := of_decide_eq_true hcheck
  exact ⟨node, htip, walks_agree .sample .release sampleGeneLoop Crypto.sampleKey 1 0
    {header | header ∈ headers} hfree List.mem_cons_self node hreach hfew⟩

end BitcoinClient
