import BitcoinClient.Foundation.History
import BitcoinClient.Node.Rounds

/-! # What the other threads leave to the miner

Only the miner and its worker use the queue of mined blocks, choose transactions from the
mempool and remove them from it. Whatever the network workers, the generator and the API
do, they add transactions to the mempool under their own hashes only.
-/

namespace BitcoinClient

open NodeProgram (call)

/-- The operations of the threads other than the miner and its worker. -/
def Op.OffMiner (C : Crypto) : Op → Prop
  | .finishBlock _ | .takeFinishedBlock | .mempoolRemove _ | .iterateMempool .. => False
  | .mempoolInsert hash transaction => transaction.hash C = hash
  | _ => True

/-- The tasks of the threads other than the miner and its worker. -/
def Task.offMiner : Task → Bool
  | .miner _ | .minerWorker => false
  | _ => true

/-- Whether a thread is neither the miner nor its worker. -/
def ThreadId.offMiner {workers requests : Nat} : ThreadId workers requests → Bool
  | .miner | .minerWorker => false
  | _ => true

/-- The block has a transaction with that hash. -/
def Block.Contains (C : Crypto) (hash : H256) (block : Block) : Prop :=
  ∃ st ∈ block.cont.st, st.hash C = hash

instance (C : Crypto) (hash : H256) (block : Block) : Decidable (block.Contains C hash) :=
  inferInstanceAs (Decidable (∃ st ∈ block.cont.st, st.hash C = hash))

variable {C : Crypto} {build : Build}

theorem admitBlock_offMiner (block : Block) :
    (admitBlock C build block).All (Op.OffMiner C) fun _ => True := by
  unfold admitBlock checkTxState call
  simp only [Program.all_bind, Program.call_bind, Program.all_perform]
  refine ⟨trivial, fun state => ?_⟩
  split
  next => trivial
  next => exact ⟨trivial, fun stopped => Empty.elim stopped⟩
  next => exact ⟨trivial, fun _ => ⟨trivial, fun _ => trivial⟩⟩

theorem part_offMiner {α : Type} {program : NodeProgram α} (h : IsPart C build α program) :
    program.All (Op.OffMiner C) fun _ => True := by
  cases h with
  | admitBlock block => exact admitBlock_offMiner block
  | answerGetTransactions peer hashes =>
      have hfetch : ∀ (hashes : List H256) trans,
          (fetchTransactions trans hashes).All (Op.OffMiner C) fun _ => True := by
        intro hashes
        induction hashes with
        | nil => exact fun _ => trivial
        | cons hash rest ih =>
            refine fun trans => ⟨trivial, fun known => ?_⟩
            cases known with
            | false => trivial
            | true => exact ⟨trivial, fun transaction => ih _⟩
      unfold answerGetTransactions
      rw [Program.all_bind]
      refine (hfetch hashes []).mono (fun _ => id) fun trans _ => ?_
      cases trans with
      | some trans => exact ⟨trivial, fun _ => trivial⟩
      | none => trivial
  | storeTransaction newTrans trans =>
      unfold storeTransaction
      split
      next =>
        refine ⟨trivial, fun known => ?_⟩
        cases known with
        | true => trivial
        | false => exact ⟨rfl, fun _ => trivial⟩
      next => trivial
  | generate geneLoop generator iteration =>
      unfold GeneLoop.generate
      split
      next =>
        split
        next => trivial
        next =>
          refine ⟨trivial, fun known => ?_⟩
          cases known with
          | true => exact ⟨trivial, fun _ => trivial⟩
          | false => exact ⟨rfl, fun _ => ⟨trivial, fun _ => trivial⟩⟩

theorem common_offMiner {op : Op} (h : op.isCommon = true) : op.OffMiner C := by
  cases op with
  | mempoolRemove hash => cases h
  | iterateMempool iteration limit => cases h
  | finishBlock block => cases h
  | takeFinishedBlock => cases h
  | mempoolInsert hash trans => cases h
  | _ => trivial

/-- The rounds of the other threads. -/
theorem nodeBody_offMiner {geneLoop : GeneLoop} {task : Task} {choice : Choice}
    {program : NodeProgram Task} (htask : task.offMiner = true)
    (hbody : nodeBody C build geneLoop task choice = some program) :
    program.All (Op.OffMiner C) fun task => task.offMiner = true := by
  have hcommon : ∀ {α : Type} {program : NodeProgram α}, program.Common C build →
      program.All (Op.OffMiner C) fun _ => True := by
    intro α program h
    exact h.all (fun _ => common_offMiner) fun _ hpart => part_offMiner hpart
  unfold nodeBody at hbody
  split at hbody
  all_goals cases hbody
  next =>
    rw [Program.all_bind]
    exact (hcommon (handleMessage_composed _ _ _)).mono (fun _ => id) fun _ _ => rfl
  next => rfl
  next => cases htask
  next => cases htask
  next => exact ⟨trivial, fun _ => ⟨trivial, fun _ => rfl⟩⟩
  next =>
    rw [Program.all_bind]
    refine (hcommon (round_composed _ _ _ fun _ => .generate _ _ _)).mono (fun _ => id) ?_
    intro generator _
    cases generator <;> rfl
  next =>
    rw [Program.all_bind]
    exact (hcommon (serve_composed _)).mono (fun _ => id) fun _ _ => rfl

/-- Only the miner worker and a delivery of blocks write to the block tree. -/
theorem nodeBody_readsBlocks {geneLoop : GeneLoop} {task : Task} {choice : Choice}
    {program : NodeProgram Task} (htask : task ≠ .minerWorker) (hblocks : choice.blocks = [])
    (hbody : nodeBody C build geneLoop task choice = some program) :
    program.All (fun op => op.writesBlocks = false) fun task => task ≠ .minerWorker := by
  have hfree : ∀ op : Op, op.isFree = true → op.writesBlocks = false := by
    intro op hop
    cases op with
    | insertBlock block => cases hop
    | _ => rfl
  have hplain : ∀ {α : Type} {program : NodeProgram α},
      Program.Composed (fun op => op.isPlain = true)
        (fun _ part => part.All (fun op => op.isFree = true) fun _ => True) program →
      program.All (fun op => op.writesBlocks = false) fun _ => True := by
    intro α program hcomposed
    refine hcomposed.all (fun op hop => ?_) fun part hpart => hpart.mono hfree fun _ => id
    cases op with
    | insertBlock block => cases hop
    | _ => rfl
  unfold nodeBody at hbody
  split at hbody
  all_goals cases hbody
  next orphanBlocks peer message =>
    rw [Program.all_bind]
    -- A message with blocks has none of them, and then its loop does nothing.
    by_cases hmessage : ∃ blocks, message = .blocks blocks
    · obtain ⟨blocks, rfl⟩ := hmessage
      obtain rfl : blocks = [] := hblocks
      exact nofun
    · refine (handleMessage_free peer orphanBlocks message fun blocks heq =>
        hmessage ⟨blocks, heq⟩).mono hfree fun _ _ => nofun
  next => exact nofun
  next =>
    rw [Program.all_bind]
    refine (hplain (minerRound_composed _ _ _ _)).mono (fun _ => id) fun miner _ => ?_
    cases miner <;> exact nofun
  next => exact absurd rfl htask
  next => exact ⟨rfl, fun _ => ⟨rfl, fun _ => nofun⟩⟩
  next =>
    rw [Program.all_bind]
    refine (hplain (round_composed _ _ _ fun _ => generate_free _ _ _).plain).mono (fun _ => id) ?_
    intro generator _
    cases generator <;> exact nofun
  next =>
    rw [Program.all_bind]
    exact (hplain (serve_composed _).plain).mono (fun _ => id) fun _ _ => nofun

section Recorded

variable {γ : Type}

/-- The threads of the node with a history of their operations. -/
def recordedMachine (C : Crypto) (build : Build) (geneLoop : GeneLoop)
    (record : (op : Op) → op.Result → Shared → γ → γ) :
    Machine (Shared × γ) Panic (Program.Thread Panic Op Op.Result Task) Choice :=
  Program.loopMachine (Program.recording (Op.action C build) record) (nodeBody C build geneLoop)

/-- A running node with a history. -/
abbrev RecordedNode (γ : Type) (workers requests : Nat) :=
  Config (Shared × γ) (Program.Thread Panic Op Op.Result Task) (ThreadId workers requests)

/-- `main`, with the history of a node that has done nothing yet. -/
def RecordedNode.start (C : Crypto) (icoKey : Ed25519KeyPair) (history : γ)
    (workers requests : Nat) : RecordedNode γ workers requests :=
  ⟨(Shared.initial C icoKey, history), fun who => .ok (.done (.start who))⟩

/-- The node itself. -/
def RecordedNode.node {workers requests : Nat} (node : RecordedNode γ workers requests) :
    Node workers requests :=
  Program.forget node

end Recorded

end BitcoinClient
