import BitcoinClient.Foundation.Exchange
import BitcoinClient.Node.System

/-! # Two connected nodes

A node is a party of an exchange: one of its network workers handles the oldest
message of the other node, or a thread takes a round of its own. What a round hands
to the network layer for the other node joins the queue of that node.
-/

namespace BitcoinClient

/-- The connection to the other node. -/
def partner : PeerId := 0

/-- The message that reaches the other node. -/
def Sent.toPartner : Sent → Option Message
  | .write peer _ reply => if peer = partner then some reply else none
  | .broadcast message => some message

section Definitions

variable {workers requests : Nat} {κ : Type} (C : Crypto) (build : Build) (geneLoop : GeneLoop)

/-- A round of a thread, with the messages that it sends to the other node. -/
def IdleNode.round (node : IdleNode workers requests) (who : ThreadId workers requests)
    (choice : Choice) : Option (IdleNode workers requests × List Message) :=
  ((nodeRounds C build geneLoop).next node who choice).map fun next =>
    (next, (next.shared.sent.drop node.shared.sent.length).filterMap Sent.toPartner)

/-- A node whose own rounds are the given ones. -/
def peerNode (own : κ → ThreadId workers requests × Choice) :
    Party (IdleNode workers requests) Message (Fin workers) κ where
  handle node who message := node.round C build geneLoop (.network who) (.deliver partner message)
  act node action := node.round C build geneLoop (own action).1 (own action).2

end Definitions

variable {workers requests : Nat} {κ : Type} {C : Crypto} {build : Build} {geneLoop : GeneLoop}
  {own : κ → ThreadId workers requests × Choice} {node next : IdleNode workers requests}
  {who : Fin workers} {message : Message} {orphanBlocks : List Block}

/-- The worker that took a round. -/
theorem worker_of_update
    (hthreads : next.threads = Function.update node.threads (.network who)
      (.ok (.network orphanBlocks))) :
    next.threads (.network who) = .ok (.network orphanBlocks) := by
  rw [hthreads, Function.update_self]

/-- A message that a worker handles without a panic. -/
theorem peerNode_handle {post : List Block → Shared → Prop}
    (hthread : node.threads (.network who) = .ok (.network orphanBlocks))
    (hwp : ((handleMessage C build partner orphanBlocks message).run C build).wp post
      (fun _ _ => False) node.shared) :
    ∃ orphanBlocks' next, (peerNode C build geneLoop own).handle node who message =
        some (next, (next.shared.sent.drop node.shared.sent.length).filterMap Sent.toPartner) ∧
      next.threads = Function.update node.threads (.network who) (.ok (.network orphanBlocks')) ∧
      post orphanBlocks' next.shared := by
  have hround : (NodeProgram.run C build do
      let orphanBlocks ← handleMessage C build partner orphanBlocks message
      pure (Task.network orphanBlocks)).wp
        (fun task s => ∃ orphanBlocks', task = .network orphanBlocks' ∧ post orphanBlocks' s)
        (fun _ _ => False) node.shared := by
    rw [NodeProgram.run, Program.run_bind, Effect.wp_bind]
    exact Effect.wp_mono hwp (fun orphanBlocks' _ h => ⟨orphanBlocks', rfl, h⟩) fun _ _ h => h
  obtain ⟨_, s, hrun, orphanBlocks', rfl, hpost⟩ := Effect.exists_ok_of_wp hround
  let next : IdleNode workers requests :=
    ⟨s, Function.update node.threads (.network who) (.ok (.network orphanBlocks'))⟩
  have hnext : (nodeRounds C build geneLoop).next node (.network who) (.deliver partner message) =
      some next :=
    Program.round_of_run hthread rfl hrun
  refine ⟨orphanBlocks', next, ?_, rfl, hpost⟩
  simp only [peerNode, IdleNode.round, hnext, Option.map_some]

/-- Only a network worker that has not stopped handles messages. -/
theorem peerNode_handle_thread {sent : List Message}
    (hhandle : (peerNode C build geneLoop own).handle node who message = some (next, sent)) :
    ∃ orphanBlocks, node.threads (.network who) = .ok (.network orphanBlocks) := by
  obtain ⟨_, hround, _⟩ := Option.map_eq_some_iff.mp hhandle
  obtain ⟨task, program, hthread, hbody, _⟩ := Program.round_wp hround
  cases task with
  | network orphanBlocks => exact ⟨orphanBlocks, hthread⟩
  | miner miner => cases hbody
  | minerWorker => cases hbody
  | generatorStart => cases hbody
  | generator generator => cases hbody
  | api => cases hbody
  | exited => cases hbody

end BitcoinClient
