import BitcoinClient.Network.Wire
import BitcoinClient.Node.NetworkSettling

/-! # A network of nodes that exchange bytes

What `PeerNetwork` takes for the channel between two nodes consists of the broadcasts that wait
for the server of the first one, the queue and the stream of their connection, and the channel
in front of the worker of the second one. Every run of nodes that are connected like this is a
run of `nodeProtocol`, also when connections fail on the way. The connections are fixed, threads
take whole rounds and hand over what they send when the round ends, and the control channel of a
server takes any number of broadcasts.
-/

namespace BitcoinClient

/-- The capacity of the channel between the readers and the workers of a node. -/
def newMsgCapacity : Nat := 10000

structure ByteNetwork (n requests : Nat) where
  state : Fin n → IdleNode 1 requests
  /-- The broadcasts that wait for the server. -/
  controlChan : Fin n → List Message
  /-- From the first node to the second one. -/
  wire : Fin n → Fin n → Wire
  /-- What the readers have handed on to the workers, and the peer that it is from. -/
  newMsgChan : Fin n → List (List UInt8 × Fin n)

def Sent.announced : Sent → Option Message
  | .write _ _ _ => none
  | .broadcast message => some message

namespace ByteNetwork

inductive Event (n requests : Nat) where
  | act (who : Fin n) (action : ThreadId 1 requests × Choice)
  /-- The network worker takes the next payload. -/
  | handle (who : Fin n)
  /-- The server takes the next broadcast. -/
  | dispatch (who : Fin n)
  /-- A task of a connection goes on. -/
  | task (source target : Fin n) (event : Wire.Event)

/-- The events that take messages further on their way. -/
def Event.isTransfer {n requests : Nat} : Event n requests → Bool
  | act .. => false
  | handle _ | dispatch _ => true
  | task _ _ event => event.isTransfer

section Definitions

-- `bincode::serialize` and `bincode::deserialize`
variable {n requests : Nat} (serialize : Message → List UInt8)
  (deserialize : List UInt8 → Option Message) (C : Crypto) (build : Build)
  (geneLoop : Fin n → GeneLoop) (links : Links n)

/-- All nodes have just been started and connected. -/
def start (icoKey : Ed25519KeyPair) (requests : Nat) (addrs : Fin n → SocketAddr) :
    ByteNetwork n requests where
  state _ := IdleNode.start C icoKey 1 requests
  controlChan _ := []
  wire _ target := .start (addrs target)
  newMsgChan _ := []

variable (network : ByteNetwork n requests)

/-- A node goes on to another state. It writes its replies to their peers, and its broadcasts
wait for the server. -/
def handOver (who : Fin n) (node : IdleNode 1 requests) : ByteNetwork n requests :=
  let new := node.shared.sent.drop (network.state who).shared.sent.length
  { network with
    state := Function.update network.state who node
    controlChan := Function.update network.controlChan who
      (network.controlChan who ++ new.filterMap Sent.announced)
    wire := Function.update network.wire who fun target =>
      (network.wire who target).pushAll
        ((new.filterMap (Sent.toNode false target.val)).map serialize) }

/-- The worker has taken its next payload. -/
def takePayload (who : Fin n) : ByteNetwork n requests :=
  { network with
    newMsgChan := Function.update network.newMsgChan who (network.newMsgChan who).tail }

/-- The server writes a broadcast to every peer. -/
def broadcast (who : Fin n) (message : Message) : ByteNetwork n requests :=
  { network with
    controlChan := Function.update network.controlChan who (network.controlChan who).tail
    wire := Function.update network.wire who fun target =>
      if links.linked who target then (network.wire who target).push (serialize message)
      else network.wire who target }

/-- What the reader delivers goes to the workers. -/
def proceed (source target : Fin n) (wire : Wire) : ByteNetwork n requests :=
  let new := wire.delivered.drop (network.wire source target).delivered.length
  { network with
    wire := Function.update network.wire source
      (Function.update (network.wire source) target wire)
    newMsgChan := Function.update network.newMsgChan target
      (network.newMsgChan target ++ new.map fun payload => (payload, source)) }

def next : Event n requests → Option (ByteNetwork n requests)
  | .act who (thread, choice) =>
    match thread with
    | .network _ => none
    | thread => ((nodeRounds C build (geneLoop who)).next (network.state who) thread choice).map
      (network.handOver serialize who)
  | .handle who =>
    match network.newMsgChan who with
    | [] => none
    | (payload, source) :: _ => (deserialize payload).bind fun message =>
      ((nodeRounds C build (geneLoop who)).next (network.state who) (.network 0)
        (.deliver source.val message)).map ((network.takePayload who).handOver serialize who)
  | .dispatch who =>
    match network.controlChan who with
    | [] => none
    | message :: _ => some (network.broadcast serialize links who message)
  | .task source target event =>
    match event with
    | .push _ => none
    | .read =>
      -- A reader waits while the channel is full.
      if (network.newMsgChan target).length < newMsgCapacity then
        ((network.wire source target).next .read).map (network.proceed source target)
      else none
    | event => ((network.wire source target).next event).map (network.proceed source target)

/-- Everything that the nodes have sent is read back from its bytes, and its length fits into
the header of a frame. -/
def Encodes : Prop :=
  ∀ who, ∀ sent ∈ (network.state who).shared.sent,
    deserialize (serialize sent.message) = some sent.message ∧
      (serialize sent.message).length < 2 ^ 32

/-- The states that such networks reach as long as those of the nodes are `allowed`. -/
abbrev Reachable (icoKey : Ed25519KeyPair) (addrs : Fin n → SocketAddr)
    (allowed : (Fin n → IdleNode 1 requests) → Prop) : ByteNetwork n requests → Prop :=
  Transition.Reachable
    (fun network => network.next serialize deserialize C build geneLoop links)
    (fun network _ => network.Encodes serialize deserialize ∧ allowed network.state)
    (.start C icoKey requests addrs)

/-- The payloads from one node that another has not handled. -/
def waiting (source target : Fin n) : List (List UInt8) :=
  (network.newMsgChan target).filterMap fun (payload, peer) =>
    if peer = source then some payload else none

/-- Of the messages that were pushed to a wire, `taken` were handled and `left` were not. -/
structure Carries (sent : List Sent) (wire : Wire) (waiting : List (List UInt8))
    (taken left : List Message) : Prop where
  sound : wire.Sound ((taken ++ left).map serialize)
  delivered : wire.delivered = taken.map serialize ++ waiting
  sent : ∀ message ∈ taken ++ left, message ∈ sent.map Sent.message

/-- The nodes are in the same states, and what is on the wires is on the channels. -/
structure Simulates (abstract : NodeNetwork n requests) : Prop where
  state : abstract.state = network.state
  sent : ∀ who, ∀ message ∈ network.controlChan who,
    message ∈ (network.state who).shared.sent.map Sent.message
  carries : ∀ source target, ∃ taken left,
    Carries serialize (network.state source).shared.sent (network.wire source target)
      (network.waiting source target) taken left ∧
    (abstract.channel source target).Perm
      (left ++ if links.linked source target then network.controlChan source else [])

end Definitions

end ByteNetwork

variable {n requests : Nat} {serialize : Message → List UInt8}
  {deserialize : List UInt8 → Option Message} {C : Crypto} {build : Build}
  {geneLoop : Fin n → GeneLoop} {links : Links n} {icoKey : Ed25519KeyPair}
  {addrs : Fin n → SocketAddr} {allowed : (Fin n → IdleNode 1 requests) → Prop}

/-! ## What a node hands over -/

variable (C build) in
/-- Nothing that was sent is taken back. -/
theorem Op.sent_grows (op : Op) (s : Shared) :
    (op.action C build).wp (fun _ s' => s.sent <+: s'.sent) (fun _ s' => s.sent <+: s'.sent) s := by
  cases hsends : op.sends with
  | false =>
      have hsame : ∀ {s'}, op.Frame s s' → s.sent <+: s'.sent := fun hframe => by
        rw [hframe.sent hsends]
      exact Effect.wp_mono (Op.wp_frame C build op) (fun _ _ => hsame) fun _ _ h => hsame h.1
  | true =>
      cases op with
      | send message => exact List.prefix_append _ _
      | answerNewBlockHashes peer hashes =>
          simp only [Op.action, BitcoinClient.answerNewBlockHashes, Effect.wp_bind,
            wp_withBlockchain]
          refine ⟨fun _ => List.prefix_rfl, fun _ => ?_⟩
          split
          next => exact List.prefix_append _ _
          next => exact List.prefix_rfl
      | answerGetBlocks peer blockHashes =>
          simp only [Op.action, BitcoinClient.answerGetBlocks, Effect.wp_bind, wp_withBlockchain]
          refine ⟨fun _ => List.prefix_rfl, fun _ => ?_⟩
          split
          next => exact List.prefix_append _ _
          next => exact List.prefix_rfl
      | _ => cases hsends

theorem Program.all_true {α : Type} (program : NodeProgram α) :
    program.All (fun _ => True) fun _ => True := by
  induction program with
  | done value => trivial
  | perform op later ih => exact ⟨trivial, ih⟩

theorem round_sent_grows {geneLoop : GeneLoop} {node next : IdleNode 1 requests}
    {who : ThreadId 1 requests} {choice : Choice}
    (hround : (nodeRounds C build geneLoop).next node who choice = some next) :
    node.shared.sent <+: next.shared.sent := by
  obtain ⟨task, program, _, _, houtcome⟩ := Program.round_wp hround
  obtain ⟨thread, _, hpost⟩ := houtcome (program.all_true.wp_run
    (fun s s' => s.sent <+: s'.sent) (fun _ => List.prefix_rfl) (fun _ _ _ => List.IsPrefix.trans)
    (fun op _ s => op.sent_grows C build s) node.shared)
  cases thread with
  | ok task' => exact hpost.2
  | error reason => exact hpost

/-- What reaches a node are the replies to it and, over a link, the broadcasts. -/
theorem filterMap_toNode_perm (linked : Bool) (target : PeerId) (new : List Sent) :
    (new.filterMap (Sent.toNode linked target)).Perm
      (new.filterMap (Sent.toNode false target) ++
        if linked then new.filterMap Sent.announced else []) := by
  cases linked with
  | false => simp
  | true =>
      rw [if_pos rfl]
      induction new with
      | nil => exact .nil
      | cons sent later ih =>
          cases sent with
          | write peer reason reply =>
              by_cases hpeer : peer = target
              · simpa [List.filterMap_cons, Sent.toNode, Sent.announced, hpeer] using ih
              · simpa [List.filterMap_cons, Sent.toNode, Sent.announced, hpeer] using ih
          | broadcast message =>
              simp only [Sent.toNode, Sent.announced, List.filterMap_cons, if_true,
                Bool.false_eq_true, if_false]
              exact (ih.cons message).trans List.perm_middle.symm

theorem mem_of_announced {new : List Sent} {message : Message}
    (h : message ∈ new.filterMap Sent.announced) : message ∈ new.map Sent.message := by
  obtain ⟨sent, hmem, hannounced⟩ := List.mem_filterMap.mp h
  cases sent with
  | write peer reason reply => cases hannounced
  | broadcast message' =>
      obtain rfl := Option.some.inj hannounced
      exact List.mem_map_of_mem (f := Sent.message) hmem

theorem mem_of_toNode {new : List Sent} {linked : Bool} {target : PeerId} {message : Message}
    (h : message ∈ new.filterMap (Sent.toNode linked target)) :
    message ∈ new.map Sent.message := by
  obtain ⟨sent, hmem, hnode⟩ := List.mem_filterMap.mp h
  refine List.mem_map.mpr ⟨sent, hmem, ?_⟩
  cases sent with
  | write peer reason reply => exact (Option.ite_none_right_eq_some.mp hnode).2 |> Option.some.inj
  | broadcast message' => exact (Option.ite_none_right_eq_some.mp hnode).2 |> Option.some.inj

namespace ByteNetwork

/-! ## One wire -/

section Carries

variable {sent sent' : List Sent} {wire wire' : Wire} {waiting : List (List UInt8)}
  {taken left : List Message}

theorem Carries.mono (h : Carries serialize sent wire waiting taken left) (hsent : sent <+: sent') :
    Carries serialize sent' wire waiting taken left :=
  ⟨h.sound, h.delivered, fun message hmem =>
    List.map_subset Sent.message hsent.subset (h.sent message hmem)⟩

theorem Carries.pushAll (h : Carries serialize sent wire waiting taken left)
    {messages : List Message} (hmessages : ∀ message ∈ messages, message ∈ sent.map Sent.message) :
    Carries serialize sent (wire.pushAll (messages.map serialize)) waiting taken
      (left ++ messages) where
  sound := by
    rw [← List.append_assoc, List.map_append]
    exact h.sound.pushAll _
  delivered := by
    rw [Wire.delivered_pushAll]
    exact h.delivered
  sent := by
    rw [← List.append_assoc]
    exact List.forall_mem_append.mpr ⟨h.sent, hmessages⟩

/-- What a worker takes next is the oldest message that is left. -/
theorem Carries.take {payload : List UInt8}
    (h : Carries serialize sent wire (payload :: waiting) taken left) :
    ∃ message later, left = message :: later ∧ payload = serialize message ∧
      Carries serialize sent wire waiting (taken ++ [message]) later := by
  obtain ⟨framed, _, _, _, _, _, _, hbeginning, _⟩ := h.sound.framed
  have hfront : taken.map serialize ++ payload :: waiting <+:
      taken.map serialize ++ left.map serialize := by
    rw [← h.delivered, ← List.map_append]
    exact (List.prefix_append _ _).trans hbeginning
  rw [List.prefix_append_right_inj] at hfront
  cases left with
  | nil => cases List.prefix_nil.mp hfront
  | cons message later =>
      obtain ⟨rfl, _⟩ := List.cons_prefix_cons.mp hfront
      refine ⟨message, later, rfl, rfl, ?_, ?_, ?_⟩
      · rw [← List.append_cons]
        exact h.sound
      · rw [h.delivered, List.map_append, List.map_singleton, ← List.append_cons]
      · rw [← List.append_cons]
        exact h.sent

theorem Carries.proceed (h : Carries serialize sent wire waiting taken left) {event : Wire.Event}
    (hfits : ∀ message ∈ sent.map Sent.message, (serialize message).length < 2 ^ 32)
    (hpushes : Wire.pushes [event] = []) (hnext : wire.next event = some wire') :
    Carries serialize sent wire' (waiting ++ wire'.delivered.drop wire.delivered.length)
      taken left where
  sound := by
    have hsound := h.sound.next (List.forall_mem_map.mpr fun message hmem =>
      hfits message (h.sent message hmem)) hnext
    rwa [hpushes, List.append_nil] at hsound
  delivered := by
    obtain ⟨more, hmore⟩ := Wire.delivered_prefix hnext
    rw [← hmore, List.drop_left, h.delivered, List.append_assoc]
  sent := h.sent

end Carries

/-! ## One event -/

section Simulates

variable {network following : ByteNetwork n requests} {abstract : NodeNetwork n requests}
  {who source target : Fin n} {node : IdleNode 1 requests}

theorem simulates_start : Simulates serialize links (start C icoKey requests addrs)
    (NodeNetwork.start C icoKey n requests) where
  state := rfl
  sent _ := List.forall_mem_nil _
  carries source target := by
    refine ⟨[], [], ⟨Wire.sound_start _, rfl, List.forall_mem_nil _⟩, ?_⟩
    simp [NodeNetwork.start, start]

/-- What a node hands over goes on the channels. -/
theorem Simulates.handOver (h : Simulates serialize links network abstract) (who : Fin n)
    (hsent : (network.state who).shared.sent <+: node.shared.sent) :
    Simulates serialize links (network.handOver serialize who node)
      (abstract.put who node
        (links.route who (node.shared.sent.drop (network.state who).shared.sent.length))) := by
  obtain ⟨new, hnew⟩ := hsent
  have hdrop : node.shared.sent.drop (network.state who).shared.sent.length = new := by
    rw [← hnew, List.drop_left]
  refine ⟨?_, fun other => ?_, fun source target => ?_⟩
  · rw [ByteNetwork.handOver, Network.put, h.state]
  · by_cases heq : other = who
    · subst heq
      simp only [ByteNetwork.handOver, Function.update_self, hdrop]
      rw [← hnew, List.map_append]
      exact List.forall_mem_append.mpr
        ⟨fun message hmem => List.mem_append_left _ (h.sent other message hmem),
          fun message hmem => List.mem_append_right _ (mem_of_announced hmem)⟩
    · simp only [ByteNetwork.handOver, Function.update_of_ne heq]
      exact h.sent other
  · obtain ⟨taken, left, hcarries, hperm⟩ := h.carries source target
    by_cases heq : source = who
    · subst heq
      refine ⟨taken, left ++ new.filterMap (Sent.toNode false target.val), ?_, ?_⟩
      · simp only [ByteNetwork.handOver, Function.update_self, hdrop]
        refine (hcarries.mono ⟨new, hnew⟩).pushAll fun message hmem => ?_
        rw [← hnew, List.map_append]
        exact List.mem_append_right _ (mem_of_toNode hmem)
      · rw [Network.channel_put, if_pos rfl]
        simp only [ByteNetwork.handOver, Function.update_self, hdrop]
        have hroute := filterMap_toNode_perm (links.linked source target) target.val new
        refine (hperm.append hroute).trans ?_
        cases links.linked source target with
        | false => simp
        | true =>
            -- The replies go past the broadcasts that wait.
            simp only [if_true, List.append_assoc]
            exact .append_left _ (List.perm_append_comm_assoc _ _ _)
    · refine ⟨taken, left, ?_, ?_⟩
      · simp only [ByteNetwork.handOver, Function.update_of_ne heq]
        exact hcarries
      · rw [Network.channel_put, if_neg heq]
        simp only [ByteNetwork.handOver, Function.update_of_ne heq]
        exact hperm

/-- A payload that a worker takes is a message on the channel of its peer. -/
theorem Simulates.takePayload (h : Simulates serialize links network abstract)
    (hencodes : network.Encodes serialize deserialize) {payload : List UInt8}
    {later : List (List UInt8 × Fin n)}
    (hchan : network.newMsgChan who = (payload, source) :: later) :
    ∃ i message, (abstract.channel source who)[i]? = some message ∧
      deserialize payload = some message ∧
      Simulates serialize links (network.takePayload who) (abstract.take source who i) := by
  obtain ⟨taken, left, hcarries, hperm⟩ := h.carries source who
  have hwaiting : network.waiting source who =
      payload :: (network.takePayload who).waiting source who := by
    simp [waiting, ByteNetwork.takePayload, hchan]
  rw [hwaiting] at hcarries
  obtain ⟨message, left, rfl, rfl, hcarries'⟩ := hcarries.take
  have hmem : message ∈ abstract.channel source who :=
    hperm.symm.subset (List.mem_append_left _ List.mem_cons_self)
  obtain ⟨i, hi⟩ := List.mem_iff_getElem?.mp hmem
  obtain ⟨sent, hsent, heq⟩ := List.mem_map.mp
    (hcarries.sent message (List.mem_append_right _ List.mem_cons_self))
  refine ⟨i, message, hi, heq ▸ (hencodes source sent hsent).1, h.state, h.sent, fun j other => ?_⟩
  rw [Network.channel_take]
  split
  next hpair =>
    obtain ⟨rfl, rfl⟩ := hpair
    obtain ⟨hlt, hget⟩ := List.getElem?_eq_some_iff.mp hi
    have herase := List.getElem_cons_eraseIdx_perm hlt
    rw [hget] at herase
    exact ⟨_, _, hcarries', (List.perm_cons message).mp (herase.trans hperm)⟩
  next hpair =>
    have hsame : (network.takePayload who).waiting j other = network.waiting j other := by
      by_cases hother : other = who
      · subst hother
        have hne : ¬ source = j := fun heq => hpair ⟨heq.symm, rfl⟩
        simp [waiting, ByteNetwork.takePayload, hchan, hne]
      · simp [waiting, ByteNetwork.takePayload, Function.update_of_ne hother]
    rw [hsame]
    exact h.carries j other

/-- What the server broadcasts was on the channels already. -/
theorem Simulates.broadcast (h : Simulates serialize links network abstract) {message : Message}
    {later : List Message} (hchan : network.controlChan who = message :: later) :
    Simulates serialize links (network.broadcast serialize links who message) abstract where
  state := h.state
  sent other := by
    by_cases heq : other = who
    · subst heq
      simp only [ByteNetwork.broadcast, Function.update_self, hchan, List.tail_cons]
      intro message' hmem
      exact h.sent other message' (hchan ▸ List.mem_cons_of_mem _ hmem)
    · simp only [ByteNetwork.broadcast, Function.update_of_ne heq]
      exact h.sent other
  carries source target := by
    obtain ⟨taken, left, hcarries, hperm⟩ := h.carries source target
    by_cases heq : source = who
    · subst heq
      simp only [ByteNetwork.broadcast, Function.update_self, hchan, List.tail_cons]
      rw [hchan] at hperm
      cases hlinked : links.linked source target with
      | false =>
          rw [hlinked] at hperm
          exact ⟨taken, left, hcarries, hperm⟩
      | true =>
          rw [hlinked, if_pos rfl, List.append_cons] at hperm
          refine ⟨taken, left ++ [message], ?_, hperm⟩
          have hsent := h.sent source message (hchan ▸ List.mem_cons_self)
          exact Carries.pushAll hcarries (List.forall_mem_singleton.mpr hsent)
    · simp only [ByteNetwork.broadcast, Function.update_of_ne heq]
      exact ⟨taken, left, hcarries, hperm⟩

/-- The tasks of a connection keep what is on its channel. -/
theorem Simulates.proceed (h : Simulates serialize links network abstract)
    (hencodes : network.Encodes serialize deserialize) {event : Wire.Event} {wire : Wire}
    (hpushes : Wire.pushes [event] = [])
    (hnext : (network.wire source target).next event = some wire) :
    Simulates serialize links (network.proceed source target wire) abstract where
  state := h.state
  sent := h.sent
  carries i j := by
    obtain ⟨taken, left, hcarries, hperm⟩ := h.carries i j
    refine ⟨taken, left, ?_, hperm⟩
    by_cases hj : j = target
    · subst hj
      by_cases hi : i = source
      · subst hi
        have hfits : ∀ message ∈ (network.state i).shared.sent.map Sent.message,
            (serialize message).length < 2 ^ 32 :=
          List.forall_mem_map.mpr fun sent hsent => (hencodes i sent hsent).2
        have hwaiting : (network.proceed i j wire).waiting i j =
            network.waiting i j ++ wire.delivered.drop (network.wire i j).delivered.length := by
          simp [waiting, ByteNetwork.proceed, List.filterMap_map, -List.map_drop]
        rw [hwaiting]
        simp only [ByteNetwork.proceed, Function.update_self]
        exact hcarries.proceed hfits hpushes hnext
      · have hwaiting : (network.proceed source j wire).waiting i j = network.waiting i j := by
          have hne : ¬ source = i := fun heq => hi heq.symm
          simp [waiting, ByteNetwork.proceed, List.filterMap_map, hne,
            -List.map_drop]
        rw [hwaiting]
        simp only [ByteNetwork.proceed, Function.update_of_ne hi]
        exact hcarries
    · have hwaiting : (network.proceed source target wire).waiting i j = network.waiting i j := by
        simp [waiting, ByteNetwork.proceed, Function.update_of_ne hj]
      have hwire : (network.proceed source target wire).wire i j = network.wire i j := by
        by_cases hi : i = source
        · subst hi
          simp [ByteNetwork.proceed, Function.update_of_ne hj]
        · simp [ByteNetwork.proceed, Function.update_of_ne hi]
      rw [hwaiting, hwire]
      exact hcarries

theorem act_eq_some {thread : ThreadId 1 requests} {choice : Choice}
    (hnext : network.next serialize deserialize C build geneLoop links (.act who (thread, choice)) =
      some following) : (∀ i, thread ≠ .network i) ∧ ∃ node,
        (nodeRounds C build (geneLoop who)).next (network.state who) thread choice = some node ∧
        following = network.handOver serialize who node := by
  cases thread with
  | network i => cases hnext
  | _ =>
      obtain ⟨node, hround, rfl⟩ := Option.map_eq_some_iff.mp hnext
      exact ⟨by simp, node, hround, rfl⟩

theorem handle_eq_some :
    network.next serialize deserialize C build geneLoop links (.handle who) = some following ↔
      ∃ payload source later message node,
        network.newMsgChan who = (payload, source) :: later ∧ deserialize payload = some message ∧
        (nodeRounds C build (geneLoop who)).next (network.state who) (.network 0)
          (.deliver source.val message) = some node ∧
        following = (network.takePayload who).handOver serialize who node := by
  cases hchan : network.newMsgChan who with
  | nil => simp [next, hchan]
  | cons head later =>
      obtain ⟨payload, source⟩ := head
      constructor
      · intro hnext
        simp only [next, hchan] at hnext
        obtain ⟨message, hdecode, hmap⟩ := Option.bind_eq_some_iff.mp hnext
        obtain ⟨node, hround, rfl⟩ := Option.map_eq_some_iff.mp hmap
        exact ⟨payload, source, later, message, node, rfl, hdecode, hround, rfl⟩
      · rintro ⟨_, _, _, message, node, heq, hdecode, hround, rfl⟩
        cases heq
        simp only [next, hchan]
        rw [hdecode, Option.bind_some, hround, Option.map_some]

theorem dispatch_eq_some :
    network.next serialize deserialize C build geneLoop links (.dispatch who) = some following ↔
      ∃ message later, network.controlChan who = message :: later ∧
        following = network.broadcast serialize links who message := by
  cases hchan : network.controlChan who with
  | nil => simp [next, hchan]
  | cons message later => simp [next, hchan, eq_comm]

theorem task_eq_some {event : Wire.Event}
    (hnext : network.next serialize deserialize C build geneLoop links (.task source target event) =
      some following) : Wire.pushes [event] = [] ∧ ∃ wire,
        (network.wire source target).next event = some wire ∧
        following = network.proceed source target wire := by
  cases event with
  | push buffer => cases hnext
  | read =>
      obtain ⟨_, hread⟩ := Option.ite_none_right_eq_some.mp hnext
      obtain ⟨wire, hwire, rfl⟩ := Option.map_eq_some_iff.mp hread
      exact ⟨rfl, wire, hwire, rfl⟩
  | _ =>
      obtain ⟨wire, hwire, rfl⟩ := Option.map_eq_some_iff.mp hnext
      exact ⟨rfl, wire, hwire, rfl⟩

theorem Simulates.act (h : Simulates serialize links network abstract)
    {action : ThreadId 1 requests × Choice}
    (hnext : network.next serialize deserialize C build geneLoop links (.act who action) =
      some following) :
    ∃ abstract', abstract.next (nodeProtocol C build geneLoop links) (.act who action) =
        some abstract' ∧ Simulates serialize links following abstract' := by
  obtain ⟨hthread, node, hround, rfl⟩ := act_eq_some hnext
  refine ⟨_, Network.next_act.mpr ⟨node, _, ?_, rfl⟩, h.handOver who (round_sent_grows hround)⟩
  refine BitcoinClient.act_eq_some.mpr ⟨hthread, nodeTurn_eq_some.mpr ?_⟩
  rw [h.state]
  exact ⟨hround, rfl⟩

/-- A worker handles a message of the channel. -/
theorem Simulates.handle (h : Simulates serialize links network abstract)
    (hencodes : network.Encodes serialize deserialize)
    (hnext : network.next serialize deserialize C build geneLoop links (.handle who) =
      some following) :
    ∃ source i abstract', abstract.next (nodeProtocol C build geneLoop links)
        (.deliver source who i) = some abstract' ∧
      Simulates serialize links following abstract' := by
  obtain ⟨payload, source, later, message, node, hchan, hdecode, hround, rfl⟩ :=
    handle_eq_some.mp hnext
  obtain ⟨i, message', hi, hdecode', htaken⟩ := h.takePayload hencodes hchan
  obtain rfl := Option.some.inj (hdecode.symm.trans hdecode')
  refine ⟨source, i, _, Network.next_deliver.mpr ⟨message, node, _, hi, ?_, rfl⟩,
    htaken.handOver who (round_sent_grows hround)⟩
  refine nodeTurn_eq_some.mpr ?_
  rw [h.state]
  exact ⟨hround, rfl⟩

/-- The events between the nodes keep all channels. -/
theorem Simulates.dispatch (h : Simulates serialize links network abstract)
    (hnext : network.next serialize deserialize C build geneLoop links (.dispatch who) =
      some following) : Simulates serialize links following abstract := by
  obtain ⟨message, later, hchan, rfl⟩ := dispatch_eq_some.mp hnext
  exact h.broadcast hchan

theorem Simulates.task (h : Simulates serialize links network abstract)
    (hencodes : network.Encodes serialize deserialize) {event : Wire.Event}
    (hnext : network.next serialize deserialize C build geneLoop links (.task source target event) =
      some following) : Simulates serialize links following abstract := by
  obtain ⟨hpushes, wire, hwire, rfl⟩ := task_eq_some hnext
  exact h.proceed hencodes hpushes hwire

end Simulates

/-! ## Whole runs -/

/-- A network that exchanges bytes simulates one that exchanges messages. -/
theorem Reachable.exists_simulates {network : ByteNetwork n requests}
    (hreach : network.Reachable serialize deserialize C build geneLoop links icoKey addrs allowed) :
    ∃ abstract : NodeNetwork n requests, NodeNetwork.ReachableBy C build geneLoop links
        (fun network _ => allowed network.state) icoKey abstract ∧
      Simulates serialize links network abstract := by
  refine Transition.Reachable.simulation (Simulates serialize links) simulates_start ?_ hreach
  intro network abstract following event _ h ⟨hencodes, hallowed⟩ hnext
  have hallowed' : allowed abstract.state := h.state ▸ hallowed
  cases event with
  | act who action =>
      obtain ⟨abstract', hact, h'⟩ := h.act hnext
      exact ⟨abstract', .single ⟨_, hallowed', hact⟩, h'⟩
  | handle who =>
      obtain ⟨source, i, abstract', hdeliver, h'⟩ := h.handle hencodes hnext
      exact ⟨abstract', .single ⟨_, hallowed', hdeliver⟩, h'⟩
  | dispatch who => exact ⟨abstract, .refl, h.dispatch hnext⟩
  | task source target event => exact ⟨abstract, .refl, h.task hencodes hnext⟩

end ByteNetwork

open ByteNetwork

/-- Every run of nodes that exchange bytes is one of nodes that exchange messages, wherever their
connections fail. What the workers have in front of them and what the readers will get means what
is on the channels, and the channels hold nothing else while the connections work. -/
theorem byteNetwork_refines (n requests : Nat) (serialize : Message → List UInt8)
    (deserialize : List UInt8 → Option Message) (C : Crypto) (build : Build)
    (geneLoop : Fin n → GeneLoop) (links : Links n) (icoKey : Ed25519KeyPair)
    (addrs : Fin n → SocketAddr) (allowed : (Fin n → IdleNode 1 requests) → Prop)
    (network : ByteNetwork n requests)
    (hreach : network.Reachable serialize deserialize C build geneLoop links icoKey addrs allowed)
    (hencodes : network.Encodes serialize deserialize) :
    ∃ abstract : NodeNetwork n requests, NodeNetwork.ReachableBy C build geneLoop links
        (fun network _ => allowed network.state) icoKey abstract ∧
      abstract.state = network.state ∧
      ∀ source target, ∃ messages : List Message,
        (abstract.channel source target).Perm (messages ++
          if links.linked source target then network.controlChan source else []) ∧
        (network.waiting source target ++ (network.wire source target).arriving).map deserialize <+:
          messages.map some ∧
        ((network.wire source target).connection.writer = .running →
          (network.waiting source target ++ (network.wire source target).arriving ++
            (network.wire source target).connection.writeQueue).map deserialize =
              messages.map some) := by
  obtain ⟨abstract, habstract, h⟩ := hreach.exists_simulates
  refine ⟨abstract, habstract, h.state, fun source target => ?_⟩
  obtain ⟨taken, left, hcarries, hperm⟩ := h.carries source target
  have hencoded : ∀ message ∈ taken ++ left, deserialize (serialize message) = some message ∧
      (serialize message).length < 2 ^ 32 := by
    intro message hmem
    obtain ⟨sent, hsent, rfl⟩ := List.mem_map.mp (hcarries.sent message hmem)
    exact hencodes source sent hsent
  obtain ⟨hbeginning, hrunning⟩ := hcarries.sound.arriving
    (List.forall_mem_map.mpr fun message hmem => (hencoded message hmem).2)
  have hdecoded : (left.map serialize).map deserialize = left.map some := by
    rw [List.map_map]
    exact List.map_congr_left fun message hmem =>
      (hencoded message (List.mem_append_right _ hmem)).1
  rw [hcarries.delivered, List.map_append, List.append_assoc] at hbeginning hrunning
  refine ⟨left, hperm, ?_, fun hwriter => ?_⟩
  · rw [← hdecoded]
    exact ((List.prefix_append_right_inj _).mp hbeginning).map deserialize
  · have hall := hrunning hwriter
    simp only [List.append_assoc] at hall ⊢
    rw [← hdecoded, List.append_cancel_left hall]

/-! ## Two nodes and one block -/

/-- The byte layout of `bincode`: the number of the variant, and what it holds. -/
def sampleSerialize : Message → List UInt8
  | .ping nonce => Crypto.leBytes 4 0 ++ Crypto.encodeSeq (fun byte => [byte]) nonce.toUTF8.toList
  | .pong nonce => Crypto.leBytes 4 1 ++ Crypto.encodeSeq (fun byte => [byte]) nonce.toUTF8.toList
  | .newBlockHashes hashes =>
    Crypto.leBytes 4 2 ++ Crypto.encodeSeq (fun hash => hash.bytes.toList) hashes
  | .getBlocks hashes =>
    Crypto.leBytes 4 3 ++ Crypto.encodeSeq (fun hash => hash.bytes.toList) hashes
  | .blocks blocks =>
    Crypto.leBytes 4 4 ++ Crypto.encodeSeq (fun block =>
      Crypto.sample.serializeHeader block.head ++
        Crypto.encodeSeq Crypto.sample.serializeSignedTransaction block.cont.st) blocks
  | .newTransactionHashes hashes =>
    Crypto.leBytes 4 5 ++ Crypto.encodeSeq (fun hash => hash.bytes.toList) hashes
  | .getTransactions hashes =>
    Crypto.leBytes 4 6 ++ Crypto.encodeSeq (fun hash => hash.bytes.toList) hashes
  | .transactions transactions =>
    Crypto.leBytes 4 7 ++ Crypto.encodeSeq Crypto.sample.serializeSignedTransaction transactions

/-- It reads the messages about the first block. -/
def sampleDeserialize (bytes : List UInt8) : Option Message :=
  [.newBlockHashes [firstBlock.hash .sample], .getBlocks [firstBlock.hash .sample],
    .blocks [firstBlock]].find? fun message => sampleSerialize message == bytes

instance (network : ByteNetwork n requests) :
    Decidable (network.Encodes serialize deserialize) :=
  inferInstanceAs (Decidable (∀ who, ∀ sent ∈ (network.state who).shared.sent,
    deserialize (serialize sent.message) = some sent.message ∧
      (serialize sent.message).length < 2 ^ 32))

/-- The nodes mine no other blocks than they may. -/
def Mining.Allows (mining : Mining C n) (state : Fin n → IdleNode 1 requests) : Prop :=
  ∀ who, ∀ block ∈ (state who).shared.finishedBlockChan, block ∈ mining.blocks who

instance (state : Fin 2 → IdleNode 1 1) : Decidable (firstMining.Allows state) :=
  inferInstanceAs (Decidable (∀ who : Fin 2,
    ∀ block ∈ (state who).shared.finishedBlockChan, who = 0 ∧ block = firstBlock))

def pairAddrs (who : Fin 2) : SocketAddr := Server.localAddr (6000 + .ofNat who)

/-- The first node mines the block, and then bytes are exchanged. -/
noncomputable def bytesRun (transfers : List (ByteNetwork.Event 2 1)) : Option (ByteNetwork 2 1) :=
  Transition.run (fun network => network.next sampleSerialize sampleDeserialize .sample .release
      (fun _ => sampleGeneLoop) pairLinks)
    (fun network _ => network.Encodes sampleSerialize sampleDeserialize ∧
      firstMining.Allows network.state)
    (.start .sample Crypto.sampleKey 1 pairAddrs)
    ([.act 0 (.api 0, .request (.minerStart 0)), .act 0 (.miner, .mine 0 0 emptyIteration),
      .act 0 (.miner, .mine 1 0 emptyIteration), .act 0 (.minerWorker, .go)] ++ transfers)

theorem exists_bytesReachable {transfers : List (ByteNetwork.Event 2 1)}
    {check : ByteNetwork 2 1 → Bool} (hrun : (bytesRun transfers).any check = true) :
    ∃ network : ByteNetwork 2 1, network.Reachable sampleSerialize sampleDeserialize .sample
        .release (fun _ => sampleGeneLoop) pairLinks Crypto.sampleKey pairAddrs
        firstMining.Allows ∧ check network = true :=
  Transition.exists_reachable _ _ _ _ check hrun

/-- The second node asks for the block, and the first one answers. -/
def blockTransfers : List (ByteNetwork.Event 2 1) :=
  [.dispatch 0, .task 0 1 .write, .task 0 1 (.receive 48), .task 0 1 .read, .handle 1,
    .task 1 0 .write, .task 1 0 (.receive 20), .task 1 0 (.receive 28), .task 1 0 .read, .handle 0,
    .task 0 1 .write, .task 0 1 (.receive 100)]

theorem byteNetwork_refines_firstBlock : ∃ (network : ByteNetwork 2 1)
    (abstract : NodeNetwork 2 1), (network.wire 0 1).unread.length = 100 ∧
      abstract.state = network.state ∧ (abstract.channel 0 1).Perm [.blocks [firstBlock]] := by
  have hrun : (bytesRun blockTransfers).any (fun network =>
      decide ((network.wire 0 1).unread.length = 100 ∧
        network.Encodes sampleSerialize sampleDeserialize ∧
        (network.wire 0 1).connection.writer = .running ∧ network.controlChan 0 = [] ∧
        (network.waiting 0 1 ++ (network.wire 0 1).arriving ++
          (network.wire 0 1).connection.writeQueue).map sampleDeserialize =
            [.blocks [firstBlock]].map some)) = true := by
    decide +kernel
  obtain ⟨network, hreach, hcheck⟩ := exists_bytesReachable hrun
  obtain ⟨hunread, hencodes, hwriter, hcontrol, hbytes⟩ := of_decide_eq_true hcheck
  obtain ⟨abstract, _, hstate, hchannels⟩ := byteNetwork_refines 2 1 sampleSerialize
    sampleDeserialize .sample .release (fun _ => sampleGeneLoop) pairLinks Crypto.sampleKey
    pairAddrs firstMining.Allows network hreach hencodes
  obtain ⟨messages, hperm, _, hall⟩ := hchannels 0 1
  have hmessages : messages.map some = [.blocks [firstBlock]].map some :=
    (hall hwriter).symm.trans hbytes
  obtain rfl := List.map_injective_iff.mpr (Option.some_injective _) hmessages
  rw [hcontrol, ite_self, List.append_nil] at hperm
  exact ⟨network, abstract, hunread, hstate, hperm⟩

end BitcoinClient
