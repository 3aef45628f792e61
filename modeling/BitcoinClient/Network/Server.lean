import BitcoinClient.Foundation.HashMap
import BitcoinClient.Network.Frame
import BitcoinClient.Types.Message

/-! # The peer-to-peer server

One task takes the control signals of a server one after the other and keeps the map of its
peers. To register a connection is to ask its socket twice for the address of the peer, to
start a reader and a writer task for it, and to enter its handle under that address.
A connection that fails is an answer to a caller when it is outgoing. When it is incoming the
error leaves the loop, and the task that runs the loop unwraps it.
-/

namespace BitcoinClient

/-- `std::net::SocketAddr`. -/
inductive SocketAddr where
  | v4 (ip : Vector UInt8 4) (port : UInt16)
  | v6 (ip : Vector UInt8 16) (port : UInt16) (flowinfo scopeId : UInt32)
deriving DecidableEq, Repr

/-- `std::io::Error`. No function of the server looks into it. -/
structure IoError where
  rawOsError : Int
deriving DecidableEq, Repr

/-- A connected socket, by what its two calls of `peer_addr` answer: the one in `peer::new`
and the one in `register`. The peer may be gone at either. -/
structure TcpStream where
  handleAddr : Except IoError SocketAddr
  peerAddr : Except IoError SocketAddr

/-- The peer is there at both calls. -/
def TcpStream.Answers (stream : TcpStream) : Prop :=
  (∃ addr, stream.handleAddr = .ok addr) ∧ ∃ addr, stream.peerAddr = .ok addr

/-- `peer::Handle`, with its queue named by the connection that reads it. -/
structure PeerHandle where
  addr : SocketAddr
  writeQueue : PeerId
deriving DecidableEq, Repr

/-- How far a writer task is: in its loop, out of it after a failed write, or at its end. -/
inductive Writer where
  | running
  | failed
  | ended
deriving DecidableEq, Repr

/-- What the tasks of a connection share with the server: the address that the writer names
when it is dropped, and the queue it writes from. -/
structure Connection where
  addr : SocketAddr
  writeQueue : List (List UInt8) := []
  writer : Writer := .running
  /-- The bytes written to the stream. -/
  written : List UInt8 := []
deriving DecidableEq, Repr

/-- `peer::Handle::write` on the queue of this connection. A closed queue is not an error. -/
def Connection.push (connection : Connection) (buffer : List UInt8) : Connection :=
  match connection.writer with
  | .ended => connection
  | _ => { connection with writeQueue := connection.writeQueue ++ [buffer] }

namespace Server

/-- A `ControlSignal`. Only `Handle::connect` makes a `ConnectNewPeer`, and it waits for the
result, so the channel of the result is never closed. -/
inductive ControlSignal where
  | connectNewPeer (addr : SocketAddr)
  | broadcastMessage (msg : Message)
  | getNewPeer (stream : TcpStream)
  | droppedPeer (addr : SocketAddr)
  | sendToPeer (receiver : Address) (msg : Message)

/-- What the handling of one signal meets outside the server. -/
structure Surroundings where
  /-- `TcpStream::connect`. -/
  connect : SocketAddr → Except IoError TcpStream
  iteration : HashMap.Iteration SocketAddr PeerHandle

/-- Why `dispatch_control` does not go on to the next signal. -/
inductive DispatchEnd where
  | error (error : IoError)
  | unimplemented
deriving DecidableEq, Repr

/-- The peers, every connection that was registered in this order, and what the callers of
`Handle::connect` were answered. -/
structure Context where
  peers : HashMap SocketAddr PeerHandle := ∅
  connections : List Connection := []
  results : List (Except IoError PeerHandle) := []

/-! ## The dispatch loop -/

/-- `peer::new`; the new queue is that of the next connection. -/
def newPeer (stream : TcpStream) (connections : List Connection) : Except IoError PeerHandle := do
  let addr ← stream.handleAddr
  pure { addr, writeQueue := connections.length }

def register (stream : TcpStream) : Effect IoError Context PeerHandle := do
  let ctx ← get
  let handle ← MonadExcept.ofExcept (newPeer stream ctx.connections)
  let addr ← MonadExcept.ofExcept stream.peerAddr
  -- The reader and the writer task are started.
  set { ctx with connections := ctx.connections ++ [({ addr } : Connection)] }
  modify fun ctx => { ctx with peers := ctx.peers.insert addr handle }
  pure handle

def connect (surroundings : Surroundings) (addr : SocketAddr) :
    Effect IoError Context PeerHandle := do
  let stream ← MonadExcept.ofExcept (surroundings.connect addr)
  register stream

def accept (stream : TcpStream) : Effect IoError Context Unit := do
  let _ ← register stream
  pure ()

/-- The loop over the peers that writes one buffer to each. -/
def broadcast (order : List (SocketAddr × PeerHandle)) (buffer : List UInt8)
    (connections : List Connection) : List Connection :=
  order.foldl (fun connections peer => connections.modify peer.2.writeQueue (·.push buffer))
    connections

section Dispatch

-- `bincode::serialize`
variable (serialize : Message → List UInt8)

/-- One iteration of `dispatch_control`. -/
def dispatch (surroundings : Surroundings) : ControlSignal → Effect DispatchEnd Context Unit
  | .connectNewPeer addr => do
    let handle ← (connect surroundings addr).attempt
    modify fun ctx => { ctx with results := ctx.results ++ [handle] }
  | .broadcastMessage msg =>
    modify fun ctx => { ctx with
      connections :=
        broadcast (surroundings.iteration.entries ctx.peers) (serialize msg) ctx.connections }
  | .getNewPeer stream => EStateM.adaptExcept .error (accept stream)
  | .droppedPeer addr => modify fun ctx => { ctx with peers := ctx.peers.remove addr }
  | .sendToPeer _ _ => throw .unimplemented

end Dispatch

/-! ## What one signal does -/

/-- The context after a registration. -/
def Context.add (ctx : Context) (addr : SocketAddr) (handle : PeerHandle) : Context :=
  { ctx with
    connections := ctx.connections ++ [({ addr } : Connection)]
    peers := ctx.peers.insert addr handle }

/-- The address of every connection. -/
def Context.addrs (ctx : Context) : List SocketAddr := ctx.connections.map Connection.addr

/-- The handle of a peer writes to a connection with its address. -/
def Context.Registered (ctx : Context) : Prop :=
  ∀ addr handle, ctx.peers.get addr = some handle → ctx.addrs[handle.writeQueue]? = some addr

/-- The connect or accept that the signal asks for fails. -/
def Fails (surroundings : Surroundings) (ctx : Context) : ControlSignal → Prop
  | .connectNewPeer addr => ∃ error ctx', connect surroundings addr ctx = .error error ctx'
  | .getNewPeer stream => ∃ error ctx', accept stream ctx = .error error ctx'
  | _ => False

/-- Every registered peer gets the buffer, once and behind what its queue already holds. -/
def Receives (buffer : List UInt8) (ctx ctx' : Context) : Prop :=
  ∀ addr handle, ctx.peers.get addr = some handle → ∃ connection connection',
    ctx.connections[handle.writeQueue]? = some connection ∧
      ctx'.connections[handle.writeQueue]? = some connection' ∧ connection.addr = addr ∧
        (connection.writer ≠ .ended →
          connection'.writeQueue = connection.writeQueue ++ [buffer])

variable {serialize : Message → List UInt8} {surroundings : Surroundings} {ctx : Context}

/-- A registration enters the peer, or it fails and nothing has changed. -/
theorem register_cases (stream : TcpStream) (ctx : Context) :
    (stream.Answers ∧ ∃ addr handle, handle.writeQueue = ctx.connections.length ∧
      register stream ctx = .ok handle (ctx.add addr handle)) ∨
    (¬stream.Answers ∧ ∃ error, register stream ctx = .error error ctx) := by
  obtain ⟨handleAddr, peerAddr⟩ := stream
  cases handleAddr with
  | error error =>
      refine Or.inr ⟨?_, error, rfl⟩
      rintro ⟨⟨addr, haddr⟩, -⟩
      cases haddr
  | ok handleAddr =>
      cases peerAddr with
      | error error =>
          refine Or.inr ⟨?_, error, rfl⟩
          rintro ⟨-, addr, haddr⟩
          cases haddr
      | ok addr =>
          exact Or.inl ⟨⟨⟨handleAddr, rfl⟩, addr, rfl⟩, addr, ⟨handleAddr, _⟩, rfl, rfl⟩

theorem connect_cases (surroundings : Surroundings) (addr : SocketAddr) (ctx : Context) :
    (∃ addr' handle, handle.writeQueue = ctx.connections.length ∧
      connect surroundings addr ctx = .ok handle (ctx.add addr' handle)) ∨
    ∃ error, connect surroundings addr ctx = .error error ctx := by
  cases hstream : surroundings.connect addr with
  | error error =>
      refine Or.inr ⟨error, ?_⟩
      unfold connect
      rw [hstream]
      rfl
  | ok stream =>
      have hconnect : connect surroundings addr ctx = register stream ctx := by
        unfold connect
        rw [hstream]
        rfl
      rw [hconnect]
      rcases register_cases stream ctx with ⟨-, haccepted⟩ | ⟨-, hrefused⟩
      · exact Or.inl haccepted
      · exact Or.inr hrefused

theorem accept_cases (stream : TcpStream) (ctx : Context) :
    (stream.Answers ∧ ∃ addr handle, handle.writeQueue = ctx.connections.length ∧
      accept stream ctx = .ok () (ctx.add addr handle)) ∨
    (¬stream.Answers ∧ ∃ error, accept stream ctx = .error error ctx) := by
  rcases register_cases stream ctx with ⟨hanswers, addr, handle, hqueue, hrun⟩ |
    ⟨hanswers, error, hrun⟩
  · refine Or.inl ⟨hanswers, addr, handle, hqueue, ?_⟩
    change EStateM.bind (register stream) (fun _ => pure ()) ctx = _
    rw [EStateM.bind, hrun]
    rfl
  · refine Or.inr ⟨hanswers, error, ?_⟩
    change EStateM.bind (register stream) (fun _ => pure ()) ctx = _
    rw [EStateM.bind, hrun]

/-- The outcome of an outgoing connection goes to the caller. -/
theorem dispatch_connectNewPeer (addr : SocketAddr) :
    (∃ addr' handle, handle.writeQueue = ctx.connections.length ∧
      connect surroundings addr ctx = .ok handle (ctx.add addr' handle) ∧
        dispatch serialize surroundings (.connectNewPeer addr) ctx =
          .ok () { ctx.add addr' handle with results := ctx.results ++ [.ok handle] }) ∨
    ∃ error, connect surroundings addr ctx = .error error ctx ∧
      dispatch serialize surroundings (.connectNewPeer addr) ctx =
        .ok () { ctx with results := ctx.results ++ [.error error] } := by
  rcases connect_cases surroundings addr ctx with ⟨addr', handle, hqueue, hrun⟩ | ⟨error, hrun⟩
  · refine Or.inl ⟨addr', handle, hqueue, hrun, ?_⟩
    rw [dispatch]
    change EStateM.bind (Effect.attempt _) _ ctx = _
    rw [EStateM.bind, Effect.attempt, hrun]
    rfl
  · refine Or.inr ⟨error, hrun, ?_⟩
    rw [dispatch]
    change EStateM.bind (Effect.attempt _) _ ctx = _
    rw [EStateM.bind, Effect.attempt, hrun]
    rfl

/-- That of an incoming one leaves the loop. -/
theorem dispatch_getNewPeer (stream : TcpStream) :
    (stream.Answers ∧ ∃ addr handle, handle.writeQueue = ctx.connections.length ∧
      dispatch serialize surroundings (.getNewPeer stream) ctx = .ok () (ctx.add addr handle)) ∨
    (¬stream.Answers ∧ ∃ error,
      dispatch serialize surroundings (.getNewPeer stream) ctx = .error (.error error) ctx) := by
  have hdispatch : dispatch serialize surroundings (.getNewPeer stream) ctx =
    EStateM.adaptExcept .error (accept stream) ctx := rfl
  rcases accept_cases stream ctx with ⟨hanswers, addr, handle, hqueue, hrun⟩ |
    ⟨hanswers, error, hrun⟩
  · rw [EStateM.adaptExcept, hrun] at hdispatch
    exact Or.inl ⟨hanswers, addr, handle, hqueue, hdispatch⟩
  · rw [EStateM.adaptExcept, hrun] at hdispatch
    exact Or.inr ⟨hanswers, error, hdispatch⟩

/-- Whatever holds after a registration, a broadcast or the removal that the signal asks for,
and does not depend on the answers to callers, holds after the signal. -/
theorem dispatch_wp {invariant : Context → Prop} {signal : ControlSignal} (hctx : invariant ctx)
    (hresults : ∀ ctx results, invariant ctx → invariant { ctx with results })
    (hadd : ∀ addr handle, handle.writeQueue = ctx.connections.length →
      invariant (ctx.add addr handle))
    (hbroadcast : ∀ order buffer, ctx.peers.Enumerates order →
      invariant { ctx with connections := broadcast order buffer ctx.connections })
    (hremove : ∀ addr, signal = .droppedPeer addr →
      invariant { ctx with peers := ctx.peers.remove addr }) :
    (dispatch serialize surroundings signal).wp (fun _ => invariant) (fun _ => invariant) ctx := by
  cases signal with
  | connectNewPeer addr =>
      rcases dispatch_connectNewPeer addr with ⟨addr', handle, hqueue, -, hrun⟩ | ⟨error, -, hrun⟩
      · exact (Effect.wp_of_ok hrun).mpr (hresults _ _ (hadd addr' handle hqueue))
      · exact (Effect.wp_of_ok hrun).mpr (hresults _ _ hctx)
  | broadcastMessage msg => exact hbroadcast _ _ (surroundings.iteration.enumerates _)
  | getNewPeer stream =>
      rcases dispatch_getNewPeer stream with ⟨-, addr, handle, hqueue, hrun⟩ | ⟨-, error, hrun⟩
      · exact (Effect.wp_of_ok hrun).mpr (hadd addr handle hqueue)
      · exact (Effect.wp_of_error hrun).mpr hctx
  | droppedPeer addr => exact hremove addr rfl
  | sendToPeer receiver msg => exact hctx

/-! ## Broadcasts -/

@[simp] theorem addr_push (connection : Connection) (buffer : List UInt8) :
    (connection.push buffer).addr = connection.addr := by
  unfold Connection.push
  split <;> rfl

@[simp] theorem writer_push (connection : Connection) (buffer : List UInt8) :
    (connection.push buffer).writer = connection.writer := by
  unfold Connection.push
  split <;> rfl

theorem writeQueue_push {connection : Connection} (hopen : connection.writer ≠ .ended)
    (buffer : List UInt8) :
    (connection.push buffer).writeQueue = connection.writeQueue ++ [buffer] := by
  unfold Connection.push
  split
  next hended => exact absurd hended hopen
  next => rfl

theorem broadcast_cons (peer : SocketAddr × PeerHandle) (order : List (SocketAddr × PeerHandle))
    (buffer : List UInt8) (connections : List Connection) :
    broadcast (peer :: order) buffer connections =
      broadcast order buffer (connections.modify peer.2.writeQueue (·.push buffer)) := rfl

/-- Peers with different queues get one copy each. -/
theorem getElem?_broadcast {order : List (SocketAddr × PeerHandle)}
    (hnodup : (order.map fun peer => peer.2.writeQueue).Nodup) (buffer : List UInt8)
    (connections : List Connection) (id : PeerId) :
    (broadcast order buffer connections)[id]? =
      if id ∈ order.map fun peer => peer.2.writeQueue then connections[id]?.map (·.push buffer)
      else connections[id]? := by
  induction order generalizing connections with
  | nil => rfl
  | cons peer order ih =>
      obtain ⟨hfresh, hrest⟩ := List.nodup_cons.mp hnodup
      rw [broadcast_cons, ih hrest, List.map_cons]
      by_cases hid : peer.2.writeQueue = id
      · subst hid
        rw [if_neg hfresh, if_pos List.mem_cons_self, List.getElem?_modify_eq]
        rfl
      · have hmem : id ∈ peer.2.writeQueue :: (order.map fun peer => peer.2.writeQueue) ↔
            id ∈ order.map fun peer => peer.2.writeQueue := by
          rw [List.mem_cons]
          exact or_iff_right (Ne.symm hid)
        rw [if_congr hmem rfl rfl, List.getElem?_modify_ne _ _ hid]

/-- A broadcast keeps of every connection what no message is in. -/
theorem map_broadcast {α : Type} {f : Connection → α}
    (hf : ∀ connection buffer, f (Connection.push connection buffer) = f connection)
    (order : List (SocketAddr × PeerHandle)) (buffer : List UInt8)
    (connections : List Connection) :
    (broadcast order buffer connections).map f = connections.map f := by
  induction order generalizing connections with
  | nil => rfl
  | cons peer order ih =>
      rw [broadcast_cons, ih]
      apply List.ext_getElem?
      intro id
      rw [List.getElem?_map, List.getElem?_map, List.getElem?_modify]
      cases connections[id]? with
      | none => rfl
      | some connection =>
          by_cases hid : peer.2.writeQueue = id <;> simp [hid, hf]

/-! ## Registered peers -/

theorem registered_empty : ({} : Context).Registered := by
  intro addr handle hget
  cases hget

theorem Context.Registered.add (h : ctx.Registered) {addr : SocketAddr} {handle : PeerHandle}
    (hqueue : handle.writeQueue = ctx.connections.length) : (ctx.add addr handle).Registered := by
  have hlength : ctx.addrs.length = handle.writeQueue := by
    rw [hqueue, Context.addrs, List.length_map]
  have haddrs : (ctx.add addr handle).addrs = ctx.addrs ++ [addr] := by
    rw [Context.addrs, Context.add, List.map_append]
    rfl
  intro addr' handle' hget
  change (ctx.peers.insert addr handle).get addr' = some handle' at hget
  rw [haddrs]
  by_cases heq : addr' = addr
  · subst heq
    rw [HashMap.get_insert_self] at hget
    cases hget
    rw [← hlength, List.getElem?_concat_length]
  · rw [HashMap.get_insert_ne heq] at hget
    have hold := h addr' handle' hget
    rw [List.getElem?_append_left (List.getElem?_eq_some_iff.mp hold).1, hold]

theorem Context.Registered.broadcast (h : ctx.Registered)
    (order : List (SocketAddr × PeerHandle)) (buffer : List UInt8) : Context.Registered
      { ctx with connections := Server.broadcast order buffer ctx.connections } := by
  intro addr handle hget
  rw [Context.addrs, map_broadcast addr_push]
  exact h addr handle hget

theorem Context.Registered.remove (h : ctx.Registered) (addr : SocketAddr) :
    Context.Registered { ctx with peers := ctx.peers.remove addr } :=
  HashMap.forall_remove h

/-- The peers have different queues. -/
theorem Context.Registered.nodup (h : ctx.Registered) {order : List (SocketAddr × PeerHandle)}
    (horder : ctx.peers.Enumerates order) :
    (order.map fun peer => peer.2.writeQueue).Nodup := by
  apply List.Nodup.map_on _ horder.nodup_keys.of_map
  rintro ⟨addr, handle⟩ hmem ⟨addr', handle'⟩ hmem' hqueue
  have hget := horder.mem_iff.mp hmem
  have hget' := horder.mem_iff.mp hmem'
  have haddr := h addr handle hget
  change handle.writeQueue = handle'.writeQueue at hqueue
  rw [hqueue, h addr' handle' hget'] at haddr
  cases haddr
  rw [hget] at hget'
  cases hget'
  rfl

/-- A broadcast reaches all of them. -/
theorem Context.Registered.receives (h : ctx.Registered) (msg : Message) : ∃ ctx',
    Server.dispatch serialize surroundings (.broadcastMessage msg) ctx = .ok () ctx' ∧
      Receives (serialize msg) ctx ctx' := by
  refine ⟨_, rfl, ?_⟩
  intro addr handle hget
  have horder := surroundings.iteration.enumerates ctx.peers
  have haddr := h addr handle hget
  rw [Context.addrs, List.getElem?_map] at haddr
  obtain ⟨connection, hconnection, rfl⟩ := Option.map_eq_some_iff.mp haddr
  refine ⟨connection, connection.push (serialize msg), hconnection, ?_, rfl, ?_⟩
  · change (Server.broadcast _ _ _)[handle.writeQueue]? = _
    rw [getElem?_broadcast (h.nodup horder), if_pos, hconnection]
    · rfl
    · exact List.mem_map.mpr ⟨_, horder.mem_iff.mpr hget, rfl⟩
  · intro hopen
    exact writeQueue_push hopen _

/-! ## Failing connections -/

/-- A connection that fails changes no peer. -/
theorem dispatch_of_fails {signal : ControlSignal} (hfails : Fails surroundings ctx signal) :
    (dispatch serialize surroundings signal).wp (fun _ ctx' => ctx'.peers = ctx.peers)
      (fun _ ctx' => ctx'.peers = ctx.peers) ctx := by
  cases signal with
  | connectNewPeer addr =>
      obtain ⟨error, ctx', herror⟩ := hfails
      rcases dispatch_connectNewPeer addr with ⟨_, _, _, hconnect, -⟩ | ⟨error', -, hrun⟩
      · rw [herror] at hconnect
        cases hconnect
      · exact (Effect.wp_of_ok hrun).mpr rfl
  | getNewPeer stream =>
      obtain ⟨error, ctx', herror⟩ := hfails
      rcases accept_cases stream ctx with ⟨_, _, _, _, haccept⟩ | ⟨hanswers, -⟩
      · rw [herror] at haccept
        cases haccept
      · rcases dispatch_getNewPeer stream with ⟨hanswers', -⟩ | ⟨-, error', hrun⟩
        · exact absurd hanswers' hanswers
        · exact (Effect.wp_of_error hrun).mpr rfl
  | broadcastMessage msg => exact hfails.elim
  | droppedPeer addr => exact hfails.elim
  | sendToPeer receiver msg => exact hfails.elim

/-- The loop goes on after every signal but an incoming connection whose peer is gone. -/
theorem dispatch_returns_iff {signal : ControlSignal}
    (hsignal : ∀ receiver msg, signal ≠ .sendToPeer receiver msg) :
    (∃ ctx', dispatch serialize surroundings signal ctx = .ok () ctx') ↔
      ∀ stream, signal = .getNewPeer stream → stream.Answers := by
  cases signal with
  | connectNewPeer addr =>
      refine iff_of_true ?_ (fun _ heq => by cases heq)
      rcases dispatch_connectNewPeer addr with ⟨_, _, _, _, hrun⟩ | ⟨_, _, hrun⟩
      · exact ⟨_, hrun⟩
      · exact ⟨_, hrun⟩
  | broadcastMessage msg => exact iff_of_true ⟨_, rfl⟩ (fun _ heq => by cases heq)
  | getNewPeer stream =>
      rcases dispatch_getNewPeer stream with ⟨hanswers, _, _, _, hrun⟩ | ⟨hanswers, error, hrun⟩
      · refine iff_of_true ⟨_, hrun⟩ ?_
        intro other heq
        cases heq
        exact hanswers
      · refine iff_of_false ?_ (fun hall => hanswers (hall stream rfl))
        rintro ⟨ctx', hok⟩
        rw [hok] at hrun
        cases hrun
  | droppedPeer addr => exact iff_of_true ⟨_, rfl⟩ (fun _ heq => by cases heq)
  | sendToPeer receiver msg => exact absurd rfl (hsignal receiver msg)

/-- An address on the local host. -/
def localAddr (port : UInt16) : SocketAddr := .v4 ⟨#[127, 0, 0, 1], rfl⟩ port

/-- The bytes of the message of these examples, a ping. -/
def pingBytes : List UInt8 := [0, 0, 0, 0, 1, 0, 0, 0, 0, 0, 0, 0, 97]

/-- Some iteration over the peers. -/
noncomputable def anyIteration : HashMap.Iteration SocketAddr PeerHandle := .ofOrder ∅ [] rfl

end Server

end BitcoinClient
