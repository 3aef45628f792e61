import BitcoinClient.Foundation.Transition
import BitcoinClient.Network.Server

/-! # The peers of a running server

The dispatch loop, the writer tasks and everyone who holds a handle run side by side. They
meet in the control channel, which holds what the threads of the node ask for together with
what the writer tasks report. A report that a connection was dropped names its address only,
and the loop takes it after everything that was sent before it. The connection that was
registered last for the address may be another one by then.
-/

namespace BitcoinClient

namespace Connection

/-- The writer task takes a message from its queue and writes it. -/
def write (connection : Connection) : Option Connection :=
  match connection.writer, connection.writeQueue with
  | .running, newMsg :: queue =>
    some { connection with writeQueue := queue, written := connection.written ++ frame newMsg }
  | _, _ => none

/-- The writer task takes a message, and the stream fails behind so many bytes of it. -/
def fail (connection : Connection) (bytes : Nat) : Option Connection :=
  match connection.writer, connection.writeQueue with
  | .running, newMsg :: queue =>
    some { connection with
      writeQueue := queue
      writer := .failed
      written := connection.written ++ (frame newMsg).take bytes }
  | _, _ => none

/-- The writer task ends, and its queue is closed. -/
def finish (connection : Connection) : Option Connection :=
  match connection.writer with
  | .failed => some { connection with writer := .ended }
  | _ => none

end Connection

namespace Server

/-- The capacity of the control channel. -/
def controlCapacity : Nat := 10000

/-- The context of the dispatch loop and the control channel. -/
structure State where
  ctx : Context := {}
  controlChan : List ControlSignal := []
  /-- The network thread has panicked, and the loop and all tasks with it. -/
  stopped : Bool := false

inductive Event where
  /-- `Handle::connect`, `broadcast` or `send`, or the listener with an incoming stream. -/
  | send (signal : ControlSignal)
  /-- The dispatch loop takes the next signal. -/
  | dispatch (surroundings : Surroundings)
  /-- Someone with a handle writes to its peer. -/
  | push (id : PeerId) (buffer : List UInt8)
  | write (id : PeerId)
  | fail (id : PeerId) (bytes : Nat)
  /-- The writer task that left its loop sends `DroppedPeer`. -/
  | drop (id : PeerId)
  /-- The last handle is gone, and the writer task unwraps what its empty queue returns. -/
  | close (id : PeerId)
  /-- The listener unwraps an error of `accept`, or a reader one of the message channel when no
  network worker is left. -/
  | crash

/-- A task other than the dispatch loop panics. -/
def Event.unwraps : Event → Bool
  | .close _ | .crash => true
  | _ => false

/-- The signals that do not come from writer tasks. -/
def ControlSignal.isRequest : ControlSignal → Bool
  | .droppedPeer _ => false
  | _ => true

namespace State

/-- A step of the tasks of one connection. -/
def set (server : State) (id : PeerId) (connection : Connection) : State :=
  { server with
    ctx := { server.ctx with connections := server.ctx.connections.set id connection } }

/-- A send that does not wait. -/
def send (server : State) (signal : ControlSignal) : Option State :=
  if server.controlChan.length < controlCapacity then
    some { server with controlChan := server.controlChan ++ [signal] }
  else none

end State

/-- One step of the server. -/
def next (serialize : Message → List UInt8) (server : State) (event : Event) : Option State :=
  if server.stopped then none else
  match event with
  | .send signal => if signal.isRequest then server.send signal else none
  | .dispatch surroundings =>
    match server.controlChan with
    | [] => none
    | signal :: controlChan =>
      match dispatch serialize surroundings signal server.ctx with
      | .ok _ ctx => some { server with ctx, controlChan }
      | .error _ ctx => some { ctx, controlChan, stopped := true }
  | .push id buffer => do
    let connection ← server.ctx.connections[id]?
    some (server.set id (connection.push buffer))
  | .write id => do
    let connection ← server.ctx.connections[id]?
    let connection ← connection.write
    some (server.set id connection)
  | .fail id bytes => do
    let connection ← server.ctx.connections[id]?
    let connection ← connection.fail bytes
    some (server.set id connection)
  | .drop id => do
    let connection ← server.ctx.connections[id]?
    let connection ← connection.finish
    (server.set id connection).send (.droppedPeer connection.addr)
  | .close id => do
    let connection ← server.ctx.connections[id]?
    let handle := server.ctx.peers.get connection.addr
    if connection.writer = .running ∧ connection.writeQueue = [] ∧
        handle.map PeerHandle.writeQueue ≠ some id then
      some { server with stopped := true }
    else none
  | .crash => some { server with stopped := true }

/-! ## What holds of the peers -/

/-- How far the writer of every connection is. -/
def Context.writers (ctx : Context) : List Writer := ctx.connections.map Connection.writer

/-- No later connection was registered for the address, and this one has not failed. -/
def Live (ctx : Context) (addr : SocketAddr) (id : PeerId) : Prop :=
  ctx.addrs[id]? = some addr ∧ addr ∉ ctx.addrs.drop (id + 1) ∧ ctx.writers[id]? = some .running

instance (ctx : Context) (addr : SocketAddr) (id : PeerId) : Decidable (Live ctx addr id) :=
  inferInstanceAs (Decidable (_ ∧ _ ∧ _))

/-- Every such connection is the one under its address. -/
def Listed (ctx : Context) : Prop :=
  ∀ addr id, Live ctx addr id →
    ∃ handle, ctx.peers.get addr = some handle ∧ handle.writeQueue = id

/-- The connections are listed, and as long as the server runs it takes the next signal, if it is
a broadcast, and queues it to all of them. A server that has stopped queues nothing. -/
structure Served (serialize : Message → List UInt8) (server : State) : Prop where
  listed : Listed server.ctx
  queued : server.stopped = false → ∀ surroundings msg controlChan,
    server.controlChan = .broadcastMessage msg :: controlChan →
      ∃ server', next serialize server (.dispatch surroundings) = some server' ∧
        ∀ addr id, Live server.ctx addr id → ∃ connection connection',
          server.ctx.connections[id]? = some connection ∧
            server'.ctx.connections[id]? = some connection' ∧
              connection'.writeQueue = connection.writeQueue ++ [serialize msg]

/-- There is no such connection for the address. -/
def Vacant (ctx : Context) (addr : SocketAddr) : Prop := ∀ id, ¬Live ctx addr id

/-- A report that a connection was dropped is taken before the address is registered again, or
after the newer connection failed as well. -/
def Timely (server : State) : Event → Prop
  | .dispatch _ =>
    match server.controlChan with
    | .droppedPeer addr :: _ => Vacant server.ctx addr
    | _ => True
  | _ => True

/-- The states of a server whose steps meet `guard`. -/
abbrev Reachable (serialize : Message → List UInt8) (guard : State → Event → Prop) :
    State → Prop := Transition.Reachable (next serialize) guard {}

variable {serialize : Message → List UInt8} {ctx : Context} {server server' : State}
  {event : Event}

theorem Live.lt {addr : SocketAddr} {id : PeerId} (h : Live ctx addr id) :
    id < ctx.connections.length := by
  have hlt := (List.getElem?_eq_some_iff.mp h.1).1
  rwa [Context.addrs, List.length_map] at hlt

theorem vacant_iff {addr : SocketAddr} :
    Vacant ctx addr ↔ ∀ id < ctx.connections.length, ¬Live ctx addr id :=
  ⟨fun h id _ => h id, fun h id hlive => h id hlive.lt hlive⟩

instance (ctx : Context) (addr : SocketAddr) : Decidable (Vacant ctx addr) :=
  decidable_of_iff' _ vacant_iff

instance (server : State) (event : Event) : Decidable (Timely server event) :=
  match event, server with
  | .dispatch _, ⟨_, [], _⟩ => .isTrue trivial
  | .dispatch _, ⟨ctx, .droppedPeer addr :: _, _⟩ => inferInstanceAs (Decidable (Vacant ctx addr))
  | .dispatch _, ⟨_, .connectNewPeer _ :: _, _⟩ => .isTrue trivial
  | .dispatch _, ⟨_, .broadcastMessage _ :: _, _⟩ => .isTrue trivial
  | .dispatch _, ⟨_, .getNewPeer _ :: _, _⟩ => .isTrue trivial
  | .dispatch _, ⟨_, .sendToPeer _ _ :: _, _⟩ => .isTrue trivial
  | .send _, _ => .isTrue trivial
  | .push _ _, _ => .isTrue trivial
  | .write _, _ => .isTrue trivial
  | .fail _ _, _ => .isTrue trivial
  | .drop _, _ => .isTrue trivial
  | .close _, _ => .isTrue trivial
  | .crash, _ => .isTrue trivial

/-! ## One step -/

/-- A connection keeps its address, and its writer goes on to the next stage or stays. -/
structure Advances (connection connection' : Connection) : Prop where
  addr : connection'.addr = connection.addr
  running : connection'.writer = .running → connection.writer = .running
  ended : connection.writer = .ended → connection'.writer = .ended

theorem advances_push (connection : Connection) (buffer : List UInt8) :
    Advances connection (connection.push buffer) := by
  constructor <;> simp

theorem advances_write {connection connection' : Connection}
    (h : connection.write = some connection') : Advances connection connection' := by
  unfold Connection.write at h
  split at h
  next hwriter _ =>
    cases h
    exact ⟨rfl, fun h => h, fun h => h⟩
  next => cases h

theorem advances_fail {connection connection' : Connection} {bytes : Nat}
    (h : connection.fail bytes = some connection') : Advances connection connection' := by
  unfold Connection.fail at h
  split at h
  next hwriter _ =>
    cases h
    refine ⟨rfl, fun _ => hwriter, fun hended => ?_⟩
    rw [hwriter] at hended
    cases hended
  next => cases h

theorem finish_eq_some {connection connection' : Connection}
    (h : connection.finish = some connection') :
    Advances connection connection' ∧ connection'.writer = .ended := by
  unfold Connection.finish at h
  split at h
  next hwriter =>
    cases h
    exact ⟨⟨rfl, (fun h => by cases h), fun _ => rfl⟩, rfl⟩
  next => cases h

theorem send_eq_some {signal : ControlSignal} :
    server.send signal = some server' ↔ server.controlChan.length < controlCapacity ∧
      server' = { server with controlChan := server.controlChan ++ [signal] } := by
  unfold State.send
  split
  next hroom => simp [hroom, eq_comm]
  next hroom => simp [hroom]

/-- What one step does to the server. -/
inductive Stepped (serialize : Message → List UInt8) (server : State) : Event → State → Prop
  | requested {signal : ControlSignal} : signal.isRequest = true →
      Stepped serialize server (.send signal)
        { server with controlChan := server.controlChan ++ [signal] }
  | dispatched {surroundings : Surroundings} {signal : ControlSignal} {server' : State} :
      server.controlChan = signal :: server'.controlChan →
      (∀ invariant : Context → Prop, (dispatch serialize surroundings signal).wp
        (fun _ => invariant) (fun _ => invariant) server.ctx → invariant server'.ctx) →
      Stepped serialize server (.dispatch surroundings) server'
  | advanced {event : Event} {id : PeerId} {connection connection' : Connection} :
      event.unwraps = false → server.ctx.connections[id]? = some connection →
      Advances connection connection' →
      Stepped serialize server event (server.set id connection')
  | dropped {event : Event} {id : PeerId} {connection connection' : Connection} :
      event.unwraps = false → server.ctx.connections[id]? = some connection →
      Advances connection connection' →
      connection'.writer = .ended → Stepped serialize server event
        { server.set id connection' with
          controlChan := server.controlChan ++ [.droppedPeer connection'.addr] }
  | stopped {event : Event} : event.unwraps = true →
      Stepped serialize server event { server with stopped := true }

theorem stepped_of_next (hnext : next serialize server event = some server') :
    Stepped serialize server event server' := by
  unfold next at hnext
  split at hnext
  next => cases hnext
  next =>
    cases event with
    | send signal =>
        obtain ⟨hrequest, hsend⟩ := Option.ite_none_right_eq_some.mp hnext
        obtain ⟨-, rfl⟩ := send_eq_some.mp hsend
        exact .requested hrequest
    | dispatch surroundings =>
        cases hchan : server.controlChan with
        | nil =>
            simp only [hchan] at hnext
            cases hnext
        | cons signal controlChan =>
            simp only [hchan] at hnext
            split at hnext
            next hrun =>
              cases hnext
              exact .dispatched hchan fun _ h => (Effect.wp_of_ok hrun).mp h
            next hrun =>
              cases hnext
              exact .dispatched hchan fun _ h => (Effect.wp_of_error hrun).mp h
    | push id buffer =>
        obtain ⟨connection, hconnection, hdone⟩ := Option.bind_eq_some_iff.mp hnext
        cases hdone
        exact .advanced rfl hconnection (advances_push _ _)
    | write id =>
        obtain ⟨connection, hconnection, hrest⟩ := Option.bind_eq_some_iff.mp hnext
        obtain ⟨connection', hwrite, hdone⟩ := Option.bind_eq_some_iff.mp hrest
        cases hdone
        exact .advanced rfl hconnection (advances_write hwrite)
    | fail id bytes =>
        obtain ⟨connection, hconnection, hrest⟩ := Option.bind_eq_some_iff.mp hnext
        obtain ⟨connection', hfail, hdone⟩ := Option.bind_eq_some_iff.mp hrest
        cases hdone
        exact .advanced rfl hconnection (advances_fail hfail)
    | drop id =>
        obtain ⟨connection, hconnection, hrest⟩ := Option.bind_eq_some_iff.mp hnext
        obtain ⟨connection', hfinish, hsend⟩ := Option.bind_eq_some_iff.mp hrest
        obtain ⟨hadvances, hended⟩ := finish_eq_some hfinish
        obtain ⟨-, rfl⟩ := send_eq_some.mp hsend
        exact .dropped rfl hconnection hadvances hended
    | close id =>
        obtain ⟨connection, _, hrest⟩ := Option.bind_eq_some_iff.mp hnext
        obtain ⟨-, hdone⟩ := Option.ite_none_right_eq_some.mp hrest
        cases hdone
        exact .stopped rfl
    | crash =>
        cases hnext
        exact .stopped rfl

/-- What a step does to the context is what a signal does, or an advance of a connection. -/
theorem next_ctx (invariant : Context → Prop)
    (hnext : next serialize server event = some server') (hctx : invariant server.ctx)
    (hresults : ∀ ctx results, invariant ctx → invariant { ctx with results })
    (hadd : ∀ addr handle, handle.writeQueue = server.ctx.connections.length →
      invariant (server.ctx.add addr handle))
    (hbroadcast : ∀ order buffer, invariant
      { server.ctx with connections := broadcast order buffer server.ctx.connections })
    (hremove : ∀ surroundings addr controlChan, event = .dispatch surroundings →
      server.controlChan = .droppedPeer addr :: controlChan →
        invariant { server.ctx with peers := server.ctx.peers.remove addr })
    (hset : ∀ id connection connection', server.ctx.connections[id]? = some connection →
      Advances connection connection' → invariant (server.set id connection').ctx) :
    invariant server'.ctx := by
  cases stepped_of_next hnext with
  | requested _ => exact hctx
  | @dispatched surroundings signal _ hchan hrun =>
      refine hrun invariant (dispatch_wp hctx hresults hadd ?_ ?_)
      · exact fun order buffer _ => hbroadcast order buffer
      · exact fun addr heq => hremove surroundings addr _ rfl (heq ▸ hchan)
  | advanced _ hconnection hadvances => exact hset _ _ _ hconnection hadvances
  | dropped _ hconnection hadvances _ => exact hset _ _ _ hconnection hadvances
  | stopped _ => exact hctx

/-! ## The addresses and the writers -/

theorem addrs_add (addr : SocketAddr) (handle : PeerHandle) :
    (ctx.add addr handle).addrs = ctx.addrs ++ [addr] := by
  rw [Context.addrs, Context.add, List.map_append]
  rfl

theorem writers_add (addr : SocketAddr) (handle : PeerHandle) :
    (ctx.add addr handle).writers = ctx.writers ++ [.running] := by
  rw [Context.writers, Context.add, List.map_append]
  rfl

section Set

variable {id : PeerId} {connection connection' : Connection}

theorem addrs_set (hconnection : server.ctx.connections[id]? = some connection)
    (hadvances : Advances connection connection') :
    (server.set id connection').ctx.addrs = server.ctx.addrs := by
  obtain ⟨hlt, hget⟩ := List.getElem?_eq_some_iff.mp hconnection
  have haddr : connection'.addr = server.ctx.connections[id].addr := by
    rw [hget]
    exact hadvances.addr
  apply List.ext_getElem?
  intro other
  rw [Context.addrs, Context.addrs, State.set, List.map_set, haddr, List.getElem?_set]
  split
  next heq =>
    subst heq
    rw [if_pos (by rwa [List.length_map]), List.getElem?_map, hconnection, ← hget]
    rfl
  next => rfl

theorem writers_set (connection' : Connection) (other : PeerId) :
    (server.set id connection').ctx.writers[other]? =
      if id = other then server.ctx.writers[other]?.map fun _ => connection'.writer
      else server.ctx.writers[other]? := by
  rw [Context.writers, Context.writers, State.set, List.map_set, List.getElem?_set]
  split
  next heq =>
    subst heq
    cases hget : (server.ctx.connections.map Connection.writer)[id]? with
    | none => rw [if_neg (by simpa using hget)]; rfl
    | some writer => rw [if_pos (List.getElem?_eq_some_iff.mp hget).1]; rfl
  next => rfl

theorem writers_of_get (hconnection : server.ctx.connections[id]? = some connection) :
    server.ctx.writers[id]? = some connection.writer := by
  rw [Context.writers, List.getElem?_map, hconnection]
  rfl

end Set

/-- A registration takes the place of the earlier ones for its address. -/
theorem live_of_add {addr addr' : SocketAddr} {handle : PeerHandle} {id : PeerId}
    (h : Live (ctx.add addr handle) addr' id) :
    (addr' = addr ∧ id = ctx.connections.length) ∨ (addr' ≠ addr ∧ Live ctx addr' id) := by
  obtain ⟨haddr, hlast, hwriter⟩ := h
  have hlength : ctx.addrs.length = ctx.connections.length := List.length_map ..
  have hlength' : ctx.writers.length = ctx.connections.length := List.length_map ..
  rw [addrs_add] at haddr hlast
  rw [writers_add] at hwriter
  have hlt := (List.getElem?_eq_some_iff.mp haddr).1
  rw [List.length_append, List.length_singleton] at hlt
  by_cases hid : id = ctx.connections.length
  · rw [hid, ← hlength, List.getElem?_concat_length] at haddr
    exact Or.inl ⟨(Option.some.inj haddr).symm, hid⟩
  · -- It is an older one, so the registration was for another address.
    have hold : id < ctx.addrs.length :=
      lt_of_le_of_ne (Nat.lt_succ_iff.mp hlt) fun heq => hid (heq.trans hlength)
    have hold' : id < ctx.writers.length := by rwa [hlength', ← hlength]
    rw [List.getElem?_append_left hold] at haddr
    rw [List.getElem?_append_left hold'] at hwriter
    rw [List.drop_append_of_le_length hold, List.mem_append, not_or] at hlast
    exact Or.inr ⟨fun heq => hlast.2 (List.mem_singleton.mpr heq), haddr, hlast.1, hwriter⟩

theorem Live.of_set {addr : SocketAddr} {id other : PeerId} {connection connection' : Connection}
    (hconnection : server.ctx.connections[id]? = some connection)
    (hadvances : Advances connection connection')
    (h : Live (server.set id connection').ctx addr other) : Live server.ctx addr other := by
  obtain ⟨haddr, hlast, hwriter⟩ := h
  rw [addrs_set hconnection hadvances] at haddr hlast
  refine ⟨haddr, hlast, ?_⟩
  rw [writers_set] at hwriter
  split at hwriter
  next heq =>
    subst heq
    rw [writers_of_get hconnection] at hwriter ⊢
    rw [hadvances.running (Option.some.inj hwriter)]
  next => exact hwriter

theorem live_broadcast {order : List (SocketAddr × PeerHandle)} {buffer : List UInt8}
    {addr : SocketAddr} {id : PeerId} :
    Live { ctx with connections := broadcast order buffer ctx.connections } addr id ↔
      Live ctx addr id := by
  unfold Live Context.addrs Context.writers
  rw [map_broadcast addr_push, map_broadcast writer_push]

/-! ## Runs -/

/-- A removal keeps the peers listed exactly when it removes no connection that still runs. -/
theorem listed_remove_iff {addr : SocketAddr} (h : Listed ctx) :
    Listed { ctx with peers := ctx.peers.remove addr } ↔ Vacant ctx addr := by
  constructor
  · intro hlisted id hlive
    obtain ⟨handle, hget, -⟩ := hlisted addr id hlive
    change (ctx.peers.remove addr).get addr = some handle at hget
    rw [HashMap.get_remove_self] at hget
    cases hget
  · intro hvacant other id hlive
    obtain ⟨handle, hget, hqueue⟩ := h other id hlive
    have hne : other ≠ addr := by
      rintro rfl
      exact hvacant id hlive
    exact ⟨handle, (HashMap.get_remove_ne hne).trans hget, hqueue⟩

/-- A step whose report is in time keeps the peers listed. -/
theorem Listed.next (h : Listed server.ctx) (htimely : Timely server event)
    (hnext : Server.next serialize server event = some server') : Listed server'.ctx := by
  refine next_ctx _ hnext h (fun _ _ h => h) ?_ ?_ ?_ ?_
  · intro addr handle hqueue addr' id hlive
    change ∃ handle', (server.ctx.peers.insert addr handle).get addr' = some handle' ∧ _
    rcases live_of_add hlive with ⟨rfl, rfl⟩ | ⟨hne, hlive⟩
    · exact ⟨handle, HashMap.get_insert_self _ _ _, hqueue⟩
    · rw [HashMap.get_insert_ne hne]
      exact h addr' id hlive
  · intro order buffer addr id hlive
    exact h addr id (live_broadcast.mp hlive)
  · rintro surroundings addr controlChan rfl hchan
    apply (listed_remove_iff h).mpr
    unfold Timely at htimely
    rw [hchan] at htimely
    exact htimely
  · intro id connection connection' hconnection hadvances addr other hlive
    exact h addr other (hlive.of_set hconnection hadvances)

/-- Every step keeps the peers registered. -/
theorem Context.Registered.next (h : server.ctx.Registered)
    (hnext : Server.next serialize server event = some server') : server'.ctx.Registered := by
  refine next_ctx _ hnext h (fun _ _ h => h) (fun addr handle hqueue => h.add hqueue) ?_ ?_ ?_
  · exact fun order buffer => h.broadcast order buffer
  · exact fun _ addr _ _ _ => h.remove addr
  · intro id connection connection' hconnection hadvances addr handle hget
    rw [addrs_set hconnection hadvances]
    exact h addr handle hget

/-- A report in the channel is of a connection whose writer has ended. -/
def Reported (server : State) : Prop :=
  ∀ addr, .droppedPeer addr ∈ server.controlChan →
    ∃ id : PeerId, server.ctx.addrs[id]? = some addr ∧ server.ctx.writers[id]? = some .ended

/-- A connection that has ended keeps its address and stays so. -/
theorem ended_next {addr : SocketAddr} {id : PeerId} (haddr : server.ctx.addrs[id]? = some addr)
    (hended : server.ctx.writers[id]? = some .ended)
    (hnext : next serialize server event = some server') :
    server'.ctx.addrs[id]? = some addr ∧ server'.ctx.writers[id]? = some .ended := by
  have hctx : server.ctx.addrs[id]? = some addr ∧ server.ctx.writers[id]? = some .ended :=
    ⟨haddr, hended⟩
  refine next_ctx (fun ctx => ctx.addrs[id]? = some addr ∧
    ctx.writers[id]? = some .ended) hnext hctx (fun _ _ h => h) ?_ ?_ (fun _ _ _ _ _ => hctx) ?_
  · intro other handle _
    rw [addrs_add, writers_add, List.getElem?_append_left (List.getElem?_eq_some_iff.mp haddr).1,
      List.getElem?_append_left (List.getElem?_eq_some_iff.mp hended).1]
    exact hctx
  · intro order buffer
    unfold Context.addrs Context.writers
    rw [map_broadcast addr_push, map_broadcast writer_push]
    exact hctx
  · intro other connection connection' hconnection hadvances
    rw [addrs_set hconnection hadvances, writers_set]
    refine ⟨haddr, ?_⟩
    split
    next heq =>
      subst heq
      rw [writers_of_get hconnection] at hended ⊢
      rw [Option.map_some, hadvances.ended (Option.some.inj hended)]
    next => exact hended

/-- A report that was not in the channel before the step is of a writer that ends with it. -/
theorem mem_controlChan_next {addr : SocketAddr}
    (hnext : next serialize server event = some server')
    (hmem : .droppedPeer addr ∈ server'.controlChan) :
    .droppedPeer addr ∈ server.controlChan ∨ ∃ id : PeerId,
      server'.ctx.addrs[id]? = some addr ∧ server'.ctx.writers[id]? = some .ended := by
  cases stepped_of_next hnext with
  | requested hrequest =>
      rcases List.mem_append.mp hmem with hmem | hmem
      · exact Or.inl hmem
      · rw [← List.mem_singleton.mp hmem] at hrequest
        cases hrequest
  | dispatched hchan _ =>
      left
      rw [hchan]
      exact List.mem_cons_of_mem _ hmem
  | advanced _ _ _ => exact Or.inl hmem
  | @dropped _ id connection connection' _ hconnection hadvances hended =>
      rcases List.mem_append.mp hmem with hmem | hmem
      · exact Or.inl hmem
      · cases List.mem_singleton.mp hmem
        refine Or.inr ⟨id, ?_, ?_⟩
        · change (server.set id connection').ctx.addrs[id]? = _
          rw [addrs_set hconnection hadvances, Context.addrs, List.getElem?_map, hconnection,
            hadvances.addr]
          rfl
        · change (server.set id connection').ctx.writers[id]? = _
          rw [writers_set, if_pos rfl, writers_of_get hconnection, Option.map_some, hended]
  | stopped _ => exact Or.inl hmem

theorem Reported.next (h : Reported server)
    (hnext : Server.next serialize server event = some server') : Reported server' := by
  intro addr hmem
  rcases mem_controlChan_next hnext hmem with hmem | hnew
  · obtain ⟨id, haddr, hended⟩ := h addr hmem
    exact ⟨id, ended_next haddr hended hnext⟩
  · exact hnew

/-- With one connection for each address every report is in time. -/
theorem Reported.timely (h : Reported server) (hnodup : server.ctx.addrs.Nodup)
    (event : Event) : Timely server event := by
  unfold Timely
  split
  next =>
    split
    next addr controlChan hchan =>
      rintro id ⟨haddr, -, hrunning⟩
      obtain ⟨other, haddr', hended⟩ := h addr (by rw [hchan]; exact List.mem_cons_self)
      obtain ⟨hlt, hget⟩ := List.getElem?_eq_some_iff.mp haddr
      obtain ⟨hlt', hget'⟩ := List.getElem?_eq_some_iff.mp haddr'
      obtain rfl : id = other := (hnodup.getElem_inj_iff).mp (hget.trans hget'.symm)
      rw [hended] at hrunning
      cases hrunning
    next => trivial
  next => trivial

/-- No step takes an address away. -/
theorem addrs_prefix_next (hnext : next serialize server event = some server') :
    server.ctx.addrs <+: server'.ctx.addrs := by
  refine next_ctx (fun ctx => server.ctx.addrs <+: ctx.addrs) hnext List.prefix_rfl
    (fun _ _ h => h) ?_ ?_ (fun _ _ _ _ _ => List.prefix_rfl) ?_
  · intro addr handle _
    rw [addrs_add]
    exact List.prefix_append _ _
  · intro order buffer
    rw [Context.addrs, Context.addrs, map_broadcast addr_push]
  · intro id connection connection' hconnection hadvances
    rw [addrs_set hconnection hadvances]

theorem listed_empty : Listed {} := by
  rintro addr id ⟨haddr, -⟩
  cases haddr

/-- While no address is registered twice, every connection whose writer has not failed is
under its address. -/
theorem listed_of_nodup (h : Reachable serialize (fun _ _ => True) server)
    (hnodup : server.ctx.addrs.Nodup) : Listed server.ctx := by
  suffices hall : Reported server ∧ (server.ctx.addrs.Nodup → Listed server.ctx) from
    hall.2 hnodup
  refine Transition.Reachable.invariant (fun server => Reported server ∧
    (server.ctx.addrs.Nodup → Listed server.ctx)) ⟨?_, fun _ => listed_empty⟩ ?_ h
  · intro addr hmem
    cases hmem
  · rintro server server' event ⟨hreported, hlisted⟩ - hnext
    refine ⟨hreported.next hnext, fun hnodup => ?_⟩
    have hbefore := hnodup.sublist (addrs_prefix_next hnext).sublist
    exact (hlisted hbefore).next (hreported.timely hbefore event) hnext

theorem registered_of_reachable {guard : State → Event → Prop}
    (h : Reachable serialize guard server) : server.ctx.Registered := by
  refine Transition.Reachable.invariant (fun server => server.ctx.Registered) registered_empty ?_ h
  exact fun _ _ _ hregistered _ hnext => hregistered.next hnext

/-- A server that runs takes the next signal. -/
theorem next_dispatch (hrunning : server.stopped = false) {signal : ControlSignal}
    {controlChan : List ControlSignal} (hchan : server.controlChan = signal :: controlChan)
    (surroundings : Surroundings) :
    next serialize server (.dispatch surroundings) =
      match dispatch serialize surroundings signal server.ctx with
      | .ok _ ctx => some { server with ctx, controlChan }
      | .error _ ctx => some { ctx, controlChan, stopped := true } := by
  unfold next
  rw [hrunning, if_neg Bool.false_ne_true]
  simp only [hchan]

/-- It takes a broadcast and goes on, and every registered peer gets the message. -/
theorem next_broadcast (hrunning : server.stopped = false) (hregistered : server.ctx.Registered)
    {msg : Message} {controlChan : List ControlSignal}
    (hchan : server.controlChan = .broadcastMessage msg :: controlChan)
    (surroundings : Surroundings) : ∃ ctx,
    next serialize server (.dispatch surroundings) = some { server with ctx, controlChan } ∧
      Receives (serialize msg) server.ctx ctx := by
  obtain ⟨ctx, hrun, hreceives⟩ : ∃ ctx',
      dispatch serialize surroundings (.broadcastMessage msg) server.ctx = .ok () ctx' ∧
        Receives (serialize msg) server.ctx ctx' := hregistered.receives msg
  refine ⟨ctx, ?_, hreceives⟩
  rw [next_dispatch hrunning hchan surroundings, hrun]

/-- A broadcast is queued to the connections that are listed. -/
theorem Listed.queued {ctx' : Context} {buffer : List UInt8} (h : Listed ctx)
    (hreceives : Receives buffer ctx ctx') {addr : SocketAddr} {id : PeerId}
    (hlive : Live ctx addr id) :
    ∃ connection connection', ctx.connections[id]? = some connection ∧
      ctx'.connections[id]? = some connection' ∧
        connection'.writeQueue = connection.writeQueue ++ [buffer] := by
  obtain ⟨handle, hget, rfl⟩ := h addr id hlive
  obtain ⟨connection, connection', hconnection, hconnection', -, hqueue⟩ :=
    hreceives addr handle hget
  have hrunning : connection.writer = .running := by
    have hwriter := hlive.2.2
    rw [Context.writers, List.getElem?_map, hconnection] at hwriter
    exact Option.some.inj hwriter
  refine ⟨connection, connection', hconnection, hconnection', hqueue ?_⟩
  rw [hrunning]
  simp

/-- As long as every report is in time, the connection that was registered last for an address
is under it until its own writer fails, and broadcasts are queued to it. -/
theorem served_of_timely (serialize : Message → List UInt8) {server : State}
    (h : Reachable serialize Timely server) : Served serialize server := by
  have hregistered := registered_of_reachable h
  have hlisted : Listed server.ctx :=
    Transition.Reachable.invariant (fun server => Listed server.ctx) listed_empty
      (fun _ _ _ hlisted htimely hnext => hlisted.next htimely hnext) h
  refine ⟨hlisted, ?_⟩
  intro hrunning surroundings msg controlChan hchan
  obtain ⟨ctx, hnext, hreceives⟩ := next_broadcast hrunning hregistered hchan surroundings
  exact ⟨_, hnext, fun addr id hlive => hlisted.queued hreceives hlive⟩

/-- A network where every connect leads to the same peer. -/
noncomputable def friendly : Surroundings where
  connect _ := .ok ⟨.ok (localAddr 6001), .ok (localAddr 6001)⟩
  iteration := anyIteration

/-- A peer is connected to, its connection fails, and it is connected to again after the report
was taken. -/
theorem served_of_timely_reconnected : ∃ server, Served (fun _ => pingBytes) server ∧
    Live server.ctx (localAddr 6001) 1 := by
  obtain ⟨server, hreach, hlive⟩ := Transition.exists_reachable (next fun _ => pingBytes)
    Timely {}
    [.send (.connectNewPeer (localAddr 6001)), .dispatch friendly, .push 0 pingBytes,
      .fail 0 0, .drop 0, .dispatch friendly, .send (.connectNewPeer (localAddr 6001)),
      .dispatch friendly]
    (fun server => Live server.ctx (localAddr 6001) 1) (by decide +kernel)
  exact ⟨server, served_of_timely _ hreach, of_decide_eq_true hlive⟩

/-- It is connected to again before, and the report is taken for the new connection. -/
theorem unserved_reconnected : ¬∀ server,
    Reachable (fun _ => pingBytes) (fun _ _ => True) server →
      Served (fun _ => pingBytes) server := by
  intro h
  obtain ⟨server, hreach, hlost⟩ := Transition.exists_reachable (next fun _ => pingBytes)
    (fun _ _ => True) {}
    [.send (.connectNewPeer (localAddr 6001)), .dispatch friendly, .push 0 pingBytes,
      .send (.connectNewPeer (localAddr 6001)), .fail 0 0, .drop 0, .dispatch friendly,
      .dispatch friendly]
    (fun server => Live server.ctx (localAddr 6001) 1 ∧
      server.ctx.peers.get (localAddr 6001) = none) (by decide +kernel)
  obtain ⟨hlive, hget⟩ := of_decide_eq_true hlost
  obtain ⟨handle, hget', -⟩ := (h server hreach).listed _ _ hlive
  rw [hget] at hget'
  cases hget'

end Server

end BitcoinClient
