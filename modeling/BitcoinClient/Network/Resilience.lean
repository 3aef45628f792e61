import BitcoinClient.Network.Registry

/-! # A server that survives failing connections

All tasks of a server share one thread, and each of them unwraps what it must not meet: the
dispatch loop the error of an incoming connection whose peer is gone, the writer of a connection
the end of its queue, which comes when no one holds the handle of the connection any more. Such a
panic is the end of all the others. Everything else that fails leaves the server as it is: it
takes every signal, and its broadcasts reach all registered peers.
-/

namespace BitcoinClient

namespace Server

section Definitions

variable (serialize : Message → List UInt8)

/-- The state of a new server after these events, when they can take place in this order. -/
abbrev replay (events : List Event) : Option State :=
  Transition.run (next serialize) (fun _ _ => True) {} events

/-- The server runs and takes whatever signal comes next. A connect or an accept that fails
changes no peer, and a broadcast reaches all of them. -/
structure Attends (server : State) : Prop where
  running : server.stopped = false
  takes : ∀ surroundings signal controlChan, server.controlChan = signal :: controlChan →
    ∃ server', next serialize server (.dispatch surroundings) = some server' ∧
      server'.controlChan = controlChan
  unchanged : ∀ surroundings signal controlChan server',
    server.controlChan = signal :: controlChan → Fails surroundings server.ctx signal →
      next serialize server (.dispatch surroundings) = some server' →
        server'.ctx.peers = server.ctx.peers
  receives : ∀ surroundings msg controlChan,
    server.controlChan = .broadcastMessage msg :: controlChan →
      ∃ server', next serialize server (.dispatch surroundings) = some server' ∧
        server'.stopped = false ∧ Receives (serialize msg) server.ctx server'.ctx

/-- It does so in every state of a run, whatever fails on the way. -/
def Resilient (events : List Event) : Prop :=
  ∀ earlier later server, events = earlier ++ later → replay serialize earlier = some server →
    Attends serialize server

/-- The step is none of those that unwrap an error: an incoming peer is there while it is
registered, and no writer meets the end of its queue. -/
def Harmless (server : State) : Event → Prop
  | .dispatch _ =>
    match server.controlChan with
    | .getNewPeer stream :: _ => stream.Answers
    | _ => True
  | .close _ | .crash => False
  | _ => True

end Definitions

instance (stream : TcpStream) : Decidable stream.Answers :=
  match stream with
  | ⟨.ok handleAddr, .ok peerAddr⟩ => .isTrue ⟨⟨handleAddr, rfl⟩, peerAddr, rfl⟩
  | ⟨.error _, _⟩ => .isFalse fun h => by
      obtain ⟨⟨addr, haddr⟩, _⟩ := h
      cases haddr
  | ⟨_, .error _⟩ => .isFalse fun h => by
      obtain ⟨_, addr, haddr⟩ := h
      cases haddr

instance (server : State) (event : Event) : Decidable (Harmless server event) :=
  match event, server with
  | .dispatch _, ⟨_, [], _⟩ => .isTrue trivial
  | .dispatch _, ⟨_, .getNewPeer stream :: _, _⟩ => inferInstanceAs (Decidable stream.Answers)
  | .dispatch _, ⟨_, .connectNewPeer _ :: _, _⟩ => .isTrue trivial
  | .dispatch _, ⟨_, .broadcastMessage _ :: _, _⟩ => .isTrue trivial
  | .dispatch _, ⟨_, .droppedPeer _ :: _, _⟩ => .isTrue trivial
  | .dispatch _, ⟨_, .sendToPeer _ _ :: _, _⟩ => .isTrue trivial
  | .send _, _ => .isTrue trivial
  | .push _ _, _ => .isTrue trivial
  | .write _, _ => .isTrue trivial
  | .fail _ _, _ => .isTrue trivial
  | .drop _, _ => .isTrue trivial
  | .close _, _ => .isFalse id
  | .crash, _ => .isFalse id

variable {serialize : Message → List UInt8} {server server' : State} {event : Event}
  {events earlier : List Event}

/-! ## One step -/

/-- No one has asked for the message to one peer, which is not implemented. -/
def Sendless (server : State) : Prop :=
  ∀ receiver msg, .sendToPeer receiver msg ∉ server.controlChan

theorem Sendless.next (h : Sendless server)
    (hevent : ∀ receiver msg, event ≠ .send (.sendToPeer receiver msg))
    (hnext : Server.next serialize server event = some server') : Sendless server' := by
  intro receiver msg hmem
  cases stepped_of_next hnext with
  | requested _ =>
      rcases List.mem_append.mp hmem with hmem | hmem
      · exact h receiver msg hmem
      · exact hevent receiver msg (congrArg Event.send (List.mem_singleton.mp hmem).symm)
  | dispatched hchan _ =>
      apply h receiver msg
      rw [hchan]
      exact List.mem_cons_of_mem _ hmem
  | advanced _ _ _ => exact h receiver msg hmem
  | dropped _ _ _ _ =>
      rcases List.mem_append.mp hmem with hmem | hmem
      · exact h receiver msg hmem
      · cases List.mem_singleton.mp hmem
  | stopped _ => exact h receiver msg hmem

/-- A step that can take place begins in a server that runs. -/
theorem running_of_next (hnext : next serialize server event = some server') :
    server.stopped = false := by
  unfold next at hnext
  split at hnext
  next => cases hnext
  next hrunning => exact Bool.eq_false_iff.mpr hrunning

/-- The loop goes on behind a signal unless the signal is an incoming connection whose peer is
gone. -/
theorem running_dispatch_iff (hsendless : Sendless server) (hrunning : server.stopped = false)
    {surroundings : Surroundings}
    (hnext : next serialize server (.dispatch surroundings) = some server') :
    server'.stopped = false ↔ Harmless server (.dispatch surroundings) := by
  cases hchan : server.controlChan with
  | nil =>
      simp only [next, hrunning, hchan] at hnext
      cases hnext
  | cons signal controlChan =>
      have hsignal : ∀ receiver msg, signal ≠ .sendToPeer receiver msg := by
        rintro receiver msg rfl
        apply hsendless receiver msg
        rw [hchan]
        exact List.mem_cons_self
      have hreturns : (∃ ctx', dispatch serialize surroundings signal server.ctx = .ok () ctx') ↔
          ∀ stream, signal = .getNewPeer stream → stream.Answers := dispatch_returns_iff hsignal
      have hharmless : Harmless server (.dispatch surroundings) ↔
          ∀ stream, signal = .getNewPeer stream → stream.Answers := by
        simp only [Harmless, hchan]
        cases signal <;> simp
      rw [hharmless, ← hreturns]
      rw [next_dispatch hrunning hchan] at hnext
      split at hnext
      next ctx hrun =>
        cases hnext
        exact iff_of_true hrunning ⟨ctx, hrun⟩
      next error ctx hrun =>
        cases hnext
        refine iff_of_false Bool.noConfusion ?_
        rintro ⟨ctx', hok⟩
        cases hok.symm.trans hrun

/-- The server runs on after a step unless the step is one of those that unwrap an error. -/
theorem running_next_iff (hsendless : Sendless server)
    (hnext : next serialize server event = some server') :
    server'.stopped = false ↔ Harmless server event := by
  have hrunning := running_of_next hnext
  cases event with
  | dispatch surroundings => exact running_dispatch_iff hsendless hrunning hnext
  | close id =>
      cases stepped_of_next hnext with
      | stopped _ => exact iff_of_false Bool.noConfusion False.elim
      | advanced hunwraps _ _ => cases hunwraps
      | dropped hunwraps _ _ _ => cases hunwraps
  | crash =>
      cases stepped_of_next hnext with
      | stopped _ => exact iff_of_false Bool.noConfusion False.elim
      | advanced hunwraps _ _ => cases hunwraps
      | dropped hunwraps _ _ _ => cases hunwraps
  | send signal =>
      refine iff_of_true ?_ trivial
      cases stepped_of_next hnext with
      | requested _ => exact hrunning
      | advanced _ _ _ => exact hrunning
      | dropped _ _ _ _ => exact hrunning
      | stopped hunwraps => cases hunwraps
  | _ =>
      refine iff_of_true ?_ trivial
      cases stepped_of_next hnext with
      | advanced _ _ _ => exact hrunning
      | dropped _ _ _ _ => exact hrunning
      | stopped hunwraps => cases hunwraps

/-- A writer meets the end of its queue only when another connection has its place. -/
theorem close_eq_some {id : PeerId} (hnext : next serialize server (.close id) = some server') :
    ∃ connection, server.ctx.connections[id]? = some connection ∧ connection.writer = .running ∧
      (server.ctx.peers.get connection.addr).map PeerHandle.writeQueue ≠ some id := by
  simp only [next, running_of_next hnext, Bool.false_eq_true, if_false] at hnext
  obtain ⟨connection, hconnection, hrest⟩ := Option.bind_eq_some_iff.mp hnext
  obtain ⟨⟨hwriter, _, hhandle⟩, _⟩ := Option.ite_none_right_eq_some.mp hrest
  exact ⟨connection, hconnection, hwriter, hhandle⟩

/-- So none does while no address is registered twice. -/
theorem close_eq_none_of_nodup (h : Reachable serialize (fun _ _ => True) server)
    (hnodup : server.ctx.addrs.Nodup) (id : PeerId) :
    next serialize server (.close id) = none := by
  rw [Option.eq_none_iff_forall_ne_some]
  intro server' hnext
  obtain ⟨connection, hconnection, hwriter, hhandle⟩ := close_eq_some hnext
  have haddr : server.ctx.addrs[id]? = some connection.addr := by
    rw [Context.addrs, List.getElem?_map, hconnection]
    rfl
  have hlast : connection.addr ∉ server.ctx.addrs.drop (id + 1) := by
    obtain ⟨hlt, hget⟩ := List.getElem?_eq_some_iff.mp haddr
    have hrest := hnodup.sublist (List.drop_sublist id _)
    rw [List.drop_eq_getElem_cons hlt, hget, List.nodup_cons] at hrest
    exact hrest.1
  have hlive : Live server.ctx connection.addr id :=
    ⟨haddr, hlast, (writers_of_get hconnection).trans (congrArg some hwriter)⟩
  obtain ⟨handle, hget, hqueue⟩ := listed_of_nodup h hnodup _ _ hlive
  apply hhandle
  rw [hget, Option.map_some, hqueue]

/-! ## Runs -/

theorem exists_replay (hrun : (replay serialize events).isSome = true) {earlier later : List Event}
    (hsplit : events = earlier ++ later) : ∃ server, replay serialize earlier = some server := by
  obtain ⟨final, hfinal⟩ := Option.isSome_iff_exists.mp hrun
  rw [hsplit, replay, Transition.run_append] at hfinal
  obtain ⟨server, hserver, _⟩ := Option.bind_eq_some_iff.mp hfinal
  exact ⟨server, hserver⟩

theorem replay_concat : replay serialize (earlier ++ [event]) = some server' ↔
    ∃ server, replay serialize earlier = some server ∧
      next serialize server event = some server' := by
  rw [replay, Transition.run_append, Option.bind_eq_some_iff]
  simp [Transition.run]

/-- A server that runs and has only what is implemented to do attends to all of it. -/
theorem attends_of_running (hrunning : server.stopped = false)
    (hregistered : server.ctx.Registered) : Attends serialize server where
  running := hrunning
  takes surroundings signal controlChan hchan := by
    rw [next_dispatch hrunning hchan]
    split
    next => exact ⟨_, rfl, rfl⟩
    next => exact ⟨_, rfl, rfl⟩
  unchanged surroundings signal controlChan server' hchan hfails hnext := by
    have hpeers : (dispatch serialize surroundings signal).wp
        (fun _ ctx' => ctx'.peers = server.ctx.peers)
        (fun _ ctx' => ctx'.peers = server.ctx.peers) server.ctx := dispatch_of_fails hfails
    rw [next_dispatch hrunning hchan] at hnext
    split at hnext
    next ctx hrun =>
      cases hnext
      exact (Effect.wp_of_ok hrun).mp hpeers
    next error ctx hrun =>
      cases hnext
      exact (Effect.wp_of_error hrun).mp hpeers
  receives surroundings msg controlChan hchan := by
    obtain ⟨ctx, hnext, hreceives⟩ := next_broadcast hrunning hregistered hchan surroundings
    exact ⟨_, hnext, hrunning, hreceives⟩

/-- A run leaves the server attending to its signals if and only if every incoming peer is there
when it is registered and no task unwraps an error. -/
theorem resilient_iff (serialize : Message → List UInt8) (events : List Event)
    (hrun : (replay serialize events).isSome = true)
    (hevents : ∀ receiver msg, Event.send (.sendToPeer receiver msg) ∉ events) :
    Resilient serialize events ↔ ∀ earlier event later server,
      events = earlier ++ event :: later → replay serialize earlier = some server →
        Harmless server event := by
  have hsendless : ∀ earlier later server, events = earlier ++ later →
      replay serialize earlier = some server → Sendless server := by
    rintro earlier later server rfl hreplay
    refine Transition.run_invariant Sendless ?_ ?_ hreplay
    · exact fun _ _ => List.not_mem_nil
    · intro event hmem before after hbefore hnext
      apply hbefore.next ?_ hnext
      rintro receiver msg rfl
      exact hevents receiver msg (List.mem_append_left later hmem)
  constructor
  · intro h earlier event later server hsplit hreplay
    have hsplit' : events = (earlier ++ [event]) ++ later := by simp [hsplit]
    obtain ⟨server', hreplay'⟩ := exists_replay hrun hsplit'
    obtain ⟨before, hbefore, hnext⟩ := replay_concat.mp hreplay'
    obtain rfl := Option.some.inj (hreplay.symm.trans hbefore)
    have hrunning := (h _ later server' hsplit' hreplay').running
    exact (running_next_iff (hsendless _ _ _ hsplit hreplay) hnext).mp hrunning
  · intro hharmless earlier later server hsplit hreplay
    have hregistered := registered_of_reachable (Transition.reachable_of_run hreplay)
    refine attends_of_running ?_ hregistered
    -- The last step was harmless.
    rcases List.eq_nil_or_concat earlier with rfl | ⟨before, event, rfl⟩
    · cases hreplay
      rfl
    · rw [List.concat_eq_append] at hsplit hreplay
      obtain ⟨server₀, hbefore, hnext⟩ := replay_concat.mp hreplay
      have hsplit' : events = before ++ event :: later := by simp [hsplit]
      exact (running_next_iff (hsendless _ _ _ hsplit' hbefore) hnext).mpr
        (hharmless _ _ _ _ hsplit' hbefore)

/-- A network without listeners. -/
noncomputable def deserted (iteration : HashMap.Iteration SocketAddr PeerHandle) :
    Surroundings where
  connect _ := .error ⟨111⟩
  iteration := iteration

/-- The peers with the first connection, in their only order. -/
noncomputable def firstPeer : HashMap.Iteration SocketAddr PeerHandle :=
  .ofOrder ((∅ : HashMap _ _).insert (localAddr 40000) ⟨localAddr 40000, 0⟩)
    [(localAddr 40000, ⟨localAddr 40000, 0⟩)] (by decide +kernel)

/-- One peer connects, another one is not where it is looked for, and a message to the first one
does not get through. -/
noncomputable def refusedRun : List Event :=
  [.send (.getNewPeer ⟨.ok (localAddr 40000), .ok (localAddr 40000)⟩),
    .send (.connectNewPeer (localAddr 6001)), .send (.broadcastMessage (.ping "a")),
    .dispatch (deserted anyIteration), .dispatch (deserted anyIteration),
    .dispatch (deserted firstPeer), .fail 0 2, .drop 0, .send (.broadcastMessage (.ping "a")),
    .dispatch (deserted anyIteration), .dispatch (deserted anyIteration)]

theorem resilient_iff_refused : Resilient (fun _ => pingBytes) refusedRun := by
  have hguarded : (Transition.run (next fun _ => pingBytes) Harmless {} refusedRun).isSome =
      true := by
    decide +kernel
  have hrun : (replay (fun _ => pingBytes) refusedRun).isSome = true := by decide +kernel
  have hevents : ∀ receiver msg, Event.send (.sendToPeer receiver msg) ∉ refusedRun := by
    simp [refusedRun]
  obtain ⟨final, hfinal⟩ := Option.isSome_iff_exists.mp hguarded
  refine (resilient_iff _ refusedRun hrun hevents).mpr ?_
  intro earlier event later server hsplit hreplay
  rw [hsplit] at hfinal
  exact Transition.guard_of_run hfinal hreplay

theorem not_resilient_of_stopped (hrun : (replay serialize events).any State.stopped = true) :
    ¬Resilient serialize events := by
  intro h
  obtain ⟨server, hreplay, hstopped⟩ := (Option.any_eq_true _ _).mp hrun
  have hrunning := (h events [] server (List.append_nil _).symm hreplay).running
  exact Bool.noConfusion (hrunning.symm.trans hstopped)

/-- A peer is gone when the server asks for its address, and a message for the others stays
behind. -/
theorem not_resilient_gone : ¬Resilient (fun _ => pingBytes)
    [.send (.getNewPeer ⟨.error ⟨107⟩, .error ⟨107⟩⟩), .send (.broadcastMessage (.ping "a")),
      .dispatch (deserted anyIteration)] :=
  not_resilient_of_stopped (by decide +kernel)

/-- A peer is connected to twice, and the first connection is closed. With its reader the last
handle is gone that its writer waits for. -/
theorem not_resilient_reconnected : ¬Resilient (fun _ => pingBytes)
    [.send (.connectNewPeer (localAddr 6001)), .send (.connectNewPeer (localAddr 6001)),
      .send (.broadcastMessage (.ping "a")), .dispatch friendly, .dispatch friendly, .close 0] :=
  not_resilient_of_stopped (by decide +kernel)

end Server

end BitcoinClient
