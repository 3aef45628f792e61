import BitcoinClient.Network.Registry

/-! # One direction of a connection

The writer task of a connection writes a frame for each message of its queue. The bytes reach
the peer in order and in pieces of any size, and the reader task there hands a payload on as
soon as the whole frame has arrived. A writer that fails leaves the beginning of a frame behind.
-/

namespace BitcoinClient

/-- From the queue of one server to the workers of another. -/
structure Wire where
  /-- The sender's end. -/
  connection : Connection
  /-- The number of written bytes that have arrived. -/
  arrived : Nat := 0
  /-- Those that the reader has not consumed. -/
  unread : List UInt8 := []
  reader : Reader := {}
  /-- What the reader has handed on. -/
  delivered : List (List UInt8) := []
deriving DecidableEq, Repr

namespace Wire

inductive Event where
  /-- Someone with a handle writes to the peer. -/
  | push (buffer : List UInt8)
  | write
  | fail (bytes : Nat)
  /-- The writer task ends, and its queue is closed. -/
  | finish
  /-- More bytes arrive. -/
  | receive (bytes : Nat)
  | read
deriving DecidableEq, Repr

/-- The events that take messages further on their way. -/
def Event.isTransfer : Event → Bool
  | write | receive _ | read => true
  | push _ | fail _ | finish => false

/-- The buffers that are pushed, in order. -/
def pushes (events : List Event) : List (List UInt8) :=
  events.filterMap fun
    | .push buffer => some buffer
    | _ => none

/-- A connection that was just registered at both ends. -/
def start (addr : SocketAddr) : Wire := { connection := { addr } }

section Definitions

variable (wire : Wire)

/-- The bytes in front of the reader, those on their way among them. -/
def remaining : List UInt8 := wire.unread ++ wire.connection.written.drop wire.arrived

/-- What the reader will hand on of them. -/
def arriving : List (List UInt8) := (wire.reader.loop wire.remaining).1

def push (buffer : List UInt8) : Wire :=
  { wire with connection := wire.connection.push buffer }

def pushAll (buffers : List (List UInt8)) : Wire := buffers.foldl push wire

def next : Event → Option Wire
  | .push buffer => some (wire.push buffer)
  | .write => wire.connection.write.map fun connection => { wire with connection }
  | .fail bytes => (wire.connection.fail bytes).map fun connection => { wire with connection }
  | .finish => wire.connection.finish.map fun connection => { wire with connection }
  | .receive bytes =>
    if 0 < bytes ∧ wire.arrived + bytes ≤ wire.connection.written.length then
      some { wire with
        arrived := wire.arrived + bytes
        unread := wire.unread ++ (wire.connection.written.drop wire.arrived).take bytes }
    else none
  | .read =>
    match wire.reader.next wire.unread with
    | .ok (payload, reader, unread) =>
      some { wire with reader, unread, delivered := wire.delivered ++ [payload] }
    | .error _ => none

/-- Take the given events in order. -/
def run (events : List Event) : Option Wire := events.foldlM next wire

/-- What is still to be written, on its way or to be read. -/
def rank : Nat :=
  (wire.connection.writeQueue.map fun newMsg => 1 + 2 * (frame newMsg).length).sum +
    2 * (wire.connection.written.length - wire.arrived) + wire.unread.length

/-- In front of the reader there are the frames of some messages, and the beginning of one more
only when the writer has failed. These messages follow those that were delivered. -/
structure Sound (pushed : List (List UInt8)) : Prop where
  header : wire.reader.sizeBuffer.length = 4
  arrived : wire.arrived ≤ wire.connection.written.length
  queue : wire.connection.writeQueue ⊆ pushed
  framed : ∃ framed last cut, wire.remaining = framed.flatMap frame ++ cut ∧
    last.length < 2 ^ 32 ∧ cut <+: frame last ∧ cut ≠ frame last ∧
    wire.delivered ++ framed <+: pushed ∧
    (wire.connection.writer = .running →
      cut = [] ∧ wire.delivered ++ framed ++ wire.connection.writeQueue = pushed)

end Definitions

variable {wire wire' : Wire} {pushed : List (List UInt8)}

theorem frame_ne_nil (newMsg : List UInt8) : frame newMsg ≠ [] := by
  apply List.ne_nil_of_length_pos
  rw [length_frame]
  omega

/-! ## The reader -/

/-- The reader hands on the message whose frame is in front of it, once it is complete. -/
theorem next_prefix {reader reader' : Reader} {unread rest tail after newMsg payload : List UInt8}
    (hheader : reader.sizeBuffer.length = 4) (hfits : newMsg.length < 2 ^ 32)
    (hbytes : unread ++ tail = frame newMsg ++ after)
    (hnext : reader.next unread = .ok (payload, reader', rest)) :
    payload = newMsg ∧ rest ++ tail = after ∧ reader'.sizeBuffer.length = 4 := by
  have hfront : frame newMsg <+: unread := by
    have hboth : unread <+: frame newMsg ++ after := ⟨tail, hbytes⟩
    rcases List.prefix_or_prefix_of_prefix hboth (List.prefix_append _ _) with hshort | hlong
    · by_contra hne
      have hproper : unread ≠ frame newMsg := fun heq => hne (heq ▸ List.prefix_rfl)
      rw [Reader.next_cut hheader hfits hshort hproper] at hnext
      cases hnext
    · exact hlong
  obtain ⟨more, rfl⟩ := hfront
  obtain ⟨next, hok, hheader'⟩ : ∃ next, reader.next (frame newMsg ++ more) =
      .ok (newMsg, next, more) ∧ next.sizeBuffer.length = 4 := Reader.next_frame hheader hfits
  obtain ⟨rfl, rfl, rfl⟩ : newMsg = payload ∧ next = reader' ∧ more = rest := by
    simpa using hok.symm.trans hnext
  rw [List.append_assoc] at hbytes
  exact ⟨rfl, List.append_cancel_left hbytes, hheader'⟩

/-- What the reader will hand on of what is in front of it. -/
theorem loop_framed {framed : List (List UInt8)} {last cut : List UInt8}
    (hframed : ∀ newMsg ∈ framed, newMsg.length < 2 ^ 32) (hlast : last.length < 2 ^ 32)
    (hcut : cut <+: frame last) (hproper : cut ≠ frame last) {reader : Reader}
    (hheader : reader.sizeBuffer.length = 4) :
    (reader.loop (framed.flatMap frame ++ cut)).1 = framed := by
  induction framed generalizing reader with
  | nil => rw [List.flatMap_nil, List.nil_append, Reader.loop_of_error
      (Reader.next_cut hheader hlast hcut hproper)]
  | cons newMsg later ih =>
      obtain ⟨hfits, hlater⟩ := List.forall_mem_cons.mp hframed
      obtain ⟨reader', hok, hheader'⟩ : ∃ reader',
          reader.next (frame newMsg ++ (later.flatMap frame ++ cut)) =
            .ok (newMsg, reader', later.flatMap frame ++ cut) ∧ reader'.sizeBuffer.length = 4 :=
        Reader.next_frame hheader hfits
      rw [List.flatMap_cons, List.append_assoc, Reader.loop_of_ok hok, ih hlater hheader']

/-! ## One event -/

theorem sound_start (addr : SocketAddr) : (start addr).Sound [] where
  header := List.length_replicate
  arrived := Nat.le_refl 0
  queue := List.Subset.refl []
  framed := by
    refine ⟨[], [], [], rfl, Nat.two_pow_pos 32, List.nil_prefix, ?_, List.prefix_rfl, fun _ => ?_⟩
    · exact (frame_ne_nil []).symm
    · exact ⟨rfl, rfl⟩

theorem write_eq_some {connection connection' : Connection}
    (h : connection.write = some connection') : connection.writer = .running ∧
      ∃ newMsg queue, connection.writeQueue = newMsg :: queue ∧ connection' =
        { connection with writeQueue := queue, written := connection.written ++ frame newMsg } := by
  unfold Connection.write at h
  split at h
  next newMsg queue hwriter hqueue =>
    cases h
    exact ⟨hwriter, newMsg, queue, hqueue, rfl⟩
  next => cases h

theorem fail_eq_some {connection connection' : Connection} {bytes : Nat}
    (h : connection.fail bytes = some connection') : connection.writer = .running ∧
      ∃ newMsg queue, connection.writeQueue = newMsg :: queue ∧ connection' =
        { connection with
          writeQueue := queue
          writer := .failed
          written := connection.written ++ (frame newMsg).take bytes } := by
  unfold Connection.fail at h
  split at h
  next newMsg queue hwriter hqueue =>
    cases h
    exact ⟨hwriter, newMsg, queue, hqueue, rfl⟩
  next => cases h

/-- More bytes are written behind those in front of the reader. -/
theorem remaining_append (h : wire.arrived ≤ wire.connection.written.length)
    {connection : Connection} {bytes : List UInt8}
    (hwritten : connection.written = wire.connection.written ++ bytes) :
    remaining { wire with connection } = wire.remaining ++ bytes := by
  rw [remaining, hwritten, List.drop_append_of_le_length h, ← List.append_assoc]
  rfl

theorem Sound.push (h : wire.Sound pushed) (buffer : List UInt8) :
    (wire.push buffer).Sound (pushed ++ [buffer]) := by
  obtain ⟨framed, last, cut, hbytes, hlast, hcut, hproper, hbeginning, hrunning⟩ := h.framed
  have hlater := hbeginning.trans (List.prefix_append pushed [buffer])
  unfold Wire.push Connection.push
  split
  next hended =>
    refine ⟨h.header, h.arrived, List.subset_append_of_subset_left _ h.queue,
      framed, last, cut, hbytes, hlast, hcut, hproper, hlater, fun hwriter => ?_⟩
    rw [hended] at hwriter
    cases hwriter
  next =>
    refine ⟨h.header, h.arrived, ?_, framed, last, cut, hbytes, hlast, hcut, hproper, hlater,
      fun hwriter => ?_⟩
    · exact List.append_subset.mpr ⟨List.subset_append_of_subset_left _ h.queue,
        List.subset_append_right _ _⟩
    · obtain ⟨rfl, heq⟩ := hrunning hwriter
      exact ⟨rfl, by rw [← List.append_assoc, heq]⟩

theorem Sound.pushAll (h : wire.Sound pushed) (buffers : List (List UInt8)) :
    (wire.pushAll buffers).Sound (pushed ++ buffers) := by
  induction buffers generalizing wire pushed with
  | nil =>
      rw [List.append_nil]
      exact h
  | cons buffer later ih =>
      rw [List.append_cons]
      exact ih (h.push buffer)

theorem Sound.write (h : wire.Sound pushed) {connection : Connection}
    (hwrite : wire.connection.write = some connection) :
    Sound { wire with connection } pushed := by
  obtain ⟨hwriter, newMsg, queue, hqueue, rfl⟩ := write_eq_some hwrite
  obtain ⟨framed, last, cut, hbytes, hlast, hcut, hproper, _, hrunning⟩ := h.framed
  obtain ⟨rfl, heq⟩ := hrunning hwriter
  rw [hqueue] at heq
  have heq' : wire.delivered ++ (framed ++ [newMsg]) ++ queue = pushed := by
    rw [← heq]
    simp only [List.append_assoc, List.singleton_append]
  refine ⟨h.header, ?_, fun m hm => h.queue (hqueue ▸ List.mem_cons_of_mem _ hm),
    framed ++ [newMsg], last, [], ?_, hlast, hcut, hproper, ⟨queue, heq'⟩, fun _ => ⟨rfl, heq'⟩⟩
  · exact h.arrived.trans (by simp)
  · rw [remaining_append h.arrived rfl, hbytes]
    simp

theorem Sound.fail (h : wire.Sound pushed) (hfits : ∀ newMsg ∈ pushed, newMsg.length < 2 ^ 32)
    {connection : Connection} {bytes : Nat}
    (hfail : wire.connection.fail bytes = some connection) :
    Sound { wire with connection } pushed := by
  obtain ⟨hwriter, newMsg, queue, hqueue, rfl⟩ := fail_eq_some hfail
  obtain ⟨framed, last, cut, hbytes, hlast, hcut, hproper, hbeginning, hrunning⟩ := h.framed
  obtain ⟨rfl, heq⟩ := hrunning hwriter
  have hmem : newMsg ∈ wire.connection.writeQueue := hqueue ▸ List.mem_cons_self
  have harrived : wire.arrived ≤
      (wire.connection.written ++ (frame newMsg).take bytes).length :=
    h.arrived.trans (by simp)
  refine ⟨h.header, harrived, fun m hm => h.queue (hqueue ▸ List.mem_cons_of_mem _ hm), ?_⟩
  by_cases hwhole : (frame newMsg).take bytes = frame newMsg
  · -- It failed behind the last byte.
    rw [hqueue] at heq
    refine ⟨framed ++ [newMsg], last, [], ?_, hlast, hcut, hproper, ⟨queue, ?_⟩,
      fun hwriter => by cases hwriter⟩
    · rw [remaining_append h.arrived rfl, hbytes, hwhole]
      simp
    · rw [← heq]
      simp only [List.append_assoc, List.singleton_append]
  · refine ⟨framed, newMsg, (frame newMsg).take bytes, ?_, hfits newMsg (h.queue hmem),
      List.take_prefix _ _, hwhole, hbeginning, fun hwriter => by cases hwriter⟩
    rw [remaining_append h.arrived rfl, hbytes, List.append_nil]

theorem Sound.finish (h : wire.Sound pushed) {connection : Connection}
    (hfinish : wire.connection.finish = some connection) :
    Sound { wire with connection } pushed := by
  unfold Connection.finish at hfinish
  split at hfinish
  next =>
    cases hfinish
    obtain ⟨framed, last, cut, hbytes, hlast, hcut, hproper, hbeginning, _⟩ := h.framed
    exact ⟨h.header, h.arrived, h.queue, framed, last, cut, hbytes, hlast, hcut, hproper,
      hbeginning, fun hwriter => by cases hwriter⟩
  next => cases hfinish

theorem Sound.receive (h : wire.Sound pushed) {bytes : Nat}
    (hle : wire.arrived + bytes ≤ wire.connection.written.length) :
    Sound { wire with
      arrived := wire.arrived + bytes
      unread := wire.unread ++ (wire.connection.written.drop wire.arrived).take bytes } pushed := by
  obtain ⟨framed, last, cut, hbytes, hrest⟩ := h.framed
  refine ⟨h.header, hle, h.queue, framed, last, cut, ?_, hrest⟩
  rw [← hbytes, remaining, remaining, ← List.drop_drop, List.append_assoc, List.take_append_drop]

theorem Sound.read (h : wire.Sound pushed) (hfits : ∀ newMsg ∈ pushed, newMsg.length < 2 ^ 32)
    {payload unread : List UInt8} {reader : Reader}
    (hnext : wire.reader.next wire.unread = .ok (payload, reader, unread)) :
    Sound { wire with reader, unread, delivered := wire.delivered ++ [payload] } pushed := by
  obtain ⟨framed, last, cut, hbytes, hlast, hcut, hproper, hbeginning, hrunning⟩ := h.framed
  cases framed with
  | nil =>
      -- The beginning of a frame is not enough for the reader.
      have hunread : wire.unread <+: cut := ⟨_, hbytes⟩
      have hshort : wire.unread ≠ frame last := fun heq =>
        hproper (hcut.eq_of_length_le (heq ▸ hunread.length_le))
      rw [Reader.next_cut h.header hlast (hunread.trans hcut) hshort] at hnext
      cases hnext
  | cons newMsg later =>
      have hmem : newMsg ∈ pushed :=
        hbeginning.subset (List.mem_append_right _ List.mem_cons_self)
      rw [List.flatMap_cons, List.append_assoc] at hbytes
      obtain ⟨rfl, hrest, hheader⟩ := next_prefix h.header (hfits newMsg hmem) hbytes hnext
      have hassoc : wire.delivered ++ [payload] ++ later = wire.delivered ++ payload :: later := by
        rw [List.append_assoc, List.singleton_append]
      exact ⟨hheader, h.arrived, h.queue, later, last, cut, hrest, hlast, hcut, hproper,
        hassoc ▸ hbeginning, fun hwriter => hassoc ▸ hrunning hwriter⟩

/-- What the reader will hand on follows what it has handed on. -/
theorem Sound.arriving (h : wire.Sound pushed) (hfits : ∀ newMsg ∈ pushed, newMsg.length < 2 ^ 32) :
    wire.delivered ++ wire.arriving <+: pushed ∧ (wire.connection.writer = .running →
      wire.delivered ++ wire.arriving ++ wire.connection.writeQueue = pushed) := by
  obtain ⟨framed, last, cut, hbytes, hlast, hcut, hproper, hbeginning, hrunning⟩ := h.framed
  have hframed : ∀ newMsg ∈ framed, newMsg.length < 2 ^ 32 := fun newMsg hmem =>
    hfits newMsg (hbeginning.subset (List.mem_append_right _ hmem))
  have harriving : wire.arriving = framed := by
    rw [Wire.arriving, hbytes, loop_framed hframed hlast hcut hproper h.header]
  rw [harriving]
  exact ⟨hbeginning, fun hwriter => (hrunning hwriter).2⟩

/-- Every event keeps the wire sound. -/
theorem Sound.next (h : wire.Sound pushed) {event : Event}
    (hfits : ∀ newMsg ∈ pushed, newMsg.length < 2 ^ 32) (hnext : wire.next event = some wire') :
    wire'.Sound (pushed ++ pushes [event]) := by
  cases event with
  | push buffer =>
      cases hnext
      exact h.push buffer
  | write =>
      obtain ⟨connection, hwrite, rfl⟩ := Option.map_eq_some_iff.mp hnext
      rw [pushes, List.filterMap_cons_none rfl, List.filterMap_nil, List.append_nil]
      exact h.write hwrite
  | fail bytes =>
      obtain ⟨connection, hfail, rfl⟩ := Option.map_eq_some_iff.mp hnext
      rw [pushes, List.filterMap_cons_none rfl, List.filterMap_nil, List.append_nil]
      exact h.fail hfits hfail
  | finish =>
      obtain ⟨connection, hfinish, rfl⟩ := Option.map_eq_some_iff.mp hnext
      rw [pushes, List.filterMap_cons_none rfl, List.filterMap_nil, List.append_nil]
      exact h.finish hfinish
  | receive bytes =>
      obtain ⟨⟨_, hle⟩, heq⟩ := Option.ite_none_right_eq_some.mp hnext
      obtain rfl := Option.some.inj heq
      rw [pushes, List.filterMap_cons_none rfl, List.filterMap_nil, List.append_nil]
      exact h.receive hle
  | read =>
      rw [pushes, List.filterMap_cons_none rfl, List.filterMap_nil, List.append_nil]
      rw [Wire.next] at hnext
      split at hnext
      next hread =>
        cases hnext
        exact h.read hfits hread
      next => cases hnext

theorem delivered_pushAll (buffers : List (List UInt8)) :
    (wire.pushAll buffers).delivered = wire.delivered := by
  induction buffers generalizing wire with
  | nil => rfl
  | cons buffer later ih => exact @ih (wire.push buffer)

/-- What was delivered stays so. -/
theorem delivered_prefix {event : Event} (hnext : wire.next event = some wire') :
    wire.delivered <+: wire'.delivered := by
  cases event with
  | push buffer =>
      cases hnext
      exact List.prefix_rfl
  | write =>
      obtain ⟨connection, _, rfl⟩ := Option.map_eq_some_iff.mp hnext
      exact List.prefix_rfl
  | fail bytes =>
      obtain ⟨connection, _, rfl⟩ := Option.map_eq_some_iff.mp hnext
      exact List.prefix_rfl
  | finish =>
      obtain ⟨connection, _, rfl⟩ := Option.map_eq_some_iff.mp hnext
      exact List.prefix_rfl
  | receive bytes =>
      obtain ⟨_, heq⟩ := Option.ite_none_right_eq_some.mp hnext
      obtain rfl := Option.some.inj heq
      exact List.prefix_rfl
  | read =>
      rw [Wire.next] at hnext
      split at hnext
      next =>
        cases hnext
        exact List.prefix_append _ _
      next => cases hnext

/-! ## Runs -/

theorem run_cons {event : Event} {later : List Event} {final : Wire} :
    wire.run (event :: later) = some final ↔
      ∃ wire', wire.next event = some wire' ∧ wire'.run later = some final := by
  rw [run, List.foldlM_cons]
  exact Option.bind_eq_some_iff

theorem pushes_cons (event : Event) (later : List Event) :
    pushes (event :: later) = pushes [event] ++ pushes later :=
  List.filterMap_append (l := [event])

theorem Sound.run (h : wire.Sound pushed) {events : List Event} {final : Wire}
    (hfits : ∀ newMsg ∈ pushed ++ pushes events, newMsg.length < 2 ^ 32)
    (hrun : wire.run events = some final) : final.Sound (pushed ++ pushes events) := by
  induction events generalizing wire pushed with
  | nil =>
      obtain rfl := Option.some.inj hrun
      rw [pushes, List.filterMap_nil, List.append_nil]
      exact h
  | cons event later ih =>
      obtain ⟨wire', hnext, hlater⟩ := run_cons.mp hrun
      rw [pushes_cons, ← List.append_assoc] at hfits ⊢
      have hbefore : ∀ newMsg ∈ pushed, newMsg.length < 2 ^ 32 := fun newMsg hmem =>
        hfits newMsg (List.mem_append_left _ (List.mem_append_left _ hmem))
      exact ih (h.next hbefore hnext) hfits hlater

/-- Transfers do not go on forever. -/
theorem rank_transfer (h : wire.arrived ≤ wire.connection.written.length) {event : Event}
    (htransfer : event.isTransfer = true) (hnext : wire.next event = some wire') :
    wire'.rank < wire.rank := by
  cases event with
  | write =>
      obtain ⟨connection, hwrite, rfl⟩ := Option.map_eq_some_iff.mp hnext
      obtain ⟨_, newMsg, queue, hqueue, rfl⟩ := write_eq_some hwrite
      simp only [rank, hqueue, List.map_cons, List.sum_cons, List.length_append]
      omega
  | receive bytes =>
      obtain ⟨⟨hpos, hle⟩, heq⟩ := Option.ite_none_right_eq_some.mp hnext
      obtain rfl := Option.some.inj heq
      simp only [rank, List.length_append, List.length_take, List.length_drop]
      omega
  | read =>
      rw [Wire.next] at hnext
      split at hnext
      next hread =>
        cases hnext
        have hconsumed := (Reader.next_ok hread).1
        simp only [rank]
        omega
      next => cases hnext
  | _ => cases htransfer

/-- The transfers that the length of the messages allows. -/
theorem length_transfers {later : List Event} {final : Wire} (h : wire.Sound pushed)
    (hfits : ∀ newMsg ∈ pushed, newMsg.length < 2 ^ 32)
    (htransfers : ∀ event ∈ later, event.isTransfer = true) (hrun : wire.run later = some final) :
    later.length ≤ wire.rank := by
  induction later generalizing wire pushed with
  | nil => exact Nat.zero_le _
  | cons event rest ih =>
      obtain ⟨wire', hnext, hrest⟩ := run_cons.mp hrun
      obtain ⟨htransfer, htransfers⟩ := List.forall_mem_cons.mp htransfers
      have hlower := rank_transfer h.arrived htransfer hnext
      have hpushes : pushes [event] = [] := by
        cases event <;> first | rfl | cases htransfer
      have hsound := h.next hfits hnext
      rw [hpushes, List.append_nil] at hsound
      have hlength := ih hsound hfits htransfers hrest
      rw [List.length_cons]
      omega

/-- When nothing is left to do, everything has been delivered. -/
theorem Sound.delivered_of_stuck (h : wire.Sound pushed)
    (hfits : ∀ newMsg ∈ pushed, newMsg.length < 2 ^ 32)
    (hwriter : wire.connection.writer = .running)
    (hstuck : ∀ event, event.isTransfer = true → wire.next event = none) :
    wire.delivered = pushed := by
  obtain ⟨framed, last, cut, hbytes, _, _, _, hbeginning, hrunning⟩ := h.framed
  obtain ⟨rfl, heq⟩ := hrunning hwriter
  have hqueue : wire.connection.writeQueue = [] := by
    by_contra hne
    obtain ⟨newMsg, queue, hcons⟩ := List.exists_cons_of_ne_nil hne
    have hwrite := hstuck .write rfl
    simp only [Wire.next, Connection.write, hwriter, hcons, Option.map_some] at hwrite
    cases hwrite
  have harrived : wire.connection.written.length ≤ wire.arrived := by
    by_contra hlt
    have hreceive := hstuck (.receive 1) rfl
    rw [Wire.next, if_pos ⟨Nat.one_pos, by omega⟩] at hreceive
    cases hreceive
  have hframed : framed = [] := by
    by_contra hne
    obtain ⟨newMsg, later, rfl⟩ := List.exists_cons_of_ne_nil hne
    have hmem := hbeginning.subset (List.mem_append_right _ List.mem_cons_self)
    rw [remaining, List.drop_eq_nil_of_le harrived, List.append_nil, List.append_nil,
      List.flatMap_cons] at hbytes
    obtain ⟨reader, hok, _⟩ : ∃ reader, wire.reader.next (frame newMsg ++ later.flatMap frame) =
        .ok (newMsg, reader, later.flatMap frame) ∧ reader.sizeBuffer.length = 4 :=
      Reader.next_frame h.header (hfits newMsg hmem)
    have hread := hstuck .read rfl
    rw [Wire.next, hbytes, hok] at hread
    cases hread
  rw [hframed, hqueue, List.append_nil, List.append_nil] at heq
  exact heq

/-- What the workers of a peer get is the beginning of what was pushed for it, byte for byte,
wherever the writer fails and in whatever pieces the bytes arrive. While the writer runs, the
rest follows: only so many transfers are left, and everything has been delivered when none is. -/
theorem wire_delivers (addr : SocketAddr) (events : List Event) (wire : Wire)
    (hfits : ∀ buffer ∈ pushes events, buffer.length < 2 ^ 32)
    (hrun : (start addr).run events = some wire) :
    wire.delivered <+: pushes events ∧
      ∃ bound, ∀ later final, (∀ event ∈ later, event.isTransfer = true) →
        wire.run later = some final → later.length ≤ bound ∧
          (final.connection.writer = .running →
            (∀ event, event.isTransfer = true → final.next event = none) →
            final.delivered = pushes events) := by
  have hsound : wire.Sound (pushes events) := (sound_start addr).run hfits hrun
  obtain ⟨framed, _, _, _, _, _, _, hbeginning, _⟩ := hsound.framed
  refine ⟨(List.prefix_append _ _).trans hbeginning, wire.rank,
    fun later final htransfers hlater => ?_⟩
  refine ⟨length_transfers hsound hfits htransfers hlater, fun hwriter hstuck => ?_⟩
  have hpushes : pushes later = [] := by
    refine List.filterMap_eq_nil_iff.mpr fun event hmem => ?_
    have htransfer := htransfers event hmem
    cases event <;> first | rfl | cases htransfer
  have hfits' : ∀ newMsg ∈ pushes events ++ pushes later, newMsg.length < 2 ^ 32 := by
    rwa [hpushes, List.append_nil]
  have hlast := hsound.run hfits' hlater
  rw [hpushes, List.append_nil] at hlast
  exact hlast.delivered_of_stuck hfits hwriter hstuck

/-- Two messages whose frames arrive in three pieces. -/
def twoMessages : List Event :=
  [.push [1, 2], .write, .receive 5, .push [], .write, .receive 4, .read, .receive 1, .read]

theorem wire_delivers_twoMessages : ∃ wire,
    (start (Server.localAddr 6000)).run twoMessages = some wire ∧ wire.delivered = [[1, 2], []] ∧
      wire.delivered <+: pushes twoMessages := by
  have hrun : ((start (Server.localAddr 6000)).run twoMessages).any (fun wire =>
      decide (wire.delivered = [[1, 2], []])) = true := by
    decide +kernel
  obtain ⟨wire, hwire, hcheck⟩ := (Option.any_eq_true _ _).mp hrun
  exact ⟨wire, hwire, of_decide_eq_true hcheck,
    (wire_delivers (Server.localAddr 6000) twoMessages wire (by decide) hwire).1⟩

end Wire

end BitcoinClient
