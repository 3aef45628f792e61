import BitcoinClient.Foundation.BigEndian
import BitcoinClient.Foundation.Effect

/-! # Frames on a connection

A message travels behind its length, four bytes in big-endian order. The reader of a
connection keeps two buffers from frame to frame: one for the header, and one for the
message that grows to the longest message so far and is never cleared. What a `read_exact`
leaves of the bytes behind the ones it fills therefore matters, and the end of the stream
may come anywhere in a frame.
-/

namespace BitcoinClient

/-- Why a reader stops. -/
inductive ReaderEnd where
  | endOfStream
  /-- The panic of a slice that is longer than its buffer. -/
  | outOfRange
deriving DecidableEq, Repr

/-- The buffers of a reader task. -/
structure Reader where
  sizeBuffer : List UInt8 := List.replicate 4 0
  msgBuffer : List UInt8 := []
deriving DecidableEq, Repr

/-- `read_exact(&mut buffer[0..n])`: the buffer and what is left of the stream. -/
def readExact (stream buffer : List UInt8) (n : Nat) :
    Except ReaderEnd (List UInt8 × List UInt8) :=
  if buffer.length < n then .error .outOfRange
  else if stream.length < n then .error .endOfStream
  else .ok (stream.take n ++ buffer.drop n, stream.drop n)

/-- `Vec::resize` with zeros. -/
def resize (buffer : List UInt8) (n : Nat) : List UInt8 :=
  buffer.take n ++ List.replicate (n - buffer.length) 0

namespace Reader

/-- One iteration of the reader task: the payload it delivers, its buffers and the rest of
the stream. -/
def next (reader : Reader) (stream : List UInt8) :
    Except ReaderEnd (List UInt8 × Reader × List UInt8) := do
  let (sizeBuffer, stream) ← readExact stream reader.sizeBuffer 4
  let msgSize := fromBeBytes sizeBuffer
  let msgBuffer :=
    if reader.msgBuffer.length < msgSize then resize reader.msgBuffer msgSize
    else reader.msgBuffer
  let (msgBuffer, stream) ← readExact stream msgBuffer msgSize
  pure (msgBuffer.take msgSize, { sizeBuffer, msgBuffer }, stream)

end Reader

/-- What the writer task writes for one message. -/
def frame (newMsg : List UInt8) : List UInt8 :=
  (beBytes 4 (UInt32.ofNat newMsg.length).toNat).toList ++ newMsg

/-! ## Reading into a buffer -/

theorem readExact_ok {stream buffer buffer' stream' : List UInt8} {n : Nat}
    (h : readExact stream buffer n = .ok (buffer', stream')) :
    n ≤ buffer.length ∧ n ≤ stream.length ∧ buffer' = stream.take n ++ buffer.drop n ∧
      stream' = stream.drop n := by
  unfold readExact at h
  split at h
  next => cases h
  next hbuffer =>
    split at h
    next => cases h
    next hstream =>
      cases h
      exact ⟨Nat.le_of_not_lt hbuffer, Nat.le_of_not_lt hstream, rfl, rfl⟩

/-- As many bytes as asked for, and something behind them. -/
theorem readExact_append {bytes stream buffer : List UInt8} (h : bytes.length ≤ buffer.length) :
    readExact (bytes ++ stream) buffer bytes.length =
      .ok (bytes ++ buffer.drop bytes.length, stream) := by
  rw [readExact, if_neg (Nat.not_lt.mpr h), if_neg, List.take_left, List.drop_left]
  rw [List.length_append]
  omega

theorem readExact_short {stream buffer : List UInt8} {n : Nat} (hbuffer : n ≤ buffer.length)
    (hstream : stream.length < n) : readExact stream buffer n = .error .endOfStream := by
  rw [readExact, if_neg (Nat.not_lt.mpr hbuffer), if_pos hstream]

theorem length_resize {buffer : List UInt8} {n : Nat} (h : buffer.length < n) :
    (resize buffer n).length = n := by
  rw [resize, List.length_append, List.length_take, List.length_replicate]
  omega

/-- The buffer is long enough for the message. -/
theorem le_length_grown (buffer : List UInt8) (n : Nat) :
    n ≤ (if buffer.length < n then resize buffer n else buffer).length := by
  split
  next h => exact (length_resize h).ge
  next h => exact Nat.le_of_not_lt h

theorem length_frame (newMsg : List UInt8) : (frame newMsg).length = 4 + newMsg.length := by
  rw [frame, List.length_append, Vector.length_toList]

/-- The header of a message whose length fits says how long it is. -/
theorem fromBeBytes_header {newMsg : List UInt8} (h : newMsg.length < 2 ^ 32) :
    fromBeBytes (beBytes 4 (UInt32.ofNat newMsg.length).toNat).toList = newMsg.length := by
  have hlength : (UInt32.ofNat newMsg.length).toNat = newMsg.length := by
    rw [UInt32.toNat_ofNat', Nat.mod_eq_of_lt h]
  rw [hlength, fromBeBytes_beBytes]
  exact h

namespace Reader

variable {reader : Reader} {stream : List UInt8}

/-- An iteration that delivers takes the header and the message from the stream. -/
theorem next_ok {payload stream' : List UInt8} {reader' : Reader}
    (h : reader.next stream = .ok (payload, reader', stream')) :
    stream'.length + payload.length + 4 = stream.length ∧
      reader'.sizeBuffer.length = reader.sizeBuffer.length := by
  cases hheader : readExact stream reader.sizeBuffer 4 with
  | error reason =>
      rw [next, hheader] at h
      cases h
  | ok header =>
      obtain ⟨sizeBuffer, body⟩ := header
      obtain ⟨hsize, hstream, rfl, rfl⟩ := readExact_ok hheader
      rw [next, hheader] at h
      simp only [bind, Except.bind] at h
      split at h
      next => cases h
      next message hmessage =>
        obtain ⟨msgBuffer, rest⟩ := message
        obtain ⟨-, hbody, rfl, rfl⟩ := readExact_ok hmessage
        cases h
        simp only [List.length_append, List.length_take, List.length_drop] at hbody ⊢
        omega

/-- The reader task: everything it delivers, and why it stops. -/
def loop (reader : Reader) (stream : List UInt8) : List (List UInt8) × ReaderEnd :=
  match h : reader.next stream with
  | .error reason => ([], reason)
  | .ok (payload, reader', stream') =>
    have := (next_ok h).1
    let (payloads, reason) := loop reader' stream'
    (payload :: payloads, reason)
termination_by stream.length

theorem loop_of_ok {payload stream' : List UInt8} {reader' : Reader}
    (h : reader.next stream = .ok (payload, reader', stream')) :
    reader.loop stream = (payload :: (reader'.loop stream').1, (reader'.loop stream').2) := by
  rw [loop]
  split
  next reason heq =>
    rw [h] at heq
    cases heq
  next heq =>
    rw [h] at heq
    cases heq
    rfl

theorem loop_of_error {reason : ReaderEnd} (h : reader.next stream = .error reason) :
    reader.loop stream = ([], reason) := by
  rw [loop]
  split
  next heq =>
    rw [h] at heq
    cases heq
    rfl
  next heq =>
    rw [h] at heq
    cases heq

/-- Whatever the peer sends, no slice is out of range: the reader stops at the end of the
stream. -/
theorem loop_endOfStream (hsize : reader.sizeBuffer.length = 4) :
    (reader.loop stream).2 = .endOfStream := by
  induction hlength : stream.length using Nat.strong_induction_on generalizing reader stream with
  | _ length ih =>
      subst hlength
      cases hnext : reader.next stream with
      | ok delivered =>
          obtain ⟨payload, reader', stream'⟩ := delivered
          have hshorter := next_ok hnext
          rw [loop_of_ok hnext]
          exact ih stream'.length (by omega) (hshorter.2.trans hsize) rfl
      | error reason =>
          rw [loop_of_error hnext]
          cases reason with
          | endOfStream => rfl
          | outOfRange =>
              unfold next at hnext
              rcases except_bind_eq_error.mp hnext with hheader | ⟨header, _, hbody⟩
              · rw [readExact, if_neg (by omega)] at hheader
                split at hheader <;> cases hheader
              · rcases except_bind_eq_error.mp hbody with hmessage | ⟨_, _, hdone⟩
                · rw [readExact, if_neg (Nat.not_lt.mpr (le_length_grown _ _))] at hmessage
                  split at hmessage <;> cases hmessage
                · cases hdone

/-! ## Round trip -/

/-- The header is read into the size buffer. -/
theorem readExact_header (hsize : reader.sizeBuffer.length = 4) (header : Vector UInt8 4)
    (body : List UInt8) :
    readExact (header.toList ++ body) reader.sizeBuffer 4 = .ok (header.toList, body) := by
  have hlength : header.toList.length = 4 := Vector.length_toList
  have hread : readExact (header.toList ++ body) reader.sizeBuffer header.toList.length =
      .ok (header.toList ++ reader.sizeBuffer.drop header.toList.length, body) :=
    readExact_append (by rw [hlength, hsize])
  rw [hlength, List.drop_eq_nil_of_le hsize.le, List.append_nil] at hread
  exact hread

/-- A whole frame is delivered whatever the buffers hold. -/
theorem next_frame (hsize : reader.sizeBuffer.length = 4) {payload : List UInt8}
    (hfits : payload.length < 2 ^ 32) :
    ∃ reader', reader.next (frame payload ++ stream) = .ok (payload, reader', stream) ∧
      reader'.sizeBuffer.length = 4 := by
  have hgrown := le_length_grown reader.msgBuffer payload.length
  rw [next, frame, List.append_assoc, readExact_header hsize]
  simp only [bind, Except.bind, fromBeBytes_header hfits, readExact_append hgrown, List.take_left]
  refine ⟨_, rfl, ?_⟩
  exact Vector.length_toList

/-- A frame that is cut short, in its header or behind it, is not delivered. -/
theorem next_cut (hsize : reader.sizeBuffer.length = 4) {last rest : List UInt8}
    (hfits : last.length < 2 ^ 32) (hcut : rest <+: frame last) (hproper : rest ≠ frame last) :
    reader.next rest = .error .endOfStream := by
  have hshort : rest.length < 4 + last.length := by
    rw [← length_frame]
    exact lt_of_le_of_ne hcut.length_le fun heq => hproper (hcut.eq_of_length heq)
  by_cases hheader : rest.length < 4
  · rw [next, readExact_short hsize.ge hheader]
    rfl
  · -- The header is complete, so it is that of the frame, and the message is what is missing.
    have hfront : (beBytes 4 (UInt32.ofNat last.length).toNat).toList <+: rest := by
      refine List.prefix_of_prefix_length_le (List.prefix_append _ _) hcut ?_
      rw [Vector.length_toList]
      omega
    obtain ⟨body, rfl⟩ := hfront
    rw [List.length_append, Vector.length_toList] at hshort
    have hgrown := le_length_grown reader.msgBuffer last.length
    rw [next, readExact_header hsize]
    simp only [bind, Except.bind, fromBeBytes_header hfits]
    rw [readExact_short hgrown (by omega)]

/-- What a writer writes for its messages and the beginning of one more frame is read back as
exactly these messages. -/
theorem loop_frames (payloads : List (List UInt8))
    (hpayloads : ∀ payload ∈ payloads, payload.length < 2 ^ 32) (last rest : List UInt8)
    (hlast : last.length < 2 ^ 32) (hcut : rest <+: frame last) (hproper : rest ≠ frame last) :
    loop {} (payloads.flatMap frame ++ rest) = (payloads, .endOfStream) := by
  suffices hall : ∀ reader : Reader, reader.sizeBuffer.length = 4 →
      reader.loop (payloads.flatMap frame ++ rest) = (payloads, .endOfStream) from
    hall {} List.length_replicate
  induction payloads with
  | nil =>
      intro reader hsize
      exact loop_of_error (next_cut hsize hlast hcut hproper)
  | cons payload later ih =>
      intro reader hsize
      obtain ⟨hfits, hlater⟩ := List.forall_mem_cons.mp hpayloads
      obtain ⟨reader', hnext, hsize'⟩ : ∃ reader', reader.next (frame payload ++
          (later.flatMap frame ++ rest)) = .ok (payload, reader', later.flatMap frame ++ rest) ∧
          reader'.sizeBuffer.length = 4 := next_frame hsize hfits
      rw [List.flatMap_cons, List.append_assoc, loop_of_ok hnext, ih hlater reader' hsize']

/-- A longer message, an empty one, and a header that is cut short. -/
theorem loop_frames_cutHeader :
    loop {} ([[1, 2, 3], []].flatMap frame ++ [0, 0]) = ([[1, 2, 3], []], .endOfStream) :=
  loop_frames [[1, 2, 3], []] (by decide) [7] [0, 0] (by decide) (by decide +kernel)
    (by decide +kernel)

end Reader

end BitcoinClient
