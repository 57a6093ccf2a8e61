import Djondb.StreamRoundTrip

set_option autoImplicit false

/-!
# Answers on a socket

A `NetworkOutputStream` gathers what is written in memory. `flush` offers it to the socket in one
call of `send`, and starts over whatever the socket has taken of it.
-/
namespace Djondb
open Bytes

/-- `accepted` is what the socket has taken so far. -/
structure NetworkOutputStream where
  bufferStream : MemoryStream
  accepted : List UInt8

namespace NetworkOutputStream

/-- The chunks of the buffer, `new MemoryStream(2048)`. -/
def chunkSize : ℕ := 2048

def new : NetworkOutputStream where
  bufferStream := MemoryStream.new chunkSize (by decide)
  accepted := []

/-- All typed writes go to the buffer, and none calls `checkBuffer`. -/
def write (v : StreamValue) (s : NetworkOutputStream) : Option NetworkOutputStream := do
  let b ← v.write s.bufferStream
  some { s with bufferStream := b }

/-- What `flush` offers to `send`, which is not called for nothing. -/
def data (s : NetworkOutputStream) : Option (List UInt8) :=
  if 0 < s.bufferStream.length then s.bufferStream.toChars else some []

/-- The socket takes what it has room for; the number that `send` returns is only compared with
0. -/
def flush (room : ℕ) (s : NetworkOutputStream) : Option NetworkOutputStream := do
  let data ← s.data
  let b ← s.bufferStream.reset
  some { bufferStream := b, accepted := s.accepted ++ data.take room }

/-- Values that are written one after the other, and a flush of which the socket takes `room` bytes
at most. -/
structure Batch where
  values : List StreamValue
  room : ℕ
  room_pos : 0 < room

def Batch.bytes (b : Batch) : List UInt8 := b.values.flatMap StreamValue.bytes

def sendBatch (b : Batch) (s : NetworkOutputStream) : Option NetworkOutputStream := do
  let s ← b.values.foldlM (fun s v => s.write v) s
  s.flush b.room

def sendAll (batches : List Batch) (s : NetworkOutputStream) : Option NetworkOutputStream :=
  batches.foldlM (fun s b => s.sendBatch b) s

/-- No assertion fails, and the socket has taken all that was written, in order. -/
def Delivered (batches : List Batch) : Prop :=
  ∃ s, new.sendAll batches = some s ∧ s.accepted = batches.flatMap Batch.bytes

/-- The values fit their types, the chunks hold them, and the socket takes them in one go. -/
structure Batch.Whole (b : Batch) : Prop where
  fits : ∀ v ∈ b.values, v.Fits
  below : b.bytes.length < maxChunks * chunkSize
  taken : b.bytes.length ≤ b.room

/-! ## Writing -/

/-- `text` waits to be sent. -/
structure Holds (s : NetworkOutputStream) (text : List UInt8) : Prop where
  filled : s.bufferStream.Filled text
  bounded : s.bufferStream.Bounded
  size_eq : s.bufferStream.bufferSize = chunkSize

theorem new_holds : new.Holds [] where
  filled := MemoryStream.new_filled chunkSize (by decide)
  bounded := Nat.le_of_ble_eq_true rfl
  size_eq := rfl

theorem of_write {s next : NetworkOutputStream} {v : StreamValue} (h : s.write v = some next) :
    v.write s.bufferStream = some next.bufferStream ∧ next.accepted = s.accepted := by
  rcases Option.bind_eq_some_iff.1 h with ⟨b, hb, heq⟩
  cases heq
  exact ⟨hb, rfl⟩

/-- As long as the chunks hold them, values come behind what waits. -/
theorem Holds.writeAll {s : NetworkOutputStream} {text : List UInt8} (h : s.Holds text)
    {vs : List StreamValue} (hvs : ∀ v ∈ vs, v.Fits)
    (hroom : text.length + (vs.flatMap StreamValue.bytes).length < maxChunks * chunkSize) :
    ∃ next, vs.foldlM (fun s v => s.write v) s = some next ∧
      next.Holds (text ++ vs.flatMap StreamValue.bytes) ∧ next.accepted = s.accepted := by
  induction vs generalizing s text with
  | nil => exact ⟨s, rfl, (List.append_nil text).symm ▸ h, rfl⟩
  | cons v vs ih =>
    rcases List.forall_mem_cons.1 hvs with ⟨hv, hvs⟩
    rw [List.flatMap_cons, List.length_append] at hroom
    have hfirst : text.length + v.bytes.length < maxChunks * s.bufferStream.bufferSize := by
      rw [h.size_eq]
      omega
    rcases StreamValue.write_filled hv h.filled hfirst with ⟨b, hb, hfilled, hsize⟩
    rcases StreamValue.written h.filled h.bounded hb with ⟨-, -, hbounded, -⟩
    have hholds : ({ s with bufferStream := b } : NetworkOutputStream).Holds (text ++ v.bytes) :=
      ⟨hfilled, hbounded, hsize.trans h.size_eq⟩
    rcases ih hholds hvs (by rw [List.length_append]; omega) with ⟨next, hnext, hdone, haccepted⟩
    rw [List.append_assoc] at hdone
    refine ⟨next, ?_, hdone, haccepted⟩
    have hwrite : s.write v = some { s with bufferStream := b } := by
      unfold write
      rw [hb]
      rfl
    rw [List.foldlM_cons, hwrite]
    exact hnext

/-- Values that have been written take their bytes, or fewer where one does not fit its type. -/
theorem Holds.of_writeAll {s next : NetworkOutputStream} {text : List UInt8} (h : s.Holds text)
    {vs : List StreamValue} (hwrite : vs.foldlM (fun s v => s.write v) s = some next) :
    ∃ bs : List UInt8, next.Holds (text ++ bs) ∧ next.accepted = s.accepted ∧
      bs.length ≤ (vs.flatMap StreamValue.bytes).length ∧
      (bs.length = (vs.flatMap StreamValue.bytes).length →
        bs = vs.flatMap StreamValue.bytes ∧ ∀ v ∈ vs, v.Fits) := by
  induction vs generalizing s text with
  | nil =>
    cases hwrite
    exact ⟨[], (List.append_nil text).symm ▸ h, rfl, le_refl _, fun _ => ⟨rfl, fun _ h => nomatch h⟩⟩
  | cons v vs ih =>
    rw [List.foldlM_cons] at hwrite
    rcases Option.bind_eq_some_iff.1 hwrite with ⟨s1, hs1, hrest⟩
    rcases of_write hs1 with ⟨hv, haccepted⟩
    rcases StreamValue.written h.filled h.bounded hv with
      ⟨front, hfilled, hbounded, hsize, hle, hall⟩
    rcases ih ⟨hfilled, hbounded, hsize.trans h.size_eq⟩ hrest with
      ⟨back, hholds, haccepted', hle', hall'⟩
    rw [List.append_assoc] at hholds
    refine ⟨front ++ back, hholds, haccepted'.trans haccepted, ?_, fun heq => ?_⟩
    · rw [List.flatMap_cons, List.length_append, List.length_append]
      omega
    · rw [List.flatMap_cons, List.length_append, List.length_append] at heq
      rcases hall (by omega) with ⟨hfront, hvfits⟩
      rcases hall' (by omega) with ⟨hback, hvsfit⟩
      rw [hfront, hback, List.flatMap_cons]
      exact ⟨rfl, List.forall_mem_cons.2 ⟨hvfits, hvsfit⟩⟩

/-! ## Sending -/

/-- `flush` offers all that waits, once, and nothing waits any more. -/
theorem Holds.flush {s : NetworkOutputStream} {text : List UInt8} (h : s.Holds text) (room : ℕ) :
    ∃ next, s.flush room = some next ∧ next.Holds [] ∧
      next.accepted = s.accepted ++ text.take room := by
  have hlength := h.filled.length_eq
  have hdata : s.data = some text := by
    unfold data
    by_cases hpos : 0 < s.bufferStream.length
    · rw [if_pos hpos]
      exact h.filled.toChars (List.ne_nil_of_length_pos (hlength ▸ hpos))
    · have htext : text = [] := List.eq_nil_of_length_eq_zero (by omega)
      rw [if_neg hpos, htext]
  rcases s.bufferStream.reset_filled with ⟨b, hb, hfilled, hsize⟩
  have hbounded : b.Bounded := by
    have hbuffer := MemoryStream.reset_buffer hb
    unfold MemoryStream.Bounded
    rw [hbuffer]
    exact h.bounded
  refine ⟨⟨b, s.accepted ++ text.take room⟩, ?_, ⟨hfilled, hbounded, hsize.trans h.size_eq⟩, rfl⟩
  unfold NetworkOutputStream.flush
  rw [hdata, Option.bind_eq_bind, Option.bind_some, hb]
  rfl

theorem Holds.sendBatch {s : NetworkOutputStream} (h : s.Holds []) {b : Batch} (hb : b.Whole) :
    ∃ next, s.sendBatch b = some next ∧ next.Holds [] ∧
      next.accepted = s.accepted ++ b.bytes := by
  have hbelow := hb.below
  rcases h.writeAll hb.fits (by rw [List.length_nil, Nat.zero_add]; exact hbelow)
    with ⟨s1, hs1, hholds, haccepted⟩
  rcases hholds.flush b.room with ⟨next, hnext, hempty, hsent⟩
  have htaken : (b.values.flatMap StreamValue.bytes).take b.room = b.bytes :=
    List.take_of_length_le hb.taken
  rw [List.nil_append, htaken, haccepted] at hsent
  refine ⟨next, ?_, hempty, hsent⟩
  unfold NetworkOutputStream.sendBatch
  rw [hs1]
  exact hnext

/-- A batch takes the bytes of its values from the socket, or fewer, and all only if it is whole. -/
theorem Holds.of_sendBatch {s next : NetworkOutputStream} (h : s.Holds []) {b : Batch}
    (hsend : s.sendBatch b = some next) :
    ∃ sent : List UInt8, next.Holds [] ∧ next.accepted = s.accepted ++ sent ∧
      sent.length ≤ b.bytes.length ∧ (sent.length = b.bytes.length → sent = b.bytes ∧ b.Whole) := by
  rcases Option.bind_eq_some_iff.1 hsend with ⟨s1, hs1, hflush⟩
  rcases h.of_writeAll hs1 with ⟨bs, hholds, haccepted, hle, hall⟩
  rcases hholds.flush b.room with ⟨next', hnext, hempty, hsent⟩
  cases hflush.symm.trans hnext
  have hbelow := hholds.filled.lt_capacity hholds.bounded
  rw [hholds.size_eq] at hbelow
  rw [List.nil_append] at hsent hbelow
  rw [haccepted] at hsent
  have hbytes : b.bytes = b.values.flatMap StreamValue.bytes := rfl
  rw [← hbytes] at hle hall
  refine ⟨bs.take b.room, hempty, hsent, ?_, fun heq => ?_⟩
  · rw [List.length_take]
    omega
  · rw [List.length_take] at heq
    rcases hall (by omega) with ⟨hbs, hfits⟩
    rw [hbs] at hbelow
    refine ⟨?_, hfits, hbelow, by omega⟩
    rw [hbs]
    exact List.take_of_length_le (by omega)

section runs
variable {s next : NetworkOutputStream} {batches : List Batch}

theorem Holds.sendAll (h : s.Holds []) (hwhole : ∀ b ∈ batches, b.Whole) :
    ∃ next, s.sendAll batches = some next ∧
      next.accepted = s.accepted ++ batches.flatMap Batch.bytes := by
  induction batches generalizing s with
  | nil => exact ⟨s, rfl, (List.append_nil _).symm⟩
  | cons b batches ih =>
    rcases List.forall_mem_cons.1 hwhole with ⟨hb, hbatches⟩
    rcases h.sendBatch hb with ⟨s1, hs1, hempty, haccepted⟩
    rcases ih hempty hbatches with ⟨next, hnext, hdone⟩
    rw [haccepted, List.append_assoc] at hdone
    refine ⟨next, ?_, hdone⟩
    unfold NetworkOutputStream.sendAll
    rw [List.foldlM_cons, hs1]
    exact hnext

theorem Holds.of_sendAll (h : s.Holds []) (hsend : s.sendAll batches = some next) :
    ∃ sent : List UInt8, next.accepted = s.accepted ++ sent ∧
      sent.length ≤ (batches.flatMap Batch.bytes).length ∧
      (sent.length = (batches.flatMap Batch.bytes).length → ∀ b ∈ batches, b.Whole) := by
  unfold NetworkOutputStream.sendAll at hsend
  induction batches generalizing s with
  | nil =>
    cases hsend
    exact ⟨[], (List.append_nil _).symm, le_refl _, fun _ _ h => nomatch h⟩
  | cons b batches ih =>
    rw [List.foldlM_cons] at hsend
    rcases Option.bind_eq_some_iff.1 hsend with ⟨s1, hs1, hrest⟩
    rcases h.of_sendBatch hs1 with ⟨front, hempty, haccepted, hle, hall⟩
    rcases ih hempty hrest with ⟨back, haccepted', hle', hall'⟩
    rw [haccepted, List.append_assoc] at haccepted'
    refine ⟨front ++ back, haccepted', ?_, fun heq => ?_⟩
    · rw [List.flatMap_cons, List.length_append, List.length_append]
      omega
    · rw [List.flatMap_cons, List.length_append, List.length_append] at heq
      exact List.forall_mem_cons.2 ⟨(hall (by omega)).2, hall' (by omega)⟩

end runs

/-- Answers arrive whole exactly if the chunks hold each of them and the socket takes each in one
go. -/
theorem delivered_iff (batches : List Batch) : Delivered batches ↔ ∀ b ∈ batches, b.Whole := by
  constructor
  · rintro ⟨s, hs, haccepted⟩
    rcases new_holds.of_sendAll hs with ⟨sent, hsent, -, hall⟩
    have hnew : s.accepted = sent := hsent
    rw [hnew] at haccepted
    exact hall (congrArg List.length haccepted)
  · intro hwhole
    rcases new_holds.sendAll hwhole with ⟨s, hs, haccepted⟩
    exact ⟨s, hs, haccepted⟩

def partialSend : Batch where
  values := [.typed (.char 7), .typed (.char 8)]
  room := 1
  room_pos := Nat.one_pos

theorem partialSend_not_delivered : ¬ Delivered [partialSend] := by
  rintro ⟨s, hs, haccepted⟩
  rcases new_holds.of_sendAll hs with ⟨sent, hsent, -, hall⟩
  have hnew : s.accepted = sent := hsent
  rw [hnew] at haccepted
  have hwhole := hall (congrArg List.length haccepted) partialSend (List.mem_singleton_self _)
  exact absurd hwhole.taken (by decide)

end NetworkOutputStream
end Djondb
