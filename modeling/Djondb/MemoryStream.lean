import Djondb.BsonStream

set_option autoImplicit false

/-!
# Streams in memory

`MemoryStream` keeps its bytes in chunks of one size that are allocated as they fill up. What is
written goes behind what is there, whatever the chunks, and from the front it is read back.
-/
namespace Djondb
open Bytes

/-! ## Lists of chunks -/

section chunks
variable {α : Type} {n : ℕ} {l : List (List α)}

theorem flatten_length_eq (h : ∀ c ∈ l, c.length = n) : l.flatten.length = l.length * n := by
  induction l with
  | nil => simp
  | cons c l ih =>
    have hc := h c List.mem_cons_self
    have hl := ih fun c' hc' => h c' (List.mem_cons_of_mem c hc')
    rw [List.flatten_cons, List.length_append, hc, hl, List.length_cons, Nat.succ_mul, Nat.add_comm]

/-- A chunk stands behind `i` others in the flat list, and changing it changes nothing else. -/
theorem flatten_split (h : ∀ c ∈ l, c.length = n) {i : ℕ} (hi : i < l.length) :
    ∃ pre post : List α, pre.length = i * n ∧ l.flatten = pre ++ (l.get ⟨i, hi⟩ ++ post) ∧
      ∀ f, (l.modify i f).flatten = pre ++ (f (l.get ⟨i, hi⟩) ++ post) := by
  refine ⟨(l.take i).flatten, (l.drop (i + 1)).flatten, ?_, ?_, fun f => ?_⟩
  · rw [flatten_length_eq fun c hc => h c (List.mem_of_mem_take hc), List.length_take,
      Nat.min_eq_left hi.le]
  · have hl : l = l.take i ++ l.get ⟨i, hi⟩ :: l.drop (i + 1) := by
      rw [List.get_eq_getElem, List.getElem_cons_drop, List.take_append_drop]
    calc
      l.flatten = (l.take i ++ l.get ⟨i, hi⟩ :: l.drop (i + 1)).flatten := congrArg _ hl
      _ = _ := by rw [List.flatten_append, List.flatten_cons]
  · rw [List.modify_eq_take_cons_drop hi, List.flatten_append, List.flatten_cons]
    rfl

theorem forall_mem_modify {P : List α → Prop} (h : ∀ c ∈ l, P c) {f : List α → List α}
    (hf : ∀ c, P c → P (f c)) (i : ℕ) : ∀ c ∈ l.modify i f, P c := by
  induction l generalizing i with
  | nil => simp
  | cons c l ih =>
    have hl : ∀ c' ∈ l, P c' := fun c' hc' => h c' (List.mem_cons_of_mem c hc')
    cases i with
    | zero => exact List.forall_mem_cons.2 ⟨hf c (h c List.mem_cons_self), hl⟩
    | succ i => exact List.forall_mem_cons.2 ⟨h c List.mem_cons_self, ih hl i⟩

/-- What fits into the front does not reach the back. -/
theorem overwrite_inside (front back : List UInt8) {pos : ℕ} {bs : List UInt8}
    (h : pos + bs.length ≤ front.length) :
    overwrite (front ++ back) pos bs = overwrite front pos bs ++ back := by
  have hpos : pos ≤ front.length := by omega
  have hgap : pos - (front ++ back).length = 0 := by
    rw [List.length_append]
    omega
  have hgap' : pos - front.length = 0 := by omega
  unfold overwrite
  rw [List.take_append_of_le_length hpos, List.drop_append_of_le_length h, hgap, hgap']
  simp only [List.append_assoc]

end chunks

/-- `bufferSize` is the size of the chunks in `buffer`; the cursor stands inside one of them. -/
structure MemoryStream where
  bufferSize : ℕ
  buffer : List (List UInt8)
  currentIndex : ℕ
  currentBufferPos : ℕ
  length : ℕ
  chunk_length : ∀ c ∈ buffer, c.length = bufferSize
  index_lt : currentIndex < buffer.length
  pos_lt : currentBufferPos < bufferSize

/-- `MEMORY_BUFFER_SIZE`. -/
def memoryBufferSize : ℕ := 1024

/-- The pointers to chunks that there is space for. -/
def maxChunks : ℕ := 100

namespace MemoryStream

def new (bufferSize : ℕ) (h : 0 < bufferSize) : MemoryStream where
  bufferSize := bufferSize
  buffer := [List.replicate bufferSize 0]
  currentIndex := 0
  currentBufferPos := 0
  length := 0
  chunk_length := by
    intro c hc
    rw [List.mem_singleton.1 hc, List.length_replicate]
  index_lt := Nat.one_pos
  pos_lt := h

/-- `MemoryStream()`. -/
def empty : MemoryStream := new memoryBufferSize (by decide)

/-- Turns to the next chunk, a new one where there is none; past the last pointer the assertion
fails. -/
def allocate (s : MemoryStream) : Option MemoryStream :=
  if maxChunks ≤ s.currentIndex + 1 then none
  else if h : s.currentIndex + 1 < s.buffer.length then
    some { s with
      currentIndex := s.currentIndex + 1
      currentBufferPos := 0
      index_lt := h
      pos_lt := Nat.lt_of_le_of_lt (Nat.zero_le _) s.pos_lt }
  else
    some { s with
      buffer := s.buffer ++ [List.replicate s.bufferSize 0]
      currentIndex := s.buffer.length
      currentBufferPos := 0
      chunk_length := by
        intro c hc
        rcases List.mem_append.1 hc with hold | hnew
        · exact s.chunk_length c hold
        · rw [List.mem_singleton.1 hnew, List.length_replicate]
      index_lt := by simp
      pos_lt := Nat.lt_of_le_of_lt (Nat.zero_le _) s.pos_lt }

/-- `memcpy` into the current chunk; the length grows with every byte written. -/
def copyIn (s : MemoryStream) (bs : List UInt8)
    (h : s.currentBufferPos + bs.length ≤ s.bufferSize) : MemoryStream :=
  { s with
    buffer := s.buffer.modify s.currentIndex fun c => overwrite c s.currentBufferPos bs
    length := s.length + bs.length
    chunk_length := by
      apply forall_mem_modify s.chunk_length
      intro c hc
      rw [overwrite_length, hc, Nat.max_eq_left h]
    index_lt := by
      rw [List.length_modify]
      exact s.index_lt }

/-- What fits into the chunk goes there, and the rest into the chunks behind it. -/
def write (s : MemoryStream) (bs : List UInt8) : Option MemoryStream :=
  if h : s.currentBufferPos + bs.length < s.bufferSize then
    some { s.copyIn bs h.le with currentBufferPos := s.currentBufferPos + bs.length, pos_lt := h }
  else do
    let space := s.bufferSize - s.currentBufferPos
    let next ← (s.copyIn (bs.take space) (by
      have hp := s.pos_lt
      rw [List.length_take]
      omega)).allocate
    next.write (bs.drop space)
termination_by bs.length
decreasing_by
  have hp := s.pos_lt
  rw [List.length_drop]
  omega

/-- No stream is ever moved to a chunk that it does not have. -/
def seek (s : MemoryStream) (i : ℕ) : Option MemoryStream :=
  let i := if s.length < i then s.length else i
  if h : i / s.bufferSize < s.buffer.length then
    some { s with
      currentIndex := i / s.bufferSize
      currentBufferPos := i % s.bufferSize
      index_lt := h
      pos_lt := Nat.mod_lt i (Nat.lt_of_le_of_lt (Nat.zero_le _) s.pos_lt) }
  else none

/-- The chunks stay and are used again. -/
def reset (s : MemoryStream) : Option MemoryStream := { s with length := 0 }.seek 0

def currentPos (s : MemoryStream) : ℕ := s.currentIndex * s.bufferSize + s.currentBufferPos

/-- `MemoryStream(char*, __int32)`; the cursor is left at the end. -/
def ofChars (bs : List UInt8) : Option MemoryStream := empty.write bs

/-- The chunks up to the last one in full, and of that one what is left. An empty stream has no
last chunk. -/
def toChars (s : MemoryStream) : Option (List UInt8) :=
  let chunks := (s.length + s.bufferSize - 1) / s.bufferSize
  if chunks = 0 then none
  else some ((s.buffer.take (chunks - 1)).flatten ++
    ((s.buffer.drop (chunks - 1)).headD []).take (s.length - s.bufferSize * (chunks - 1)))

/-! ## Reading -/

def chunk (s : MemoryStream) : List UInt8 := s.buffer.get ⟨s.currentIndex, s.index_lt⟩

def nextBuffer (s : MemoryStream) : Option MemoryStream :=
  if h : s.currentIndex + 1 < s.buffer.length then
    some { s with
      currentIndex := s.currentIndex + 1
      currentBufferPos := 0
      index_lt := h
      pos_lt := Nat.lt_of_le_of_lt (Nat.zero_le _) s.pos_lt }
  else none

/-- The bound that `read` puts on its count looks at the cursor inside the chunk. -/
def bounded (s : MemoryStream) (count : ℕ) : ℕ :=
  if s.currentBufferPos ≤ s.length ∧ s.length - s.currentBufferPos < count then
    s.length - s.currentBufferPos
  else count

theorem bounded_le (s : MemoryStream) (count : ℕ) : s.bounded count ≤ count := by
  unfold bounded
  by_cases h : s.currentBufferPos ≤ s.length ∧ s.length - s.currentBufferPos < count
  · rw [if_pos h]
    exact h.2.le
  · rw [if_neg h]

def read (count : ℕ) (s : MemoryStream) : Option (List UInt8 × MemoryStream) :=
  let n := s.bounded count
  if h : s.currentBufferPos + n < s.bufferSize then
    some ((s.chunk.drop s.currentBufferPos).take n,
      { s with currentBufferPos := s.currentBufferPos + n, pos_lt := h })
  else do
    let space := s.bufferSize - s.currentBufferPos
    let next ← s.nextBuffer
    let (back, next) ← read (n - space) next
    some (s.chunk.drop s.currentBufferPos ++ back, next)
termination_by count
decreasing_by
  have hp := s.pos_lt
  have hb := s.bounded_le count
  omega

/-- The byte at the end of a chunk is passed over. A cursor behind the end of the stream is left
out. -/
def readChar (s : MemoryStream) : Option (UInt8 × MemoryStream) :=
  if s.length < s.currentBufferPos then none
  else if h : s.currentBufferPos + 1 < s.bufferSize then
    some (s.chunk.getD s.currentBufferPos 0,
      { s with currentBufferPos := s.currentBufferPos + 1, pos_lt := h })
  else match _hn : s.nextBuffer with
    | none => none
    | some next => next.readChar
termination_by s.buffer.length - s.currentIndex
decreasing_by
  unfold nextBuffer at _hn
  split at _hn
  · cases _hn
    change s.buffer.length - (s.currentIndex + 1) < _
    omega
  · cases _hn

/-! ## The chunks together -/

def bytes (s : MemoryStream) : List UInt8 := s.buffer.flatten

theorem bytes_length (s : MemoryStream) : s.bytes.length = s.buffer.length * s.bufferSize :=
  flatten_length_eq s.chunk_length

theorem bufferSize_pos (s : MemoryStream) : 0 < s.bufferSize :=
  Nat.lt_of_le_of_lt (Nat.zero_le _) s.pos_lt

/-- The bytes behind the cursor begin with those of the chunk it stands in. -/
theorem bytes_split (s : MemoryStream) :
    ∃ pre post : List UInt8, pre.length = s.currentIndex * s.bufferSize ∧
      s.bytes = pre ++ (s.chunk ++ post) ∧
      ∀ f, (s.buffer.modify s.currentIndex f).flatten = pre ++ (f s.chunk ++ post) :=
  flatten_split s.chunk_length s.index_lt

theorem chunk_size (s : MemoryStream) : s.chunk.length = s.bufferSize :=
  s.chunk_length _ (List.get_mem _ _)

theorem copyIn_bytes (s : MemoryStream) {bs : List UInt8}
    (h : s.currentBufferPos + bs.length ≤ s.bufferSize) :
    (s.copyIn bs h).bytes = overwrite s.bytes s.currentPos bs := by
  rcases s.bytes_split with ⟨pre, post, hpre, hbytes, hmodify⟩
  have hchunk := s.chunk_size
  have hpos : pre.length ≤ s.currentPos := by
    rw [hpre]
    exact Nat.le_add_right _ _
  have hsub : s.currentPos - pre.length = s.currentBufferPos := by
    rw [hpre]
    exact Nat.add_sub_cancel_left _ _
  have hfront : overwrite s.chunk s.currentBufferPos bs ++ post =
      overwrite (s.chunk ++ post) s.currentBufferPos bs := by
    have hle : s.currentBufferPos + bs.length ≤ s.chunk.length := hchunk ▸ h
    exact (overwrite_inside s.chunk post hle).symm
  calc
    (s.copyIn bs h).bytes = pre ++ (overwrite s.chunk s.currentBufferPos bs ++ post) := hmodify _
    _ = pre ++ overwrite (s.chunk ++ post) s.currentBufferPos bs := by rw [hfront]
    _ = overwrite s.bytes s.currentPos bs := by rw [hbytes, overwrite_behind _ _ _ hpos, hsub]

/-! ## Writing behind what is there -/

/-- The stream holds `text`, and its cursor stands at the end. -/
structure Filled (s : MemoryStream) (text : List UInt8) : Prop where
  length_eq : s.length = text.length
  pos_eq : s.currentPos = text.length
  bytes_eq : s.bytes.take text.length = text

theorem new_filled (bufferSize : ℕ) (h : 0 < bufferSize) : (new bufferSize h).Filled [] where
  length_eq := rfl
  pos_eq := Nat.zero_mul bufferSize
  bytes_eq := rfl

theorem Filled.cursor_lt {s : MemoryStream} {text : List UInt8} (h : s.Filled text) :
    text.length < s.buffer.length * s.bufferSize := by
  have hindex := Nat.mul_le_mul_right s.bufferSize (Nat.succ_le_of_lt s.index_lt)
  have hpos := s.pos_lt
  have hcursor := h.pos_eq
  unfold currentPos at hcursor
  rw [Nat.succ_mul] at hindex
  omega

/-- Turning to the next chunk leaves the bytes so far. -/
theorem allocate_eq {s : MemoryStream} (h : s.currentIndex + 1 < maxChunks) :
    ∃ next, s.allocate = some next ∧ next.bufferSize = s.bufferSize ∧ next.length = s.length ∧
      next.currentPos = (s.currentIndex + 1) * s.bufferSize ∧
      ∃ zeros, next.bytes = s.bytes ++ zeros := by
  have hindex := s.index_lt
  unfold allocate
  rw [if_neg (Nat.not_le.2 h)]
  by_cases hlt : s.currentIndex + 1 < s.buffer.length
  · rw [dif_pos hlt]
    exact ⟨_, rfl, rfl, rfl, Nat.add_zero _, [], (List.append_nil _).symm⟩
  · rw [dif_neg hlt]
    have hlast : s.buffer.length = s.currentIndex + 1 := by omega
    refine ⟨_, rfl, rfl, rfl, ?_, List.replicate s.bufferSize 0, ?_⟩
    · change s.buffer.length * s.bufferSize + 0 = _
      rw [hlast, Nat.add_zero]
    · change (s.buffer ++ [List.replicate s.bufferSize 0]).flatten = _
      rw [List.flatten_append, List.flatten_singleton]
      rfl

/-- What was copied in stands behind the text. -/
theorem Filled.copyIn {s : MemoryStream} {text bs : List UInt8} (h : s.Filled text)
    (hfit : s.currentBufferPos + bs.length ≤ s.bufferSize) :
    (s.copyIn bs hfit).length = (text ++ bs).length ∧
      (s.copyIn bs hfit).bytes.take (text ++ bs).length = text ++ bs := by
  have hlt := h.cursor_lt
  rw [← s.bytes_length] at hlt
  constructor
  · change s.length + bs.length = _
    rw [h.length_eq, List.length_append]
  · have hover := overwrite_append (s.bytes.take text.length) (s.bytes.drop text.length) bs
    have htake : (s.bytes.take text.length).length = text.length := by
      rw [List.length_take]
      omega
    rw [List.take_append_drop, htake, h.bytes_eq, ← List.append_assoc] at hover
    rw [copyIn_bytes, h.pos_eq, hover, List.take_left]

/-- A chunk that has been filled up is followed by the next one. -/
theorem Filled.allocate {s : MemoryStream} {text bs : List UInt8} (h : s.Filled text)
    (hfit : s.currentBufferPos + bs.length ≤ s.bufferSize)
    (hfull : s.currentBufferPos + bs.length = s.bufferSize)
    (hindex : s.currentIndex + 1 < maxChunks) :
    ∃ next, (s.copyIn bs hfit).allocate = some next ∧ next.Filled (text ++ bs) ∧
      next.bufferSize = s.bufferSize := by
  rcases h.copyIn hfit with ⟨hlength, hbytes⟩
  rcases allocate_eq (s := s.copyIn bs hfit) hindex with ⟨next, hnext, hsize, hlen, hpos, zeros, hz⟩
  refine ⟨next, hnext, ⟨hlen.trans hlength, ?_, ?_⟩, hsize⟩
  · have hcursor := h.pos_eq
    unfold currentPos at hcursor
    rw [hpos, List.length_append]
    change (s.currentIndex + 1) * s.bufferSize = _
    rw [Nat.succ_mul]
    omega
  · have hle : (text ++ bs).length ≤ (s.copyIn bs hfit).bytes.length := by
      have hmin := congrArg List.length hbytes
      rw [List.length_take] at hmin
      omega
    rw [hz, List.take_append_of_le_length hle]
    exact hbytes

/-- While there are pointers left, what is written comes behind the text. -/
theorem Filled.write {s : MemoryStream} {text : List UInt8} (h : s.Filled text) (bs : List UInt8)
    (hroom : text.length + bs.length < maxChunks * s.bufferSize) :
    ∃ next, s.write bs = some next ∧ next.Filled (text ++ bs) ∧
      next.bufferSize = s.bufferSize := by
  induction hn : bs.length using Nat.strong_induction_on generalizing s text bs with
  | _ n ih =>
    have hcursor := h.pos_eq
    unfold currentPos at hcursor
    unfold MemoryStream.write
    by_cases hfit : s.currentBufferPos + bs.length < s.bufferSize
    · rw [dif_pos hfit]
      rcases h.copyIn hfit.le with ⟨hlength, hbytes⟩
      refine ⟨_, rfl, ⟨hlength, ?_, hbytes⟩, rfl⟩
      change s.currentIndex * s.bufferSize + (s.currentBufferPos + bs.length) = _
      rw [← Nat.add_assoc, List.length_append, ← h.pos_eq]
      rfl
    · rw [dif_neg hfit]
      have hp := s.pos_lt
      obtain ⟨space, hspace⟩ : ∃ space, space = s.bufferSize - s.currentBufferPos := ⟨_, rfl⟩
      have htake : (bs.take space).length = space := by
        rw [List.length_take]
        omega
      have hindex : s.currentIndex + 1 < maxChunks := by
        apply Nat.lt_of_mul_lt_mul_right (a := s.bufferSize)
        rw [Nat.succ_mul]
        omega
      have hfull : s.currentBufferPos + (bs.take space).length = s.bufferSize := by omega
      rcases h.allocate hfull.le hfull hindex with ⟨next, hnext, hfilled, hsize⟩
      have hless : (bs.drop space).length < n := by
        rw [List.length_drop]
        omega
      have hrest : (text ++ bs.take space).length + (bs.drop space).length <
          maxChunks * next.bufferSize := by
        rw [hsize, List.length_append, htake, List.length_drop]
        omega
      rcases ih _ hless hfilled _ hrest rfl with ⟨last, hlast, hdone, hsize'⟩
      rw [List.append_assoc, List.take_append_drop] at hdone
      refine ⟨last, ?_, hdone, hsize'.trans hsize⟩
      apply Option.bind_eq_some_iff.2
      subst hspace
      exact ⟨next, hnext, hlast⟩

/-! ## Reading from the front -/

/-- The bytes from the cursor to the end of the stream, none of them behind the last chunk. -/
structure Ahead (s : MemoryStream) (bs : List UInt8) : Prop where
  length_lt : s.length < s.buffer.length * s.bufferSize
  bytes_eq : (s.bytes.take s.length).drop s.currentPos = bs

/-- Back at the front of a stream, all that was written is ahead. -/
theorem Filled.rewind {s : MemoryStream} {text : List UInt8} (h : s.Filled text) :
    ∃ next, s.seek 0 = some next ∧ next.Ahead text ∧ next.currentBufferPos = 0 ∧
      next.bufferSize = s.bufferSize := by
  have hlt := h.cursor_lt
  have hfront : 0 / s.bufferSize < s.buffer.length := by
    rw [Nat.zero_div]
    exact Nat.lt_of_le_of_lt (Nat.zero_le _) s.index_lt
  refine ⟨_, dif_pos hfront, ⟨?_, ?_⟩, Nat.zero_mod _, rfl⟩
  · change s.length < s.buffer.length * s.bufferSize
    rw [h.length_eq]
    exact hlt
  · change (s.bytes.take s.length).drop (0 / s.bufferSize * s.bufferSize + 0 % s.bufferSize) = text
    rw [Nat.zero_div, Nat.zero_mul, Nat.zero_mod, List.drop_zero, h.length_eq, h.bytes_eq]

theorem reset_filled (s : MemoryStream) :
    ∃ next, s.reset = some next ∧ next.Filled [] ∧ next.bufferSize = s.bufferSize := by
  have hfront : 0 / s.bufferSize < s.buffer.length := by
    rw [Nat.zero_div]
    exact Nat.lt_of_le_of_lt (Nat.zero_le _) s.index_lt
  refine ⟨_, dif_pos hfront, ⟨rfl, ?_, rfl⟩, rfl⟩
  change 0 / s.bufferSize * s.bufferSize + 0 % s.bufferSize = 0
  rw [Nat.zero_div, Nat.zero_mul, Nat.zero_mod]

/-- The chunks give back what they hold, wherever the cursor stands. -/
theorem toChars_eq {s : MemoryStream} {text : List UInt8} (hlength : s.length = text.length)
    (hlt : text.length < s.buffer.length * s.bufferSize)
    (hbytes : s.bytes.take text.length = text) (htext : text ≠ []) : s.toChars = some text := by
  have hB := s.bufferSize_pos
  have hpos : 0 < text.length := List.length_pos_iff.2 htext
  obtain ⟨k, hk⟩ : ∃ k, k = (text.length - 1) / s.bufferSize := ⟨_, rfl⟩
  have hchunks : (s.length + s.bufferSize - 1) / s.bufferSize = k + 1 := by
    have hsum : s.length + s.bufferSize - 1 = text.length - 1 + s.bufferSize := by
      rw [hlength]
      omega
    rw [hsum, Nat.add_div_right _ hB, hk]
  have hkB : k * s.bufferSize ≤ text.length - 1 := hk ▸ Nat.div_mul_le_self _ _
  have hkB' : text.length - 1 < (k + 1) * s.bufferSize := by
    rw [hk]
    exact Nat.lt_mul_of_div_lt (Nat.lt_succ_self _) hB
  have hlast : k < s.buffer.length := by
    apply Nat.lt_of_mul_lt_mul_right (a := s.bufferSize)
    omega
  rw [Nat.succ_mul] at hkB'
  have hdrop : s.buffer.drop k = s.buffer.get ⟨k, hlast⟩ :: s.buffer.drop (k + 1) :=
    List.drop_eq_getElem_cons hlast
  have hfront : (s.buffer.take k).flatten.length = k * s.bufferSize := by
    rw [flatten_length_eq fun c hc => s.chunk_length c (List.mem_of_mem_take hc), List.length_take,
      Nat.min_eq_left hlast.le]
  have hchunk : (s.buffer.get ⟨k, hlast⟩).length = s.bufferSize :=
    s.chunk_length _ (List.get_mem _ _)
  have hsplit : s.bytes = (s.buffer.take k).flatten ++
      (s.buffer.get ⟨k, hlast⟩ ++ (s.buffer.drop (k + 1)).flatten) := by
    rw [← List.flatten_cons, ← hdrop, ← List.flatten_append, List.take_append_drop]
    rfl
  have hover : text.length = (s.buffer.take k).flatten.length +
      (text.length - s.bufferSize * k) := by
    rw [hfront, Nat.mul_comm s.bufferSize k]
    omega
  have hback : text.length - s.bufferSize * k ≤ (s.buffer.get ⟨k, hlast⟩).length := by
    rw [hchunk, Nat.mul_comm s.bufferSize k]
    omega
  rw [hsplit, hover, List.take_length_add_append, List.take_append_of_le_length hback] at hbytes
  unfold MemoryStream.toChars
  rw [hchunks, if_neg (Nat.succ_ne_zero k), Nat.add_sub_cancel, hdrop, hlength]
  exact congrArg some hbytes

theorem Filled.toChars {s : MemoryStream} {text : List UInt8} (h : s.Filled text)
    (htext : text ≠ []) : s.toChars = some text :=
  toChars_eq h.length_eq h.cursor_lt h.bytes_eq htext

/-- No position up to the end is behind the last chunk. -/
theorem Ahead.seek {s : MemoryStream} {bs : List UInt8} (h : s.Ahead bs) (i : ℕ) :
    ∃ next, s.seek i = some next ∧ next.bufferSize = s.bufferSize := by
  have hle : (if s.length < i then s.length else i) ≤ s.length := by
    split <;> omega
  have hlt : (if s.length < i then s.length else i) / s.bufferSize < s.buffer.length :=
    Nat.div_lt_of_lt_mul (Nat.mul_comm _ _ ▸ Nat.lt_of_le_of_lt hle h.length_lt)
  exact ⟨_, dif_pos hlt, rfl⟩

theorem Ahead.length_eq {s : MemoryStream} {bs : List UInt8} (h : s.Ahead bs) :
    bs.length = s.length - s.currentPos := by
  have hlt := h.length_lt
  have hlen := congrArg List.length h.bytes_eq
  rw [List.length_drop, List.length_take, s.bytes_length, Nat.min_eq_left hlt.le] at hlen
  exact hlen.symm

/-- The chunk has the next bytes, up to its end. -/
theorem Ahead.chunk_take {s : MemoryStream} {bs : List UInt8} (h : s.Ahead bs) {k : ℕ}
    (hk : k ≤ bs.length) (hfit : s.currentBufferPos + k ≤ s.bufferSize) :
    (s.chunk.drop s.currentBufferPos).take k = bs.take k := by
  rcases s.bytes_split with ⟨pre, post, hpre, hbytes, -⟩
  have hchunk := s.chunk_size
  have hlen := h.length_eq
  have hpos := s.pos_lt
  have hcut : k ≤ (s.chunk.drop s.currentBufferPos).length := by
    rw [List.length_drop]
    omega
  have hcursor : s.currentPos = pre.length + s.currentBufferPos := by
    rw [hpre]
    rfl
  have hle : s.currentBufferPos ≤ s.chunk.length := by omega
  calc
    (s.chunk.drop s.currentBufferPos).take k
        = (s.chunk.drop s.currentBufferPos ++ post).take k :=
      (List.take_append_of_le_length hcut).symm
    _ = (s.bytes.drop s.currentPos).take k := by
      rw [hbytes, hcursor, ← List.drop_drop, List.drop_left, List.drop_append_of_le_length hle]
    _ = ((s.bytes.drop s.currentPos).take (s.length - s.currentPos)).take k := by
      rw [List.take_take, Nat.min_eq_left (hlen ▸ hk)]
    _ = bs.take k := by rw [← List.drop_take, h.bytes_eq]

theorem Ahead.bounded {s : MemoryStream} {bs : List UInt8} (h : s.Ahead bs) {k : ℕ}
    (hk : k ≤ bs.length) : s.bounded k = k := by
  have hlen := h.length_eq
  have hcursor : s.currentBufferPos ≤ s.currentPos := Nat.le_add_left _ _
  apply if_neg
  omega

/-- The cursor moves on by as many bytes as it leaves behind. -/
theorem Ahead.drop {s next : MemoryStream} {bs : List UInt8} (h : s.Ahead bs) {k : ℕ}
    (hbuffer : next.buffer = s.buffer) (hsize : next.bufferSize = s.bufferSize)
    (hlength : next.length = s.length) (hpos : next.currentPos = s.currentPos + k) :
    next.Ahead (bs.drop k) where
  length_lt := by
    rw [hlength, hbuffer, hsize]
    exact h.length_lt
  bytes_eq := by
    have hbytes : next.bytes = s.bytes := congrArg List.flatten hbuffer
    rw [hbytes, hlength, hpos, ← List.drop_drop, h.bytes_eq]

theorem nextBuffer_eq {s : MemoryStream} (h : s.currentIndex + 1 < s.buffer.length) :
    ∃ next, s.nextBuffer = some next ∧ next.buffer = s.buffer ∧ next.bufferSize = s.bufferSize ∧
      next.length = s.length ∧ next.currentPos = (s.currentIndex + 1) * s.bufferSize :=
  ⟨_, dif_pos h, rfl, rfl, rfl, Nat.add_zero _⟩

/-- What is ahead is read in as many pieces as there are chunks. -/
theorem Ahead.read {s : MemoryStream} {xs rest : List UInt8} (h : s.Ahead (xs ++ rest)) :
    ∃ next, s.read xs.length = some (xs, next) ∧ next.Ahead rest ∧
      next.bufferSize = s.bufferSize := by
  induction hn : xs.length using Nat.strong_induction_on generalizing s xs with
  | _ n ih =>
    subst hn
    have hlen := h.length_eq
    have hlt := h.length_lt
    have hp := s.pos_lt
    have hcursor : s.currentPos = s.currentIndex * s.bufferSize + s.currentBufferPos := rfl
    have hle : xs.length ≤ (xs ++ rest).length := by
      rw [List.length_append]
      omega
    rw [List.length_append] at hlen
    unfold MemoryStream.read
    rw [h.bounded hle]
    by_cases hfit : s.currentBufferPos + xs.length < s.bufferSize
    · rw [dif_pos hfit]
      have htake := h.chunk_take hle hfit.le
      rw [List.take_left] at htake
      have hrest : ({ s with currentBufferPos := s.currentBufferPos + xs.length, pos_lt := hfit } :
          MemoryStream).Ahead _ := h.drop rfl rfl rfl (Nat.add_assoc _ _ _).symm
      rw [List.drop_left] at hrest
      exact ⟨_, congrArg (fun bs => some (bs, _)) htake, hrest, rfl⟩
    · rw [dif_neg hfit]
      obtain ⟨space, hspace⟩ : ∃ space, space = s.bufferSize - s.currentBufferPos := ⟨_, rfl⟩
      have hfront : s.chunk.drop s.currentBufferPos = xs.take space := by
        have htake := h.chunk_take (k := space) (by rw [List.length_append]; omega) (by omega)
        have hall : (s.chunk.drop s.currentBufferPos).length ≤ space := by
          rw [List.length_drop, s.chunk_size, hspace]
        rwa [List.take_of_length_le hall, List.take_append_of_le_length (by omega)] at htake
      have hindex : s.currentIndex + 1 < s.buffer.length := by
        apply Nat.lt_of_mul_lt_mul_right (a := s.bufferSize)
        rw [Nat.succ_mul]
        omega
      rcases nextBuffer_eq hindex with ⟨next, hnext, hbuffer, hnextSize, hlength, hpos⟩
      have hnextAhead : next.Ahead (xs.drop space ++ rest) := by
        rw [← List.drop_append_of_le_length (by omega)]
        apply h.drop hbuffer hnextSize hlength
        rw [hpos, hcursor, Nat.succ_mul]
        omega
      have hless : (xs.drop space).length < xs.length := by
        rw [List.length_drop]
        omega
      rcases ih _ hless hnextAhead rfl with ⟨last, hread, hlast, hsize⟩
      have hxs : s.chunk.drop s.currentBufferPos ++ xs.drop space = xs := by
        rw [hfront, List.take_append_drop]
      refine ⟨last, ?_, hlast, hsize.trans hnextSize⟩
      rw [List.length_drop, hspace] at hread
      apply Option.bind_eq_some_iff.2
      refine ⟨next, hnext, ?_⟩
      apply Option.bind_eq_some_iff.2
      exact ⟨_, hread, congrArg (fun bs => some (bs, last)) (hspace ▸ hxs)⟩

end MemoryStream

end Djondb
