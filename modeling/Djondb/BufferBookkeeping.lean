import Djondb.MMapInputOutputStream

set_option autoImplicit false

/-!
# The counters of a buffer

A `Buffer` counts its length and its position beside the mapped stream. The length grows with every
write, also with one in the middle; a text adds the position that the stream has reached.
-/
namespace Djondb
open Bytes

/-- A `Buffer` on its stream. -/
structure MappedBuffer where
  stream : MMapInputOutputStream
  bufferLength : ℤ
  currentPos : ℤ
  deriving DecidableEq

namespace MappedBuffer

def new (stream : MMapInputOutputStream) (bufferLen : ℤ) : MappedBuffer where
  stream := stream.seek 0
  bufferLength := bufferLen
  currentPos := 0

section reads
variable {α : Type}

/-- `_currentPos += n`. -/
def readSized (n : ℕ) (r : StateT MMapInputOutputStream Option α) :
    StateT MappedBuffer Option α := fun b => do
  let (v, stream) ← r b.stream
  some (v, { b with stream := stream, currentPos := b.currentPos + n })

/-- `_currentPos = _stream->currentPos()`. -/
def readText (r : StateT MMapInputOutputStream Option α) : StateT MappedBuffer Option α :=
  fun b => do
    let (v, stream) ← r b.stream
    some (v, { b with stream := stream, currentPos := stream.pos })

def readChar : StateT MappedBuffer Option UInt8 := readSized 1 MMapInputOutputStream.readChar

def readBoolean : StateT MappedBuffer Option Bool :=
  readSized 1 ((fun v => v != 0) <$> MMapInputOutputStream.readChar)

def readShortInt : StateT MappedBuffer Option ℤ := readSized 2 (MMapInputOutputStream.readData 2)

def readInt : StateT MappedBuffer Option ℤ := readSized 4 (MMapInputOutputStream.readData 4)

def readLong : StateT MappedBuffer Option ℤ := readSized 8 (MMapInputOutputStream.readData 8)

/-- `readLong64` of the stream reads eight bytes too. -/
def readLong64 : StateT MappedBuffer Option ℤ := readSized 8 (MMapInputOutputStream.readData 8)

def readFloatIEEE : StateT MappedBuffer Option UInt32 :=
  readSized 4 MMapInputOutputStream.readFloatIEEE

def readDoubleIEEE : StateT MappedBuffer Option UInt64 :=
  readSized 8 MMapInputOutputStream.readDoubleIEEE

def readChars : StateT MappedBuffer Option (List UInt8) := readText MMapInputOutputStream.readChars

/-- `readChars(__int32)`; nothing reads a negative length. -/
def readCharsOf (length : ℤ) : StateT MappedBuffer Option (List UInt8) :=
  readText (if length < 0 then failure else MMapInputOutputStream.read length.toNat)

def readString : StateT MappedBuffer Option CString := readText MMapInputOutputStream.readString

end reads

section writes
variable (mremap : Mremap) (psize : ℕ)

/-- `_bufferLength += n`, `_currentPos += n`. -/
def count (n : ℤ) (b : MappedBuffer) (stream : MMapInputOutputStream) : MappedBuffer where
  stream := stream
  bufferLength := b.bufferLength + n
  currentPos := b.currentPos + n

/-- The last statement is `_currentPos =+ sizeof(unsigned char)`. -/
def writeChar (v : UInt8) (b : MappedBuffer) : Option MappedBuffer := do
  let stream ← b.stream.writeChar v
  some { stream := stream, bufferLength := b.bufferLength + 1, currentPos := 1 }

def writeBoolean (v : Bool) (b : MappedBuffer) : Option MappedBuffer :=
  (b.stream.writeChar (if v then 1 else 0)).map (b.count 1)

def writeShortInt (v : ℤ) (b : MappedBuffer) : Option MappedBuffer :=
  (b.stream.writeData 2 v).map (b.count 2)

def writeInt (v : ℤ) (b : MappedBuffer) : Option MappedBuffer :=
  (b.stream.writeData 4 v).map (b.count 4)

def writeLong (v : ℤ) (b : MappedBuffer) : Option MappedBuffer :=
  (b.stream.writeData 8 v).map (b.count 8)

def writeFloatIEEE (bits : UInt32) (b : MappedBuffer) : Option MappedBuffer :=
  (b.stream.writeFloatIEEE mremap psize bits).map (b.count 4)

def writeDoubleIEEE (bits : UInt64) (b : MappedBuffer) : Option MappedBuffer :=
  (b.stream.writeDoubleIEEE mremap psize bits).map (b.count 8)

/-- `__int32 written = _stream->currentPos()`, where the text ends. -/
def writeChars (text : List UInt8) (b : MappedBuffer) : Option MappedBuffer := do
  let stream ← b.stream.writeChars text
  let written := stream.pos.bmod (2 ^ 32)
  some (b.count written stream)

def writeString (text : List UInt8) (b : MappedBuffer) : Option MappedBuffer := b.writeChars text

def writeValue : StreamValue → MappedBuffer → Option MappedBuffer
  | .typed (.char v), b => b.writeChar v
  | .typed (.boolean v), b => b.writeBoolean v
  | .typed (.short v), b => b.writeShortInt v.toInt
  | .typed (.int v), b => b.writeInt v.toInt
  | .typed (.long v), b => b.writeLong v.toInt
  | .typed (.double bits), b => b.writeDoubleIEEE mremap psize bits
  | .typed (.chars text), b => b.writeChars text
  | .typed (.string text), b => b.writeString text
  | .float bits, b => b.writeFloatIEEE mremap psize bits

end writes

def seek (pos : ℤ) (b : MappedBuffer) : MappedBuffer :=
  { b with stream := b.stream.seek pos, currentPos := pos }

/-- `seek(pos, FROMEND_SEEK)`. -/
def seekEnd (pos : ℤ) (b : MappedBuffer) : MappedBuffer :=
  let stream := b.stream.seek (b.bufferLength - pos)
  { b with stream := stream, currentPos := stream.pos }

end MappedBuffer

/-! ## Runs -/

/-- A call on a buffer. `readFull` only throws. -/
inductive BufferCall where
  | write (v : StreamValue)
  | readChar
  | readBoolean
  | readShortInt
  | readInt
  | readLong
  | readLong64
  | readFloatIEEE
  | readDoubleIEEE
  | readChars
  | readCharsOf (length : ℤ)
  | readString
  | seek (pos : ℤ)
  | seekEnd (pos : ℤ)

namespace BufferCall
variable (mremap : Mremap) (psize : ℕ)

/-- The buffer after the call, if the process has not been stopped in it. -/
def run : BufferCall → MappedBuffer → Option MappedBuffer
  | write v, b => b.writeValue mremap psize v
  | readChar, b => (MappedBuffer.readChar b).map Prod.snd
  | readBoolean, b => (MappedBuffer.readBoolean b).map Prod.snd
  | readShortInt, b => (MappedBuffer.readShortInt b).map Prod.snd
  | readInt, b => (MappedBuffer.readInt b).map Prod.snd
  | readLong, b => (MappedBuffer.readLong b).map Prod.snd
  | readLong64, b => (MappedBuffer.readLong64 b).map Prod.snd
  | readFloatIEEE, b => (MappedBuffer.readFloatIEEE b).map Prod.snd
  | readDoubleIEEE, b => (MappedBuffer.readDoubleIEEE b).map Prod.snd
  | readChars, b => (MappedBuffer.readChars b).map Prod.snd
  | readCharsOf length, b => (MappedBuffer.readCharsOf length b).map Prod.snd
  | readString, b => (MappedBuffer.readString b).map Prod.snd
  | seek pos, b => some (b.seek pos)
  | seekEnd pos, b => some (b.seekEnd pos)

/-- The place behind the furthest byte, after the call has left `b`: a write ends where the stream
then stands. -/
def reached (furthest : ℤ) (b : MappedBuffer) : BufferCall → ℤ
  | write _ => max furthest b.stream.pos
  | _ => furthest

end BufferCall

/-! ## Positions of the stream -/

namespace MMapInputOutputStream
variable {s next : MMapInputOutputStream} {α β : Type}

theorem write_pos {bs : List UInt8} (h : s.write bs = some next) :
    next.pos = s.pos + bs.length := by
  rcases Option.bind_eq_some_iff.1 h with ⟨i, -, hi⟩
  cases hi
  rfl

theorem writeData_pos {w : ℕ} {v : ℤ} (h : s.writeData w v = some next) :
    next.pos = s.pos + w := by
  have hlen : (encodeWord w v).length = w := encodeWord_length w v
  unfold writeData at h
  rw [← hlen]
  generalize encodeWord w v = bs at h
  induction bs generalizing s with
  | nil =>
    cases h
    exact (Int.add_zero _).symm
  | cons b bs ih =>
    rw [List.foldlM_cons] at h
    rcases Option.bind_eq_some_iff.1 h with ⟨s1, hs1, hrest⟩
    have hone := write_pos hs1
    rw [List.length_singleton] at hone
    rw [ih hrest, hone, List.length_cons]
    push_cast
    omega

theorem checkAvailableSpace_pos (mremap : Mremap) (psize : ℕ) :
    (s.checkAvailableSpace mremap psize).pos = s.pos := by
  unfold checkAvailableSpace resize
  split_ifs
  · split <;> rfl
  · rfl

theorem writeGrown_pos {mremap : Mremap} {psize : ℕ} {bs : List UInt8}
    (h : (s.checkAvailableSpace mremap psize).write bs = some next) :
    next.pos = s.pos + bs.length := by
  rw [write_pos h, checkAvailableSpace_pos]

theorem writeChars_pos {text : List UInt8} (h : s.writeChars text = some next) :
    next.pos = s.pos + (4 + (text.length : ℤ).bmod (2 ^ 32)) ∧
      0 ≤ (text.length : ℤ).bmod (2 ^ 32) := by
  rcases Option.bind_eq_some_iff.1 h with ⟨s1, hs1, hrest⟩
  have hfour := writeData_pos hs1
  have hle : (text.length : ℤ).bmod (2 ^ 32) ≤ text.length := by
    rw [Int.bmod_def]
    split_ifs <;> omega
  generalize (text.length : ℤ).bmod (2 ^ 32) = len at hrest hle ⊢
  split_ifs at hrest with hneg
  have htext := write_pos hrest
  rw [List.length_take] at htext
  omega

def Moves (n : ℕ) (r : StateT MMapInputOutputStream Option α) : Prop :=
  ∀ s v next, r s = some (v, next) → next.pos = s.pos + n

theorem read_moves (n : ℕ) : Moves n (read n) := by
  intro s v next h
  rcases Option.bind_eq_some_iff.1 h with ⟨i, -, hi⟩
  cases hi
  rfl

theorem Moves.map {n : ℕ} {r : StateT MMapInputOutputStream Option α} (h : Moves n r)
    (f : α → β) : Moves n (f <$> r) := by
  intro s v next hr
  rcases Option.bind_eq_some_iff.1 hr with ⟨⟨v', s1⟩, hs1, heq⟩
  cases heq
  exact h s v' next hs1

theorem readChar_moves : Moves 1 readChar := (read_moves 1).map _

theorem readData_moves (w : ℕ) : Moves w (readData w) := (read_moves w).map _

theorem readFloatIEEE_moves : Moves 4 readFloatIEEE := by
  intro s v next h
  rcases Option.bind_eq_some_iff.1 h with ⟨i, -, hi⟩
  rw [← (Prod.mk.inj (Option.some.inj hi)).2]
  rfl

theorem readDoubleIEEE_moves : Moves 8 readDoubleIEEE := by
  intro s v next h
  rcases Option.bind_eq_some_iff.1 h with ⟨i, -, hi⟩
  rw [← (Prod.mk.inj (Option.some.inj hi)).2]
  rfl

end MMapInputOutputStream

/-! ## Counters -/

namespace MappedBuffer

/-- The position is the stream's, the length goes to the furthest byte, and the end of the buffer
is behind that byte. -/
structure Kept (b : MappedBuffer) (furthest : ℤ) : Prop where
  currentPos_eq : b.currentPos = b.stream.pos
  bufferLength_eq : b.bufferLength = furthest
  seekEnd_eq : (b.seekEnd 0).stream.pos = furthest

variable {b next : MappedBuffer} {furthest n : ℤ} {stream : MMapInputOutputStream}

theorem kept_iff : b.Kept furthest ↔ b.currentPos = b.stream.pos ∧ b.bufferLength = furthest := by
  constructor
  · intro h
    exact ⟨h.currentPos_eq, h.bufferLength_eq⟩
  · rintro ⟨hpos, hlen⟩
    exact ⟨hpos, hlen, (Int.sub_zero _).trans hlen⟩

theorem new_kept (stream : MMapInputOutputStream) : (new stream 0).Kept 0 := kept_iff.2 ⟨rfl, rfl⟩

/-- A write that counts what it writes has to stand behind the furthest byte. -/
theorem Kept.count_iff (h : b.Kept furthest) (hn : 0 < n) (hpos : stream.pos = b.stream.pos + n) :
    (b.count n stream).Kept (max furthest stream.pos) ↔ b.stream.pos = furthest := by
  have hcurrent := h.currentPos_eq
  have hlength := h.bufferLength_eq
  rw [kept_iff]
  change b.currentPos + n = stream.pos ∧ b.bufferLength + n = max furthest stream.pos ↔ _
  omega

/-- The position behind a text is its length at the front of the file only, or where the 32 bits of
`written` do not show the difference. -/
theorem Kept.text_iff (h : b.Kept furthest) (hn : 0 < n) (hpos : stream.pos = b.stream.pos + n) :
    (b.count (stream.pos.bmod (2 ^ 32)) stream).Kept (max furthest stream.pos) ↔
      b.stream.pos = furthest ∧ 2 ^ 32 ∣ b.stream.pos ∧ n < 2 ^ 31 := by
  have hcurrent := h.currentPos_eq
  have hlength := h.bufferLength_eq
  have hwritten : stream.pos.bmod (2 ^ 32) = n ↔ 2 ^ 32 ∣ b.stream.pos ∧ n < 2 ^ 31 := by
    rw [hpos, Int.bmod_def]
    split_ifs <;> omega
  rw [kept_iff, ← hwritten]
  change b.currentPos + _ = stream.pos ∧ b.bufferLength + _ = max furthest stream.pos ↔ _
  omega

theorem Kept.readSized {α : Type} {r : StateT MMapInputOutputStream Option α} {n : ℕ}
    (h : b.Kept furthest) (hr : MMapInputOutputStream.Moves n r)
    (hnext : (MappedBuffer.readSized n r b).map Prod.snd = some next) : next.Kept furthest := by
  rcases Option.map_eq_some_iff.1 hnext with ⟨⟨v, b'⟩, hread, rfl⟩
  rcases Option.bind_eq_some_iff.1 hread with ⟨⟨v', stream⟩, hstream, heq⟩
  cases heq
  have hcurrent : b.currentPos + n = stream.pos := by
    rw [hr _ _ _ hstream, h.currentPos_eq]
  exact kept_iff.2 ⟨hcurrent, h.bufferLength_eq⟩

theorem Kept.readText {α : Type} {r : StateT MMapInputOutputStream Option α}
    (h : b.Kept furthest) (hnext : (MappedBuffer.readText r b).map Prod.snd = some next) :
    next.Kept furthest := by
  rcases Option.map_eq_some_iff.1 hnext with ⟨⟨v, b'⟩, hread, rfl⟩
  rcases Option.bind_eq_some_iff.1 hread with ⟨⟨v', stream⟩, hstream, heq⟩
  cases heq
  exact kept_iff.2 ⟨rfl, h.bufferLength_eq⟩

theorem Kept.seek (h : b.Kept furthest) (pos : ℤ) : (b.seek pos).Kept furthest :=
  kept_iff.2 ⟨rfl, h.bufferLength_eq⟩

theorem Kept.seekEnd (h : b.Kept furthest) (pos : ℤ) : (b.seekEnd pos).Kept furthest :=
  kept_iff.2 ⟨rfl, h.bufferLength_eq⟩

end MappedBuffer

namespace BufferCall

/-- Where the calls may stand: a `char` and a text at the front of an empty buffer (a text also at
a multiple of 4 GiB), the other writes behind the furthest byte. -/
def Counted (b : MappedBuffer) (furthest : ℤ) : BufferCall → Prop
  | write (.typed (.char _)) => b.stream.pos = 0 ∧ furthest = 0
  | write (.typed (.chars text)) | write (.typed (.string text)) =>
    b.stream.pos = furthest ∧ 2 ^ 32 ∣ b.stream.pos ∧ 4 + (text.length : ℤ).bmod (2 ^ 32) < 2 ^ 31
  | write _ => b.stream.pos = furthest
  | _ => True

variable {mremap : Mremap} {psize : ℕ} {b next : MappedBuffer} {furthest : ℤ}

theorem counted_sized {n : ℤ} {w : Option MMapInputOutputStream} (h : b.Kept furthest) (hn : 0 < n)
    (hw : ∀ stream, w = some stream → stream.pos = b.stream.pos + n)
    (hnext : w.map (b.count n) = some next) :
    next.Kept (max furthest next.stream.pos) ↔ b.stream.pos = furthest := by
  rcases Option.map_eq_some_iff.1 hnext with ⟨stream, hstream, rfl⟩
  exact h.count_iff hn (hw stream hstream)

theorem counted_char {v : UInt8} (h : b.Kept furthest) (hnext : b.writeChar v = some next) :
    next.Kept (max furthest next.stream.pos) ↔ b.stream.pos = 0 ∧ furthest = 0 := by
  rcases Option.bind_eq_some_iff.1 hnext with ⟨stream, hstream, heq⟩
  cases heq
  have hpos : stream.pos = b.stream.pos + 1 := MMapInputOutputStream.write_pos hstream
  have hlength := h.bufferLength_eq
  rw [MappedBuffer.kept_iff]
  change 1 = stream.pos ∧ b.bufferLength + 1 = max furthest stream.pos ↔ _
  omega

theorem counted_text {text : List UInt8} (h : b.Kept furthest)
    (hnext : b.writeChars text = some next) :
    next.Kept (max furthest next.stream.pos) ↔ b.stream.pos = furthest ∧ 2 ^ 32 ∣ b.stream.pos ∧
      4 + (text.length : ℤ).bmod (2 ^ 32) < 2 ^ 31 := by
  rcases Option.bind_eq_some_iff.1 hnext with ⟨stream, hstream, heq⟩
  cases heq
  rcases MMapInputOutputStream.writeChars_pos hstream with ⟨hpos, hlen⟩
  exact h.text_iff (by omega) hpos

/-- One call keeps the counters exactly if it may stand where it does. -/
theorem kept_iff (c : BufferCall) (h : b.Kept furthest) (hrun : c.run mremap psize b = some next) :
    next.Kept (c.reached furthest next) ↔ c.Counted b furthest := by
  cases c with
  | write v =>
    cases v with
    | float bits =>
      exact counted_sized (n := 4) h (by decide) (fun _ => MMapInputOutputStream.writeGrown_pos) hrun
    | typed v =>
      cases v with
      | char v => exact counted_char h hrun
      | boolean v =>
        exact counted_sized h Int.one_pos (fun _ => MMapInputOutputStream.write_pos) hrun
      | short v =>
        exact counted_sized h (by decide) (fun _ => MMapInputOutputStream.writeData_pos) hrun
      | int v =>
        exact counted_sized h (by decide) (fun _ => MMapInputOutputStream.writeData_pos) hrun
      | long v =>
        exact counted_sized h (by decide) (fun _ => MMapInputOutputStream.writeData_pos) hrun
      | double bits =>
        exact counted_sized (n := 8) h (by decide) (fun _ => MMapInputOutputStream.writeGrown_pos) hrun
      | chars text => exact counted_text h hrun
      | string text => exact counted_text h hrun
  | readChar => exact iff_of_true (h.readSized MMapInputOutputStream.readChar_moves hrun) trivial
  | readBoolean =>
    have hmoves := MMapInputOutputStream.readChar_moves.map (fun v => v != 0)
    exact iff_of_true (h.readSized hmoves hrun) trivial
  | readShortInt =>
    exact iff_of_true (h.readSized (MMapInputOutputStream.readData_moves 2) hrun) trivial
  | readInt =>
    exact iff_of_true (h.readSized (MMapInputOutputStream.readData_moves 4) hrun) trivial
  | readLong =>
    exact iff_of_true (h.readSized (MMapInputOutputStream.readData_moves 8) hrun) trivial
  | readLong64 =>
    exact iff_of_true (h.readSized (MMapInputOutputStream.readData_moves 8) hrun) trivial
  | readFloatIEEE =>
    exact iff_of_true (h.readSized MMapInputOutputStream.readFloatIEEE_moves hrun) trivial
  | readDoubleIEEE =>
    exact iff_of_true (h.readSized MMapInputOutputStream.readDoubleIEEE_moves hrun) trivial
  | readChars => exact iff_of_true (h.readText hrun) trivial
  | readCharsOf length => exact iff_of_true (h.readText hrun) trivial
  | readString => exact iff_of_true (h.readText hrun) trivial
  | seek pos =>
    cases hrun
    exact iff_of_true (h.seek pos) trivial
  | seekEnd pos =>
    cases hrun
    exact iff_of_true (h.seekEnd pos) trivial

/-! ## Whole runs -/

/-- The counters are kept in every state that the calls reach. -/
def AllKept (mremap : Mremap) (psize : ℕ) : List BufferCall → MappedBuffer → ℤ → Prop
  | [], b, furthest => b.Kept furthest
  | c :: cs, b, furthest => b.Kept furthest ∧ ∀ next, c.run mremap psize b = some next →
    AllKept mremap psize cs next (c.reached furthest next)

/-- Every call that ends may stand where it does. -/
def AllCounted (mremap : Mremap) (psize : ℕ) : List BufferCall → MappedBuffer → ℤ → Prop
  | [], _, _ => True
  | c :: cs, b, furthest => ∀ next, c.run mremap psize b = some next →
    c.Counted b furthest ∧ AllCounted mremap psize cs next (c.reached furthest next)

theorem AllKept.kept {cs : List BufferCall} (h : AllKept mremap psize cs b furthest) :
    b.Kept furthest := by
  cases cs with
  | nil => exact h
  | cons c cs => exact h.1

theorem allKept_iff_allCounted {cs : List BufferCall} (h : b.Kept furthest) :
    AllKept mremap psize cs b furthest ↔ AllCounted mremap psize cs b furthest := by
  induction cs generalizing b furthest with
  | nil => exact iff_of_true h trivial
  | cons c cs ih =>
    constructor
    · rintro ⟨-, hrest⟩ next hrun
      have hkept := (hrest next hrun).kept
      exact ⟨(kept_iff c h hrun).1 hkept, (ih hkept).1 (hrest next hrun)⟩
    · intro hcounted
      refine ⟨h, fun next hrun => ?_⟩
      rcases hcounted next hrun with ⟨hc, hrest⟩
      exact (ih ((kept_iff c h hrun).2 hc)).2 hrest

/-- From an empty buffer the counters agree with the bytes exactly in the runs that write a `char`
or a text at the front and everything else behind the furthest byte. -/
theorem allKept_iff (mremap : Mremap) (psize : ℕ) (stream : MMapInputOutputStream)
    (cs : List BufferCall) : AllKept mremap psize cs (.new stream 0) 0 ↔
      AllCounted mremap psize cs (.new stream 0) 0 :=
  allKept_iff_allCounted (MappedBuffer.new_kept stream)

/-- A page is written as its size and its text, and the length counts the size twice. -/
theorem not_allKept : ¬ ∀ (mremap : Mremap) (psize : ℕ) (stream : MMapInputOutputStream)
    (cs : List BufferCall), AllKept mremap psize cs (.new stream 0) 0 := by
  intro h
  have hkept := h (fun addr _ _ => some addr) 4096 (.new 0 (List.replicate 16 0))
    [.write (.typed (.int 2)), .write (.typed (.chars [97, 98]))]
  rcases hkept with ⟨-, hrest⟩
  rcases hrest _ rfl with ⟨-, hlast⟩
  have hlength := (hlast _ rfl).bufferLength_eq
  exact absurd hlength (by decide)

end BufferCall
end Djondb
