import Djondb.StreamRoundTrip

set_option autoImplicit false

/-!
# Streams in memory as flat arrays

What a `MemoryStream` is for: an array of bytes with a cursor. The chunks show it as long as
nothing is overwritten and no cursor is sent to the end.
-/
namespace Djondb
open Bytes

/-- An array of bytes with a cursor in it or at its end. -/
structure FlatStream where
  bytes : List UInt8
  cursor : ℕ
  cursor_le : cursor ≤ bytes.length

namespace FlatStream
variable (f : FlatStream)

def empty : FlatStream := ⟨[], 0, le_refl _⟩

def size : ℕ := f.bytes.length

def eof : Bool := decide (f.size ≤ f.cursor)

/-- Bytes at the cursor are overwritten, and the array grows past its end only. -/
def write (bs : List UInt8) : FlatStream where
  bytes := overwrite f.bytes f.cursor bs
  cursor := f.cursor + bs.length
  cursor_le := by
    rw [overwrite_length]
    exact Nat.le_max_right _ _

def seek (i : ℕ) : FlatStream := { f with cursor := min i f.size, cursor_le := Nat.min_le_right _ _ }

def seekEnd : FlatStream := { f with cursor := f.size, cursor_le := le_refl _ }

/-- A read stops at the end. -/
def read (count : ℕ) : List UInt8 × FlatStream :=
  ((f.bytes.drop f.cursor).take count,
    { f with
      cursor := min (f.cursor + count) f.size
      cursor_le := Nat.min_le_right _ _ })

end FlatStream

namespace MemoryStream

/-- The cursor at place `i` of the stream, which is in chunk `index`. -/
def moveTo (s : MemoryStream) (index i : ℕ) : Option MemoryStream :=
  if h : index < s.buffer.length then
    some { s with
      currentIndex := index
      currentBufferPos := i % s.bufferSize
      index_lt := h
      pos_lt := Nat.mod_lt i (Nat.lt_of_le_of_lt (Nat.zero_le _) s.pos_lt) }
  else none

/-- `seek(i)` with the casts of `(int)i / (int)_bufferSize`. -/
def seekStart (i : ℕ) (s : MemoryStream) : Option MemoryStream :=
  let i := if s.length < i then s.length else i
  let size := (s.bufferSize : ℤ).bmod (2 ^ 32)
  let index := ((i : ℤ).bmod (2 ^ 32)).tdiv size
  if size = 0 ∨ index < 0 then none else s.moveTo index.toNat i

/-- `seek(i, FROMEND_SEEK)`, whatever `i`. The cursor gets the index behind the last chunk that is
in use and the length up to that chunk; one that stands in no chunk is left out. -/
def seekEnd (s : MemoryStream) : Option MemoryStream :=
  let index := (s.length + s.bufferSize - 1) / s.bufferSize
  let pos := s.length - s.length % s.bufferSize
  if h : index < s.buffer.length ∧ pos < s.bufferSize then
    some { s with currentIndex := index, currentBufferPos := pos, index_lt := h.1, pos_lt := h.2 }
  else none

end MemoryStream

inductive StreamOp where
  | write (bs : List UInt8)
  | seek (i : ℕ)
  | seekEnd
  | read (count : ℕ)
  | readChar
  | reset
  | toChars
  deriving DecidableEq

namespace StreamOp

def run : StreamOp → MemoryStream → Option (List UInt8 × MemoryStream)
  | write bs, s => (s.write bs).map fun s => ([], s)
  | seek i, s => (s.seekStart i).map fun s => ([], s)
  | seekEnd, s => s.seekEnd.map fun s => ([], s)
  | read count, s => s.read count
  | readChar, s => s.readChar.map fun p => ([p.1], p.2)
  | reset, s => s.reset.map fun s => ([], s)
  | toChars, s => s.toChars.map fun bs => (bs, s)

/-- The same on a flat array. -/
def flat : StreamOp → FlatStream → List UInt8 × FlatStream
  | write bs, f => ([], f.write bs)
  | seek i, f => ([], f.seek i)
  | seekEnd, f => ([], f.seekEnd)
  | read count, f => f.read count
  | readChar, f => f.read 1
  | reset, _ => ([], FlatStream.empty)
  | toChars, f => (f.bytes, f)

/-- The bytes of a write stay within the chunks that there are pointers to. -/
def Within (n : ℕ) : StreamOp → FlatStream → Prop
  | write bs, f => (f.write bs).size < maxChunks * n
  | _, _ => True

/-- When an operation does to chunks of `n` bytes what it does to the flat array. -/
def Clear (n : ℕ) : StreamOp → FlatStream → Prop
  | write bs, f => bs = [] ∨ f.cursor = f.size
  | seekEnd, f => f.size = 0
  | read count, f => f.cursor < n ∨ f.cursor + count ≤ f.size
  | readChar, f => f.cursor < f.size ∧ (f.cursor + 1) % n ≠ 0
  | toChars, f => 0 < f.size
  | _, _ => True

end StreamOp

/-- `currentPos`, `size` and `eof` are those of the flat array. -/
structure MemoryStream.Agrees (s : MemoryStream) (f : FlatStream) : Prop where
  pos_eq : s.currentPos = f.cursor
  size_eq : s.length = f.size
  eof_eq : s.eof = f.eof

/-- Each operation gives back what it does on the flat array, and then the two agree. -/
def Refines : List StreamOp → MemoryStream → FlatStream → Prop
  | [], _, _ => True
  | op :: ops, s, f => ∃ s', op.run s = some ((op.flat f).1, s') ∧ s'.Agrees (op.flat f).2 ∧
      Refines ops s' (op.flat f).2

def AllWithin (n : ℕ) : List StreamOp → FlatStream → Prop
  | [], _ => True
  | op :: ops, f => op.Within n f ∧ AllWithin n ops (op.flat f).2

def AllClear (n : ℕ) : List StreamOp → FlatStream → Prop
  | [], _ => True
  | op :: ops, f => op.Clear n f ∧ AllClear n ops (op.flat f).2

/-! ## Streams that show a flat array -/

namespace MemoryStream

/-- The stream holds the bytes of the array, and its cursor stands where the array has it. -/
structure Shows (s : MemoryStream) (f : FlatStream) : Prop where
  length_eq : s.length = f.size
  pos_eq : s.currentPos = f.cursor
  bytes_eq : s.bytes.take f.size = f.bytes
  room : f.size < s.buffer.length * s.bufferSize
  bounded : s.Bounded

section shows
variable {s next : MemoryStream} {f g : FlatStream}

theorem Shows.agrees (h : s.Shows f) : s.Agrees f where
  pos_eq := h.pos_eq
  size_eq := h.length_eq
  eof_eq := by
    unfold eof FlatStream.eof
    rw [h.length_eq, h.pos_eq, ← decide_not, decide_eq_decide]
    exact Nat.not_lt

theorem Filled.shows {text : List UInt8} (h : s.Filled text) (hs : s.Bounded) :
    s.Shows ⟨text, text.length, le_refl _⟩ where
  length_eq := h.length_eq
  pos_eq := h.pos_eq
  bytes_eq := h.bytes_eq
  room := h.cursor_lt
  bounded := hs

theorem Shows.filled (h : s.Shows f) (hend : f.cursor = f.size) : s.Filled f.bytes where
  length_eq := h.length_eq
  pos_eq := h.pos_eq.trans hend
  bytes_eq := h.bytes_eq

theorem Shows.ahead (h : s.Shows f) : s.Ahead (f.bytes.drop f.cursor) where
  length_lt := by
    rw [h.length_eq]
    exact h.room
  bytes_eq := by rw [h.length_eq, h.bytes_eq, h.pos_eq]

/-- Only the cursor has moved. -/
theorem Shows.moved (h : s.Shows f) (hbuffer : next.buffer = s.buffer)
    (hsize : next.bufferSize = s.bufferSize) (hlength : next.length = s.length)
    (hbytes : g.bytes = f.bytes) (hpos : next.currentPos = g.cursor) : next.Shows g where
  length_eq := by
    unfold FlatStream.size
    rw [hlength, hbytes]
    exact h.length_eq
  pos_eq := hpos
  bytes_eq := by
    unfold bytes FlatStream.size
    rw [hbuffer, hbytes]
    exact h.bytes_eq
  room := by
    unfold FlatStream.size
    rw [hbuffer, hsize, hbytes]
    exact h.room
  bounded := by
    unfold Bounded
    rw [hbuffer]
    exact h.bounded

theorem Shows.below (h : s.Shows f) : f.size < maxChunks * s.bufferSize :=
  Nat.lt_of_lt_of_le h.room (Nat.mul_le_mul_right _ h.bounded)

end shows

/-! ### Writing -/

theorem allocate_length {s next : MemoryStream} (h : s.allocate = some next) :
    next.length = s.length := by
  unfold allocate at h
  split_ifs at h
  all_goals
    cases h
    rfl

/-- Every byte that is written adds to the length. -/
theorem write_length {s next : MemoryStream} {bs : List UInt8} (h : s.write bs = some next) :
    next.length = s.length + bs.length := by
  induction hn : bs.length using Nat.strong_induction_on generalizing s bs with
  | _ n ih =>
    subst hn
    have hp := s.pos_lt
    unfold MemoryStream.write at h
    split_ifs at h with hfit
    · cases h
      rfl
    · rcases Option.bind_eq_some_iff.1 h with ⟨next1, hnext1, hrest⟩
      have hless : (bs.drop (s.bufferSize - s.currentBufferPos)).length < bs.length := by
        rw [List.length_drop]
        omega
      have hcopied : next1.length =
          s.length + (bs.take (s.bufferSize - s.currentBufferPos)).length := allocate_length hnext1
      rw [ih _ hless hrest rfl, hcopied, Nat.add_assoc, ← List.length_append,
        List.take_append_drop]

theorem Shows.write_nil {s : MemoryStream} {f : FlatStream} (h : s.Shows f) :
    ∃ next, s.write [] = some next ∧ next.Shows (f.write []) ∧
      next.bufferSize = s.bufferSize := by
  have hfit : s.currentBufferPos + ([] : List UInt8).length < s.bufferSize := s.pos_lt
  have hin : s.currentPos ≤ s.bytes.length := by
    have hcursor := f.cursor_le
    have hlt := h.room
    rw [h.pos_eq, s.bytes_length]
    unfold FlatStream.size at hlt
    omega
  have hcopied : (s.copyIn [] hfit.le).bytes = s.bytes := by
    rw [copyIn_bytes, overwrite_nil _ hin]
  have hsame : (f.write []).bytes = f.bytes := overwrite_nil _ f.cursor_le
  have hsize : (f.write []).size = f.size := congrArg List.length hsame
  have hchunks : (s.copyIn [] hfit.le).buffer.length = s.buffer.length := List.length_modify ..
  unfold MemoryStream.write
  refine ⟨_, dif_pos hfit, ⟨?_, h.pos_eq, ?_, ?_, ?_⟩, rfl⟩
  · rw [hsize]
    exact h.length_eq
  · rw [hsize, hsame]
    exact (congrArg (List.take f.size) hcopied).trans h.bytes_eq
  · change _ < (s.copyIn [] hfit.le).buffer.length * s.bufferSize
    rw [hsize, hchunks]
    exact h.room
  · exact hchunks.trans_le h.bounded

theorem Shows.write {s : MemoryStream} {f : FlatStream} (h : s.Shows f) {bs : List UInt8}
    (hclear : bs = [] ∨ f.cursor = f.size) (hroom : (f.write bs).size < maxChunks * s.bufferSize) :
    ∃ next, s.write bs = some next ∧ next.Shows (f.write bs) ∧ next.bufferSize = s.bufferSize := by
  rcases hclear with rfl | hend
  · exact h.write_nil
  · have hbytes : (f.write bs).bytes = f.bytes ++ bs := by
      change overwrite f.bytes f.cursor bs = _
      rw [hend]
      exact overwrite_end _ _
    have hsize : (f.write bs).size = f.bytes.length + bs.length := by
      unfold FlatStream.size
      rw [hbytes, List.length_append]
    rw [hsize] at hroom
    rcases (h.filled hend).write bs hroom with ⟨next, hnext, hfilled, hnextSize⟩
    rcases (h.filled hend).of_write h.bounded hnext with ⟨-, hbounded, -⟩
    have hshows := hfilled.shows hbounded
    refine ⟨next, hnext, hshows.moved rfl rfl rfl hbytes ?_, hnextSize⟩
    have hcursor : (f.write bs).cursor = f.cursor + bs.length := rfl
    rw [hfilled.pos_eq, hcursor, hend, List.length_append]
    rfl

/-! ### Moving the cursor -/

theorem seek_eq (s : MemoryStream) (i : ℕ) :
    s.seek i = s.moveTo ((if s.length < i then s.length else i) / s.bufferSize)
      (if s.length < i then s.length else i) := rfl

theorem seekStart_eq {s : MemoryStream} (hlength : s.length < 2 ^ 31)
    (hsize : s.bufferSize < 2 ^ 31) (i : ℕ) : s.seekStart i = s.seek i := by
  have hpos := s.bufferSize_pos
  obtain ⟨j, hj⟩ : ∃ j, j = if s.length < i then s.length else i := ⟨_, rfl⟩
  have hle : j < 2 ^ 31 := by
    rw [hj]
    split_ifs <;> omega
  have hi : (j : ℤ).bmod (2 ^ 32) = j := by
    apply Int.bmod_eq_of_le <;> omega
  have hb : (s.bufferSize : ℤ).bmod (2 ^ 32) = s.bufferSize := by
    apply Int.bmod_eq_of_le <;> omega
  have hdiv : (j : ℤ).tdiv s.bufferSize = (j / s.bufferSize : ℕ) := rfl
  have hno : ¬ ((s.bufferSize : ℤ) = 0 ∨ ((j / s.bufferSize : ℕ) : ℤ) < 0) :=
    not_or.2 ⟨by omega, not_lt.2 (Int.natCast_nonneg _)⟩
  rw [seek_eq]
  unfold seekStart
  dsimp only
  rw [← hj, hi, hb, hdiv, if_neg hno, Int.toNat_natCast]

theorem Shows.seek {s : MemoryStream} {f : FlatStream} (h : s.Shows f) (i : ℕ) :
    ∃ next, s.seek i = some next ∧ next.Shows (f.seek i) ∧ next.bufferSize = s.bufferSize := by
  have hmin : (if s.length < i then s.length else i) = min i f.size := by
    rw [h.length_eq]
    split_ifs <;> omega
  have hlt : min i f.size / s.bufferSize < s.buffer.length := by
    apply Nat.div_lt_of_lt_mul
    rw [Nat.mul_comm]
    exact Nat.lt_of_le_of_lt (Nat.min_le_right _ _) h.room
  rw [seek_eq, hmin]
  refine ⟨_, dif_pos hlt, h.moved rfl rfl rfl rfl ?_, rfl⟩
  exact Nat.div_add_mod' _ _

/-- Only of an empty stream the cursor gets to the end. -/
theorem seekEnd_pos {s next : MemoryStream} (h : s.seekEnd = some next)
    (hend : next.currentPos = s.length) : s.length = 0 := by
  have hpos := s.bufferSize_pos
  unfold seekEnd at h
  dsimp only at h
  split_ifs at h with hin
  cases h
  change (s.length + s.bufferSize - 1) / s.bufferSize * s.bufferSize +
    (s.length - s.length % s.bufferSize) = s.length at hend
  by_contra hne
  have hlt : s.length < s.bufferSize := by
    have hmod := Nat.div_add_mod s.length s.bufferSize
    by_contra hge
    have hone : 1 ≤ s.length / s.bufferSize := Nat.div_pos (Nat.not_lt.1 hge) hpos
    have hmul := Nat.mul_le_mul_left s.bufferSize hone
    have hin' := hin.2
    omega
  have hone : (s.length + s.bufferSize - 1) / s.bufferSize = 1 :=
    Nat.div_eq_of_lt_le (by omega) (by omega)
  rw [hone, Nat.mod_eq_of_lt hlt] at hend
  omega

theorem Shows.seekEnd {s : MemoryStream} {f : FlatStream} (h : s.Shows f) (hempty : f.size = 0) :
    ∃ next, s.seekEnd = some next ∧ next.Shows f.seekEnd ∧ next.bufferSize = s.bufferSize := by
  have hpos := s.bufferSize_pos
  have hlength : s.length = 0 := h.length_eq.trans hempty
  have hindex : (s.length + s.bufferSize - 1) / s.bufferSize = 0 :=
    Nat.div_eq_of_lt (by omega)
  have hstart : s.length - s.length % s.bufferSize = 0 := by omega
  have hin : (s.length + s.bufferSize - 1) / s.bufferSize < s.buffer.length ∧
      s.length - s.length % s.bufferSize < s.bufferSize := by
    rw [hindex, hstart]
    exact ⟨Nat.lt_of_le_of_lt (Nat.zero_le _) s.index_lt, hpos⟩
  refine ⟨_, dif_pos hin, h.moved rfl rfl rfl rfl ?_, rfl⟩
  change (s.length + s.bufferSize - 1) / s.bufferSize * s.bufferSize +
    (s.length - s.length % s.bufferSize) = f.size
  rw [hindex, hstart, hempty, Nat.zero_mul]

theorem Shows.reset {s : MemoryStream} {f : FlatStream} (h : s.Shows f) :
    ∃ next, s.reset = some next ∧ next.Shows FlatStream.empty ∧
      next.bufferSize = s.bufferSize := by
  rcases s.reset_filled with ⟨next, hnext, hfilled, hsize⟩
  have hbounded : next.Bounded := by
    unfold Bounded
    rw [reset_buffer hnext]
    exact h.bounded
  exact ⟨next, hnext, hfilled.shows hbounded, hsize⟩

/-! ### Reading -/

theorem read_buffer {count : ℕ} {s next : MemoryStream} {bs : List UInt8}
    (h : s.read count = some (bs, next)) : next.buffer = s.buffer := by
  induction hn : count using Nat.strong_induction_on generalizing s bs count with
  | _ n ih =>
    subst hn
    have hp := s.pos_lt
    have hle := s.bounded_le count
    unfold MemoryStream.read at h
    dsimp only at h
    split_ifs at h
    · cases h
      rfl
    · rcases Option.bind_eq_some_iff.1 h with ⟨next1, hnext1, hread⟩
      rcases Option.bind_eq_some_iff.1 hread with ⟨⟨back, last⟩, hback, heq⟩
      cases heq
      have hless : s.bounded count - (s.bufferSize - s.currentBufferPos) < count := by omega
      exact (ih _ hless hback rfl).trans (nextBuffer_some hnext1).2.2.2.2.2

theorem readChar_buffer {s next : MemoryStream} {b : UInt8} (h : s.readChar = some (b, next)) :
    next.buffer = s.buffer := by
  induction hn : s.buffer.length - s.currentIndex using Nat.strong_induction_on generalizing s with
  | _ n ih =>
    subst hn
    unfold readChar at h
    split_ifs at h
    · cases h
      rfl
    · split at h
      · cases h
      · rename_i next1 hnext1
        rcases nextBuffer_some hnext1 with ⟨-, -, -, -, hless, hbuffer⟩
        have hmeasure : next1.buffer.length - next1.currentIndex <
            s.buffer.length - s.currentIndex := by
          rw [hbuffer]
          exact hless
        exact (ih _ hmeasure h rfl).trans hbuffer

theorem read_bounded {s : MemoryStream} {count count' : ℕ} (h : s.bounded count = s.bounded count') :
    s.read count = s.read count' := by
  rw [MemoryStream.read, MemoryStream.read]
  dsimp only
  rw [h]

theorem currentIndex_eq_zero {s : MemoryStream} :
    s.currentIndex = 0 ↔ s.currentPos < s.bufferSize := by
  have hcursor : s.currentPos = s.currentIndex * s.bufferSize + s.currentBufferPos := rfl
  have hp := s.pos_lt
  constructor
  · intro hzero
    rw [hzero, Nat.zero_mul] at hcursor
    omega
  · intro hlt
    by_contra hne
    have hmul := Nat.le_mul_of_pos_left s.bufferSize (Nat.pos_of_ne_zero hne)
    omega

/-- In the first chunk `read` sees where the stream ends. -/
theorem Shows.bounded_first {s : MemoryStream} {f : FlatStream} (h : s.Shows f) {count : ℕ}
    (hclear : f.cursor < s.bufferSize ∨ f.cursor + count ≤ f.size) :
    s.bounded count = s.bounded (min count (f.size - f.cursor)) := by
  have hcursor : s.currentPos = s.currentIndex * s.bufferSize + s.currentBufferPos := rfl
  have hpos := h.pos_eq
  have hlength := h.length_eq
  have hle : f.cursor ≤ f.size := f.cursor_le
  rcases hclear with hfirst | hfit
  · have hindex := currentIndex_eq_zero.2 (hpos.trans_lt hfirst)
    rw [hindex, Nat.zero_mul, Nat.zero_add] at hcursor
    unfold MemoryStream.bounded
    split_ifs <;> omega
  · rw [Nat.min_eq_left (by omega)]

theorem Shows.read {s : MemoryStream} {f : FlatStream} (h : s.Shows f) {count : ℕ}
    (hclear : f.cursor < s.bufferSize ∨ f.cursor + count ≤ f.size) :
    ∃ next, s.read count = some ((f.read count).1, next) ∧ next.Shows (f.read count).2 ∧
      next.bufferSize = s.bufferSize := by
  have hle : f.cursor ≤ f.size := f.cursor_le
  have hahead : s.Ahead ((f.read count).1 ++ (f.bytes.drop f.cursor).drop count) := by
    have hwhole := h.ahead
    rwa [← List.take_append_drop count (f.bytes.drop f.cursor)] at hwhole
  have hlen : (f.read count).1.length = min count (f.size - f.cursor) := by
    change ((f.bytes.drop f.cursor).take count).length = _
    rw [List.length_take, List.length_drop]
    rfl
  have hin : s.currentPos ≤ s.length := by
    rw [h.pos_eq, h.length_eq]
    exact hle
  rcases (read_takes (f.read count).1).exact (fun s next hread => (read_moves hread).1) hahead hin
    with ⟨next, hread, -, hsize, hlength, hpos⟩
  rw [read_bounded (h.bounded_first hclear), ← hlen]
  refine ⟨next, hread, h.moved (read_buffer hread) hsize hlength rfl ?_, hsize⟩
  have hcursor : (f.read count).2.cursor = min (f.cursor + count) f.size := rfl
  rw [hpos, h.pos_eq, hlen, hcursor]
  omega

theorem Shows.readChar {s : MemoryStream} {f : FlatStream} (h : s.Shows f)
    (hin : f.cursor < f.size) (hclear : (f.cursor + 1) % s.bufferSize ≠ 0) :
    ∃ b next, s.readChar = some (b, next) ∧ (f.read 1).1 = [b] ∧ next.Shows (f.read 1).2 ∧
      next.bufferSize = s.bufferSize := by
  rw [← h.pos_eq] at hclear
  have hfit := currentPos_mod.1 hclear
  have hdrop : f.bytes.drop f.cursor = f.bytes.get ⟨f.cursor, hin⟩ :: f.bytes.drop (f.cursor + 1) :=
    List.drop_eq_getElem_cons hin
  have hahead := h.ahead
  rw [hdrop] at hahead
  rcases readChar_takes hahead hfit with ⟨next, hread, -, hsize⟩
  rcases readChar_moves hread with ⟨hlength, -, -, hone, -⟩
  refine ⟨_, next, hread, ?_, h.moved (readChar_buffer hread) hsize hlength rfl ?_, hsize⟩
  · change (f.bytes.drop f.cursor).take 1 = _
    rw [hdrop]
    rfl
  · have hcursor : (f.read 1).2.cursor = min (f.cursor + 1) f.size := rfl
    rw [hone hfit, h.pos_eq, hcursor]
    omega

theorem toChars_nonempty {s : MemoryStream} {bs : List UInt8} (h : s.toChars = some bs) :
    0 < s.length := by
  have hpos := s.bufferSize_pos
  unfold toChars at h
  dsimp only at h
  split_ifs at h with hnone
  by_contra hempty
  exact hnone (Nat.div_eq_of_lt (by omega))

theorem Shows.toChars {s : MemoryStream} {f : FlatStream} (h : s.Shows f) (hpos : 0 < f.size) :
    s.toChars = some f.bytes :=
  toChars_eq h.length_eq h.room h.bytes_eq (List.ne_nil_of_length_pos hpos)

end MemoryStream

/-! ## Runs -/

section steps
variable {s s' : MemoryStream} {f : FlatStream} {op : StreamOp} {bs : List UInt8}

/-- A step that meets its condition does what it does on the flat array. -/
theorem StreamOp.Clear.step (hclear : op.Clear s.bufferSize f) (h : s.Shows f)
    (hwithin : op.Within s.bufferSize f) (hcapacity : maxChunks * s.bufferSize ≤ 2 ^ 31) :
    ∃ next, op.run s = some ((op.flat f).1, next) ∧ next.Shows (op.flat f).2 ∧
      next.bufferSize = s.bufferSize := by
  cases op with
  | write bs =>
    rcases h.write hclear hwithin with ⟨next, hnext, hshows, hsize⟩
    exact ⟨next, congrArg (Option.map _) hnext, hshows, hsize⟩
  | seek i =>
    have hbelow := h.below
    have hlength : s.length < 2 ^ 31 := h.length_eq ▸ Nat.lt_of_lt_of_le hbelow hcapacity
    have hsmall : s.bufferSize < 2 ^ 31 := by
      have hmax : maxChunks = 100 := rfl
      rw [hmax] at hcapacity
      omega
    rcases h.seek i with ⟨next, hnext, hshows, hsize⟩
    rw [← MemoryStream.seekStart_eq hlength hsmall] at hnext
    refine ⟨next, ?_, hshows, hsize⟩
    rw [StreamOp.run, hnext]
    rfl
  | seekEnd =>
    rcases h.seekEnd hclear with ⟨next, hnext, hshows, hsize⟩
    exact ⟨next, congrArg (Option.map _) hnext, hshows, hsize⟩
  | read count => exact h.read hclear
  | readChar =>
    rcases h.readChar hclear.1 hclear.2 with ⟨b, next, hnext, hb, hshows, hsize⟩
    refine ⟨next, ?_, hshows, hsize⟩
    change s.readChar.map _ = some ((f.read 1).1, next)
    rw [hnext, hb]
    rfl
  | reset =>
    rcases h.reset with ⟨next, hnext, hshows, hsize⟩
    exact ⟨next, congrArg (Option.map _) hnext, hshows, hsize⟩
  | toChars => exact ⟨s, congrArg (Option.map _) (h.toChars hclear), h, rfl⟩

/-- A step after which the two agree has met its condition. -/
theorem StreamOp.clear_of_agrees (h : s.Shows f) (hrun : op.run s = some (bs, s'))
    (hagrees : s'.Agrees (op.flat f).2) : op.Clear s.bufferSize f := by
  have hle : f.cursor ≤ f.size := f.cursor_le
  have hpos := h.pos_eq
  have hlength := h.length_eq
  cases op with
  | write bs =>
    rcases Option.map_eq_some_iff.1 hrun with ⟨next, hnext, heq⟩
    cases heq
    have hsize := hagrees.size_eq
    have hflat : (f.write bs).size = max f.size (f.cursor + bs.length) := overwrite_length _ _ _
    rw [MemoryStream.write_length hnext] at hsize
    change _ = (f.write bs).size at hsize
    by_cases hend : f.cursor = f.size
    · exact Or.inr hend
    · exact Or.inl (List.eq_nil_of_length_eq_zero (by omega))
  | seekEnd =>
    rcases Option.map_eq_some_iff.1 hrun with ⟨next, hnext, heq⟩
    cases heq
    have hend : s'.currentPos = s.length := hagrees.pos_eq.trans hlength.symm
    exact hlength.symm.trans (MemoryStream.seekEnd_pos hnext hend)
  | read count =>
    have hmoves := (MemoryStream.read_moves hrun).1
    have hcursor : s'.currentPos = min (f.cursor + count) f.size := hagrees.pos_eq
    have hsame := hmoves.length_eq
    by_cases hfirst : f.cursor < s.bufferSize
    · exact Or.inl hfirst
    · rw [← hpos, ← MemoryStream.currentIndex_eq_zero] at hfirst
      have hindex : 1 ≤ s.currentIndex := Nat.pos_of_ne_zero hfirst
      right
      rcases hmoves.far hindex with hfar | hout <;> omega
  | readChar =>
    rcases Option.map_eq_some_iff.1 hrun with ⟨⟨b, s'⟩, hnext, heq⟩
    cases heq
    rcases MemoryStream.readChar_moves hnext with ⟨-, -, hone, -, hskip⟩
    have hcursor : s'.currentPos = min (f.cursor + 1) f.size := hagrees.pos_eq
    refine ⟨by omega, fun hlast => ?_⟩
    rw [← hpos] at hlast
    have hfar := (hskip (mt MemoryStream.currentPos_mod.2 (not_not.2 hlast))).2
    omega
  | toChars =>
    rcases Option.map_eq_some_iff.1 hrun with ⟨bytes, hbytes, -⟩
    have hnonempty := MemoryStream.toChars_nonempty hbytes
    rwa [hlength] at hnonempty
  | seek i => trivial
  | reset => trivial

end steps

/-- From a stream that shows the array, a run refines the flat one exactly if every step meets its
condition. -/
theorem refines_iff_allClear {ops : List StreamOp} {s : MemoryStream} {f : FlatStream}
    (h : s.Shows f) (hwithin : AllWithin s.bufferSize ops f)
    (hcapacity : maxChunks * s.bufferSize ≤ 2 ^ 31) :
    Refines ops s f ↔ AllClear s.bufferSize ops f := by
  induction ops generalizing s f with
  | nil => exact Iff.rfl
  | cons op ops ih =>
    constructor
    · rintro ⟨s', hrun, hagrees, hrest⟩
      have hclear := StreamOp.clear_of_agrees h hrun hagrees
      rcases hclear.step h hwithin.1 hcapacity with ⟨next, hnext, hshows, hsize⟩
      cases hrun.symm.trans hnext
      have htail := (ih hshows (hsize ▸ hwithin.2) (hsize ▸ hcapacity)).1 hrest
      exact ⟨hclear, hsize ▸ htail⟩
    · rintro ⟨hclear, hrest⟩
      rcases hclear.step h hwithin.1 hcapacity with ⟨next, hnext, hshows, hsize⟩
      have htail := (ih hshows (hsize ▸ hwithin.2) (hsize ▸ hcapacity)).2 (hsize ▸ hrest)
      exact ⟨next, hnext, hshows.agrees, htail⟩

/-- The chunks behave as one array exactly if writes stand at the end, the cursor goes to the end of
nothing but an empty stream, reads behind the first chunk ask for no more than there is, `readChar`
finds a byte that is not the last of its chunk, and `toChars` has something to copy. -/
theorem refines_iff {n : ℕ} (hn : 0 < n) (hcapacity : maxChunks * n ≤ 2 ^ 31)
    {ops : List StreamOp} (hwithin : AllWithin n ops FlatStream.empty) :
    Refines ops (MemoryStream.new n hn) FlatStream.empty ↔ AllClear n ops FlatStream.empty := by
  have hbounded : (MemoryStream.new n hn).Bounded := Nat.le_of_ble_eq_true rfl
  have hshows := (MemoryStream.new_filled n hn).shows hbounded
  exact refines_iff_allClear hshows hwithin hcapacity

/-- A stream that is written, read over its end, and used again. -/
theorem reused_refines : Refines [.write [1, 2], .seek 0, .read 5, .reset, .write [3], .toChars]
    (MemoryStream.new memoryBufferSize (by decide)) FlatStream.empty := by
  have hfirst : 2 < maxChunks * memoryBufferSize := by decide
  have hsecond : 1 < maxChunks * memoryBufferSize := by decide
  have hwithin : AllWithin memoryBufferSize
      [.write [1, 2], .seek 0, .read 5, .reset, .write [3], .toChars] FlatStream.empty :=
    ⟨hfirst, trivial, trivial, trivial, hsecond, trivial, trivial⟩
  apply (refines_iff (by decide) (by decide) hwithin).2
  refine ⟨Or.inr rfl, trivial, Or.inl ?_, trivial, Or.inr rfl, Nat.one_pos, trivial⟩
  change 0 < memoryBufferSize
  decide

/-- A byte that is overwritten counts twice. -/
theorem not_refines : ¬ ∀ (n : ℕ) (hn : 0 < n) (ops : List StreamOp),
    maxChunks * n ≤ 2 ^ 31 → AllWithin n ops FlatStream.empty →
      Refines ops (MemoryStream.new n hn) FlatStream.empty := by
  intro h
  have hfirst : 2 < maxChunks * memoryBufferSize := by decide
  have hwithin : AllWithin memoryBufferSize [.write [1, 2], .seek 0, .write [3]] FlatStream.empty :=
    ⟨hfirst, trivial, hfirst, trivial⟩
  have hbounded : (MemoryStream.new memoryBufferSize (by decide)).Bounded :=
    Nat.le_of_ble_eq_true rfl
  have hshows := (MemoryStream.new_filled memoryBufferSize (by decide)).shows hbounded
  have hrefines := h memoryBufferSize (by decide) _ (by decide) hwithin
  rcases (refines_iff_allClear hshows hwithin (by decide)).1 hrefines with ⟨-, -, hclear, -⟩
  rcases hclear with hnil | hend
  · cases hnil
  · exact absurd hend (by decide)

end Djondb
