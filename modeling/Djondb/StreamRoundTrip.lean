import Djondb.LogCodec

set_option autoImplicit false

/-!
# Typed values through streams in memory

What the typed writes of `OutputStream` put into a `MemoryStream`, and what the typed reads of
`InputStream` take from it after `seek(0)`. Only `readChar` minds where a chunk ends.
-/
namespace Djondb
open Bytes

namespace MemoryStream

def eof (s : MemoryStream) : Bool := !decide (s.length > s.currentPos)

/-- `writeData<T>`, byte by byte. -/
def writeData (w : ℕ) (v : ℤ) (s : MemoryStream) : Option MemoryStream :=
  (encodeWord w v).foldlM (fun s b => s.write [b]) s

/-- `writeChars(const char*, __int32)` with the length of the text; a negative length makes `memcpy`
run out of the chunk. -/
def writeChars (text : List UInt8) (s : MemoryStream) : Option MemoryStream := do
  let len := (text.length : ℤ).bmod (2 ^ 32)
  if len < 0 then none else do
    let s ← s.writeData 4 len
    s.write (text.take len.toNat)

/-- `readData<T>`. -/
def readData (w : ℕ) : StateT MemoryStream Option ℤ := decodeWord w <$> readCharsOf w

/-- A value of which bytes are missing is undefined. -/
def readDoubleIEEE : StateT MemoryStream Option UInt64 := fun s => do
  let (bs, s) ← s.read 8
  if bs.length = 8 then some (UInt64.ofNat (leDecode bs), s) else none

end MemoryStream

/-- A value and the type that it is written with. -/
inductive TypedValue where
  | char (v : UInt8)
  | boolean (v : Bool)
  | short (v : Int16)
  | int (v : Int32)
  | long (v : Int64)
  | double (bits : UInt64)
  | chars (text : List UInt8)
  | string (text : List UInt8)
  deriving DecidableEq

namespace TypedValue

def write : TypedValue → MemoryStream → Option MemoryStream
  | char v, s => s.write [v]
  | boolean v, s => s.writeData 1 (if v then 1 else 0)
  | short v, s => s.writeData 2 v.toInt
  | int v, s => s.writeData 4 v.toInt
  | long v, s => s.writeData 8 v.toInt
  | double bits, s => s.write (writeDoubleIEEE bits)
  | chars text, s => s.writeChars text
  -- `strlen` ends at the first NUL
  | string text, s => s.writeChars (text.takeWhile (· ≠ 0))

/-- The read that matches the write of the value. -/
def read : TypedValue → StateT MemoryStream Option TypedValue
  | char _ => char <$> (MemoryStream.readChar : StateT MemoryStream Option UInt8)
  | boolean _ => (fun v => boolean (v != 0)) <$> MemoryStream.readData 1
  | short _ => (fun v => short (Int16.ofInt v)) <$> MemoryStream.readData 2
  | int _ => (fun v => int (Int32.ofInt v)) <$> MemoryStream.readData 4
  | long _ => (fun v => long (Int64.ofInt v)) <$> MemoryStream.readData 8
  | double _ => double <$> MemoryStream.readDoubleIEEE
  | chars _ => chars <$> MemoryStream.readChars
  | string _ => (fun s => string s.bytes) <$> MemoryStream.readCString

def writeAll (vs : List TypedValue) (s : MemoryStream) : Option MemoryStream :=
  vs.foldlM (fun s v => v.write s) s

def readAll : List TypedValue → StateT MemoryStream Option (List TypedValue)
  | [] => pure []
  | v :: vs => do
    let v' ← v.read
    let vs' ← readAll vs
    pure (v' :: vs')

/-- The bytes of the value. -/
def bytes : TypedValue → List UInt8
  | char v => [v]
  | boolean v => encodeWord 1 (if v then 1 else 0)
  | short v => encodeWord 2 v.toInt
  | int v => encodeWord 4 v.toInt
  | long v => encodeWord 8 v.toInt
  | double bits => writeDoubleIEEE bits
  | chars text => Djondb.writeChars text
  | string text => Djondb.writeChars text

/-- After `seek(0)` the reads give the values back and end at the end of the stream. -/
def RoundTrips (n : ℕ) (hn : 0 < n) (vs : List TypedValue) : Prop :=
  ∃ s front last, writeAll vs (MemoryStream.new n hn) = some s ∧ s.seek 0 = some front ∧
    readAll vs front = some (vs, last) ∧ last.eof = true ∧ last.currentPos = last.length

/-- The length of the text is an `__int32`, and a string has no NUL. -/
def Fits : TypedValue → Prop
  | chars text => text.length < 2 ^ 31
  | string text => text.length < 2 ^ 31 ∧ 0 ∉ text
  | _ => True

def isChar : TypedValue → Bool
  | char _ => true
  | _ => false

/-- No `char` stands on the last byte of a chunk. -/
def CharsClear (n : ℕ) : ℕ → List TypedValue → Prop
  | _, [] => True
  | pos, v :: vs =>
    (v.isChar = true → (pos + 1) % n ≠ 0) ∧ CharsClear n (pos + v.bytes.length) vs

end TypedValue

/-! ## Writing -/

namespace MemoryStream

theorem Filled.writeEach {s : MemoryStream} {text : List UInt8} (h : s.Filled text)
    (bs : List UInt8) (hroom : text.length + bs.length < maxChunks * s.bufferSize) :
    ∃ next, bs.foldlM (fun s b => s.write [b]) s = some next ∧ next.Filled (text ++ bs) ∧
      next.bufferSize = s.bufferSize := by
  induction bs generalizing s text with
  | nil => exact ⟨s, rfl, (List.append_nil text).symm ▸ h, rfl⟩
  | cons b bs ih =>
    rw [List.length_cons] at hroom
    have hfirst : text.length + [b].length < maxChunks * s.bufferSize := by
      rw [List.length_singleton]
      omega
    rcases h.write [b] hfirst with ⟨s1, hs1, hfilled, hsize⟩
    have hrest : (text ++ [b]).length + bs.length < maxChunks * s1.bufferSize := by
      rw [hsize, List.length_append, List.length_singleton]
      omega
    rcases ih hfilled hrest with ⟨next, hnext, hdone, hsize'⟩
    rw [List.append_assoc] at hdone
    refine ⟨next, ?_, hdone, hsize'.trans hsize⟩
    rw [List.foldlM_cons, hs1]
    exact hnext

theorem Filled.writeChars {s : MemoryStream} {text : List UInt8} (h : s.Filled text)
    {chars : List UInt8} (hlen : chars.length < 2 ^ 31)
    (hroom : text.length + (Djondb.writeChars chars).length < maxChunks * s.bufferSize) :
    ∃ next, s.writeChars chars = some next ∧ next.Filled (text ++ Djondb.writeChars chars) ∧
      next.bufferSize = s.bufferSize := by
  have hmod : (chars.length : ℤ).bmod (2 ^ 32) = chars.length := by
    apply Int.bmod_eq_of_le <;> omega
  have hint : (encodeWord 4 (chars.length : ℤ)).length = 4 := encodeWord_length 4 _
  have hchars : Djondb.writeChars chars = encodeWord 4 (chars.length : ℤ) ++ chars := rfl
  rw [hchars, List.length_append] at hroom
  rcases h.writeEach (encodeWord 4 (chars.length : ℤ)) (by omega) with ⟨s1, hs1, hfilled, hsize⟩
  rcases hfilled.write chars (by rw [hsize, List.length_append]; omega)
    with ⟨next, hnext, hdone, hsize'⟩
  rw [List.append_assoc] at hdone
  refine ⟨next, ?_, hdone, hsize'.trans hsize⟩
  unfold MemoryStream.writeChars
  dsimp only
  rw [hmod, if_neg (by omega), Int.toNat_natCast, List.take_length]
  apply Option.bind_eq_some_iff.2
  exact ⟨s1, hs1, hnext⟩

end MemoryStream

namespace TypedValue

theorem takeWhile_eq {text : List UInt8} (h : 0 ∉ text) : text.takeWhile (· ≠ 0) = text := by
  apply List.takeWhile_eq_self_iff.2
  intro b hb
  exact decide_eq_true fun hb0 => h (hb0 ▸ hb)

theorem write_filled {v : TypedValue} (hv : v.Fits) {s : MemoryStream} {text : List UInt8}
    (h : s.Filled text) (hroom : text.length + v.bytes.length < maxChunks * s.bufferSize) :
    ∃ next, v.write s = some next ∧ next.Filled (text ++ v.bytes) ∧
      next.bufferSize = s.bufferSize := by
  cases v with
  | char v => exact h.write [v] hroom
  | boolean v => exact h.writeEach _ hroom
  | short v => exact h.writeEach _ hroom
  | int v => exact h.writeEach _ hroom
  | long v => exact h.writeEach _ hroom
  | double bits => exact h.write _ hroom
  | chars chars =>
    have hlen : chars.length < 2 ^ 31 := hv
    change ∃ next, s.writeChars chars = some next ∧ _
    exact h.writeChars hlen hroom
  | string chars =>
    have hlen : chars.length < 2 ^ 31 := hv.1
    have hcut : chars.takeWhile (· ≠ 0) = chars := takeWhile_eq hv.2
    change ∃ next, s.writeChars (chars.takeWhile (· ≠ 0)) = some next ∧ _
    rw [hcut]
    exact h.writeChars hlen hroom

theorem writeAll_filled {vs : List TypedValue} (hvs : ∀ v ∈ vs, v.Fits) {s : MemoryStream}
    {text : List UInt8} (h : s.Filled text)
    (hroom : text.length + (vs.flatMap bytes).length < maxChunks * s.bufferSize) :
    ∃ next, writeAll vs s = some next ∧ next.Filled (text ++ vs.flatMap bytes) ∧
      next.bufferSize = s.bufferSize := by
  unfold writeAll
  induction vs generalizing s text with
  | nil => exact ⟨s, rfl, (List.append_nil text).symm ▸ h, rfl⟩
  | cons v vs ih =>
    rcases List.forall_mem_cons.1 hvs with ⟨hv, hvs⟩
    rw [List.flatMap_cons, List.length_append] at hroom
    rcases write_filled hv h (by omega) with ⟨s1, hs1, hfilled, hsize⟩
    have hrest : (text ++ v.bytes).length + (vs.flatMap bytes).length <
        maxChunks * s1.bufferSize := by
      rw [hsize, List.length_append]
      omega
    rcases ih hvs hfilled hrest with ⟨next, hnext, hdone, hsize'⟩
    rw [List.append_assoc] at hdone
    refine ⟨next, ?_, hdone, hsize'.trans hsize⟩
    rw [List.foldlM_cons, hs1]
    exact hnext

/-! ## Reading what is ahead -/

theorem readData_takes {w : ℕ} {v : ℤ} (h : Word w v) :
    MemoryStream.Takes (MemoryStream.readData w) (encodeWord w v) v := by
  have hr := (MemoryStream.readCharsOf_takes (encodeWord w v)).map (decodeWord w)
  rw [encodeWord_length, decodeWord_encodeWord h] at hr
  exact hr

theorem readDoubleIEEE_takes (bits : UInt64) :
    MemoryStream.Takes MemoryStream.readDoubleIEEE (writeDoubleIEEE bits) bits := by
  have hlen : (writeDoubleIEEE bits).length = 8 := leEncode_length 8 _
  have hv : UInt64.ofNat (leDecode (writeDoubleIEEE bits)) = bits :=
    (Prod.mk.inj (Option.some.inj (Djondb.readDoubleIEEE_reads bits []))).1
  intro s rest hs
  rcases MemoryStream.read_takes (writeDoubleIEEE bits) s rest hs with ⟨next, hread, hnext, hsize⟩
  rw [hlen] at hread
  refine ⟨next, ?_, hnext, hsize⟩
  unfold MemoryStream.readDoubleIEEE
  rw [hread]
  change (if (writeDoubleIEEE bits).length = 8 then some (UInt64.ofNat _, next) else none) = _
  rw [if_pos hlen, hv]

/-- Only a `char` asks where in the chunk it stands. -/
theorem read_takes {v : TypedValue} (hv : v.Fits) (hchar : v.isChar = false) :
    MemoryStream.Takes v.read v.bytes v := by
  cases v with
  | char v => cases hchar
  | boolean v =>
    have h : Word 1 (if v then 1 else 0) := by cases v <;> decide
    have hr := (readData_takes h).map fun v => boolean (v != 0)
    cases v <;> exact hr
  | short v =>
    have h : Word 2 v.toInt := ⟨Int16.le_toInt v, Int16.toInt_lt v⟩
    have hr := (readData_takes h).map fun v => short (Int16.ofInt v)
    rwa [Int16.ofInt_toInt] at hr
  | int v =>
    have h : Word 4 v.toInt := ⟨Int32.le_toInt v, Int32.toInt_lt v⟩
    have hr := (readData_takes h).map fun v => int (Int32.ofInt v)
    rwa [Int32.ofInt_toInt] at hr
  | long v =>
    have h : Word 8 v.toInt := ⟨Int64.le_toInt v, Int64.toInt_lt v⟩
    have hr := (readData_takes h).map fun v => long (Int64.ofInt v)
    rwa [Int64.ofInt_toInt] at hr
  | double bits => exact (readDoubleIEEE_takes bits).map double
  | chars text => exact (MemoryStream.readChars_takes hv).map chars
  | string text =>
    have h : (CString.mk text hv.2).length < 2 ^ 31 := hv.1
    exact (MemoryStream.readCString_takes h).map fun s => string s.bytes

end TypedValue

/-! ## Where a read ends -/

namespace MemoryStream

/-- A read of `w` bytes. In the first chunk it may be cut at the end of the stream. -/
structure Moves (s next : MemoryStream) (w : ℕ) : Prop where
  length_eq : next.length = s.length
  size_eq : next.bufferSize = s.bufferSize
  index_le : s.currentIndex ≤ next.currentIndex
  pos_le : s.currentPos ≤ next.currentPos
  near : next.currentPos ≤ s.currentPos + w
  far : 1 ≤ s.currentIndex → s.currentPos + w ≤ next.currentPos ∨ s.length < next.currentPos

theorem Moves.trans {s s1 s2 : MemoryStream} {w1 w2 : ℕ} (h1 : s.Moves s1 w1)
    (h2 : s1.Moves s2 w2) : s.Moves s2 (w1 + w2) where
  length_eq := h2.length_eq.trans h1.length_eq
  size_eq := h2.size_eq.trans h1.size_eq
  index_le := h1.index_le.trans h2.index_le
  pos_le := h1.pos_le.trans h2.pos_le
  near := by
    have hn1 := h1.near
    have hn2 := h2.near
    omega
  far hindex := by
    have hle := h2.pos_le
    have hlen := h1.length_eq
    rcases h1.far hindex with hw1 | hout1
    · rcases h2.far (hindex.trans h1.index_le) with hw2 | hout2
      · left
        omega
      · right
        omega
    · right
      omega

theorem nextBuffer_some {s next : MemoryStream} (h : s.nextBuffer = some next) :
    next.length = s.length ∧ next.bufferSize = s.bufferSize ∧
      next.currentIndex = s.currentIndex + 1 ∧
      next.currentPos = (s.currentIndex + 1) * s.bufferSize ∧
      s.buffer.length - next.currentIndex < s.buffer.length - s.currentIndex ∧
      next.buffer = s.buffer := by
  unfold nextBuffer at h
  split_ifs at h with hlt
  cases h
  refine ⟨rfl, rfl, rfl, Nat.add_zero _, ?_, rfl⟩
  change s.buffer.length - (s.currentIndex + 1) < _
  omega

theorem bounded_cases (s : MemoryStream) (count : ℕ) : s.bounded count = count ∨
    s.currentBufferPos + s.bounded count = s.length ∧ s.bounded count < count := by
  unfold bounded
  split_ifs with h
  · right
    omega
  · exact Or.inl rfl

theorem read_moves {count : ℕ} {s next : MemoryStream} {bs : List UInt8}
    (h : s.read count = some (bs, next)) : s.Moves next count ∧ bs.length ≤ count := by
  induction hn : count using Nat.strong_induction_on generalizing s bs count with
  | _ n ih =>
    subst hn
    have hp := s.pos_lt
    have hcases := s.bounded_cases count
    have hle := s.bounded_le count
    have hcursor : s.currentPos = s.currentIndex * s.bufferSize + s.currentBufferPos := rfl
    -- from the second chunk on, a count that is cut ends behind the stream
    have hchunk : 1 ≤ s.currentIndex → s.bufferSize ≤ s.currentIndex * s.bufferSize :=
      fun hindex => Nat.le_mul_of_pos_left _ hindex
    unfold MemoryStream.read at h
    dsimp only at h
    split_ifs at h with hfit
    · cases h
      have hpos : ({ s with
          currentBufferPos := s.currentBufferPos + s.bounded count, pos_lt := hfit } :
            MemoryStream).currentPos = s.currentPos + s.bounded count :=
        (Nat.add_assoc _ _ _).symm
      refine ⟨⟨rfl, rfl, le_refl _, ?_, ?_, ?_⟩, ?_⟩
      · rw [hpos]
        omega
      · rw [hpos]
        omega
      · intro hindex
        have hback := hchunk hindex
        rw [hpos]
        omega
      · exact (List.length_take_le _ _).trans hle
    · rcases Option.bind_eq_some_iff.1 h with ⟨next1, hnext1, hread⟩
      rcases Option.bind_eq_some_iff.1 hread with ⟨⟨back, last⟩, hback, heq⟩
      cases heq
      rcases nextBuffer_some hnext1 with ⟨hlength, hsize, hindex, hpos, -, -⟩
      have hless : s.bounded count - (s.bufferSize - s.currentBufferPos) < count := by omega
      rcases ih _ hless hback rfl with ⟨hmoves, hlen⟩
      have hfar := hmoves.far (by omega)
      have hnear := hmoves.near
      have hge := hmoves.pos_le
      rw [Nat.succ_mul] at hpos
      refine ⟨⟨hmoves.length_eq.trans hlength, hmoves.size_eq.trans hsize, ?_, ?_, ?_, ?_⟩, ?_⟩
      · have hle := hmoves.index_le
        omega
      · omega
      · omega
      · intro hfirst
        have hback := hchunk hfirst
        omega
      · change (s.chunk.drop s.currentBufferPos ++ back).length ≤ count
        rw [List.length_append, List.length_drop, s.chunk_size]
        omega

section results
variable {α β : Type}

theorem of_map_eq_some {r : StateT MemoryStream Option α} {f : α → β} {s next : MemoryStream}
    {b : β} (h : (f <$> r) s = some (b, next)) : ∃ a, r s = some (a, next) ∧ b = f a := by
  change (r s).bind (fun p => some (f p.1, p.2)) = _ at h
  rcases Option.bind_eq_some_iff.1 h with ⟨⟨a, next'⟩, hr, heq⟩
  cases heq
  exact ⟨a, hr, rfl⟩

theorem map_eq_some {r : StateT MemoryStream Option α} (f : α → β) {s next : MemoryStream} {a : α}
    (h : r s = some (a, next)) : (f <$> r) s = some (f a, next) := by
  change (r s).bind (fun p => some (f p.1, p.2)) = _
  rw [h]
  rfl

/-- A read that takes the bytes ahead, and no more bytes than these, stops right behind them. -/
theorem Takes.exact {r : StateT MemoryStream Option α} {bs rest : List UInt8} {a : α}
    (ht : Takes r bs a)
    (hm : ∀ s next : MemoryStream, r s = some (a, next) → s.Moves next bs.length)
    {s : MemoryStream} (h : s.Ahead (bs ++ rest)) (hpos : s.currentPos ≤ s.length) :
    ∃ next, r s = some (a, next) ∧ next.Ahead rest ∧ next.bufferSize = s.bufferSize ∧
      next.length = s.length ∧ next.currentPos = s.currentPos + bs.length := by
  rcases ht s rest h with ⟨next, hr, hnext, hsize⟩
  have hmoves := hm s next hr
  have hnear := hmoves.near
  have hlength := hmoves.length_eq
  have hlen := h.length_eq
  have hlen' := hnext.length_eq
  rw [List.length_append] at hlen
  exact ⟨next, hr, hnext, hsize, hlength, by omega⟩

end results

theorem readCharsOf_moves {length : ℕ} {s next : MemoryStream} {bs : List UInt8}
    (h : readCharsOf length s = some (bs, next)) : s.Moves next length ∧ bs.length = length := by
  rcases of_map_eq_some h with ⟨bs', hread, rfl⟩
  rcases read_moves hread with ⟨hmoves, hle⟩
  refine ⟨hmoves, ?_⟩
  rw [List.length_append, List.length_replicate]
  omega

theorem readData_moves {w : ℕ} {s next : MemoryStream} {v : ℤ}
    (h : readData w s = some (v, next)) : s.Moves next w := by
  rcases of_map_eq_some h with ⟨bs, hread, -⟩
  exact (readCharsOf_moves hread).1

theorem readDoubleIEEE_moves {s next : MemoryStream} {bits : UInt64}
    (h : readDoubleIEEE s = some (bits, next)) : s.Moves next 8 := by
  rcases Option.bind_eq_some_iff.1 h with ⟨⟨bs, next'⟩, hread, hif⟩
  dsimp only at hif
  split_ifs at hif
  cases hif
  exact (read_moves hread).1

theorem decodeWord_lt (w : ℕ) (bs : List UInt8) :
    decodeWord w bs < (((256 ^ w : ℕ) : ℤ) + 1) / 2 := by
  unfold decodeWord
  exact Int.bmod_lt (by positivity)

theorem readChars_moves {s next : MemoryStream} {text : List UInt8}
    (h : readChars s = some (text, next)) :
    s.Moves next (4 + text.length) ∧ text.length < 2 ^ 31 := by
  change (readInt s).bind (fun p => (if p.1 < 0 then failure else readCharsOf p.1.toNat :
    StateT MemoryStream Option (List UInt8)) p.2) = _ at h
  rcases Option.bind_eq_some_iff.1 h with ⟨⟨len, s1⟩, hint, hrest⟩
  dsimp only at hrest
  split_ifs at hrest
  · cases hrest
  · rcases readCharsOf_moves hrest with ⟨hmoves, hlen⟩
    rcases of_map_eq_some hint with ⟨word, hword, hdecoded⟩
    have hlt := decodeWord_lt 4 word
    norm_num at hlt
    rw [← hdecoded] at hlt
    rw [hlen]
    refine ⟨(readCharsOf_moves hword).1.trans hmoves, ?_⟩
    omega

/-- At the end of a chunk `readChar` leaves a byte out. -/
theorem readChar_moves {s next : MemoryStream} {b : UInt8} (h : s.readChar = some (b, next)) :
    next.length = s.length ∧ s.currentIndex ≤ next.currentIndex ∧
      s.currentPos + 1 ≤ next.currentPos ∧
      (s.currentBufferPos + 1 < s.bufferSize → next.currentPos = s.currentPos + 1) ∧
      (¬ s.currentBufferPos + 1 < s.bufferSize →
        1 ≤ next.currentIndex ∧ s.currentPos + 1 < next.currentPos) := by
  induction hn : s.buffer.length - s.currentIndex using Nat.strong_induction_on generalizing s with
  | _ n ih =>
    subst hn
    have hp := s.pos_lt
    have hcursor : s.currentPos = s.currentIndex * s.bufferSize + s.currentBufferPos := rfl
    unfold readChar at h
    split_ifs at h with hout hfit
    · cases h
      exact ⟨rfl, le_refl _, le_refl _, fun _ => rfl, fun hnot => absurd hfit hnot⟩
    · split at h
      · cases h
      · rename_i next1 hnext1
        rcases nextBuffer_some hnext1 with ⟨hlength, hsize, hindex, hpos, hless, hbuffer⟩
        have hmeasure : next1.buffer.length - next1.currentIndex <
            s.buffer.length - s.currentIndex := by
          rw [hbuffer]
          exact hless
        rcases ih _ hmeasure h rfl with ⟨hlength', hindex', hpos', -, -⟩
        rw [Nat.succ_mul] at hpos
        refine ⟨hlength'.trans hlength, by omega, by omega, fun hyes => absurd hyes hfit, fun _ => ?_⟩
        constructor <;> omega

/-- Whether the cursor stands on the last byte of its chunk. -/
theorem currentPos_mod {s : MemoryStream} :
    (s.currentPos + 1) % s.bufferSize ≠ 0 ↔ s.currentBufferPos + 1 < s.bufferSize := by
  have hp := s.pos_lt
  have hmod : (s.currentPos + 1) % s.bufferSize = (s.currentBufferPos + 1) % s.bufferSize := by
    unfold currentPos
    rw [Nat.add_assoc, Nat.mul_add_mod_self_right]
  rw [hmod]
  rcases Nat.lt_or_ge (s.currentBufferPos + 1) s.bufferSize with hlt | hge
  · rw [Nat.mod_eq_of_lt hlt]
    exact iff_of_true (Nat.succ_ne_zero _) hlt
  · have heq : s.currentBufferPos + 1 = s.bufferSize := by omega
    rw [heq, Nat.mod_self]
    exact iff_of_false (fun h => h rfl) (lt_irrefl _)

end MemoryStream
namespace TypedValue

/-! ## Values that come back -/

/-- A value that has been read moves the cursor by its bytes at least, unless the end is passed. -/
theorem read_moves {v v' : TypedValue} {s next : MemoryStream} (h : v.read s = some (v', next)) :
    next.length = s.length ∧ s.currentIndex ≤ next.currentIndex ∧
      (1 ≤ s.currentIndex → s.currentPos + v'.bytes.length ≤ next.currentPos ∨
        s.length < next.currentPos) ∧ v'.Fits := by
  have hword : ∀ (w : ℕ) (f : ℤ → TypedValue), (∀ a, (f a).bytes.length = w ∧ (f a).Fits) →
      (f <$> MemoryStream.readData w) s = some (v', next) →
        next.length = s.length ∧ s.currentIndex ≤ next.currentIndex ∧
          (1 ≤ s.currentIndex → s.currentPos + v'.bytes.length ≤ next.currentPos ∨
            s.length < next.currentPos) ∧ v'.Fits := by
    intro w f hf hread
    rcases MemoryStream.of_map_eq_some hread with ⟨a, ha, rfl⟩
    have hmoves := MemoryStream.readData_moves ha
    rw [(hf a).1]
    exact ⟨hmoves.length_eq, hmoves.index_le, hmoves.far, (hf a).2⟩
  cases v with
  | char _ =>
    rcases MemoryStream.of_map_eq_some h with ⟨b, hb, rfl⟩
    rcases MemoryStream.readChar_moves hb with ⟨hlength, hindex, hpos, -, -⟩
    exact ⟨hlength, hindex, fun _ => Or.inl hpos, trivial⟩
  | boolean _ =>
    exact hword 1 (fun v => boolean (v != 0)) (fun _ => ⟨encodeWord_length 1 _, trivial⟩) h
  | short _ =>
    exact hword 2 (fun v => short (Int16.ofInt v)) (fun _ => ⟨encodeWord_length 2 _, trivial⟩) h
  | int _ =>
    exact hword 4 (fun v => int (Int32.ofInt v)) (fun _ => ⟨encodeWord_length 4 _, trivial⟩) h
  | long _ =>
    exact hword 8 (fun v => long (Int64.ofInt v)) (fun _ => ⟨encodeWord_length 8 _, trivial⟩) h
  | double _ =>
    rcases MemoryStream.of_map_eq_some h with ⟨bits, hbits, rfl⟩
    have hmoves := MemoryStream.readDoubleIEEE_moves hbits
    have hlen : (double bits).bytes.length = 8 := leEncode_length 8 _
    rw [hlen]
    exact ⟨hmoves.length_eq, hmoves.index_le, hmoves.far, trivial⟩
  | chars _ =>
    rcases MemoryStream.of_map_eq_some h with ⟨text, htext, rfl⟩
    rcases MemoryStream.readChars_moves htext with ⟨hmoves, hlt⟩
    have hlen : (chars text).bytes.length = 4 + text.length := writeChars_length text
    rw [hlen]
    exact ⟨hmoves.length_eq, hmoves.index_le, hmoves.far, hlt⟩
  | string _ =>
    rcases MemoryStream.of_map_eq_some h with ⟨c, hc, rfl⟩
    rcases MemoryStream.of_map_eq_some hc with ⟨text, htext, rfl⟩
    rcases MemoryStream.readChars_moves htext with ⟨hmoves, hlt⟩
    have hcut : (CString.ofBytes text).bytes.length ≤ text.length :=
      (List.takeWhile_prefix _).length_le
    have hlen : (string (CString.ofBytes text).bytes).bytes.length =
        4 + (CString.ofBytes text).bytes.length := writeChars_length _
    rw [hlen]
    refine ⟨hmoves.length_eq, hmoves.index_le, fun hindex => ?_,
      lt_of_le_of_lt hcut hlt, (CString.ofBytes text).noNul⟩
    rcases hmoves.far hindex with hfar | hout
    · left
      omega
    · exact Or.inr hout

/-- The reader is too far ahead: behind the first chunk, with more to read than there is. -/
def Beyond (s : MemoryStream) (k : ℕ) : Prop := 1 ≤ s.currentIndex ∧ s.length < s.currentPos + k

theorem Beyond.read {v v' : TypedValue} {s next : MemoryStream} {k : ℕ}
    (hs : Beyond s (v'.bytes.length + k)) (h : v.read s = some (v', next)) : Beyond next k := by
  rcases read_moves h with ⟨hlength, hindex, hfar, -⟩
  have hpast := hs.2
  refine ⟨hs.1.trans hindex, ?_⟩
  rcases hfar hs.1 with hpos | hout
  · omega
  · omega

theorem of_readAll_cons {v : TypedValue} {vs all : List TypedValue} {s last : MemoryStream}
    (h : readAll (v :: vs) s = some (all, last)) : ∃ v' vs' next, v.read s = some (v', next) ∧
      readAll vs next = some (vs', last) ∧ all = v' :: vs' := by
  change (v.read s).bind (fun p => ((do
    let vs' ← readAll vs
    pure (p.1 :: vs')) : StateT MemoryStream Option (List TypedValue)) p.2) = _ at h
  rcases Option.bind_eq_some_iff.1 h with ⟨⟨v', next⟩, hv, hrest⟩
  rcases Option.bind_eq_some_iff.1 hrest with ⟨⟨vs', last'⟩, hvs, heq⟩
  cases heq
  exact ⟨v', vs', next, hv, hvs, rfl⟩

theorem readAll_cons {v : TypedValue} {vs : List TypedValue} {s next last : MemoryStream}
    (hv : v.read s = some (v, next)) (hvs : readAll vs next = some (vs, last)) :
    readAll (v :: vs) s = some (v :: vs, last) := by
  change (v.read s).bind _ = _
  rw [hv]
  change (readAll vs next).bind _ = _
  rw [hvs]
  rfl

theorem Beyond.readAll {vs all : List TypedValue} {s last : MemoryStream}
    (hs : Beyond s (all.flatMap bytes).length) (h : readAll vs s = some (all, last)) :
    last.length < last.currentPos := by
  induction vs generalizing s all with
  | nil =>
    cases h
    exact hs.2
  | cons v vs ih =>
    rcases of_readAll_cons h with ⟨v', vs', next, hv, hvs, rfl⟩
    rw [List.flatMap_cons, List.length_append] at hs
    exact ih (hs.read hv) hvs

/-- All that is read fits. -/
theorem fits_of_readAll {vs all : List TypedValue} {s last : MemoryStream}
    (h : readAll vs s = some (all, last)) : ∀ v ∈ all, v.Fits := by
  induction vs generalizing s all with
  | nil =>
    cases h
    exact fun _ h => nomatch h
  | cons v vs ih =>
    rcases of_readAll_cons h with ⟨v', vs', next, hv, hvs, rfl⟩
    exact List.forall_mem_cons.2 ⟨(read_moves hv).2.2.2, ih hvs⟩

/-- The values of fixed width are read with `readData`. -/
theorem data_ahead {v : TypedValue} {w : ℕ} {f : ℤ → TypedValue} (hlen : v.bytes.length = w)
    (hread : v.read = f <$> MemoryStream.readData w) (ht : MemoryStream.Takes v.read v.bytes v)
    {s : MemoryStream} {rest : List UInt8} (h : s.Ahead (v.bytes ++ rest))
    (hpos : s.currentPos ≤ s.length) :
    ∃ next, v.read s = some (v, next) ∧ next.Ahead rest ∧ next.bufferSize = s.bufferSize ∧
      next.length = s.length ∧ next.currentPos = s.currentPos + v.bytes.length := by
  apply ht.exact _ h hpos
  intro s next h
  rw [hread] at h
  rcases MemoryStream.of_map_eq_some h with ⟨a, ha, -⟩
  rw [hlen]
  exact MemoryStream.readData_moves ha

theorem chars_ahead {text : List UInt8} (hlt : text.length < 2 ^ 31) {s : MemoryStream}
    {rest : List UInt8} (h : s.Ahead (writeChars text ++ rest)) (hpos : s.currentPos ≤ s.length) :
    ∃ next, MemoryStream.readChars s = some (text, next) ∧ next.Ahead rest ∧
      next.bufferSize = s.bufferSize ∧ next.length = s.length ∧
      next.currentPos = s.currentPos + (writeChars text).length := by
  apply (MemoryStream.readChars_takes hlt).exact _ h hpos
  intro s next h
  rw [writeChars_length]
  exact (MemoryStream.readChars_moves h).1

/-- A value ahead of the cursor, not a `char` on the last byte of a chunk. -/
theorem read_ahead {v : TypedValue} (hv : v.Fits) {s : MemoryStream} {rest : List UInt8}
    (h : s.Ahead (v.bytes ++ rest)) (hpos : s.currentPos ≤ s.length)
    (hchar : v.isChar = true → (s.currentPos + 1) % s.bufferSize ≠ 0) :
    ∃ next, v.read s = some (v, next) ∧ next.Ahead rest ∧ next.bufferSize = s.bufferSize ∧
      next.length = s.length ∧ next.currentPos = s.currentPos + v.bytes.length := by
  cases v with
  | char b =>
    have hfit := MemoryStream.currentPos_mod.1 (hchar rfl)
    rcases MemoryStream.readChar_takes h hfit with ⟨next, hread, hnext, hsize⟩
    rcases MemoryStream.readChar_moves hread with ⟨hlength, -, -, hone, -⟩
    exact ⟨next, MemoryStream.map_eq_some char hread, hnext, hsize, hlength, hone hfit⟩
  | boolean v =>
    exact data_ahead (v := boolean v) (encodeWord_length 1 _) rfl (read_takes hv rfl) h hpos
  | short v =>
    exact data_ahead (v := short v) (encodeWord_length 2 _) rfl (read_takes hv rfl) h hpos
  | int v =>
    exact data_ahead (v := int v) (encodeWord_length 4 _) rfl (read_takes hv rfl) h hpos
  | long v =>
    exact data_ahead (v := long v) (encodeWord_length 8 _) rfl (read_takes hv rfl) h hpos
  | double bits =>
    apply (read_takes hv rfl).exact _ h hpos
    intro s next h
    rcases MemoryStream.of_map_eq_some h with ⟨bits', hbits, -⟩
    have hlen : (double bits).bytes.length = 8 := leEncode_length 8 _
    rw [hlen]
    exact MemoryStream.readDoubleIEEE_moves hbits
  | chars text =>
    have hlt : text.length < 2 ^ 31 := hv
    rcases chars_ahead hlt h hpos with ⟨next, hread, hrest⟩
    exact ⟨next, MemoryStream.map_eq_some chars hread, hrest⟩
  | string text =>
    have hlt : text.length < 2 ^ 31 := hv.1
    rcases chars_ahead hlt h hpos with ⟨next, hread, hrest⟩
    have hcstring := MemoryStream.map_eq_some CString.ofBytes hread
    have hstring := MemoryStream.map_eq_some (fun s => string s.bytes) hcstring
    have hcut : (CString.ofBytes text).bytes = text := takeWhile_eq hv.2
    rw [hcut] at hstring
    exact ⟨next, hstring, hrest⟩

/-- A `char` on the last byte of a chunk takes the reader too far. -/
theorem char_beyond {v v' : TypedValue} (hv : v.isChar = true) {s next : MemoryStream}
    {rest : List UInt8} (h : s.Ahead (v.bytes ++ rest)) (hpos : s.currentPos ≤ s.length)
    (hlast : (s.currentPos + 1) % s.bufferSize = 0) (hread : v.read s = some (v', next)) :
    Beyond next rest.length := by
  cases v with
  | char b =>
    rcases MemoryStream.of_map_eq_some hread with ⟨b', hb, -⟩
    have hnot := mt MemoryStream.currentPos_mod.2 (not_not.2 hlast)
    rcases MemoryStream.readChar_moves hb with ⟨hlength, -, -, -, hskip⟩
    rcases hskip hnot with ⟨hindex, hfar⟩
    have hlen := h.length_eq
    have hone : (char b).bytes.length = 1 := rfl
    rw [List.length_append, hone] at hlen
    refine ⟨hindex, ?_⟩
    omega
  | _ => cases hv

section runs
variable {vs : List TypedValue} {s last : MemoryStream}

/-- All values come back if they fit and no `char` stands on the last byte of a chunk. -/
theorem readAll_ahead (hvs : ∀ v ∈ vs, v.Fits) (h : s.Ahead (vs.flatMap bytes))
    (hpos : s.currentPos ≤ s.length) (hclear : CharsClear s.bufferSize s.currentPos vs) :
    ∃ last, readAll vs s = some (vs, last) ∧ last.currentPos = last.length := by
  induction vs generalizing s with
  | nil =>
    have hlen := h.length_eq
    rw [List.flatMap_nil, List.length_nil] at hlen
    exact ⟨s, rfl, by omega⟩
  | cons v vs ih =>
    rcases List.forall_mem_cons.1 hvs with ⟨hv, hvs⟩
    have hlen := h.length_eq
    rw [List.flatMap_cons] at h
    rw [List.flatMap_cons, List.length_append] at hlen
    rcases read_ahead hv h hpos hclear.1 with ⟨next, hread, hnext, hsize, hlength, hcursor⟩
    have hrest : CharsClear next.bufferSize next.currentPos vs := by
      rw [hsize, hcursor]
      exact hclear.2
    rcases ih hvs hnext (by omega) hrest with ⟨last, hlast, hend⟩
    exact ⟨last, readAll_cons hread hlast, hend⟩

/-- A reader that ends right at the end of the stream has passed over nothing. -/
theorem charsClear_of_readAll (hvs : ∀ v ∈ vs, v.Fits) (h : s.Ahead (vs.flatMap bytes))
    (hpos : s.currentPos ≤ s.length) (hread : readAll vs s = some (vs, last))
    (hend : last.currentPos = last.length) : CharsClear s.bufferSize s.currentPos vs := by
  induction vs generalizing s with
  | nil => trivial
  | cons v vs ih =>
    rcases List.forall_mem_cons.1 hvs with ⟨hv, hvs⟩
    rcases of_readAll_cons hread with ⟨v', vs', next, hv', hvs', heq⟩
    cases heq
    have hlen := h.length_eq
    rw [List.flatMap_cons] at h
    rw [List.flatMap_cons, List.length_append] at hlen
    have hchar : v.isChar = true → (s.currentPos + 1) % s.bufferSize ≠ 0 := by
      intro hc hlast
      have hpast := (char_beyond hc h hpos hlast hv').readAll hvs'
      omega
    rcases read_ahead hv h hpos hchar with ⟨next', hread', hnext, hsize, hlength, hcursor⟩
    cases hv'.symm.trans hread'
    have hclear := ih hvs hnext (by omega) hvs'
    rw [hsize, hcursor] at hclear
    exact ⟨hchar, hclear⟩

end runs

theorem front_of_new {n : ℕ} (hn : 0 < n) {vs : List TypedValue} (hvs : ∀ v ∈ vs, v.Fits)
    (hroom : (vs.flatMap bytes).length < maxChunks * n) :
    ∃ s front, writeAll vs (MemoryStream.new n hn) = some s ∧ s.seek 0 = some front ∧
      front.Ahead (vs.flatMap bytes) ∧ front.bufferSize = n ∧ front.currentPos = 0 := by
  have hempty := MemoryStream.new_filled n hn
  rcases writeAll_filled hvs hempty (by rw [List.length_nil, Nat.zero_add]; exact hroom)
    with ⟨s, hs, hfilled, hsize⟩
  rw [List.nil_append] at hfilled
  rcases hfilled.rewind with ⟨front, hfront, hahead, -, hsize'⟩
  have hcursor : front.currentPos = 0 := by
    have hlt : 0 / s.bufferSize < s.buffer.length := by
      rw [Nat.zero_div]
      exact Nat.lt_of_le_of_lt (Nat.zero_le _) s.index_lt
    cases hfront.symm.trans (dif_pos hlt)
    change 0 / s.bufferSize * s.bufferSize + 0 % s.bufferSize = 0
    rw [Nat.zero_div, Nat.zero_mul, Nat.zero_mod]
  exact ⟨s, front, hs, hfront, hahead, hsize'.trans hsize, hcursor⟩

end TypedValue

/-! ## What a write has done -/

namespace MemoryStream

/-- No stream has more chunks than pointers to them. -/
def Bounded (s : MemoryStream) : Prop := s.buffer.length ≤ maxChunks

theorem Filled.lt_capacity {s : MemoryStream} {text : List UInt8} (h : s.Filled text)
    (hs : s.Bounded) : text.length < maxChunks * s.bufferSize :=
  Nat.lt_of_lt_of_le h.cursor_lt (Nat.mul_le_mul_right _ hs)

theorem reset_buffer {s next : MemoryStream} (h : s.reset = some next) :
    next.buffer = s.buffer := by
  unfold reset seek at h
  dsimp only at h
  split_ifs at h
  all_goals
    cases h
    rfl

theorem allocate_some {s next : MemoryStream} (h : s.allocate = some next) :
    s.currentIndex + 1 < maxChunks ∧ (s.Bounded → next.Bounded) := by
  have hindex := s.index_lt
  unfold allocate at h
  split_ifs at h with hmax hlt
  · cases h
    exact ⟨Nat.not_le.1 hmax, id⟩
  · cases h
    refine ⟨Nat.not_le.1 hmax, fun _ => ?_⟩
    change (s.buffer ++ [List.replicate s.bufferSize 0]).length ≤ maxChunks
    rw [List.length_append, List.length_singleton]
    omega

/-- A write that comes to an end has put its bytes behind the text. -/
theorem Filled.of_write {s next : MemoryStream} {text bs : List UInt8} (h : s.Filled text)
    (hs : s.Bounded) (hwrite : s.write bs = some next) :
    next.Filled (text ++ bs) ∧ next.Bounded ∧ next.bufferSize = s.bufferSize := by
  induction hn : bs.length using Nat.strong_induction_on generalizing s text bs with
  | _ n ih =>
    subst hn
    have hp := s.pos_lt
    unfold MemoryStream.write at hwrite
    split_ifs at hwrite with hfit
    · cases hwrite
      rcases h.copyIn hfit.le with ⟨hlength, hbytes⟩
      refine ⟨⟨hlength, ?_, hbytes⟩, ?_, rfl⟩
      · change s.currentIndex * s.bufferSize + (s.currentBufferPos + bs.length) = _
        rw [← Nat.add_assoc, List.length_append, ← h.pos_eq]
        rfl
      · change (s.buffer.modify _ _).length ≤ maxChunks
        rw [List.length_modify]
        exact hs
    · rcases Option.bind_eq_some_iff.1 hwrite with ⟨next1, hnext1, hrest⟩
      have htake : (bs.take (s.bufferSize - s.currentBufferPos)).length =
          s.bufferSize - s.currentBufferPos := by
        rw [List.length_take]
        omega
      have hfull : s.currentBufferPos + (bs.take (s.bufferSize - s.currentBufferPos)).length =
          s.bufferSize := by omega
      rcases allocate_some hnext1 with ⟨hindex, hbounded⟩
      rcases h.allocate hfull.le hfull hindex with ⟨next2, hnext2, hfilled, hsize⟩
      cases hnext1.symm.trans hnext2
      have hcopied : (s.copyIn _ hfull.le).Bounded := by
        change (s.buffer.modify _ _).length ≤ maxChunks
        rw [List.length_modify]
        exact hs
      have hless : (bs.drop (s.bufferSize - s.currentBufferPos)).length < bs.length := by
        rw [List.length_drop]
        omega
      rcases ih _ hless hfilled (hbounded hcopied) hrest rfl with ⟨hdone, hlast, hsize'⟩
      rw [List.append_assoc, List.take_append_drop] at hdone
      exact ⟨hdone, hlast, hsize'.trans hsize⟩

theorem Filled.of_writeEach {s next : MemoryStream} {text bs : List UInt8} (h : s.Filled text)
    (hs : s.Bounded) (hwrite : bs.foldlM (fun s b => s.write [b]) s = some next) :
    next.Filled (text ++ bs) ∧ next.Bounded ∧ next.bufferSize = s.bufferSize := by
  induction bs generalizing s text with
  | nil =>
    cases hwrite
    exact ⟨(List.append_nil text).symm ▸ h, hs, rfl⟩
  | cons b bs ih =>
    rw [List.foldlM_cons] at hwrite
    rcases Option.bind_eq_some_iff.1 hwrite with ⟨s1, hs1, hrest⟩
    rcases h.of_write hs hs1 with ⟨hfilled, hbounded, hsize⟩
    rcases ih hfilled hbounded hrest with ⟨hdone, hlast, hsize'⟩
    rw [List.append_assoc] at hdone
    exact ⟨hdone, hlast, hsize'.trans hsize⟩

/-- Of a text that is too long for an `__int32` less than the text is written. -/
theorem Filled.of_writeChars {s next : MemoryStream} {text chars : List UInt8} (h : s.Filled text)
    (hs : s.Bounded) (hwrite : s.writeChars chars = some next) :
    ∃ bs : List UInt8, next.Filled (text ++ bs) ∧ next.Bounded ∧ next.bufferSize = s.bufferSize ∧
      bs.length ≤ (Djondb.writeChars chars).length ∧
      (bs.length = (Djondb.writeChars chars).length →
        bs = Djondb.writeChars chars ∧ chars.length < 2 ^ 31) := by
  unfold MemoryStream.writeChars at hwrite
  dsimp only at hwrite
  split_ifs at hwrite with hneg
  obtain ⟨len, hlen⟩ : ∃ len, len = (chars.length : ℤ).bmod (2 ^ 32) := ⟨_, rfl⟩
  rw [← hlen] at hwrite hneg
  have hle : len ≤ chars.length ∧ len < 2 ^ 31 := by
    rw [hlen, Int.bmod_def]
    split_ifs <;> omega
  rcases Option.bind_eq_some_iff.1 hwrite with ⟨s1, hs1, hrest⟩
  rcases h.of_writeEach hs hs1 with ⟨hfilled, hbounded, hsize⟩
  rcases hfilled.of_write hbounded hrest with ⟨hdone, hlast, hsize'⟩
  rw [List.append_assoc] at hdone
  have hword : (encodeWord 4 len).length = 4 := encodeWord_length 4 _
  have htake : (chars.take len.toNat).length = len.toNat := by
    rw [List.length_take]
    omega
  refine ⟨_, hdone, hlast, hsize'.trans hsize, ?_, fun heq => ?_⟩
  · rw [List.length_append, hword, htake, writeChars_length]
    omega
  · rw [List.length_append, hword, htake, writeChars_length] at heq
    have hall : len = chars.length := by omega
    rw [hall, Int.toNat_natCast, List.take_length]
    exact ⟨rfl, by omega⟩

end MemoryStream

/-! ## Floats -/

/-- `writeFloatIEEE` on the bytes of the value. -/
def writeFloatIEEE (bits : UInt32) : List UInt8 := leEncode 4 bits.toNat

/-- A typed value, or a `float` with its bits. -/
inductive StreamValue where
  | typed (v : TypedValue)
  | float (bits : UInt32)
  deriving DecidableEq

namespace StreamValue

def bytes : StreamValue → List UInt8
  | typed v => v.bytes
  | float bits => writeFloatIEEE bits

/-- What the typed writes of a `MemoryStream` do. -/
def write : StreamValue → MemoryStream → Option MemoryStream
  | typed v, s => v.write s
  | float bits, s => s.write (writeFloatIEEE bits)

def writeAll (vs : List StreamValue) (s : MemoryStream) : Option MemoryStream :=
  vs.foldlM (fun s v => v.write s) s

def Fits : StreamValue → Prop
  | typed v => v.Fits
  | float _ => True

theorem write_filled {v : StreamValue} (hv : v.Fits) {s : MemoryStream} {text : List UInt8}
    (h : s.Filled text) (hroom : text.length + v.bytes.length < maxChunks * s.bufferSize) :
    ∃ next, v.write s = some next ∧ next.Filled (text ++ v.bytes) ∧
      next.bufferSize = s.bufferSize := by
  cases v with
  | typed v => exact TypedValue.write_filled hv h hroom
  | float bits => exact h.write _ hroom

/-- A value that has been written takes its bytes, or fewer: of a text that does not fit, its front
is written. -/
theorem written {v : StreamValue} {s next : MemoryStream} {text : List UInt8} (h : s.Filled text)
    (hs : s.Bounded) (hwrite : v.write s = some next) :
    ∃ bs : List UInt8, next.Filled (text ++ bs) ∧ next.Bounded ∧ next.bufferSize = s.bufferSize ∧
      bs.length ≤ v.bytes.length ∧ (bs.length = v.bytes.length → bs = v.bytes ∧ v.Fits) := by
  have hwhole : ∀ bs : List UInt8, bs = v.bytes → v.Fits → (next.Filled (text ++ bs) ∧
      next.Bounded ∧ next.bufferSize = s.bufferSize) →
        ∃ bs : List UInt8, next.Filled (text ++ bs) ∧ next.Bounded ∧
          next.bufferSize = s.bufferSize ∧ bs.length ≤ v.bytes.length ∧
            (bs.length = v.bytes.length → bs = v.bytes ∧ v.Fits) :=
    fun bs hbs hv hfilled =>
      ⟨bs, hfilled.1, hfilled.2.1, hfilled.2.2, (congrArg List.length hbs).le, fun _ => ⟨hbs, hv⟩⟩
  cases v with
  | float bits => exact hwhole _ rfl trivial (h.of_write hs hwrite)
  | typed v =>
    cases v with
    | char v => exact hwhole _ rfl trivial (h.of_write hs hwrite)
    | boolean v => exact hwhole _ rfl trivial (h.of_writeEach hs hwrite)
    | short v => exact hwhole _ rfl trivial (h.of_writeEach hs hwrite)
    | int v => exact hwhole _ rfl trivial (h.of_writeEach hs hwrite)
    | long v => exact hwhole _ rfl trivial (h.of_writeEach hs hwrite)
    | double bits => exact hwhole _ rfl trivial (h.of_write hs hwrite)
    | chars chars =>
      have hchars : s.writeChars chars = some next := hwrite
      exact h.of_writeChars hs hchars
    | string chars =>
      have hcut : (chars.takeWhile (· ≠ 0)).length ≤ chars.length :=
        (List.takeWhile_prefix _).length_le
      have hlen : (Djondb.writeChars chars).length = 4 + chars.length := writeChars_length chars
      have hchars : s.writeChars (chars.takeWhile (· ≠ 0)) = some next := hwrite
      rcases h.of_writeChars hs hchars with ⟨bs, hfilled, hbounded, hsize, hle, hall⟩
      rw [writeChars_length] at hle hall
      refine ⟨bs, hfilled, hbounded, hsize, ?_, fun heq => ?_⟩
      · change bs.length ≤ (Djondb.writeChars chars).length
        omega
      · change bs.length = (Djondb.writeChars chars).length at heq
        have hsame : chars.takeWhile (· ≠ 0) = chars :=
          (List.takeWhile_prefix _).eq_of_length (by omega)
        rcases hall (by omega) with ⟨hbs, hlt⟩
        rw [hsame] at hbs hlt
        refine ⟨hbs, hlt, fun hmem => ?_⟩
        have hno := List.takeWhile_eq_self_iff.1 hsame 0 hmem
        exact of_decide_eq_true hno rfl

end StreamValue

end Djondb
