import Djondb.StreamRoundTrip

set_option autoImplicit false

/-!
# Streams over a mapped file

`MMapInputOutputStream` reads and writes at a raw cursor in a mapping and counts its position beside
it. Where less than 64 KiB are left, `writeFloatIEEE` and `writeDoubleIEEE` ask the system for a
larger mapping.
-/
namespace Djondb
open Bytes

/-- `addr` is the cursor, `NULL` after a mapping could not grow. The mapping is at `start` and holds
the bytes `content`. -/
structure MMapInputOutputStream where
  initaddr : ℤ
  addr : Option ℤ
  pos : ℤ
  len : ℤ
  start : ℤ
  content : List UInt8
  deriving DecidableEq

/-- What `mremap` makes of an address, an old length and a new one: the address of the mapping that
has the new length, or `MAP_FAILED`. -/
abbrev Mremap := ℤ → ℤ → ℤ → Option ℤ

/-- The bits of an integer in a binary format of this many fraction and exponent bits, which has
room for all its digits. -/
def ieeeBits (fraction exponent : ℕ) (n : ℤ) : ℕ :=
  if n = 0 then 0
  else
    let sign := if n < 0 then 2 ^ (fraction + exponent) else 0
    let log := Nat.log2 n.natAbs
    sign + (2 ^ (exponent - 1) - 1 + log) * 2 ^ fraction +
      (n.natAbs - 2 ^ log) * 2 ^ (fraction - log)

def charValue (b : UInt8) : ℤ := (b.toNat : ℤ).bmod 256

namespace MMapInputOutputStream

/-- The constructor, on a mapping of these bytes at this address. -/
def new (start : ℤ) (content : List UInt8) : MMapInputOutputStream where
  initaddr := start
  addr := some start
  pos := 0
  len := content.length
  start := start
  content := content

/-- The place of the next `n` bytes in the mapping. Outside of it the process is stopped. -/
def place (s : MMapInputOutputStream) (n : ℕ) : Option ℕ := do
  let addr ← s.addr
  if 0 ≤ addr - s.start ∧ addr - s.start + n ≤ s.content.length then some (addr - s.start).toNat
  else none

/-- `_addr += n`, `_pos += n`. -/
def advance (n : ℕ) (s : MMapInputOutputStream) : MMapInputOutputStream :=
  { s with addr := s.addr.map (· + n), pos := s.pos + n }

/-- `memcpy` to the cursor. -/
def write (bs : List UInt8) (s : MMapInputOutputStream) : Option MMapInputOutputStream := do
  let i ← s.place bs.length
  some (advance bs.length { s with content := overwrite s.content i bs })

/-- `memcpy` from the cursor. -/
def read (n : ℕ) (s : MMapInputOutputStream) : Option (List UInt8 × MMapInputOutputStream) := do
  let i ← s.place n
  some ((s.content.drop i).take n, s.advance n)

def seek (i : ℤ) (s : MMapInputOutputStream) : MMapInputOutputStream :=
  { s with addr := some (s.initaddr + i), pos := i }

/-- `seek(i, FROMEND_SEEK)`. -/
def seekEnd (i : ℤ) (s : MMapInputOutputStream) : MMapInputOutputStream :=
  { s with addr := some (s.initaddr + s.len - i), pos := s.len - i }

/-! ## Growing -/

section growing
variable (mremap : Mremap) (psize : ℕ)

/-- The new length is kept in an `__int32`. -/
def newLength (s : MMapInputOutputStream) : ℤ :=
  (s.len + psize * 10 * 1024 * 1024).bmod (2 ^ 32)

/-- The file does not grow with the mapping. -/
def resize (len : ℤ) (s : MMapInputOutputStream) : MMapInputOutputStream :=
  match s.addr.bind fun addr => mremap addr s.len len with
  | none => { s with addr := none, len := len }
  | some p => { s with addr := some p, len := len, start := p, content := s.content.take len.toNat }

def short (s : MMapInputOutputStream) : Bool := s.len - s.pos < 64 * 1024

def checkAvailableSpace (s : MMapInputOutputStream) : MMapInputOutputStream :=
  if s.short then s.resize mremap (s.newLength psize) else s

/-- The cursor stands at the position in the mapping. -/
def Placed (s : MMapInputOutputStream) : Prop := s.addr = some (s.start + s.pos)

/-- The new length is the sum, 64 KiB more than the old one at least, and then the cursor stands in
the mapping where it stood. -/
def Grows (s : MMapInputOutputStream) : Prop :=
  s.newLength psize = s.len + psize * 10 * 1024 * 1024 ∧ s.len + 64 * 1024 ≤ s.newLength psize ∧
    (s.checkAvailableSpace mremap psize).Placed

theorem newLength_exact {s : MMapInputOutputStream} (hlen : 0 ≤ s.len) :
    s.newLength psize = s.len + psize * 10 * 1024 * 1024 ↔
      s.len + psize * 10 * 1024 * 1024 < 2 ^ 31 := by
  unfold newLength
  constructor
  · intro h
    rw [← h]
    have hlt := Int.bmod_lt (x := s.len + psize * 10 * 1024 * 1024) (m := 2 ^ 32) (by decide)
    norm_num at hlt ⊢
    omega
  · intro h
    apply Int.bmod_eq_of_le <;> omega

/-- The mapping grows exactly if the sum fits an `__int32`, the cursor stands at the front, and the
system finds the memory. -/
theorem grows_iff {s : MMapInputOutputStream} (hplaced : s.Placed) (hlen : 0 ≤ s.len)
    (hshort : s.short = true) : s.Grows mremap psize ↔
      0 < psize ∧ s.len + psize * 10 * 1024 * 1024 < 2 ^ 31 ∧ s.pos = 0 ∧
        mremap s.start s.len (s.len + psize * 10 * 1024 * 1024) ≠ none := by
  have hexact := newLength_exact psize hlen
  have hcheck : s.checkAvailableSpace mremap psize = s.resize mremap (s.newLength psize) :=
    if_pos hshort
  have hbind : s.addr.bind (fun addr => mremap addr s.len (s.newLength psize)) =
      mremap (s.start + s.pos) s.len (s.newLength psize) := by
    rw [hplaced, Option.bind_some]
  unfold Grows
  rw [hcheck]
  unfold resize
  rw [hbind]
  constructor
  · rintro ⟨hsum, hmore, hafter⟩
    rw [hsum] at hmore hafter
    cases hmap : mremap (s.start + s.pos) s.len (s.len + psize * 10 * 1024 * 1024) with
    | none =>
      rw [hmap] at hafter
      cases hafter
    | some p =>
      rw [hmap] at hafter
      have hcursor : p = p + s.pos := Option.some.inj hafter
      have hzero : s.pos = 0 := by omega
      rw [hzero, Int.add_zero] at hmap
      refine ⟨by omega, hexact.1 hsum, hzero, ?_⟩
      rw [hmap]
      exact Option.some_ne_none p
  · rintro ⟨hpage, hfits, hzero, hmap⟩
    rw [hexact.2 hfits, hzero, Int.add_zero]
    refine ⟨rfl, by omega, ?_⟩
    cases hp : mremap s.start s.len (s.len + psize * 10 * 1024 * 1024) with
    | none => exact absurd hp hmap
    | some p =>
      change some p = some (p + 0)
      rw [Int.add_zero]

/-- A mapping of a page of 128 bytes, and a system that moves no mapping. -/
theorem small_grows : (new 0 [1, 2, 3]).Grows (fun addr _ _ => some addr) 128 := by
  have hplaced : (new 0 [1, 2, 3]).Placed := rfl
  exact (grows_iff _ 128 hplaced (by decide) (by decide)).2 (by decide)

/-- With pages of 4096 bytes nothing is added to the length. -/
theorem not_grows : ¬ ∀ (mremap : Mremap) (psize : ℕ) (s : MMapInputOutputStream), s.Placed →
    0 ≤ s.len → s.short = true → s.Grows mremap psize := by
  intro h
  have hgrows := h (fun addr _ _ => some addr) 4096 (new 0 [1, 2, 3]) rfl (by decide) (by decide)
  exact absurd hgrows.1 (by decide)

end growing

/-! ## Typed values -/

section values
variable (mremap : Mremap) (psize : ℕ)

def writeChar (v : UInt8) (s : MMapInputOutputStream) : Option MMapInputOutputStream := s.write [v]

/-- `writeData<T>`, byte by byte. -/
def writeData (w : ℕ) (v : ℤ) (s : MMapInputOutputStream) : Option MMapInputOutputStream :=
  (encodeWord w v).foldlM (fun s b => s.writeChar b) s

def writeFloatIEEE (bits : UInt32) (s : MMapInputOutputStream) : Option MMapInputOutputStream :=
  (s.checkAvailableSpace mremap psize).write (Djondb.writeFloatIEEE bits)

def writeDoubleIEEE (bits : UInt64) (s : MMapInputOutputStream) : Option MMapInputOutputStream :=
  (s.checkAvailableSpace mremap psize).write (Djondb.writeDoubleIEEE bits)

/-- `writeChars(const char*, __int32)` with the length of the text; nothing takes a negative
length. -/
def writeChars (text : List UInt8) (s : MMapInputOutputStream) :
    Option MMapInputOutputStream := do
  let len := (text.length : ℤ).bmod (2 ^ 32)
  let s ← s.writeData 4 len
  if len < 0 then none else s.write (text.take len.toNat)

/-- The write of the value. A string goes with its NULs. -/
def writeValue : StreamValue → MMapInputOutputStream → Option MMapInputOutputStream
  | .typed (.char v), s => s.writeChar v
  | .typed (.boolean v), s => s.writeData 1 (if v then 1 else 0)
  | .typed (.short v), s => s.writeData 2 v.toInt
  | .typed (.int v), s => s.writeData 4 v.toInt
  | .typed (.long v), s => s.writeData 8 v.toInt
  | .typed (.double bits), s => s.writeDoubleIEEE mremap psize bits
  | .typed (.chars text), s => s.writeChars text
  | .typed (.string text), s => s.writeChars text
  | .float bits, s => s.writeFloatIEEE mremap psize bits

def writeAll (vs : List StreamValue) (s : MMapInputOutputStream) : Option MMapInputOutputStream :=
  vs.foldlM (fun s v => s.writeValue mremap psize v) s

def readChar : StateT MMapInputOutputStream Option UInt8 := (fun bs => bs.headD 0) <$> read 1

def readData (w : ℕ) : StateT MMapInputOutputStream Option ℤ := decodeWord w <$> read w

/-- `f = *_addr`: the `char` at the cursor becomes a number. -/
def readFloatIEEE : StateT MMapInputOutputStream Option UInt32 := fun s => do
  let i ← s.place 1
  some (UInt32.ofNat (ieeeBits 23 8 (charValue (s.content.getD i 0))), s.advance 4)

def readDoubleIEEE : StateT MMapInputOutputStream Option UInt64 := fun s => do
  let i ← s.place 1
  some (UInt64.ofNat (ieeeBits 52 11 (charValue (s.content.getD i 0))), s.advance 8)

/-- No memory is found for a negative length. -/
def readChars : StateT MMapInputOutputStream Option (List UInt8) := do
  let len ← readData 4
  if len < 0 then failure else read len.toNat

/-- `readString` gives the characters up to the first NUL. -/
def readString : StateT MMapInputOutputStream Option CString := CString.ofBytes <$> readChars

/-- The read that matches the write of the value. -/
def readValue : StreamValue → StateT MMapInputOutputStream Option StreamValue
  | .typed (.char _) => (fun v => .typed (.char v)) <$> readChar
  | .typed (.boolean _) => (fun v => .typed (.boolean (v != 0))) <$> readData 1
  | .typed (.short _) => (fun v => .typed (.short (Int16.ofInt v))) <$> readData 2
  | .typed (.int _) => (fun v => .typed (.int (Int32.ofInt v))) <$> readData 4
  | .typed (.long _) => (fun v => .typed (.long (Int64.ofInt v))) <$> readData 8
  | .typed (.double _) => (fun v => .typed (.double v)) <$> readDoubleIEEE
  | .typed (.chars _) => (fun v => .typed (.chars v)) <$> readChars
  | .typed (.string _) => (fun v => .typed (.string v.bytes)) <$> readString
  | .float _ => .float <$> readFloatIEEE

def readAll : List StreamValue → StateT MMapInputOutputStream Option (List StreamValue)
  | [] => pure []
  | v :: vs => do
    let v' ← readValue v
    let vs' ← readAll vs
    pure (v' :: vs')

end values

end MMapInputOutputStream
end Djondb
