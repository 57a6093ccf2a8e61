import Djondb.BsonStream

set_option autoImplicit false

/-!
# Data files

`DBFileStream` and `DBFileInputStream` put a header in front of the records and count positions
from behind it. The constructor that finds no header writes one and goes on counting from the
start of the file.
-/
namespace Djondb
open Bytes

/-! ## Files -/

structure FileInputOutputStream where
  content : List UInt8
  pos : ℕ
  deriving DecidableEq

namespace FileInputOutputStream

/-- A seek in front of the file fails and moves nothing. -/
def seek (s : FileInputOutputStream) (i : ℤ) : FileInputOutputStream :=
  if i < 0 then s else { s with pos := i.toNat }

/-- `seek(0, FROMEND_SEEK)`. -/
def seekEnd (s : FileInputOutputStream) : FileInputOutputStream :=
  { s with pos := s.content.length }

def write (s : FileInputOutputStream) (bs : List UInt8) : FileInputOutputStream :=
  ⟨overwrite s.content s.pos bs, s.pos + bs.length⟩

/-- Reads from the cursor on and moves it behind the bytes that were there. -/
def read {α : Type} (s : FileInputOutputStream) (r : Reader α) :
    Option (α × FileInputOutputStream) :=
  (r (s.content.drop s.pos)).map fun p =>
    (p.1, { s with pos := s.pos + (s.content.length - s.pos - p.2.length) })

theorem seek_pos (s : FileInputOutputStream) (n : ℕ) : (s.seek n).pos = n := by
  rw [seek, if_neg (by omega), Int.toNat_natCast]

theorem seek_content (s : FileInputOutputStream) (i : ℤ) : (s.seek i).content = s.content := by
  rw [seek]
  split_ifs <;> rfl

end FileInputOutputStream

/-! ## Headers -/

/-- `"djondb_dat"`. -/
def fileMark : CString := ⟨[100, 106, 111, 110, 100, 98, 95, 100, 97, 116], by decide⟩

/-- `"0.300000000"`. -/
def fileVersion : CString := ⟨[48, 46, 51, 48, 48, 48, 48, 48, 48, 48, 48], by decide⟩

/-- The version behind the mark, if the file has the mark. -/
def readHeader : Reader (Option CString) := do
  let mark ← readChars
  if CString.ofBytes mark = fileMark then do
    let version ← readChars
    pure (some (CString.ofBytes version))
  else pure none

def header : List UInt8 := writeString fileMark ++ writeString fileVersion

structure DBFileStream where
  stream : FileInputOutputStream
  versionOffset : ℕ
  dbVersion : CString
  deriving DecidableEq

namespace DBFileStream

/-- The constructor, on a stream over `file`. -/
def new (file : List UInt8) : Option DBFileStream := do
  let (version, stream) ← (FileInputOutputStream.mk file 0).read readHeader
  match version with
  | some version => some ⟨stream.seekEnd, stream.pos, version⟩
  | none =>
    let stream := ((stream.seek 0).write (writeString fileMark)).write (writeString fileVersion)
    some ⟨stream.seekEnd, 0, fileVersion⟩

def seek (s : DBFileStream) (i : ℤ) : DBFileStream :=
  { s with stream := s.stream.seek (s.versionOffset + i) }

def currentPos (s : DBFileStream) : ℤ := s.stream.pos - s.versionOffset

def write (s : DBFileStream) (bs : List UInt8) : DBFileStream :=
  { s with stream := s.stream.write bs }

def read {α : Type} (s : DBFileStream) (r : Reader α) : Option (α × DBFileStream) :=
  (s.stream.read r).map fun p => (p.1, { s with stream := p.2 })

end DBFileStream

structure DBFileInputStream where
  stream : FileInputOutputStream
  versionOffset : ℕ
  dbVersion : CString
  deriving DecidableEq

namespace DBFileInputStream

/-- The constructor, on a stream over `file`. -/
def new (file : List UInt8) : Option DBFileInputStream := do
  let (version, stream) ← (FileInputOutputStream.mk file 0).read readHeader
  match version with
  | some version => some ⟨stream, stream.pos, version⟩
  | none => some ⟨stream.seek 0, 0, fileVersion⟩

def seek (s : DBFileInputStream) (i : ℤ) : DBFileInputStream :=
  { s with stream := s.stream.seek (s.versionOffset + i) }

def currentPos (s : DBFileInputStream) : ℤ := s.stream.pos - s.versionOffset

def read {α : Type} (s : DBFileInputStream) (r : Reader α) : Option (α × DBFileInputStream) :=
  (s.stream.read r).map fun p => (p.1, { s with stream := p.2 })

end DBFileInputStream

/-! ## Complete headers -/

/-- The length in front of a string; bytes that are missing count as zero. -/
def charsLength (bs : List UInt8) : ℤ :=
  decodeWord 4 (bs.take 4 ++ List.replicate (4 - bs.length) 0)

theorem readChars_eq (bs : List UInt8) : readChars bs =
    if charsLength bs < 0 then none
    else readBytes (charsLength bs).toNat (bs.drop 4) := by
  have hint : readInt bs = some (charsLength bs, bs.drop 4) := rfl
  rw [readChars, bind_apply_of_eq hint]
  split_ifs <;> rfl

theorem charsLength_append {bs : List UInt8} (h : 4 ≤ bs.length) (rest : List UInt8) :
    charsLength (bs ++ rest) = charsLength bs := by
  have h1 : 4 - bs.length = 0 := by omega
  have h2 : 4 - (bs ++ rest).length = 0 := by
    rw [List.length_append]
    omega
  rw [charsLength, charsLength, h1, h2, List.take_append_of_le_length h]

/-- What is left is what lies behind the length and that many bytes. -/
theorem readChars_rest {bs text rest : List UInt8} (h : readChars bs = some (text, rest)) :
    rest = bs.drop (4 + (charsLength bs).toNat) := by
  rw [readChars_eq] at h
  split_ifs at h
  rw [← List.drop_drop]
  exact (Prod.mk.inj (Option.some.inj h)).2.symm

theorem readChars_rest_le {bs text rest : List UInt8} (h : readChars bs = some (text, rest)) :
    rest.length ≤ bs.length := by
  rw [readChars_rest h, List.length_drop]
  omega

/-- A string is complete, or the file ends within it and it takes in what is written behind. -/
theorem readChars_cases {bs text rest : List UInt8} (h : readChars bs = some (text, rest)) :
    (∃ chars, bs = chars ++ rest ∧ Reads readChars chars text) ∨
      rest = [] ∧ ∀ e text' rest', e ≠ [] → readChars (bs ++ e) = some (text', rest') →
        rest'.length < e.length := by
  have hrest := readChars_rest h
  obtain ⟨n, hn⟩ : ∃ n, n = (charsLength bs).toNat := ⟨_, rfl⟩
  rw [← hn] at hrest
  by_cases hle : 4 + n ≤ bs.length
  · left
    refine ⟨bs.take (4 + n), ?_, fun r => ?_⟩
    · rw [hrest, List.take_append_drop]
    have hlen : (bs.take (4 + n)).length = 4 + n := by
      rw [List.length_take]
      omega
    have hcount : charsLength (bs.take (4 + n) ++ r) = charsLength bs := by
      rw [charsLength_append (by omega), ← charsLength_append (by omega) (bs.drop (4 + n)),
        List.take_append_drop]
    have hdrop : (bs.take (4 + n) ++ r).drop 4 = (bs.drop 4).take n ++ r := by
      rw [List.drop_append_of_le_length (by omega), List.drop_take, Nat.add_sub_cancel_left]
    have hn' : ((bs.drop 4).take n).length = n := by
      rw [List.length_take, List.length_drop]
      omega
    rw [readChars_eq] at h ⊢
    rw [hcount]
    split_ifs at h ⊢ with hneg
    rw [hdrop, ← hn]
    have hread := readBytes_reads ((bs.drop 4).take n) r
    rw [hn'] at hread
    rw [hread, ← (Prod.mk.inj (Option.some.inj h)).1, ← hn]
    have hzero : n - (bs.drop 4).length = 0 := by
      rw [List.length_drop]
      omega
    rw [hzero, List.replicate_zero, List.append_nil]
  · right
    refine ⟨by rw [hrest, List.drop_eq_nil_iff]; omega, fun e text' rest' he h' => ?_⟩
    have hpos : 0 < e.length := List.length_pos_of_ne_nil he
    rw [readChars_rest h', List.length_drop, List.length_append]
    by_cases h4 : 4 ≤ bs.length
    · rw [charsLength_append h4, ← hn]
      omega
    · omega

theorem readHeader_mark {bs rest : List UInt8} {v : Option CString}
    (h : readHeader bs = some (v, rest)) : ∃ mark rest1, readChars bs = some (mark, rest1) ∧
      ((CString.ofBytes mark ≠ fileMark ∧ v = none) ∨
        CString.ofBytes mark = fileMark ∧ ∃ version, readChars rest1 = some (version, rest) ∧
          v = some (CString.ofBytes version)) := by
  obtain ⟨mark, rest1, hmark, h⟩ := of_bind_eq_some h
  refine ⟨mark, rest1, hmark, ?_⟩
  split_ifs at h with hm
  · obtain ⟨version, rest2, hversion, h⟩ := of_bind_eq_some h
    obtain ⟨rfl, rfl⟩ := Prod.mk.inj (Option.some.inj h)
    exact Or.inr ⟨hm, version, hversion, rfl⟩
  · obtain ⟨rfl, -⟩ := Prod.mk.inj (Option.some.inj h)
    exact Or.inl ⟨hm, rfl⟩

theorem readHeader_reads {bs1 bs2 mark version : List UInt8} (h1 : Reads readChars bs1 mark)
    (hm : CString.ofBytes mark = fileMark) (h2 : Reads readChars bs2 version) :
    Reads readHeader (bs1 ++ bs2) (some (CString.ofBytes version)) := by
  refine h1.bind ?_
  rw [if_pos hm]
  have hpure := h2.bind (f := fun version => (pure (some (CString.ofBytes version)) :
    Reader (Option CString))) (Reads.pure _)
  rwa [List.append_nil] at hpure

/-- The file starts with a complete header. -/
def Headed (file : List UInt8) : Prop :=
  ∃ bs rest version, file = bs ++ rest ∧ Reads readHeader bs (some version)

/-- A header is complete, or the file ends within it and it takes in what is written behind. -/
theorem readHeader_cases {bs rest : List UInt8} {v : CString}
    (h : readHeader bs = some (some v, rest)) : Headed bs ∨
      rest = [] ∧ ∀ e v' rest', e ≠ [] → readHeader (bs ++ e) = some (some v', rest') →
        rest'.length < e.length := by
  obtain ⟨mark, rest1, hmark, ⟨-, hv⟩ | ⟨hm, version, hversion, -⟩⟩ := readHeader_mark h
  · cases hv
  obtain ⟨bs1, rfl, hbs1⟩ | ⟨rfl, hlater⟩ := readChars_cases hmark
  · obtain ⟨bs2, rfl, hbs2⟩ | ⟨rfl, hlater⟩ := readChars_cases hversion
    · left
      exact ⟨bs1 ++ bs2, rest, _, by rw [List.append_assoc], readHeader_reads hbs1 hm hbs2⟩
    · right
      refine ⟨rfl, fun e v' rest' he h' => ?_⟩
      obtain ⟨mark', rest1', hmark', ⟨-, hv⟩ | ⟨-, version', hversion', -⟩⟩ := readHeader_mark h'
      · cases hv
      rw [List.append_assoc, hbs1] at hmark'
      obtain ⟨-, rfl⟩ := Prod.mk.inj (Option.some.inj hmark')
      exact hlater e version' rest' he hversion'
  · right
    have hnil : rest = [] := List.eq_nil_of_length_eq_zero (Nat.le_zero.1 (readChars_rest_le hversion))
    refine ⟨hnil, fun e v' rest' he h' => ?_⟩
    obtain ⟨mark', rest1', hmark', ⟨-, hv⟩ | ⟨-, version', hversion', -⟩⟩ := readHeader_mark h'
    · cases hv
    exact (readChars_rest_le hversion').trans_lt (hlater e mark' rest1' he hmark')

theorem header_reads : Reads readHeader header (some fileVersion) := by
  have h1 : Reads readChars (writeString fileMark) fileMark.bytes :=
    readChars_reads (by simp [fileMark])
  have h2 : Reads readChars (writeString fileVersion) fileVersion.bytes :=
    readChars_reads (by simp [fileVersion])
  have h := readHeader_reads h1 (CString.ofBytes_bytes fileMark) h2
  rwa [CString.ofBytes_bytes] at h

/-- A new file has no header. -/
theorem readHeader_nil : readHeader [] = some (none, []) := by decide

theorem header_length : header.length = 29 := rfl

end Djondb
