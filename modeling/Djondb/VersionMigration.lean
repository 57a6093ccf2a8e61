import Djondb.Command
import Djondb.FilePositions
import Djondb.LibRecords

set_option autoImplicit false

/-!
# Opening files of older versions

`StreamManager::open` hands a data file to the constructor of `DBFileStream`, and `checkVersion`
migrates it if its version is too old. `long` has eight bytes, as `__int64`, so that
`FileInputStreamW32` reads records as the other streams do.
-/
namespace Djondb
open Bytes

namespace Version

def lt (current version : Version) : Bool :=
  decide (current.mayor < version.mayor) ||
    decide (current.mayor = version.mayor ∧ current.minor < version.minor) ||
    decide (current.mayor = version.mayor ∧ current.minor = version.minor ∧
      current.revision < version.revision)

end Version

/-- `"0.120121216"`. -/
def migratedVersion : CString := ⟨[48, 46, 49, 50, 48, 49, 50, 49, 50, 49, 54], by decide⟩

/-- The header with a version of its own. -/
def headerOf (version : CString) : List UInt8 := writeString fileMark ++ writeString version

/-- The file that `migrate20121216` writes for a data file: all records from the start of the file
on, behind a new header. -/
def migrate20121216 (file : List UInt8) : Option (List UInt8) := do
  let objs ← Records.readAll readBSON file.length file
  some (headerOf migratedVersion ++ Records.bytes writeBSON objs)

def checkVersion (s : DBFileStream) : Option DBFileStream := do
  let version ← Version.parse s.dbVersion
  let migrated ← Version.parse migratedVersion
  if version.lt migrated then do
    let file ← migrate20121216 s.stream.content
    DBFileStream.new file
  else some s

/-- `StreamManager::open` on a file that exists. -/
def openFile (file : List UInt8) : Option DBFileStream := do
  let s ← DBFileStream.new file
  checkVersion s

/-- The documents of a stream from position zero on. -/
def DBFileStream.readAll (s : DBFileStream) : Option (List BSONObj) :=
  let stream := (s.seek 0).stream
  Records.readAll readBSON stream.content.length (stream.content.drop stream.pos)

/-- A file of records that is not empty: behind a header with some version, or without a header as
the format 0.1 has it. -/
structure RecordFile where
  version : Option CString
  docs : List Document
  fits : ∀ v, version = some v → v.length < 2 ^ 31
  nonempty : version = none → docs ≠ []

namespace RecordFile

def objs (f : RecordFile) : List BSONObj := f.docs.map Document.obj

def bytes (f : RecordFile) : List UInt8 :=
  (f.version.map headerOf).getD [] ++ Records.bytes writeBSON f.objs

/-- The stream that `open` gives holds the documents that the file held. -/
def KeepsRecords (f : RecordFile) : Prop := ∃ s, openFile f.bytes = some s ∧ s.readAll = some f.objs

/-- The file has a header, with a version that is not migrated. -/
def Recent (f : RecordFile) : Prop :=
  ∃ v version migrated, f.version = some v ∧ Version.parse v = some version ∧
    Version.parse migratedVersion = some migrated ∧ version.lt migrated = false

end RecordFile

/-! ## Headers and records -/

theorem headerOf_reads {v : CString} (h : v.length < 2 ^ 31) :
    Reads readHeader (headerOf v) (some v) := by
  have hmark : Reads readChars (writeString fileMark) fileMark.bytes :=
    readChars_reads (by simp [fileMark])
  have hversion : Reads readChars (writeString v) v.bytes := readChars_reads h
  have hheader := readHeader_reads hmark (CString.ofBytes_bytes fileMark) hversion
  rwa [CString.ofBytes_bytes] at hheader

theorem leEncode_add (w n : ℕ) : ∀ m, leEncode (m + w) n = leEncode m n ++ leEncode w (n / 256 ^ m) := by
  intro m
  induction m generalizing n with
  | zero => rw [Nat.zero_add, pow_zero, Nat.div_one]; rfl
  | succ m ih =>
    rw [Nat.succ_add, leEncode, leEncode, ih, pow_succ', Nat.div_div_eq_div_mul]
    rfl

/-- The high bytes of a count are zero. -/
theorem writeLong_natCast {n : ℕ} (h : n < 2 ^ 31) :
    writeLong n = writeInt n ++ [0, 0, 0, 0] := by
  have h8 : ((n : ℤ) % (256 ^ 8 : ℕ)).toNat = n := by omega
  have h4 : ((n : ℤ) % (256 ^ 4 : ℕ)).toNat = n := by omega
  have hzero : n / 256 ^ 4 = 0 := by omega
  unfold writeLong writeInt encodeWord
  rw [h8, h4, leEncode_add 4 n 4, hzero]
  rfl

/-- The text in front of a record is empty. -/
theorem readHeader_of_count {n : ℕ} (h : n < 2 ^ 31) (rest : List UInt8) :
    ∃ rest', readHeader (writeLong n ++ rest) = some (none, rest') := by
  have hint := readInt_reads (word_four_natCast h) ([0, 0, 0, 0] ++ rest)
  have hchars : readChars (writeLong n ++ rest) =
      readBytes n ([0, 0, 0, 0] ++ rest) := by
    have hn : ¬ (n : ℤ) < 0 := by omega
    rw [writeLong_natCast h, List.append_assoc, readChars, bind_apply_of_eq hint, if_neg hn,
      Int.toNat_natCast]
  obtain ⟨text, rest', htext⟩ : ∃ text rest',
      readBytes n ([0, 0, 0, 0] ++ rest) = some (text, rest') := ⟨_, _, rfl⟩
  have hempty : CString.ofBytes text ≠ fileMark := by
    cases n with
    | zero =>
      have hnil := (Prod.mk.inj (Option.some.inj htext)).1
      rw [List.take_zero, Nat.zero_sub, List.replicate_zero, List.append_nil] at hnil
      rw [← hnil]
      decide
    | succ n =>
      -- the text starts with a NUL
      rw [← (Prod.mk.inj (Option.some.inj htext)).1]
      intro hfalse
      cases congrArg CString.bytes hfalse
  refine ⟨rest', ?_⟩
  rw [readHeader, bind_apply_of_eq (hchars.trans htext), if_neg hempty]
  rfl

/-- The mark is no record: the count that it gives is out of reach. -/
theorem readBSON_mark (rest : List UInt8) : readBSON (writeString fileMark ++ rest) = none := by
  have hmark : writeString fileMark =
      [10, 0, 0, 0, 100, 106, 111, 110] ++ [100, 98, 95, 100, 97, 116] := by decide
  have hlong : Reads readLong [10, 0, 0, 0, 100, 106, 111, 110]
      (decodeWord 8 [10, 0, 0, 0, 100, 106, 111, 110]) :=
    (readBytes_reads [10, 0, 0, 0, 100, 106, 111, 110]).map (decodeWord 8)
  have hcount : (2 : ℤ) ^ 31 ≤ decodeWord 8 [10, 0, 0, 0, 100, 106, 111, 110] := by decide
  rw [readBSON, readObj, hmark, List.append_assoc, hlong.bind_apply, if_pos hcount]
  rfl

theorem readAll_mark (fuel : ℕ) (rest : List UInt8) :
    Records.readAll readBSON fuel (writeString fileMark ++ rest) = none := by
  obtain ⟨b, bs, hb⟩ : ∃ b bs, writeString fileMark ++ rest = b :: bs :=
    List.exists_cons_of_ne_nil (List.append_ne_nil_of_left_ne_nil (by decide) rest)
  have hread := readBSON_mark rest
  rw [hb] at hread ⊢
  cases fuel with
  | zero => rfl
  | succ fuel =>
    rw [Records.readAll, hread]
    rfl

theorem readAll_docs (docs : List Document) {fuel : ℕ}
    (h : (Records.bytes writeBSON (docs.map Document.obj)).length ≤ fuel) :
    Records.readAll readBSON fuel (Records.bytes writeBSON (docs.map Document.obj)) =
      some (docs.map Document.obj) := by
  have hne : ∀ o ∈ docs.map Document.obj, writeBSON o ≠ [] := fun o _ => writeBSON_ne_nil o
  apply Records.readAll_bytes
  · intro o ho
    rcases List.mem_map.1 ho with ⟨d, -, rfl⟩
    exact readBSON_reads d
  · exact hne
  · exact (Records.length_le_bytes hne).trans h

/-! ## Opening -/

namespace RecordFile

/-- Without a header the constructor writes one over the first record. -/
theorem open_unmarked {f : RecordFile} (h : f.version = none) :
    ∃ s, openFile f.bytes = some s ∧ s.readAll = none := by
  obtain ⟨d, docs, hdocs⟩ := List.exists_cons_of_ne_nil (f.nonempty h)
  have hwf : d.obj.length < 2 ^ 31 := by
    have hwf := d.wf
    rw [BSONObj.wf, Bool.and_eq_true, decide_eq_true_eq] at hwf
    exact hwf.1
  obtain ⟨rest, hbytes⟩ : ∃ rest, f.bytes = writeLong d.obj.length ++ rest := by
    refine ⟨d.obj.writeFields ++ Records.bytes writeBSON (docs.map Document.obj), ?_⟩
    rw [bytes, h, objs, hdocs, ← List.append_assoc]
    rfl
  rcases readHeader_of_count hwf rest with ⟨rest', hread⟩
  have hnew := DBFileStream.new_of_unmarked hread
  refine ⟨⟨(FileInputOutputStream.mk (header ++ f.bytes.drop 29) 0).seekEnd, 0, fileVersion⟩, ?_, ?_⟩
  · rw [openFile, hbytes, hnew]
    rfl
  · change Records.readAll readBSON _ ((header ++ f.bytes.drop 29).drop 0) = none
    rw [List.drop_zero, header, List.append_assoc]
    exact readAll_mark _ _

theorem new_headed {f : RecordFile} {v : CString} (h : f.version = some v) :
    DBFileStream.new f.bytes = some ⟨⟨f.bytes, f.bytes.length⟩, (headerOf v).length, v⟩ := by
  have hbytes : f.bytes = headerOf v ++ Records.bytes writeBSON f.objs := by
    rw [bytes, h]
    rfl
  have hread := headerOf_reads (f.fits v h) (Records.bytes writeBSON f.objs)
  rw [← hbytes] at hread
  have hlen : f.bytes.length - (Records.bytes writeBSON f.objs).length = (headerOf v).length := by
    rw [hbytes, List.length_append, Nat.add_sub_cancel]
  rw [DBFileStream.new_of_marked hread, hlen]

/-- The migration takes the header for the first record. -/
theorem migrate_headed {f : RecordFile} {v : CString} (h : f.version = some v) :
    migrate20121216 f.bytes = none := by
  have hbytes : f.bytes = writeString fileMark ++ (writeString v ++ Records.bytes writeBSON f.objs) := by
    rw [bytes, h, ← List.append_assoc]
    rfl
  rw [migrate20121216, hbytes, readAll_mark]
  rfl

theorem readAll_headed {f : RecordFile} {v : CString} (h : f.version = some v) :
    (DBFileStream.mk ⟨f.bytes, f.bytes.length⟩ (headerOf v).length v).readAll = some f.objs := by
  have hbytes : f.bytes = headerOf v ++ Records.bytes writeBSON f.objs := by
    rw [bytes, h]
    rfl
  have hpos : ((DBFileStream.mk ⟨f.bytes, f.bytes.length⟩ (headerOf v).length v).seek 0).stream.pos =
      (headerOf v).length := by
    unfold DBFileStream.seek
    rw [add_zero]
    exact FileInputOutputStream.seek_pos _ _
  have hcontent : ((DBFileStream.mk ⟨f.bytes, f.bytes.length⟩ (headerOf v).length v).seek
      0).stream.content = f.bytes := FileInputOutputStream.seek_content _ _
  unfold DBFileStream.readAll
  dsimp only
  rw [hpos, hcontent, hbytes, List.drop_left]
  apply readAll_docs
  rw [List.length_append]
  exact Nat.le_add_left _ _

/-- A file of the format 0.1 with one empty document. -/
def headless : RecordFile where
  version := none
  docs := [⟨.empty, by decide⟩]
  fits _ h := nomatch h
  nonempty _ := List.cons_ne_nil _ _

end RecordFile
end Djondb
