import Djondb.DBFileStream

set_option autoImplicit false

/-!
# Positions of records

A session opens a `DBFileStream` and writes records; `insert` and `update` note the position of
each record they append. The notes hold for later readers when the file had its header before the
session opened it.
-/
namespace Djondb
open Bytes

/-- What is noted of a record, and where its first byte is in the file. -/
structure Recorded where
  filePos : ℤ
  start : ℕ
  deriving DecidableEq

/-- What `DBController` does to a data file. -/
inductive Access where
  /-- `insert`, and the new version that `update` writes. -/
  | append (obj : BSONObj)
  /-- The record noted as number `n` gets another status. -/
  | rewrite (n : ℕ) (obj : BSONObj)

structure Session where
  data : DBFileStream
  log : List Recorded
  deriving DecidableEq

namespace Session

def access (s : Session) : Access → Session
  | .append obj =>
    ⟨s.data.write (writeBSON obj), s.log ++ [⟨s.data.currentPos, s.data.stream.pos⟩]⟩
  | .rewrite n obj =>
    match s.log[n]? with
    | none => s
    | some r =>
      { s with data := ((s.data.seek r.filePos).write (writeBSON obj)).seek s.data.currentPos }

def run (s : Session) (accesses : List Access) : Session := accesses.foldl access s

end Session

/-- The file after further sessions, which know the positions noted before. -/
def laterSessions (file : List UInt8) (log : List Recorded) :
    List (List Access) → Option (List UInt8)
  | [] => some file
  | accesses :: sessions => do
    let data ← DBFileStream.new file
    let s := (Session.mk data log).run accesses
    laterSessions s.data.stream.content s.log sessions

/-- The position noted for a record leads to it: in the session that wrote it, and in any later
session, for both kinds of streams. -/
def MeansTheSame (s : Session) (r : Recorded) : Prop :=
  (s.data.seek r.filePos).stream.pos = r.start ∧
    ∀ sessions file, laterSessions s.data.stream.content s.log sessions = some file →
      (∃ w, DBFileStream.new file = some w ∧ (w.seek r.filePos).stream.pos = r.start) ∧
        ∃ i, DBFileInputStream.new file = some i ∧ (i.seek r.filePos).stream.pos = r.start

/-! ## Opening -/

theorem read_header {file rest : List UInt8} {v : Option CString}
    (h : readHeader file = some (v, rest)) : (FileInputOutputStream.mk file 0).read readHeader =
      some (v, ⟨file, file.length - rest.length⟩) := by
  change (readHeader (file.drop 0)).map _ = _
  rw [List.drop_zero, h]
  simp

theorem read_header_none {file : List UInt8} (h : readHeader file = none) :
    (FileInputOutputStream.mk file 0).read readHeader = none := by
  change (readHeader (file.drop 0)).map _ = _
  rw [List.drop_zero, h]
  rfl

theorem DBFileStream.new_of_marked {file rest : List UInt8} {v : CString}
    (h : readHeader file = some (some v, rest)) :
    DBFileStream.new file = some ⟨⟨file, file.length⟩, file.length - rest.length, v⟩ := by
  rw [DBFileStream.new, read_header h]
  rfl

theorem DBFileStream.new_of_unmarked {file rest : List UInt8}
    (h : readHeader file = some (none, rest)) : DBFileStream.new file =
      some ⟨(FileInputOutputStream.mk (header ++ file.drop 29) 0).seekEnd, 0, fileVersion⟩ := by
  have hcontent : overwrite (overwrite file 0 (writeString fileMark))
      (0 + (writeString fileMark).length) (writeString fileVersion) = header ++ file.drop 29 := by
    have hlen : (writeString fileVersion).length = 15 := rfl
    rw [overwrite_zero, Nat.zero_add, overwrite_append, hlen, List.drop_drop, header,
      List.append_assoc]
    rfl
  rw [DBFileStream.new, read_header h]
  change some (DBFileStream.mk (FileInputOutputStream.mk (overwrite (overwrite file 0
    (writeString fileMark)) (0 + (writeString fileMark).length) (writeString fileVersion))
      _).seekEnd 0 fileVersion) = _
  rw [hcontent]
  rfl

theorem DBFileStream.exists_readHeader {file : List UInt8} {w : DBFileStream}
    (h : DBFileStream.new file = some w) : ∃ v rest, readHeader file = some (v, rest) := by
  cases hread : readHeader file with
  | none =>
    rw [DBFileStream.new, read_header_none hread] at h
    cases h
  | some p => exact ⟨p.1, p.2, rfl⟩

theorem DBFileInputStream.new_of_marked {file rest : List UInt8} {v : CString}
    (h : readHeader file = some (some v, rest)) : DBFileInputStream.new file =
      some ⟨⟨file, file.length - rest.length⟩, file.length - rest.length, v⟩ := by
  rw [DBFileInputStream.new, read_header h]
  rfl

theorem DBFileInputStream.versionOffset_of_new {file : List UInt8} {i : DBFileInputStream}
    (h : DBFileInputStream.new file = some i) :
    (∃ rest, readHeader file = some (none, rest) ∧ i.versionOffset = 0) ∨
      ∃ v rest, readHeader file = some (some v, rest) ∧
        i.versionOffset = file.length - rest.length := by
  cases hread : readHeader file with
  | none =>
    rw [DBFileInputStream.new, read_header_none hread] at h
    cases h
  | some p =>
    obtain ⟨v, rest⟩ := p
    rw [DBFileInputStream.new, read_header hread] at h
    cases v with
    | none =>
      left
      cases h
      exact ⟨rest, rfl, rfl⟩
    | some v =>
      right
      cases h
      exact ⟨v, rest, rfl, rfl⟩

/-! ## Sessions -/

/-- The bytes `pre` at the start of the file are out of reach of a session that has begun with `n`
notes. -/
structure Spares (pre : List UInt8) (n : ℕ) (s : Session) : Prop where
  content : ∃ rest, s.data.stream.content = pre ++ rest ∧ (n < s.log.length → rest ≠ [])
  pos : pre.length ≤ s.data.stream.pos
  log : ∀ r ∈ s.log, (pre.length : ℤ) ≤ s.data.versionOffset + r.filePos

theorem overwrite_ne_nil {rest bs : List UInt8} (h : bs ≠ []) (pos : ℕ) :
    overwrite rest pos bs ≠ [] := by
  refine List.ne_nil_of_length_pos ?_
  have hpos := List.length_pos_of_ne_nil h
  rw [overwrite_length]
  omega

variable {pre : List UInt8} {n : ℕ} {s : Session}

theorem Spares.access (h : Spares pre n s) (a : Access) :
    Spares pre n (s.access a) ∧ (s.access a).data.versionOffset = s.data.versionOffset := by
  obtain ⟨rest, hc, -⟩ := h.content
  have hpos := h.pos
  cases a with
  | append obj =>
    refine ⟨⟨⟨overwrite rest (s.data.stream.pos - pre.length) (writeBSON obj), ?_,
      fun _ => overwrite_ne_nil (writeBSON_ne_nil obj) _⟩, ?_, fun r hr => ?_⟩, rfl⟩
    · change overwrite s.data.stream.content _ _ = _
      rw [hc]
      exact overwrite_behind pre rest _ hpos
    · change _ ≤ s.data.stream.pos + _
      omega
    · obtain hr | hr := List.mem_append.1 hr
      · exact h.log r hr
      · rw [List.mem_singleton.1 hr]
        change _ ≤ (s.data.versionOffset : ℤ) + (s.data.stream.pos - s.data.versionOffset)
        omega
  | rewrite m obj =>
    cases hn : s.log[m]? with
    | none =>
      have hs : s.access (.rewrite m obj) = s := by simp only [Session.access, hn]
      rw [hs]
      exact ⟨h, rfl⟩
    | some r =>
      have hlog := h.log r (List.mem_of_getElem? hn)
      obtain ⟨p, hp⟩ : ∃ p : ℕ, (s.data.versionOffset : ℤ) + r.filePos = p :=
        ⟨(s.data.versionOffset + r.filePos).toNat, by omega⟩
      have hle : pre.length ≤ p := by omega
      have hback : (s.data.versionOffset : ℤ) + s.data.currentPos = (s.data.stream.pos : ℤ) := by
        rw [DBFileStream.currentPos]
        omega
      have hs : s.access (.rewrite m obj) = { s with data := { s.data with stream :=
          ⟨overwrite s.data.stream.content p (writeBSON obj), s.data.stream.pos⟩ } } := by
        simp only [Session.access, hn, DBFileStream.seek, DBFileStream.write, hp, hback,
          FileInputOutputStream.write, FileInputOutputStream.seek_pos,
          FileInputOutputStream.seek_content]
        simp [FileInputOutputStream.seek]
      rw [hs]
      refine ⟨⟨⟨overwrite rest (p - pre.length) (writeBSON obj), ?_,
        fun _ => overwrite_ne_nil (writeBSON_ne_nil obj) _⟩, hpos, h.log⟩, rfl⟩
      change overwrite s.data.stream.content _ _ = _
      rw [hc]
      exact overwrite_behind pre rest _ hle

theorem Spares.run (h : Spares pre n s) (accesses : List Access) :
    Spares pre n (s.run accesses) ∧ (s.run accesses).data.versionOffset = s.data.versionOffset := by
  induction accesses generalizing s with
  | nil => exact ⟨h, rfl⟩
  | cons a accesses ih =>
    obtain ⟨h1, hoff⟩ := h.access a
    obtain ⟨h2, hoff'⟩ := ih h1
    exact ⟨h2, hoff'.trans hoff⟩

/-- In the session that writes it, a record is where its note says. -/
theorem start_eq_of_run (accesses : List Access)
    (h : ∀ r ∈ s.log, (s.data.versionOffset : ℤ) + r.filePos = r.start) :
    ∀ r ∈ (s.run accesses).log, (s.data.versionOffset : ℤ) + r.filePos = r.start := by
  induction accesses generalizing s with
  | nil => exact h
  | cons a accesses ih =>
    have hoff : (s.access a).data.versionOffset = s.data.versionOffset := by
      cases a with
      | append obj => rfl
      | rewrite n obj =>
        simp only [Session.access]
        split <;> rfl
    rw [← hoff]
    refine ih fun r hr => ?_
    rw [hoff]
    cases a with
    | append obj =>
      obtain hr | hr := List.mem_append.1 hr
      · exact h r hr
      · rw [List.mem_singleton.1 hr]
        change (s.data.versionOffset : ℤ) + (s.data.stream.pos - s.data.versionOffset) =
          (s.data.stream.pos : ℤ)
        omega
    | rewrite n obj =>
      have hlog : (s.access (.rewrite n obj)).log = s.log := by
        simp only [Session.access]
        split <;> rfl
      exact h r (hlog ▸ hr)

/-- Later sessions leave a complete header alone. -/
theorem laterSessions_header {bs rest file' : List UInt8} {v : CString} {log : List Recorded}
    (hbs : Reads readHeader bs (some v)) (hlog : ∀ r ∈ log, 0 ≤ r.filePos)
    (sessions : List (List Access)) (h : laterSessions (bs ++ rest) log sessions = some file') :
    ∃ rest', file' = bs ++ rest' := by
  induction sessions generalizing rest log with
  | nil => exact ⟨rest, (Option.some.inj h).symm⟩
  | cons accesses sessions ih =>
    have hlen : (bs ++ rest).length - rest.length = bs.length := by
      rw [List.length_append]
      omega
    rw [laterSessions, DBFileStream.new_of_marked (hbs rest), hlen] at h
    obtain ⟨s, hs⟩ : ∃ s, s = Session.mk ⟨⟨bs ++ rest, (bs ++ rest).length⟩, bs.length, v⟩ log :=
      ⟨_, rfl⟩
    have hspares : Spares bs log.length s := by
      rw [hs]
      refine ⟨⟨rest, rfl, fun hlt => absurd hlt (lt_irrefl _)⟩, ?_, fun r hr => ?_⟩
      · change bs.length ≤ (bs ++ rest).length
        rw [List.length_append]
        omega
      · have hr := hlog r hr
        change (bs.length : ℤ) ≤ bs.length + r.filePos
        omega
    obtain ⟨hrun, hoff⟩ := hspares.run accesses
    obtain ⟨rest1, hrest1, -⟩ := hrun.content
    have hnext : laterSessions (s.run accesses).data.stream.content (s.run accesses).log sessions =
        some file' := by
      rw [hs]
      exact h
    rw [hrest1] at hnext
    refine ih (fun r hr => ?_) hnext
    have hr := hrun.log r hr
    rw [hoff, hs] at hr
    change (bs.length : ℤ) ≤ bs.length + r.filePos at hr
    omega

/-! ## What the notes mean -/

theorem seek_pos_eq (w : FileInputOutputStream) {i : ℤ} {p : ℕ} (h : i = p) : (w.seek i).pos = p := by
  rw [h, FileInputOutputStream.seek_pos]

/-- With a complete header everyone counts from the same byte. -/
theorem Spares.meansTheSame {bs : List UInt8} {v : CString} {r : Recorded}
    (hbs : Reads readHeader bs (some v)) (h : Spares bs n s)
    (hoff : s.data.versionOffset = bs.length)
    (hstart : (s.data.versionOffset : ℤ) + r.filePos = r.start) : MeansTheSame s r := by
  refine ⟨seek_pos_eq _ hstart, fun sessions file hfile => ?_⟩
  obtain ⟨rest, hc, -⟩ := h.content
  rw [hc] at hfile
  obtain ⟨rest', rfl⟩ := laterSessions_header hbs (fun r hr => by
    have hle := h.log r hr
    omega) sessions hfile
  have hlen : (bs ++ rest').length - rest'.length = bs.length := by
    rw [List.length_append]
    omega
  rw [hoff] at hstart
  refine ⟨⟨_, DBFileStream.new_of_marked (hbs rest'), seek_pos_eq _ ?_⟩,
    ⟨_, DBFileInputStream.new_of_marked (hbs rest'), seek_pos_eq _ ?_⟩⟩
  · rw [hlen]
    exact hstart
  · rw [hlen]
    exact hstart

/-- A reader that finds the record counts from the same byte as the writer. -/
theorem MeansTheSame.versionOffset {r : Recorded} (h : MeansTheSame s r)
    (hstart : (s.data.versionOffset : ℤ) + r.filePos = r.start)
    (hle : (0 : ℤ) ≤ r.filePos) : ∃ i, DBFileInputStream.new s.data.stream.content = some i ∧
      i.versionOffset = s.data.versionOffset := by
  obtain ⟨-, i, hi, hpos⟩ := h.2 [] _ rfl
  obtain ⟨p, hp⟩ : ∃ p : ℕ, (i.versionOffset : ℤ) + r.filePos = p :=
    ⟨(i.versionOffset + r.filePos).toNat, by omega⟩
  have hseek : (i.seek r.filePos).stream.pos = p := seek_pos_eq _ hp
  exact ⟨i, hi, by omega⟩

/-- How the constructor can find a file: without a mark, with a complete header, or cut off within
its header. -/
inductive Opened (file : List UInt8) (w : DBFileStream) : Prop
  | unmarked : Spares header 0 ⟨w, []⟩ → w.versionOffset = 0 → ¬ Headed file → Opened file w
  | headed (bs : List UInt8) (v : CString) : Reads readHeader bs (some v) → Headed file →
      Spares bs 0 ⟨w, []⟩ → w.versionOffset = bs.length → Opened file w
  | cut : Spares file 0 ⟨w, []⟩ → w.versionOffset = file.length → file ≠ [] →
      (∀ e v rest, e ≠ [] → readHeader (file ++ e) = some (some v, rest) →
        rest.length < e.length) → Opened file w

theorem spares_opened {pre rest : List UInt8} {w : DBFileStream}
    (hc : w.stream.content = pre ++ rest) (hpos : w.stream.pos = w.stream.content.length) :
    Spares pre 0 ⟨w, []⟩ := by
  refine ⟨⟨rest, hc, fun hlt => absurd hlt (lt_irrefl _)⟩, ?_, fun r hr => by cases hr⟩
  change pre.length ≤ w.stream.pos
  rw [hpos, hc, List.length_append]
  omega

theorem DBFileStream.opened {file : List UInt8} {w : DBFileStream}
    (h : DBFileStream.new file = some w) : Opened file w := by
  obtain ⟨v, rest, hread⟩ := DBFileStream.exists_readHeader h
  cases v with
  | none =>
    rw [DBFileStream.new_of_unmarked hread] at h
    cases h
    refine .unmarked (spares_opened rfl rfl) rfl ?_
    rintro ⟨bs, rest', v, rfl, hbs⟩
    rw [hbs rest'] at hread
    cases hread
  | some v =>
    rw [DBFileStream.new_of_marked hread] at h
    cases h
    obtain ⟨bs, rest', v', rfl, hbs⟩ | ⟨rfl, hlater⟩ := readHeader_cases hread
    · rw [hbs rest'] at hread
      cases hread
      refine .headed bs v hbs ⟨bs, rest, v, rfl, hbs⟩ (spares_opened rfl rfl) ?_
      change (bs ++ rest).length - rest.length = bs.length
      rw [List.length_append]
      omega
    · refine .cut (spares_opened (List.append_nil file).symm rfl) rfl ?_ hlater
      rintro rfl
      rw [readHeader_nil] at hread
      cases hread

/-- The position noted for a record means the same to every reader exactly when the file started
with a complete header before the session opened it. -/
theorem meansTheSame_iff {file : List UInt8} {w : DBFileStream} (h : DBFileStream.new file = some w)
    (accesses : List Access) {r : Recorded} (hr : r ∈ ((Session.mk w []).run accesses).log) :
    MeansTheSame ((Session.mk w []).run accesses) r ↔ Headed file := by
  have hstart := start_eq_of_run (s := ⟨w, []⟩) accesses (fun r hr => by cases hr) r hr
  change (w.versionOffset : ℤ) + r.filePos = r.start at hstart
  obtain ⟨s, hs⟩ : ∃ s, s = (Session.mk w []).run accesses := ⟨_, rfl⟩
  cases DBFileStream.opened h with
  | unmarked hspares hw hnot =>
    refine iff_of_false (fun hm => ?_) hnot
    -- the session has written the header and counts from the start of the file
    obtain ⟨hrun, hoff⟩ := hspares.run accesses
    rw [← hs] at hr hm hrun hoff
    change s.data.versionOffset = w.versionOffset at hoff
    obtain ⟨rest, hc, -⟩ := hrun.content
    have hle := hrun.log r hr
    obtain ⟨i, hi, hioff⟩ := hm.versionOffset (by omega) (by omega)
    rw [hc, DBFileInputStream.new_of_marked (header_reads rest)] at hi
    cases hi
    change (header ++ rest).length - rest.length = _ at hioff
    rw [List.length_append, header_length] at hioff
    omega
  | headed bs v hbs hheaded hspares hw =>
    refine iff_of_true ?_ hheaded
    obtain ⟨hrun, hoff⟩ := hspares.run accesses
    rw [← hs] at hr hrun hoff ⊢
    change s.data.versionOffset = w.versionOffset at hoff
    exact hrun.meansTheSame hbs (hoff.trans hw) (by omega)
  | cut hspares hw hne hlater =>
    have hnot : ¬ Headed file := by
      rintro ⟨bs, rest, v, rfl, hbs⟩
      have hread := hlater [0] v (rest ++ [0]) (by simp) (by rw [List.append_assoc, hbs])
      simp at hread
    refine iff_of_false (fun hm => ?_) hnot
    obtain ⟨hrun, hoff⟩ := hspares.run accesses
    rw [← hs] at hr hm hrun hoff
    change s.data.versionOffset = w.versionOffset at hoff
    obtain ⟨rest, hc, hrest⟩ := hrun.content
    have hle := hrun.log r hr
    obtain ⟨i, hi, hioff⟩ := hm.versionOffset (by omega) (by omega)
    rw [hc] at hi
    obtain ⟨rest2, -, h0⟩ | ⟨v2, rest2, hread2, hoff2⟩ :=
      DBFileInputStream.versionOffset_of_new hi
    · exact hne (List.length_eq_zero_iff.1 (by omega))
    · have hlt := hlater rest v2 rest2 (hrest (List.length_pos_of_mem hr)) hread2
      rw [List.length_append] at hoff2
      omega

/-- One record in a file that has its header. -/
theorem meansTheSame_headed : (DBFileStream.new header).any (fun w =>
      ((Session.mk w []).run [.append .empty]).log = [⟨0, 29⟩]) = true ∧
    (MeansTheSame ((Session.mk ⟨⟨header, 29⟩, 29, fileVersion⟩ []).run [.append .empty]) ⟨0, 29⟩ ↔
      Headed header) :=
  ⟨by decide, meansTheSame_iff (by decide) [.append .empty] (by decide)⟩

/-- One record in a new file: later readers look for it 29 bytes behind its first byte. -/
theorem not_meansTheSame_new : ¬ ∀ (file : List UInt8) (w : DBFileStream),
    DBFileStream.new file = some w → ∀ accesses, ∀ r ∈ ((Session.mk w []).run accesses).log,
      MeansTheSame ((Session.mk w []).run accesses) r := by
  intro hall
  have hm := hall [] ⟨⟨header, 29⟩, 0, fileVersion⟩ (by decide) [.append .empty] ⟨29, 29⟩ (by decide)
  obtain ⟨-, i, hi, hpos⟩ := hm.2 [] _ rfl
  have hnew : (DBFileInputStream.new (header ++ writeBSON .empty)).any
      (fun i => (i.seek 29).stream.pos = 58) = true := by decide
  have hfile : ((Session.mk ⟨⟨header, 29⟩, 0, fileVersion⟩ []).run
      [.append .empty]).data.stream.content = header ++ writeBSON .empty := by decide
  rw [hfile] at hi
  rw [hi, Option.any_some, decide_eq_true_eq, hpos] at hnew
  cases hnew

end Djondb
