import Djondb.Command

set_option autoImplicit false

/-!
# Commands from a connection

`NetworkInputStream` and the readers over it. A read at the end of the bytes closes the stream and
leaves its zeros as they are; a read that ends inside of its bytes, and any read from the closed
stream, runs into `assert(false)`.
-/
namespace Djondb
open Bytes

/-! ## The stream -/

def STREAM_BUFFER_SIZE : ℕ := 100000

/-- What a call of `recv` gives before the peer has closed. -/
structure Chunk where
  bytes : List UInt8
  nonempty : bytes ≠ []
  fits : bytes.length ≤ STREAM_BUFFER_SIZE

/-- What the buffer still has, what `recv` will give, and whether the stream is open. Behind the
last chunk the peer has closed the connection. -/
structure NetworkInputStream where
  buffer : List UInt8
  incoming : List Chunk
  isOpen : Bool

/-- How a call ends without a result. -/
inductive Stop where
  | assertion | exception | undefined
  deriving DecidableEq

abbrev NetReader := StateT NetworkInputStream (Except Stop)

namespace NetworkInputStream

/-- All bytes that are still to be read. -/
def bytes (s : NetworkInputStream) : List UInt8 := s.buffer ++ s.incoming.flatMap Chunk.bytes

/-- `select` fails on a closed descriptor, and `recv` gives 0 behind the last chunk. -/
def fillBuffer (s : NetworkInputStream) : ℤ × NetworkInputStream :=
  if s.isOpen then
    match s.incoming with
    | chunk :: incoming => (0, ⟨chunk.bytes, incoming, true⟩)
    | [] => (-1, ⟨[], [], false⟩)
  else (-1, s)

def waitAvailable (s : NetworkInputStream) : ℤ × NetworkInputStream :=
  if s.buffer = [] then s.fillBuffer else (0, s)

/-- A closed stream has status 0. -/
def checkStatus (s : NetworkInputStream) : ℤ × NetworkInputStream :=
  if s.isOpen then
    let (res, s) := s.waitAvailable
    if res < 0 then (res, ⟨s.buffer, s.incoming, false⟩) else (res, s)
  else (0, s)

def isClosed (s : NetworkInputStream) : Bool × NetworkInputStream :=
  let s := s.checkStatus.2
  (!s.isOpen, s)

/-- The loop of `readBufferData` with this many bytes missing. Each round takes one at least, so
that there are at most as many rounds. -/
def readLoop : ℕ → ℕ → NetReader (List UInt8)
  | _, 0 => pure []
  | 0, _ + 1 => fun _ => .error .undefined
  | rounds + 1, missing + 1 => fun s =>
    let (res, s) := s.waitAvailable
    if res < 0 then .error .assertion
    else
      let read := min (missing + 1) s.buffer.length
      (do
        let rest ← readLoop rounds (missing + 1 - read)
        pure (s.buffer.take read ++ rest)) ⟨s.buffer.drop read, s.incoming, s.isOpen⟩

/-- The bytes, or nothing where the result is -1 and the memory is left as it is. -/
def readBufferData (len : ℕ) : NetReader (Option (List UInt8)) := fun s =>
  let (res, s) := s.checkStatus
  if res < 0 then .ok (none, s) else (some <$> readLoop len len) s

/-- `readChars` of a length; the memory starts with zeros. -/
def readCharsOf (length : ℕ) : NetReader (List UInt8) := do
  let data ← readBufferData length
  pure (data.getD (List.replicate length 0))

def readData (w : ℕ) : NetReader ℤ := decodeWord w <$> readCharsOf w

def readInt : NetReader ℤ := readData 4
def readLong : NetReader ℤ := readData 8
def readBoolean : NetReader Bool := (fun v => decide (v ≠ 0)) <$> readData 1

/-- The variable is not set before; `d` are the bits that it has by chance. -/
def readDoubleIEEE (d : UInt64) : NetReader UInt64 :=
  (fun data => (data.map fun bs => UInt64.ofNat (leDecode bs)).getD d) <$> readBufferData 8

def readChars : NetReader (List UInt8) := do
  let len ← readInt
  if 0 < len then readCharsOf len.toNat else pure []

def readString : NetReader CString := CString.ofBytes <$> readChars

/-! ## Documents -/

section read
variable (d : UInt64) (inner : NetReader BSONObj)

def readItems : ℕ → NetReader BSONArrayObj
  | 0 => pure .empty
  | n + 1 => do
    let o ← inner
    let rest ← readItems n
    pure (.item o rest)

/-- The loop never ends on a count that its variable cannot reach. -/
def readInnerArray : NetReader BSONArrayObj := do
  let elements ← readLong
  if 2 ^ 31 ≤ elements then fun _ => .error .undefined else readItems inner elements.toNat

/-- The `switch` on the tag. -/
def readContent (key : CString) (obj : BSONObj) : Option BSONTYPE → NetReader BSONObj
  | some .BSON_TYPE => (fun o => obj.add key (.bson o)) <$> inner
  | some .BOOL_TYPE => (fun b => obj.add key (.boolean b)) <$> readBoolean
  | some .INT_TYPE => (fun i => obj.add key (.int (Int32.ofInt i))) <$> readInt
  | some .LONG_TYPE => (fun l => obj.add key (.long (Int64.ofInt l))) <$> readLong
  | some .LONG64_TYPE => (fun l => obj.add key (.long (Int64.ofInt l))) <$> readLong
  | some .DOUBLE_TYPE => (fun v => obj.add key (.double v)) <$> readDoubleIEEE d
  | some .PTRCHAR_TYPE => (fun s => obj.add key (.string s)) <$> readString
  | some .STRING_TYPE => (fun s => obj.add key (.string s)) <$> readString
  | some .BSONARRAY_TYPE => (fun a => obj.add key (.array a)) <$> readInnerArray inner
  | _ => pure obj

def readFields : ℕ → BSONObj → NetReader BSONObj
  | 0, obj => pure obj
  | n + 1, obj => do
    let key ← readString
    let type ← readLong
    let obj ← readContent d inner key obj (BSONTYPE.ofCode type)
    readFields n obj

end read

section commands
variable (d : UInt64)

/-- The recursion of `readBSON`, to a nesting depth below `fuel`. -/
def readObj : ℕ → NetReader BSONObj
  | 0 => fun _ => .error .undefined
  | fuel + 1 => do
    let elements ← readLong
    if 2 ^ 31 ≤ elements then fun _ => .error .undefined
    else readFields d (readObj fuel) elements.toNat .empty

/-- `readBSON("*")`. A nested document takes bytes of its own, so the stream bounds the depth. -/
def readBSON : NetReader BSONObj := fun s => readObj d (s.bytes.length + 1) s

/-! ## Commands -/

def parseInsert : NetReader CommandFields := do
  let db ← readString
  let ns ← readString
  let bson ← readBSON d
  pure (.insert db ns bson)

def parseUpdate : NetReader CommandFields := do
  let db ← readString
  let ns ← readString
  let bson ← readBSON d
  pure (.update db ns bson)

def parseFind : NetReader CommandFields := do
  let db ← readString
  let ns ← readString
  let filter ← readString
  let select ← readString
  pure (.find db ns (some filter) select)

def parseDropnamespace : NetReader CommandFields := do
  let db ← readString
  let ns ← readString
  pure (.dropnamespace db ns)

def parseShutdown : NetReader CommandFields := pure .shutdown

def parseShowdbsCommand : NetReader CommandFields := pure .showdbs

def parseShownamespacesCommand : NetReader CommandFields := do
  let db ← readString
  pure (.shownamespaces db)

def parseRemove : NetReader CommandFields := do
  let db ← readString
  let ns ← readString
  let id ← readString
  let revision ← readString
  pure (.remove db ns id revision)

def parseCommit : NetReader CommandFields := do
  let transactionId ← readString
  pure (.commit transactionId)

def parseRollback : NetReader CommandFields := do
  let transactionId ← readString
  pure (.rollback transactionId)

/-- The `switch` on the type; for another number `cmd` stays `NULL` and is used nevertheless. -/
def parseFields : Option COMMANDTYPE → NetReader CommandFields
  | some .INSERT => parseInsert d
  | some .UPDATE => parseUpdate d
  | some .FIND => parseFind
  | some .DROPNAMESPACE => parseDropnamespace
  | some .SHUTDOWN => parseShutdown
  | some .CLOSECONNECTION => pure .close
  | some .SHOWDBS => parseShowdbsCommand
  | some .SHOWNAMESPACES => parseShownamespacesCommand
  | some .REMOVE => parseRemove
  | some .COMMIT => parseCommit
  | some .ROLLBACK => parseRollback
  | none => fun _ => .error .undefined

/-- Senders before 0.3.0 have no options. -/
def readOptions (version : Version) : NetReader BSONObj :=
  if version.ge ⟨0, 3, 0⟩ then readBSON d else pure .empty

/-- `readCommand` behind the test for a closed stream. -/
def readOpen : NetReader Command := do
  let sversion ← readString
  match Version.parse sversion with
  | none => fun _ => .error .exception
  | some version => do
    let type ← readInt
    let options ← readOptions d version
    let fields ← parseFields d (COMMANDTYPE.ofCode type)
    pure ⟨fields, some options⟩

/-- `CommandReader::readCommand`; nothing stands for `NULL`. -/
def readCommand : NetReader (Option Command) := fun s =>
  let (closed, s) := s.isClosed
  if closed then .ok (none, s) else (some <$> readOpen d) s

/-- The store and the log after `NetworkService::executeRequest`, for what the execution of a command
makes of them. A request that has no command ends before they are touched, be it with `cmd->options()`
on `NULL`. -/
def executeRequest {σ : Type} (execute : Command → σ → σ) (nis : NetworkInputStream) (store : σ) : σ :=
  match readCommand d nis with
  | .ok (some cmd, _) => execute cmd store
  | _ => store

end commands

/-! ## One read -/

/-- The stream was closed by a read that found nothing. -/
def Dead (s : NetworkInputStream) : Prop := s.isOpen = false ∧ s.buffer = []

variable {s : NetworkInputStream}

theorem waitAvailable_open (hopen : s.isOpen = true) (h : s.bytes ≠ []) :
    ∃ s', s.waitAvailable = (0, s') ∧ s'.isOpen = true ∧ s'.bytes = s.bytes ∧ s'.buffer ≠ [] := by
  unfold waitAvailable
  split_ifs with hbuffer
  · unfold fillBuffer
    rw [if_pos hopen]
    cases hincoming : s.incoming with
    | nil =>
      have hnil : s.bytes = [] := by
        unfold bytes
        rw [hbuffer, hincoming]
        rfl
      exact absurd hnil h
    | cons chunk incoming =>
      refine ⟨_, rfl, rfl, ?_, chunk.nonempty⟩
      unfold bytes
      rw [hbuffer, hincoming]
      rfl
  · exact ⟨s, rfl, hopen, rfl, hbuffer⟩

theorem bytes_eq_nil (h : s.bytes = []) : s.buffer = [] ∧ s.incoming = [] := by
  rcases List.append_eq_nil_iff.1 h with ⟨hbuffer, hincoming⟩
  refine ⟨hbuffer, ?_⟩
  cases hs : s.incoming with
  | nil => rfl
  | cons chunk incoming =>
    rw [hs, List.flatMap_cons] at hincoming
    exact absurd (List.append_eq_nil_iff.1 hincoming).1 chunk.nonempty

theorem waitAvailable_end (h : s.bytes = []) : (s.waitAvailable).1 = -1 := by
  rcases bytes_eq_nil h with ⟨hbuffer, hincoming⟩
  unfold waitAvailable fillBuffer
  rw [if_pos hbuffer, hincoming]
  split_ifs <;> rfl

theorem waitAvailable_dead (h : s.Dead) : (s.waitAvailable).1 = -1 := by
  have hclosed : ¬ s.isOpen = true := ne_true_of_eq_false h.1
  unfold waitAvailable fillBuffer
  rw [if_pos h.2, if_neg hclosed]

/-- A round of the loop takes a byte at least. -/
theorem readLoop_round (hopen : s.isOpen = true) (h : s.bytes ≠ []) (missing : ℕ) :
    ∃ read s', 0 < read ∧ read ≤ missing + 1 ∧ read ≤ s.bytes.length ∧ s'.isOpen = true ∧
      s'.bytes = s.bytes.drop read ∧ ∀ rounds, readLoop (rounds + 1) (missing + 1) s =
        (readLoop rounds (missing + 1 - read) s').bind
          fun p => .ok (s.bytes.take read ++ p.1, p.2) := by
  rcases waitAvailable_open hopen h with ⟨s1, hwait, hopen1, hbytes1, hbuffer1⟩
  obtain ⟨read, hread⟩ : ∃ read, read = min (missing + 1) s1.buffer.length := ⟨_, rfl⟩
  have hpos := List.length_pos_iff.2 hbuffer1
  have hle : read ≤ s1.buffer.length := by omega
  have htake : s.bytes.take read = s1.buffer.take read := by
    rw [← hbytes1]
    exact List.take_append_of_le_length hle
  have hbuffer : s1.buffer.length ≤ s.bytes.length := by
    rw [← hbytes1]
    exact (List.prefix_append _ _).length_le
  refine ⟨read, ⟨s1.buffer.drop read, s1.incoming, s1.isOpen⟩, by omega, by omega, by omega, hopen1,
    ?_, ?_⟩
  · rw [← hbytes1]
    exact (List.drop_append_of_le_length hle).symm
  · intro rounds
    rw [readLoop]
    dsimp only
    rw [hwait]
    dsimp only
    rw [if_neg (lt_irrefl _), ← hread, htake]
    rfl

/-- The loop has its bytes. -/
theorem readLoop_whole {rounds len : ℕ} (hrounds : len ≤ rounds) (hopen : s.isOpen = true)
    (hlen : len ≤ s.bytes.length) : ∃ s', readLoop rounds len s = .ok (s.bytes.take len, s') ∧
      s'.isOpen = true ∧ s'.bytes = s.bytes.drop len := by
  induction rounds generalizing len s with
  | zero =>
    obtain rfl : len = 0 := Nat.le_zero.1 hrounds
    exact ⟨s, rfl, hopen, rfl⟩
  | succ rounds ih =>
    cases len with
    | zero => exact ⟨s, rfl, hopen, rfl⟩
    | succ missing =>
      have hne : s.bytes ≠ [] := List.ne_nil_of_length_pos (by omega)
      rcases readLoop_round hopen hne missing with
        ⟨read, s1, hpos, hle, hin, hopen1, hbytes1, hround⟩
      have hlen1 : missing + 1 - read ≤ s1.bytes.length := by
        rw [hbytes1, List.length_drop]
        omega
      rcases ih (by omega) hopen1 hlen1 with ⟨s2, hloop, hopen2, hbytes2⟩
      have hsum : read + (missing + 1 - read) = missing + 1 := by omega
      have htake : s.bytes.take (missing + 1) =
          s.bytes.take read ++ (s.bytes.drop read).take (missing + 1 - read) := by
        rw [← List.take_add, hsum]
      refine ⟨s2, ?_, hopen2, ?_⟩
      · rw [hround, hloop, hbytes1, htake]
        rfl
      · rw [hbytes2, hbytes1, List.drop_drop, hsum]

/-- The loop reaches the end before it has its bytes. -/
theorem readLoop_short {rounds len : ℕ} (hrounds : len ≤ rounds) (hopen : s.isOpen = true)
    (hlen : s.bytes.length < len) : readLoop rounds len s = .error .assertion := by
  induction rounds generalizing len s with
  | zero => omega
  | succ rounds ih =>
    cases len with
    | zero => omega
    | succ missing =>
      by_cases hnil : s.bytes = []
      · rw [readLoop]
        dsimp only
        rw [if_pos (by rw [waitAvailable_end hnil]; decide)]
      · rcases readLoop_round hopen hnil missing with
          ⟨read, s1, hpos, hle, hin, hopen1, hbytes1, hround⟩
        have hlen1 : s1.bytes.length < missing + 1 - read := by
          rw [hbytes1, List.length_drop]
          omega
        rw [hround, ih (by omega) hopen1 hlen1]
        rfl

theorem readLoop_dead {rounds len : ℕ} (hpos : 0 < len) (hrounds : len ≤ rounds) (h : s.Dead) :
    readLoop rounds len s = .error .assertion := by
  cases len with
  | zero => omega
  | succ missing =>
    cases rounds with
    | zero => omega
    | succ rounds =>
      rw [readLoop]
      dsimp only
      rw [if_pos (by rw [waitAvailable_dead h]; decide)]

theorem checkStatus_open (hopen : s.isOpen = true) (h : s.bytes ≠ []) :
    ∃ s', s.checkStatus = (0, s') ∧ s'.isOpen = true ∧ s'.bytes = s.bytes := by
  rcases waitAvailable_open hopen h with ⟨s1, hwait, hopen1, hbytes1, -⟩
  refine ⟨s1, ?_, hopen1, hbytes1⟩
  unfold checkStatus
  rw [if_pos hopen, hwait]
  rfl

theorem checkStatus_end (hopen : s.isOpen = true) (h : s.bytes = []) :
    ∃ s', s.checkStatus = (-1, s') ∧ s'.Dead := by
  rcases bytes_eq_nil h with ⟨hbuffer, hincoming⟩
  refine ⟨⟨[], [], false⟩, ?_, rfl, rfl⟩
  unfold checkStatus waitAvailable fillBuffer
  rw [if_pos hopen, if_pos hbuffer, if_pos hopen, hincoming]
  rfl

end NetworkInputStream
end Djondb
