import Djondb.HandParserRounds

set_option autoImplicit false

/-!
# What the hand-written parser reads and writes

The nesting of a text is scanned without its values. Where the text ends inside of it the calls
return one after another, each behind the last one, and the one that goes on with the next character
may be out of the text.
-/
namespace Djondb

namespace Parsing
variable {α β γ : Type}

/-- It ends with a value or with an exception. -/
def Safe : Parsing α → Prop
  | value _ => True
  | exception _ => True
  | undefined => False
  | unfinished => False

theorem bind_assoc (r : Parsing α) (f : α → Parsing β) (g : β → Parsing γ) :
    (r >>= f) >>= g = r >>= fun a => f a >>= g := by
  cases r <;> rfl

end Parsing

namespace BSONParser

/-! ## The scan -/

/-- An open call: what is open at a character, of `parseBSON` whether it has a name, whether the
value of the name is nested, and how many characters are kept. -/
inductive Level where
  | array
  | object (named nested : Bool) (len : ℕ)
  | quoted (stringChar : UInt8) (escaped named : Bool) (len : ℕ)
  deriving DecidableEq

/-- How the scan ends: behind the outer array, with an exception, with a document outside of an
array, with a number that is too large for the buffer or for a position, or at the end of the text.
-/
inductive Scan where
  | returned
  | throws
  | misses
  | overruns
  | ends (levels : List Level)
  deriving DecidableEq

section scan
variable (cap : ℤ) (created : Bool)

def room (len : ℕ) : Except Scan Unit := if (len : ℤ) < cap then .ok () else .error .overruns

/-- A document is opened. -/
def opened (outer : List Level) : Except Scan (List Level) :=
  if 0 ≤ cap then .ok (.object false false 0 :: outer) else .error .overruns

/-- A document is closed. -/
def closed : List Level → Except Scan (List Level)
  | [.array] => if created then .ok [.array] else .error .misses
  | outer => .ok outer

def stepArray (b : UInt8) (outer : List Level) : Except Scan (List Level) :=
  if b = 93 then
    match outer with
    | .object named _ len :: outer => do
      room cap len
      .ok (.object named true (len + 1) :: outer)
    | _ => .error .returned
  else if b = 123 then opened cap (.array :: outer)
  else .ok (.array :: outer)

def stepCharacter (b : UInt8) (named nested : Bool) (len : ℕ) (outer : List Level) :
    Except Scan (List Level) :=
  if b = 58 then do
    room cap len
    .ok (.object true false 0 :: outer)
  else if b = 39 ∨ b = 34 then .ok (.quoted b false named len :: outer)
  else if b = 32 ∨ b = 13 ∨ b = 10 then .ok (.object named nested len :: outer)
  else do
    room cap len
    .ok (.object named (nested && !(named && b = 46)) (len + 1) :: outer)

/-- The end of a field; a value that is not nested is copied out of the buffer. -/
def stepEnd (b : UInt8) (nested : Bool) (len : ℕ) (outer : List Level) :
    Except Scan (List Level) :=
  if nested = true ∨ (len : ℤ) < cap then
    if b = 125 then closed created outer else .ok (.object false false 0 :: outer)
  else .error .overruns

def stepField (b : UInt8) (named nested : Bool) (len : ℕ) (outer : List Level) :
    Except Scan (List Level) :=
  if named then
    if b = 125 ∨ b = 44 then stepEnd cap created b nested len outer
    else stepCharacter cap b named nested len outer
  else if b = 125 then closed created outer
  else stepCharacter cap b named nested len outer

def stepObject (b : UInt8) (named nested : Bool) (len : ℕ) (outer : List Level) :
    Except Scan (List Level) :=
  if b = 123 then
    if named then opened cap (.object named true len :: outer) else .error .throws
  else if b = 91 then .ok (.array :: .object named true len :: outer)
  else stepField cap created b named nested len outer

def stepQuoted (b stringChar : UInt8) (escaped named : Bool) (len : ℕ) (outer : List Level) :
    Except Scan (List Level) :=
  if b ≠ stringChar ∨ escaped then do
    room cap len
    .ok (.quoted stringChar (b = 92) named (len + 1) :: outer)
  else .ok (.object named false len :: outer)

/-- What is open behind a character. -/
def step (b : UInt8) : List Level → Except Scan (List Level)
  | [] => .error .returned
  | .array :: outer => stepArray cap b outer
  | .object named nested len :: outer => stepObject cap created b named nested len outer
  | .quoted stringChar escaped named len :: outer =>
    stepQuoted cap b stringChar escaped named len outer

def scan : List UInt8 → ℕ → List Level → Scan
  | [], _, .quoted _ _ _ _ :: _ => .throws
  | [], _, levels => .ends levels
  | b :: rest, x, levels =>
    match step cap created b levels with
    | .error verdict => verdict
    | .ok levels => if x + 1 < 2 ^ 31 then scan rest (x + 1) levels else .overruns

end scan

/-- The number of characters that are kept. -/
def Level.len : Level → ℕ
  | .array => 0
  | .object _ _ len => len
  | .quoted _ _ _ len => len

def Level.isObject : Level → Bool
  | .array => false
  | _ => true

/-- The calls return to the outer array: inside of an array that is the value of a field at most one
call is open, a position counts up to behind the last one, and the outer array has been created. -/
def Unwinds (n : ℕ) (created : Bool) (levels : List Level) : Prop :=
  Level.array ∉ (levels.drop 2).dropLast ∧ n + levels.tail.countP Level.isObject < 2 ^ 31 ∧
    (levels.length = 1 ∨ created = true)

instance (n : ℕ) (created : Bool) (levels : List Level) : Decidable (Unwinds n created levels) :=
  inferInstanceAs (Decidable (_ ∧ _ ∧ _))

/-- The scan meets no defect in a text of `n` characters. -/
def Scan.Clean (n : ℕ) (created : Bool) : Scan → Prop
  | .returned => True
  | .throws => True
  | .misses => False
  | .overruns => False
  | .ends levels => Unwinds n created levels

/-- The first character that is no blank opens an array. -/
def opensArray (c : CString) : Bool := (c.bytes.dropWhile (· = 32)).head? = some 91

/-- The text nests so that the parser stays in bounds. -/
def NestsInBounds (c : CString) : Prop :=
  (scan (lenBuffer c) (opensArray c) c.bytes 0 [.array]).Clean c.length (opensArray c)

/-- The parser ends, reads the text up to its terminator and writes into its buffer, and where it
adds to an array that array has been created. -/
def InBounds (atof : CString → UInt64) (c : CString) : Prop := (parseArray atof c).Safe

/-! ### What is kept is before the position -/

def Level.Fits (x : ℕ) (l : Level) : Prop := l.isObject = true → l.len < x

/-- Every open document has room for what it keeps. -/
def Fitting (x : ℕ) (levels : List Level) : Prop := ∀ l ∈ levels, l.Fits x

section fitting
variable {cap : ℤ} {created : Bool} {x : ℕ} {b : UInt8} {outer levels : List Level}

theorem Fitting.mono {y : ℕ} (h : Fitting x levels) (hy : x ≤ y) : Fitting y levels :=
  fun l hl hobject => (h l hl hobject).trans_le hy

theorem Fitting.cons {l : Level} (hl : l.Fits x) (h : Fitting x levels) : Fitting x (l :: levels) :=
  List.forall_mem_cons.2 ⟨hl, h⟩

theorem array_fits (x : ℕ) : Level.array.Fits x := fun h => absurd h Bool.false_ne_true

theorem bind_room_eq_ok {len : ℕ} {levels' : List Level}
    (h : (room cap len >>= fun _ => .ok levels) = .ok levels') : levels = levels' := by
  unfold room at h
  split_ifs at h
  · exact Except.ok.inj h
  · cases h

theorem opened_fits (h : Fitting (x + 1) outer) (hstep : opened cap outer = .ok levels) :
    Fitting (x + 1) levels := by
  unfold opened at hstep
  split_ifs at hstep
  cases hstep
  exact .cons (fun _ => Nat.succ_pos _) h

theorem closed_fits (h : Fitting x outer) (hstep : closed created outer = .ok levels) :
    Fitting x levels := by
  unfold closed at hstep
  split at hstep
  · split_ifs at hstep
    cases hstep
    exact h
  · cases hstep
    exact h

theorem stepEnd_fits {nested : Bool} {len : ℕ} (h : Fitting (x + 1) outer)
    (hstep : stepEnd cap created b nested len outer = .ok levels) : Fitting (x + 1) levels := by
  unfold stepEnd at hstep
  split_ifs at hstep with hroom hbrace
  · exact closed_fits h hstep
  · cases hstep
    exact .cons (fun _ => Nat.succ_pos _) h

section object
variable {named nested : Bool} {len : ℕ} (hlen : len < x) (h : Fitting (x + 1) outer)
include hlen h

theorem stepCharacter_fits (hstep : stepCharacter cap b named nested len outer = .ok levels) :
    Fitting (x + 1) levels := by
  unfold stepCharacter at hstep
  split_ifs at hstep with hcolon hquote hblank
  · rw [← bind_room_eq_ok hstep]
    exact .cons (fun _ => Nat.succ_pos _) h
  · cases hstep
    exact .cons (fun _ => hlen.trans (Nat.lt_succ_self _)) h
  · cases hstep
    exact .cons (fun _ => hlen.trans (Nat.lt_succ_self _)) h
  · rw [← bind_room_eq_ok hstep]
    exact .cons (fun _ => Nat.succ_lt_succ hlen) h

theorem stepField_fits (hstep : stepField cap created b named nested len outer = .ok levels) :
    Fitting (x + 1) levels := by
  unfold stepField at hstep
  split_ifs at hstep with hnamed hend hbrace
  · exact stepEnd_fits h hstep
  · exact stepCharacter_fits hlen h hstep
  · exact closed_fits h hstep
  · exact stepCharacter_fits hlen h hstep

theorem stepObject_fits (hstep : stepObject cap created b named nested len outer = .ok levels) :
    Fitting (x + 1) levels := by
  have hwait : Fitting (x + 1) (.object named true len :: outer) :=
    .cons (fun _ => hlen.trans (Nat.lt_succ_self _)) h
  unfold stepObject at hstep
  split_ifs at hstep with hbrace hnamed hbracket
  · exact opened_fits hwait hstep
  · cases hstep
    exact .cons (array_fits _) hwait
  · exact stepField_fits hlen h hstep

theorem stepQuoted_fits {stringChar : UInt8} {escaped : Bool}
    (hstep : stepQuoted cap b stringChar escaped named len outer = .ok levels) :
    Fitting (x + 1) levels := by
  unfold stepQuoted at hstep
  split_ifs at hstep with hopen
  · rw [← bind_room_eq_ok hstep]
    exact .cons (fun _ => Nat.succ_lt_succ hlen) h
  · cases hstep
    exact .cons (fun _ => hlen.trans (Nat.lt_succ_self _)) h

end object

theorem stepArray_fits (h : Fitting x outer) (hstep : stepArray cap b outer = .ok levels) :
    Fitting (x + 1) levels := by
  have houter : Fitting (x + 1) outer := h.mono (Nat.le_succ _)
  unfold stepArray at hstep
  split_ifs at hstep with hbracket hbrace
  · split at hstep
    · rcases List.forall_mem_cons.1 h with ⟨hfirst, hrest⟩
      rw [← bind_room_eq_ok hstep]
      exact .cons (fun _ => Nat.succ_lt_succ (hfirst rfl)) (Fitting.mono hrest (Nat.le_succ _))
    · cases hstep
  · exact opened_fits (.cons (array_fits _) houter) hstep
  · cases hstep
    exact .cons (array_fits _) houter

theorem step_fits (h : Fitting x levels) {levels' : List Level}
    (hstep : step cap created b levels = .ok levels') : Fitting (x + 1) levels' := by
  cases levels with
  | nil => cases hstep
  | cons l outer =>
    rcases List.forall_mem_cons.1 h with ⟨hl, houter⟩
    have houter' : Fitting (x + 1) outer := Fitting.mono houter (Nat.le_succ _)
    cases l with
    | array => exact stepArray_fits houter hstep
    | object named nested len => exact stepObject_fits (hl rfl) houter' hstep
    | quoted stringChar escaped named len => exact stepQuoted_fits (hl rfl) houter' hstep

/-! A text whose length is an `__int32` overruns nothing. -/

theorem room_bind_ne {len : ℕ} (hlen : (len : ℤ) < cap) :
    (room cap len >>= fun _ => .ok levels) ≠ .error .overruns := by
  rw [room, if_pos hlen]
  nofun

theorem opened_ne (hcap : 0 ≤ cap) : opened cap outer ≠ .error .overruns := by
  rw [opened, if_pos hcap]
  nofun

theorem closed_ne : closed created outer ≠ .error .overruns := by
  unfold closed
  split
  · split_ifs <;> nofun
  · nofun

section object
variable {named nested : Bool} {len : ℕ} (hlen : (len : ℤ) < cap)
include hlen

theorem stepCharacter_ne : stepCharacter cap b named nested len outer ≠ .error .overruns := by
  unfold stepCharacter
  split_ifs with hcolon hquote hblank
  · exact room_bind_ne hlen
  · nofun
  · nofun
  · exact room_bind_ne hlen

theorem stepField_ne : stepField cap created b named nested len outer ≠ .error .overruns := by
  unfold stepField stepEnd
  rw [if_pos (Or.inr hlen)]
  split_ifs with hnamed hend hbrace hbrace
  · exact closed_ne
  · nofun
  · exact stepCharacter_ne hlen
  · exact closed_ne
  · exact stepCharacter_ne hlen

theorem stepObject_ne : stepObject cap created b named nested len outer ≠ .error .overruns := by
  unfold stepObject
  split_ifs with hbrace hnamed hbracket
  · exact opened_ne (by omega)
  · nofun
  · nofun
  · exact stepField_ne hlen

theorem stepQuoted_ne {stringChar : UInt8} {escaped : Bool} :
    stepQuoted cap b stringChar escaped named len outer ≠ .error .overruns := by
  unfold stepQuoted
  split_ifs with hopen
  · exact room_bind_ne hlen
  · nofun

end object

theorem stepArray_ne (h : Fitting x outer) (hx : (x : ℤ) < cap) :
    stepArray cap b outer ≠ .error .overruns := by
  unfold stepArray
  split_ifs with hbracket hbrace
  · split
    · have hlen : _ < x := h _ List.mem_cons_self rfl
      exact room_bind_ne ((Int.ofNat_lt.2 hlen).trans hx)
    · nofun
  · exact opened_ne (by omega)
  · nofun

theorem step_ne (h : Fitting x levels) (hx : (x : ℤ) < cap) :
    step cap created b levels ≠ .error .overruns := by
  cases levels with
  | nil => nofun
  | cons l outer =>
    rcases List.forall_mem_cons.1 h with ⟨hl, houter⟩
    cases l with
    | array => exact stepArray_ne houter hx
    | object named nested len => exact stepObject_ne ((Int.ofNat_lt.2 (hl rfl)).trans hx)
    | quoted stringChar escaped named len =>
      exact stepQuoted_ne ((Int.ofNat_lt.2 (hl rfl)).trans hx)

theorem scan_ne_overruns {rest : List UInt8} (h : Fitting x levels)
    (hsize : x + rest.length < 2 ^ 31) :
    scan (x + rest.length : ℕ) created rest x levels ≠ .overruns := by
  induction rest generalizing x levels with
  | nil =>
    unfold scan
    split
    · nofun
    · nofun
    · contradiction
  | cons b rest ih =>
    have hlength : x + (b :: rest).length = x + 1 + rest.length := by
      rw [List.length_cons, Nat.add_right_comm, Nat.add_assoc]
    rw [hlength] at hsize ⊢
    have hx : (x : ℤ) < (x + 1 + rest.length : ℕ) := Int.ofNat_lt.2 (by omega)
    have hne : step _ created b levels ≠ .error .overruns := step_ne h hx
    rw [scan]
    cases hstep : step (x + 1 + rest.length : ℕ) created b levels with
    | error verdict =>
      rw [hstep] at hne
      exact fun hv => hne (congrArg Except.error hv)
    | ok levels' =>
      dsimp only
      rw [if_pos (by omega)]
      exact ih (step_fits h hstep) hsize

end fitting

/-! ## The calls under way -/

/-- A call that goes on at a position; `quoted` is inside of the loop over a string. -/
inductive Caller where
  | object (f : Frame)
  | array (created : Bool) (result : BSONArrayObj)
  | quoted (stringChar : UInt8) (startPos : ℕ) (escaped : Bool) (f : Frame)

def Frame.named (f : Frame) : Bool :=
  match f.phase with
  | .value _ => true
  | _ => false

def Pending.nested : Pending → Bool
  | bson _ => true
  | array _ => true
  | _ => false

namespace Caller

def level : Caller → Level
  | object f => .object f.named f.type.nested f.buffer.length
  | array _ _ => .array
  | quoted stringChar _ escaped f => .quoted stringChar escaped f.named f.buffer.length

/-- The level of a call that waits for a value. -/
def waiting : Caller → Level
  | object f => .object f.named true f.buffer.length
  | caller => caller.level

/-- The call without its string. -/
def base : Caller → Caller
  | quoted _ _ _ f => object f
  | caller => caller

end Caller

/-- Documents are called in documents and in arrays, arrays in documents. -/
inductive Stacked (created : Bool) : List Caller → Prop where
  | bottom (result : BSONArrayObj) : Stacked created [.array created result]
  | array {f : Frame} {outer : List Caller} (result : BSONArrayObj)
      (h : Stacked created (.object f :: outer)) :
      Stacked created (.array true result :: .object f :: outer)
  | object {f : Frame} {outer : List Caller} (hphase : f.phase ≠ .nothing)
      (h : Stacked created outer) : Stacked created (.object f :: outer)

section stack
variable (atof : CString → UInt64) (c : CString)

/-- The callers go on with what the innermost of them is given. -/
def resume : List Caller → BSONObj ⊕ BSONArrayObj → ℕ → Parsing Unit
  | .object f :: outer, .inl bson, x => do
    let x ← next x
    let r ← (calls atof c).parseBSON { f with type := .bson bson } x
    resume outer (.inl r.1) r.2
  | .object f :: outer, .inr array, x => do
    let b ← charAt c x
    let r ← field atof c (calls atof c) { f with type := .array array } b x
    resume outer (.inl r.1) r.2
  | .array created result :: outer, .inl bson, x =>
    if created then do
      let r ← (calls atof c).parseArray created (addItem bson result) x
      resume outer (.inr r.1) r.2
    else .undefined
  | _, _, _ => .value ()

/-- The innermost call goes on, and then its callers. -/
def run (outer : List Caller) : Caller → ℕ → Parsing Unit
  | .object f, x => do
    let r ← (calls atof c).parseBSON f x
    resume atof c outer (.inl r.1) r.2
  | .array created result, x => do
    let r ← (calls atof c).parseArray created result x
    resume atof c outer (.inr r.1) r.2
  | .quoted stringChar startPos escaped f, x => do
    let r ← collect c stringChar startPos (c.bytes.drop x) escaped f.buffer x
    let x ← next r.2
    let r ← (calls atof c).parseBSON { f with buffer := r.1, type := .string } x
    resume atof c outer (.inl r.1) r.2

theorem run_object (f : Frame) (outer : List Caller) (x : ℕ) :
    run atof c outer (.object f) x = parseBSONRound atof c (calls atof c) f x >>=
      fun r => resume atof c outer (.inl r.1) r.2 := by
  rw [run, parseBSON_eq]

theorem run_array (created : Bool) (result : BSONArrayObj) (outer : List Caller) (x : ℕ) :
    run atof c outer (.array created result) x =
      parseArrayRound c (calls atof c) created result x >>=
        fun r => resume atof c outer (.inr r.1) r.2 := by
  rw [run, parseArray_eq]

theorem resume_object (f : Frame) (outer : List Caller) (bson : BSONObj) (x : ℕ) :
    resume atof c (.object f :: outer) (.inl bson) x =
      next x >>= run atof c outer (.object { f with type := .bson bson }) := rfl

theorem resume_array (result : BSONArrayObj) (outer : List Caller) (bson : BSONObj) (x : ℕ) :
    resume atof c (.array true result :: outer) (.inl bson) x =
      run atof c outer (.array true (addItem bson result)) x := rfl

theorem resume_missing (result : BSONArrayObj) (outer : List Caller) (bson : BSONObj) (x : ℕ) :
    resume atof c (.array false result :: outer) (.inl bson) x = .undefined := rfl

end stack

/-! ## A character -/

section step
variable {atof : CString → UInt64} {c : CString} {created : Bool} {x : ℕ} {b : UInt8}
variable {f : Frame} {outer : List Caller}

/-- The calls go on behind the character as the step of the scan says. -/
def Follows (atof : CString → UInt64) (c : CString) (created : Bool) (x : ℕ)
    (p : Parsing Unit) : Except Scan (List Level) → Prop
  | .error verdict => p.Safe ↔ verdict.Clean c.length created
  | .ok levels => ∃ cur outer, levels = Caller.level cur :: outer.map Caller.waiting ∧
      Stacked created (cur.base :: outer) ∧ p = next x >>= run atof c outer cur

theorem follows_ok {p : Parsing Unit} (cur : Caller) (h : Stacked created (cur.base :: outer))
    (hp : p = next x >>= run atof c outer cur) :
    Follows atof c created x p (.ok (cur.level :: outer.map Caller.waiting)) :=
  ⟨cur, outer, rfl, h, hp⟩

theorem follows_overruns {p : Parsing Unit} (h : p = .undefined) :
    Follows atof c created x p (.error .overruns) := by
  rw [h]
  exact Iff.rfl

theorem nested_typeAt (f : Frame) (b : UInt8) :
    (f.typeAt b).nested = (f.type.nested && !(f.named && b = 46)) := by
  unfold Frame.typeAt Frame.named
  cases f.phase with
  | value name =>
    dsimp only
    split_ifs with hpoint
    · rw [hpoint]
      cases f.type <;> rfl
    · rw [decide_eq_false hpoint]
      cases f.type <;> rfl
  | _ => cases f.type <;> rfl

/-- Where a value may not fit, the scan checks the same. -/
theorem room_bind (len : ℕ) (levels : Except Scan (List Level)) :
    (room (lenBuffer c) len >>= fun _ => levels) =
      if (len : ℤ) < lenBuffer c then levels else .error .overruns := by
  unfold room
  split_ifs with hroom
  · rfl
  · rfl

theorem follows_character (hphase : f.phase ≠ .nothing) (h : Stacked created outer) :
    Follows atof c created x
      (character c (calls atof c) f b x >>= fun r => resume atof c outer (.inl r.1) r.2)
      (stepCharacter (lenBuffer c) b f.named f.type.nested f.buffer.length
        (outer.map Caller.waiting)) := by
  unfold character stepCharacter
  split_ifs with hcolon hquote hblank
  · rw [room_bind, text_bind]
    split_ifs with hroom
    · exact follows_ok (.object ⟨f.res, .value (CString.ofBytes f.buffer), [], .long64⟩)
        (.object nofun h) (Parsing.bind_assoc _ _ _)
    · exact follows_overruns rfl
  · refine ⟨.quoted b (x + 1) false f, outer, rfl, .object hphase h, ?_⟩
    rw [Parsing.bind_assoc, next_bind, next_bind]
    split_ifs with hx
    · rw [Parsing.bind_assoc]
      refine congrArg _ (funext fun r => ?_)
      exact Parsing.bind_assoc _ _ _
    · rfl
  · exact ⟨.object f, outer, rfl, .object hphase h, Parsing.bind_assoc _ _ _⟩
  · rw [room_bind, push_bind]
    split_ifs with hroom
    · refine ⟨.object { f with buffer := f.buffer ++ [b], type := f.typeAt b }, outer, ?_,
        .object hphase h, Parsing.bind_assoc _ _ _⟩
      rw [Caller.level, nested_typeAt, List.length_append]
      rfl
    · exact follows_overruns rfl

theorem array_step (result : BSONArrayObj) (hb : c.bytes[x]? = some b) (hbracket : b ≠ 93)
    (hbrace : b ≠ 123) :
    run atof c outer (.array created result) x =
      next x >>= run atof c outer (.array created result) := by
  rw [run_array, parseArrayRound, hb]
  dsimp only
  rw [if_neg hbracket, if_neg hbrace, Parsing.bind_assoc]
  rfl

/-- A document that ends is handed to its caller. -/
theorem follows_closed (hb : c.bytes[x]? = some 125) (h : Stacked created outer) (res : BSONObj) :
    Follows atof c created x (resume atof c outer (.inl res) x)
      (closed created (outer.map Caller.waiting)) := by
  cases h with
  | bottom result =>
    cases created with
    | true =>
      rw [resume_array]
      exact follows_ok (.array true _) (.bottom _) (array_step _ hb (by decide) (by decide))
    | false =>
      rw [resume_missing]
      exact Iff.rfl
  | array result h =>
    rw [resume_array]
    exact follows_ok (.array true _) (.array _ h) (array_step _ hb (by decide) (by decide))
  | @object f outer hphase h =>
    rw [resume_object]
    exact follows_ok (.object { f with type := .bson res }) (.object hphase h) rfl

theorem content_of_room (atof : CString → UInt64) {type : Pending} {buffer : List UInt8}
    (h : type.nested = true ∨ (buffer.length : ℤ) < lenBuffer c) :
    ∃ value, type.content atof c buffer = .value value := by
  cases type with
  | bson value => exact ⟨_, rfl⟩
  | array value => exact ⟨_, rfl⟩
  | _ =>
    rw [Pending.content, text_bind, if_pos (h.resolve_left Bool.false_ne_true)]
    exact ⟨_, rfl⟩

theorem content_of_full {type : Pending} {buffer : List UInt8} (hnested : type.nested = false)
    (h : ¬ (buffer.length : ℤ) < lenBuffer c) :
    type.content atof c buffer = .undefined := by
  cases type with
  | bson value => cases hnested
  | array value => cases hnested
  | _ => rw [Pending.content, text_bind, if_neg h]

theorem follows_endField (hb : c.bytes[x]? = some b) (name : CString)
    (h : Stacked created outer) :
    Follows atof c created x
      (endField atof c (calls atof c) f name b x >>= fun r => resume atof c outer (.inl r.1) r.2)
      (stepEnd (lenBuffer c) created b f.type.nested f.buffer.length
        (outer.map Caller.waiting)) := by
  unfold endField stepEnd
  by_cases hroom : f.type.nested = true ∨ (f.buffer.length : ℤ) < lenBuffer c
  · rcases content_of_room atof hroom with ⟨value, hvalue⟩
    rw [hvalue, if_pos hroom, Parsing.value_bind]
    by_cases hbrace : b = 125
    · subst hbrace
      exact follows_closed hb h _
    · rw [if_pos hbrace, if_neg hbrace]
      exact follows_ok (.object ⟨f.res.add name value, .name, [], .long64⟩) (.object nofun h)
        (Parsing.bind_assoc _ _ _)
  · rw [if_neg hroom]
    rw [not_or, Bool.not_eq_true] at hroom
    rw [content_of_full hroom.1 hroom.2]
    exact follows_overruns rfl

theorem follows_field (hb : c.bytes[x]? = some b) (hphase : f.phase ≠ .nothing)
    (h : Stacked created outer) :
    Follows atof c created x
      (field atof c (calls atof c) f b x >>= fun r => resume atof c outer (.inl r.1) r.2)
      (stepField (lenBuffer c) created b f.named f.type.nested f.buffer.length
        (outer.map Caller.waiting)) := by
  have hcharacter : Follows atof c created x _ _ := follows_character (b := b) hphase h
  unfold field stepField
  cases hf : f.phase with
  | nothing => exact absurd hf hphase
  | name =>
    have hnamed : f.named = false := by rw [Frame.named, hf]
    rw [hnamed] at hcharacter ⊢
    dsimp only
    rw [if_neg Bool.false_ne_true]
    split_ifs with hbrace
    · subst hbrace
      exact follows_closed hb h _
    · exact hcharacter
  | value name =>
    have hnamed : f.named = true := by rw [Frame.named, hf]
    rw [hnamed] at hcharacter ⊢
    dsimp only
    rw [if_pos rfl]
    split_ifs with hend
    · exact follows_endField hb name h
    · exact hcharacter

/-- A document is opened at a brace. -/
theorem follows_start (hb : c.bytes[x]? = some 123) (h : Stacked created outer) :
    Follows atof c created x (run atof c outer (.object .start) x)
      (opened (lenBuffer c) (outer.map Caller.waiting)) := by
  rw [run_object, parseBSONRound, hb]
  change Follows atof c created x ((clear c >>= fun _ => _) >>= _) _
  unfold opened clear
  by_cases hcap : 0 ≤ lenBuffer c
  · rw [if_pos hcap, if_pos hcap]
    exact follows_ok (.object ⟨.empty, .name, [], .long64⟩) (.object nofun h)
      (Parsing.bind_assoc (next x) _ _)
  · rw [if_neg hcap, if_neg hcap]
    exact follows_overruns rfl

theorem run_document {name : CString} (hb : c.bytes[x]? = some 123) (hf : f.phase = .value name) :
    run atof c outer (.object f) x = run atof c (.object f :: outer) (.object .start) x := by
  rw [run_object, parseBSONRound, hb, hf]
  dsimp only
  rw [if_pos rfl, Parsing.bind_assoc]
  refine congrArg _ (funext fun r => ?_)
  rw [← hf]
  exact Parsing.bind_assoc _ _ _

theorem run_item {cr : Bool} (result : BSONArrayObj) (hb : c.bytes[x]? = some 123) :
    run atof c outer (.array cr result) x =
      run atof c (.array cr result :: outer) (.object .start) x := by
  rw [run_array, parseArrayRound, hb]
  dsimp only
  rw [if_neg (by decide), if_pos rfl, Parsing.bind_assoc]
  refine congrArg _ (funext fun r => ?_)
  cases cr with
  | true => rfl
  | false => rfl

theorem run_bracket (hb : c.bytes[x]? = some 91) :
    run atof c outer (.object f) x =
      next x >>= run atof c (.object f :: outer) (.array true .empty) := by
  rw [← array_step .empty hb (by decide) (by decide), run_object, parseBSONRound, hb]
  dsimp only
  rw [if_neg (by decide), if_pos rfl, Parsing.bind_assoc]
  refine congrArg _ (funext fun r => ?_)
  exact Parsing.bind_assoc _ _ _

theorem follows_object (hb : c.bytes[x]? = some b) (hphase : f.phase ≠ .nothing)
    (h : Stacked created outer) :
    Follows atof c created x (run atof c outer (.object f) x)
      (stepObject (lenBuffer c) created b f.named f.type.nested f.buffer.length
        (outer.map Caller.waiting)) := by
  unfold stepObject
  split_ifs with hbrace hnamed hbracket
  · subst hbrace
    cases hf : f.phase with
    | nothing => exact absurd hf hphase
    | name => rw [Frame.named, hf] at hnamed; cases hnamed
    | value name =>
      have hstart : Follows atof c created x _ _ := follows_start hb (.object hphase h)
      rw [List.map_cons, Caller.waiting, hnamed] at hstart
      rw [run_document hb hf, hnamed]
      exact hstart
  · subst hbrace
    cases hf : f.phase with
    | nothing => exact absurd hf hphase
    | name =>
      rw [run_object, parseBSONRound, hb, hf]
      exact Iff.rfl
    | value name => exact absurd (by rw [Frame.named, hf]) hnamed
  · subst hbracket
    rw [run_bracket hb]
    exact follows_ok (.array true .empty) (.array _ (.object hphase h)) rfl
  · rw [run_object, parseBSONRound, hb]
    dsimp only
    rw [if_neg hbrace, if_neg hbracket]
    exact follows_field hb hphase h

/-- The bracket that ends an array is kept. -/
theorem stepField_bracket (cap : ℤ) (created named : Bool) (len : ℕ) (outer : List Level) :
    stepField cap created 93 named true len outer = room cap len >>= fun _ =>
      .ok (.object named true (len + 1) :: outer) := by
  cases named <;> rfl

theorem resume_element (hb : c.bytes[x]? = some b) (array : BSONArrayObj) :
    resume atof c (.object f :: outer) (.inr array) x =
      field atof c (calls atof c) { f with type := .array array } b x >>=
        fun r => resume atof c outer (.inl r.1) r.2 := by
  rw [resume, charAt, hb]
  rfl

theorem follows_array (hb : c.bytes[x]? = some b) (result : BSONArrayObj) {cr : Bool}
    (h : Stacked created (.array cr result :: outer)) :
    Follows atof c created x (run atof c outer (.array cr result) x)
      (stepArray (lenBuffer c) b (outer.map Caller.waiting)) := by
  unfold stepArray
  split_ifs with hbracket hbrace
  · subst hbracket
    have hrun : run atof c outer (.array cr result) x = resume atof c outer (.inr result) x := by
      rw [run_array, parseArrayRound, hb]
      rfl
    rw [hrun]
    cases h with
    | bottom _ => exact Iff.rfl
    | @array f outer _ h =>
      cases h with
      | object hphase h =>
        rw [resume_element hb]
        have hfield : Follows atof c created x _
            (stepField (lenBuffer c) created 93 f.named true f.buffer.length _) :=
          follows_field (f := { f with type := .array result }) hb hphase h
        rw [stepField_bracket] at hfield
        exact hfield
  · subst hbrace
    rw [run_item result hb]
    exact follows_start hb h
  · exact follows_ok (.array cr result) h (array_step result hb hbracket hbrace)

theorem follows_quoted (hb : c.bytes[x]? = some b) (hphase : f.phase ≠ .nothing)
    (h : Stacked created outer) (stringChar : UInt8) (startPos : ℕ) (escaped : Bool) :
    Follows atof c created x (run atof c outer (.quoted stringChar startPos escaped f) x)
      (stepQuoted (lenBuffer c) b stringChar escaped f.named f.buffer.length
        (outer.map Caller.waiting)) := by
  rw [run, drop_of_getElem? hb, collect]
  unfold stepQuoted
  split_ifs with hopen
  · rw [room_bind, push_bind]
    split_ifs with hroom
    · refine ⟨.quoted stringChar startPos (b = 92) { f with buffer := f.buffer ++ [b] }, outer, ?_,
        .object hphase h, ?_⟩
      · rw [Caller.level, List.length_append]
        rfl
      · rw [Parsing.bind_assoc, next_bind, next_bind]
        rfl
    · exact follows_overruns rfl
  · exact follows_ok (.object { f with type := .string }) (.object hphase h) rfl

theorem run_step {cur : Caller} (hb : c.bytes[x]? = some b)
    (h : Stacked created (cur.base :: outer)) :
    Follows atof c created x (run atof c outer cur x)
      (step (lenBuffer c) created b (cur.level :: outer.map Caller.waiting)) := by
  cases cur with
  | object f =>
    cases h with
    | object hphase h => exact follows_object hb hphase h
  | array cr result => exact follows_array hb result h
  | quoted stringChar startPos escaped f =>
    cases h with
    | object hphase h => exact follows_quoted hb hphase h stringChar startPos escaped

end step

/-! ## The end of the text -/

section ends
variable {atof : CString → UInt64} {c : CString} {created : Bool} {x : ℕ}
variable {f : Frame} {outer : List Caller}

theorem parseBSON_end (hx : c.length ≤ x) (f : Frame) :
    (calls atof c).parseBSON f x = .value (f.res, x) := by
  rw [parseBSON_eq, parseBSONRound, List.getElem?_eq_none hx]

theorem parseArray_end (hx : c.length ≤ x) (created : Bool) (result : BSONArrayObj) :
    (calls atof c).parseArray created result x = .value (result, x) := by
  rw [parseArray_eq, parseArrayRound, List.getElem?_eq_none hx]

theorem run_end (hx : c.length ≤ x) (f : Frame) :
    run atof c outer (.object f) x = resume atof c outer (.inl f.res) x := by
  rw [run, parseBSON_end hx]
  rfl

theorem Stacked.ne_nil (h : Stacked created outer) : outer.map Caller.waiting ≠ [] := by
  cases h <;> nofun

theorem notMem_dropLast_waiting {levels : List Level} (hne : levels ≠ []) (f : Frame) :
    Level.array ∉ (Caller.waiting (.object f) :: levels).dropLast ↔
      Level.array ∉ levels.dropLast := by
  have hother : ¬ Level.array = Caller.waiting (.object f) := fun h => by cases h
  rw [List.dropLast_cons_of_ne_nil hne, List.mem_cons, not_or, and_iff_right hother]

theorem countP_waiting (f : Frame) (levels : List Level) :
    (Caller.waiting (.object f) :: levels).countP Level.isObject =
      levels.countP Level.isObject + 1 := List.countP_cons_of_pos rfl

/-- Behind the terminator a document returns to documents and to the outer array only. -/
theorem resume_behind (hx : c.length < x) (hsize : x < 2 ^ 31) (bson : BSONObj)
    (h : Stacked created outer) :
    (resume atof c outer (.inl bson) x).Safe ↔
      Level.array ∉ (outer.map Caller.waiting).dropLast ∧
        x + (outer.map Caller.waiting).countP Level.isObject < 2 ^ 31 ∧ created = true := by
  induction h generalizing bson x with
  | bottom result =>
    cases created with
    | true =>
      rw [resume_array, run, parseArray_end hx.le]
      exact iff_of_true True.intro ⟨List.not_mem_nil, hsize, rfl⟩
    | false =>
      rw [resume_missing]
      exact iff_of_false id fun h => Bool.false_ne_true h.2.2
  | @array f outer result h ih =>
    rw [resume_array, run, parseArray_end hx.le, Parsing.value_bind, resume, charAt,
      List.getElem?_eq_none hx.le]
    dsimp only
    rw [if_neg hx.ne']
    exact iff_of_false id fun h => h.1 List.mem_cons_self
  | @object f outer hphase h ih =>
    rw [resume_object, next_bind, List.map_cons, notMem_dropLast_waiting h.ne_nil, countP_waiting]
    split_ifs with hnext
    · rw [run_end (by omega), ih (by omega) hnext, Nat.add_assoc, Nat.add_comm 1]
    · exact iff_of_false id fun h => by omega

/-- At the terminator an array returns to a document, which keeps the terminator. -/
theorem resume_terminator (hsize : c.length < 2 ^ 31) (hlen : f.buffer.length < c.length)
    (array : BSONArrayObj) (h : Stacked created outer) :
    (resume atof c (.object f :: outer) (.inr array) c.length).Safe ↔
      Level.array ∉ (outer.map Caller.waiting).dropLast ∧
        c.length + ((outer.map Caller.waiting).countP Level.isObject + 1) < 2 ^ 31 ∧
          created = true := by
  have hroom : (f.buffer.length : ℤ) < lenBuffer c := by
    rw [lenBuffer_eq hsize]
    omega
  have hkeep : resume atof c (.object f :: outer) (.inr array) c.length =
      next c.length >>= run atof c outer
        (.object ⟨f.res, f.phase, f.buffer ++ [0], .array array⟩) := by
    rw [resume, charAt_terminator, Parsing.value_bind, field_keeps atof c _ _ _ (by decide),
      push_bind, if_pos hroom, Parsing.bind_assoc]
    cases f.phase <;> rfl
  rw [hkeep, next_bind]
  split_ifs with hnext
  · rw [run_end (by omega), resume_behind (by omega) hnext _ h, Nat.add_assoc, Nat.add_comm 1]
  · exact iff_of_false id fun h => by omega

theorem unwinds_cons (n : ℕ) (created : Bool) (a l : Level) (levels : List Level) :
    Unwinds n created (a :: l :: levels) ↔ Level.array ∉ levels.dropLast ∧
      n + (l :: levels).countP Level.isObject < 2 ^ 31 ∧ created = true := by
  have hlen : ¬ (a :: l :: levels).length = 1 := by simp
  unfold Unwinds
  rw [or_iff_right hlen]
  rfl

/-- A document that ends with the text. -/
theorem resume_ends (hsize : c.length < 2 ^ 31) (bson : BSONObj) (h : Stacked created outer)
    (hfit : Fitting c.length (outer.map Caller.waiting)) (l : Level) :
    (resume atof c outer (.inl bson) c.length).Safe ↔
      Unwinds c.length created (l :: outer.map Caller.waiting) := by
  cases h with
  | bottom result =>
    rw [List.map_cons, unwinds_cons]
    cases created with
    | true =>
      rw [resume_array, run, parseArray_end le_rfl]
      exact iff_of_true True.intro ⟨List.not_mem_nil, hsize, rfl⟩
    | false =>
      rw [resume_missing]
      exact iff_of_false id fun h => Bool.false_ne_true h.2.2
  | @array f outer result h =>
    cases h with
    | object hphase h =>
      have hlen : f.buffer.length < c.length :=
        hfit _ (List.mem_cons_of_mem _ List.mem_cons_self) rfl
      rw [resume_array, run, parseArray_end le_rfl, Parsing.value_bind,
        resume_terminator hsize hlen _ h, List.map_cons, List.map_cons, unwinds_cons,
        notMem_dropLast_waiting h.ne_nil, List.countP_cons_of_neg Bool.false_ne_true,
        countP_waiting]
  | @object f outer hphase h =>
    rw [resume_object, next_bind, List.map_cons, unwinds_cons, countP_waiting]
    split_ifs with hnext
    · rw [run_end (by omega), resume_behind (by omega) hnext _ h, Nat.add_assoc, Nat.add_comm 1]
    · exact iff_of_false id fun h => by omega

theorem run_terminator {cur : Caller} (h : Stacked created (cur.base :: outer))
    (hfit : Fitting c.length (cur.level :: outer.map Caller.waiting)) (hsize : c.length < 2 ^ 31) :
    (run atof c outer cur c.length).Safe ↔
      (scan (lenBuffer c) created [] c.length
        (cur.level :: outer.map Caller.waiting)).Clean c.length created := by
  rcases List.forall_mem_cons.1 hfit with ⟨_, houter⟩
  cases cur with
  | quoted stringChar startPos escaped f =>
    have hdrop : c.bytes.drop c.length = [] := List.drop_eq_nil_of_le le_rfl
    rw [run, hdrop]
    exact Iff.rfl
  | array cr result =>
    rw [run, parseArray_end le_rfl, Parsing.value_bind]
    cases h with
    | bottom _ => exact iff_of_true True.intro ⟨List.not_mem_nil, hsize, Or.inl rfl⟩
    | @array f outer _ h =>
      cases h with
      | object hphase h =>
        have hlen : f.buffer.length < c.length := houter _ List.mem_cons_self rfl
        refine (resume_terminator hsize hlen result h).trans ?_
        change _ ↔ Unwinds _ _ (_ :: Caller.waiting (.object f) :: outer.map Caller.waiting)
        rw [unwinds_cons, countP_waiting]
  | object f =>
    rw [run_end le_rfl]
    cases h with
    | object hphase h => exact resume_ends hsize _ h houter _

end ends

/-! ## The whole text -/

section text
variable {atof : CString → UInt64} {c : CString} {created : Bool}

theorem run_safe_iff {rest : List UInt8} {x : ℕ} {cur : Caller} {outer : List Caller}
    (hrest : c.bytes.drop x = rest) (hx : x ≤ c.length) (hsize : x < 2 ^ 31)
    (h : Stacked created (cur.base :: outer))
    (hfit : Fitting x (cur.level :: outer.map Caller.waiting)) :
    (run atof c outer cur x).Safe ↔
      (scan (lenBuffer c) created rest x (cur.level :: outer.map Caller.waiting)).Clean c.length
        created := by
  induction rest generalizing x cur outer with
  | nil =>
    obtain rfl : x = c.length := hx.antisymm (List.drop_eq_nil_iff.1 hrest)
    exact run_terminator h hfit hsize
  | cons b rest ih =>
    rcases drop_eq_cons hrest with ⟨hb, htail⟩
    have hlt : x < c.length := (List.getElem?_eq_some_iff.1 hb).1
    have hstep : Follows atof c created x _ _ := run_step hb h
    rw [scan]
    cases hnext : step (lenBuffer c) created b (cur.level :: outer.map Caller.waiting) with
    | error verdict =>
      rw [hnext] at hstep
      exact hstep
    | ok levels =>
      rw [hnext] at hstep
      rcases hstep with ⟨cur', outer', rfl, h', hrun⟩
      rw [hrun, next_bind]
      dsimp only
      split_ifs with hsize'
      · exact ih htail hlt hsize' h' (step_fits hfit hnext)
      · exact Iff.rfl

theorem run_blanks (result : BSONArrayObj) {rest : List UInt8} {x : ℕ}
    (hrest : c.bytes.drop x = rest) :
    run atof c [] (.array created result) x =
      skipBlanks rest x >>= run atof c [] (.array created result) := by
  induction rest generalizing x with
  | nil => rfl
  | cons b rest ih =>
    rw [skipBlanks]
    split_ifs with hblank
    · rcases drop_eq_cons hrest with ⟨hb, htail⟩
      rw [array_step result hb (by rw [hblank]; decide) (by rw [hblank]; decide),
        Parsing.bind_assoc, next_bind, next_bind]
      split_ifs
      · exact ih htail
      · rfl
    · rfl

/-- Whether an array is created is seen at the first character that is no blank. -/
theorem charAt_skipBlanks {rest : List UInt8} {x pos : ℕ} (hrest : c.bytes.drop x = rest)
    (hx : x ≤ c.length) (h : skipBlanks rest x = .value pos) :
    ∃ b, charAt c pos = .value b ∧ (b = 91 ↔ (rest.dropWhile (· = 32)).head? = some 91) := by
  induction rest generalizing x with
  | nil =>
    obtain rfl : x = c.length := hx.antisymm (List.drop_eq_nil_iff.1 hrest)
    cases h
    exact ⟨0, charAt_terminator c, by decide⟩
  | cons b rest ih =>
    rcases drop_eq_cons hrest with ⟨hb, htail⟩
    rw [skipBlanks] at h
    split_ifs at h with hblank
    · rw [next_bind] at h
      split_ifs at h
      subst hblank
      exact ih htail (List.getElem?_eq_some_iff.1 hb).1 h
    · cases h
      have hdrop : (b :: rest).dropWhile (· = 32) = b :: rest :=
        List.dropWhile_cons_of_neg (by rw [decide_eq_true_eq]; exact hblank)
      refine ⟨b, by rw [charAt, hb], ?_⟩
      rw [hdrop, List.head?_cons, Option.some.injEq]

theorem scan_text_ne_overruns (h : c.length < 2 ^ 31) :
    scan (lenBuffer c) created c.bytes 0 [.array] ≠ .overruns := by
  have hfit : Fitting 0 [.array] := .cons (array_fits _) fun _ h => absurd h List.not_mem_nil
  have hscan : scan (0 + c.bytes.length : ℕ) created c.bytes 0 [.array] ≠ .overruns :=
    scan_ne_overruns hfit (by rwa [Nat.zero_add])
  rwa [Nat.zero_add, ← CString.length, ← lenBuffer_eq h] at hscan

/-- The parser stays in bounds on exactly the texts that nest so. -/
theorem inBounds_iff (atof : CString → UInt64) (c : CString) :
    InBounds atof c ↔ NestsInBounds c := by
  have hrun : (run atof c [] (.array (opensArray c) .empty) 0).Safe ↔ NestsInBounds c :=
    run_safe_iff List.drop_zero (Nat.zero_le _) (by decide) (.bottom _)
      (.cons (array_fits _) fun _ h => absurd h List.not_mem_nil)
  have hblanks : run atof c [] (.array (opensArray c) .empty) 0 = _ :=
    run_blanks .empty List.drop_zero
  rw [← hrun, hblanks]
  unfold InBounds parseArray
  cases hskip : skipBlanks c.bytes 0 with
  | value pos =>
    rcases charAt_skipBlanks List.drop_zero (Nat.zero_le _) hskip with ⟨b, hb, hopens⟩
    rw [Parsing.value_bind, Parsing.value_bind, hb, Parsing.value_bind, run]
    have hcreated : decide (b = 91) = opensArray c := decide_eq_decide.2 hopens
    rw [hcreated]
    cases (calls atof c).parseArray (opensArray c) .empty pos with
    | value r => exact Iff.rfl
    | exception e => exact Iff.rfl
    | undefined => exact Iff.rfl
    | unfinished => exact Iff.rfl
  | exception e => exact Iff.rfl
  | undefined => exact Iff.rfl
  | unfinished => exact Iff.rfl

end text

/-- The text `[{"a":[{"b":[`. -/
def deepText : CString where
  bytes := [91, 123, 34, 97, 34, 58, 91, 123, 34, 98, 34, 58, 91]
  noNul := by decide

/-- The outer document goes on with the character behind the terminator. -/
theorem not_inBounds_deepText : ¬ InBounds (fun _ => 0) deepText := by
  have h : parseArray (fun _ => 0) deepText = .undefined := by decide +kernel
  unfold InBounds
  rw [h]
  exact id

end BSONParser
end Djondb
