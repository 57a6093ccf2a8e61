import Djondb.BSONBufferedObj

set_option autoImplicit false

/-!
# `toChar`

`BSONObj::toChar` prints into a buffer of a fixed size. Where the text does not fit, memory behind
the buffer is written before the assertion fails; otherwise the text is what one expects. `%f` is a
parameter. This is the first call on a document; what it keeps for the next one comes later.
-/
namespace Djondb

/-- The digits of a number in decimal notation. -/
def decimal (n : ℕ) : List UInt8 := (Nat.toDigits 10 n).map fun c => UInt8.ofNat c.toNat

/-- `%d` and `%ld`. -/
def formatInt (v : ℤ) : List UInt8 :=
  if v < 0 then 45 :: decimal v.natAbs else decimal v.natAbs

def formatBool (v : Bool) : List UInt8 := if v then [116, 114, 117, 101] else [102, 97, 108, 115, 101]

def quoted (s : CString) : List UInt8 := 34 :: (s.bytes ++ [34])

/-- `" \"%s\" : "`. -/
def keyText (key : CString) : List UInt8 := 32 :: (quoted key ++ [32, 58, 32])

def MAX_BSONOBJ_BUFFER : ℕ := 8000

/-- The text and the NUL behind it are written into the buffer. -/
def inBuffer (result : List UInt8) : Outcome (List UInt8) :=
  if result.length < MAX_BSONOBJ_BUFFER then .value result else .undefined

section toChar
variable (formatDouble : UInt64 → List UInt8)

mutual

/-- The `switch` of `BSONObj::toChar`. -/
def BSONContent.toChar : BSONContent → Outcome (List UInt8)
  | .boolean v => .value (formatBool v)
  | .int v => .value (formatInt v.toInt)
  | .long v => .value (formatInt v.toInt)
  | .double bits => .value (formatDouble bits)
  | .string s => .value (quoted s)
  | .bson o => do
    let result ← o.fieldsToChar true [123]
    inBuffer (result ++ [125])
  | .array a => do
    let items ← a.itemsToChar true
    .value (91 :: (items ++ [93]))

/-- The loop of `BSONObj::toChar` over the fields, behind `result`. -/
def BSONObj.fieldsToChar : BSONObj → Bool → List UInt8 → Outcome (List UInt8)
  | .empty, _, result => .value result
  | .field key c rest, first, result => do
    let result ← inBuffer (result ++ ((if first then [] else [44]) ++ keyText key))
    let chr ← c.toChar
    let result ← inBuffer (result ++ chr)
    rest.fieldsToChar false result

/-- The loop of `BSONArrayObj::toChar`. -/
def BSONArrayObj.itemsToChar : BSONArrayObj → Bool → Outcome (List UInt8)
  | .empty, _ => .value []
  | .item o rest, first => do
    let result ← o.fieldsToChar true [123]
    let chr ← inBuffer (result ++ [125])
    let items ← rest.itemsToChar false
    .value ((if first then [] else [44, 32]) ++ (chr ++ items))

end

def BSONObj.toChar (o : BSONObj) : Outcome (List UInt8) := do
  let result ← o.fieldsToChar formatDouble true [123]
  inBuffer (result ++ [125])

/-! ## The text -/

mutual

/-- What is to be printed for a value. -/
def BSONContent.text : BSONContent → List UInt8
  | .boolean v => formatBool v
  | .int v => formatInt v.toInt
  | .long v => formatInt v.toInt
  | .double bits => formatDouble bits
  | .string s => quoted s
  | .bson o => 123 :: (o.fieldsText true ++ [125])
  | .array a => 91 :: (a.itemsText true ++ [93])

def BSONObj.fieldsText : BSONObj → Bool → List UInt8
  | .empty, _ => []
  | .field key c rest, first =>
    (if first then [] else [44]) ++ (keyText key ++ (c.text ++ rest.fieldsText false))

def BSONArrayObj.itemsText : BSONArrayObj → Bool → List UInt8
  | .empty, _ => []
  | .item o rest, first =>
    (if first then [] else [44, 32]) ++
      ((123 :: (o.fieldsText true ++ [125])) ++ rest.itemsText false)

end

def BSONObj.text (o : BSONObj) : List UInt8 := 123 :: (o.fieldsText formatDouble true ++ [125])

variable {formatDouble}

/-- The text, or memory outside of the buffer is written, and then the text is too long. -/
def Prints (outcome : Outcome (List UInt8)) (text : List UInt8) : Prop :=
  outcome = .value text ∨ outcome = .undefined ∧ MAX_BSONOBJ_BUFFER ≤ text.length

theorem inBuffer_prints (text : List UInt8) : Prints (inBuffer text) text := by
  unfold inBuffer
  split_ifs with h
  · exact Or.inl rfl
  · exact Or.inr ⟨rfl, not_lt.1 h⟩

theorem inBuffer_bind {text text' : List UInt8} {f : List UInt8 → Outcome (List UInt8)}
    (hle : text.length ≤ text'.length) (h : Prints (f text) text') :
    Prints (inBuffer text >>= f) text' := by
  unfold inBuffer
  split_ifs with hfits
  · exact h
  · exact Or.inr ⟨rfl, by omega⟩

theorem Prints.bind {outcome : Outcome (List UInt8)} {text text' : List UInt8}
    {f : List UInt8 → Outcome (List UInt8)} (h : Prints outcome text)
    (hle : text.length ≤ text'.length) (hf : Prints (f text) text') :
    Prints (outcome >>= f) text' := by
  rcases h with h | ⟨h, hlen⟩
  · rw [h]
    exact hf
  · rw [h]
    exact Or.inr ⟨rfl, by omega⟩

mutual

theorem BSONContent.toChar_prints : ∀ c : BSONContent,
    Prints (c.toChar formatDouble) (c.text formatDouble)
  | .boolean _ => Or.inl rfl
  | .int _ => Or.inl rfl
  | .long _ => Or.inl rfl
  | .double _ => Or.inl rfl
  | .string _ => Or.inl rfl
  | .bson o => by
    unfold BSONContent.toChar BSONContent.text
    refine (o.fieldsToChar_prints true [123]).bind ?_ ?_
    · simp
    · exact inBuffer_prints _
  | .array a => by
    unfold BSONContent.toChar BSONContent.text
    refine (a.itemsToChar_prints true).bind ?_ (Or.inl rfl)
    rw [List.length_cons, List.length_append]
    omega

theorem BSONObj.fieldsToChar_prints : ∀ (o : BSONObj) (first : Bool) (result : List UInt8),
    Prints (o.fieldsToChar formatDouble first result) (result ++ o.fieldsText formatDouble first)
  | .empty, first, result => by
    rw [BSONObj.fieldsText, List.append_nil]
    exact Or.inl rfl
  | .field key c rest, first, result => by
    have hrest := rest.fieldsToChar_prints false
      (result ++ ((if first then [] else [44]) ++ keyText key) ++ c.text formatDouble)
    have hassoc : result ++ (BSONObj.field key c rest).fieldsText formatDouble first =
        result ++ ((if first then [] else [44]) ++ keyText key) ++ c.text formatDouble ++
          rest.fieldsText formatDouble false := by
      rw [BSONObj.fieldsText]
      simp only [List.append_assoc]
    rw [hassoc, BSONObj.fieldsToChar]
    apply inBuffer_bind
    · simp only [List.length_append]
      omega
    · apply c.toChar_prints.bind
      · simp only [List.length_append]
        omega
      · apply inBuffer_bind
        · simp only [List.length_append]
          omega
        · exact hrest

theorem BSONArrayObj.itemsToChar_prints : ∀ (a : BSONArrayObj) (first : Bool),
    Prints (a.itemsToChar formatDouble first) (a.itemsText formatDouble first)
  | .empty, first => Or.inl rfl
  | .item o rest, first => by
    have ho := o.fieldsToChar_prints true [123]
    rw [BSONArrayObj.itemsToChar, BSONArrayObj.itemsText]
    apply ho.bind
    · simp only [List.length_append, List.length_cons, List.length_nil]
      omega
    · apply inBuffer_bind
      · simp only [List.length_append, List.length_cons, List.length_nil]
        omega
      · apply (rest.itemsToChar_prints false).bind
        · simp only [List.length_append, List.length_cons]
          omega
        · exact Or.inl (by simp)

end

/-- `toChar` returns the text exactly if it fits into the buffer. -/
theorem BSONObj.toChar_eq (o : BSONObj) : o.toChar formatDouble =
    if (o.text formatDouble).length < MAX_BSONOBJ_BUFFER then .value (o.text formatDouble)
    else .undefined := by
  have hprints : Prints (o.toChar formatDouble) (o.text formatDouble) := by
    unfold BSONObj.toChar BSONObj.text
    refine (o.fieldsToChar_prints true [123]).bind ?_ ?_
    · simp
    · exact inBuffer_prints _
  have hfits : ∀ text, o.toChar formatDouble = .value text → text.length < MAX_BSONOBJ_BUFFER := by
    intro text h
    rcases Outcome.bind_eq_value.1 h with ⟨result, -, h⟩
    unfold inBuffer at h
    split_ifs at h with hlt
    cases h
    exact hlt
  rcases hprints with h | ⟨h, hlen⟩
  · rw [if_pos (hfits _ h), h]
  · rw [if_neg (not_lt.2 hlen), h]

end toChar
end Djondb
