import Djondb.HandParserRuns
import Djondb.TextRoundTrip

set_option autoImplicit false

/-!
# Integer literals

The hand-written parser tells an int from a long by its upper bound only: a long below the ints is
cut down to one.
-/
namespace Djondb
open Written BsonGrammarLexer

namespace BSONParser

def allDigits (text : List UInt8) : Bool := text ≠ [] && text.all isDigit

/-- The number that digits with or without a sign stand for. -/
def integerLiteral : List UInt8 → Option ℤ
  | 45 :: digits => if allDigits digits then some (-(digitsValue digits : ℤ)) else none
  | 43 :: digits => if allDigits digits then some (digitsValue digits) else none
  | digits => if allDigits digits then some (digitsValue digits) else none

/-- The integer of the signed 64-bit range that a scalar is written for. -/
def integerOf : Lexeme → Option ℤ
  | .word text _ => (integerLiteral text).filter fun v => -2 ^ 63 ≤ v && v < 2 ^ 63
  | .quoted _ _ _ _ => none

/-- Exactly that value, as an int when it fits 32 bits and as a long otherwise. -/
def exactInteger (v : ℤ) : BSONContent :=
  if -2 ^ 31 ≤ v ∧ v < 2 ^ 31 then .int (Int32.ofInt v) else .long (Int64.ofInt v)

theorem exactInteger_toInt {v : ℤ} (h : -2 ^ 63 ≤ v ∧ v < 2 ^ 63) :
    (∃ i : Int32, exactInteger v = .int i ∧ i.toInt = v) ∨
      ∃ l : Int64, exactInteger v = .long l ∧ l.toInt = v := by
  unfold exactInteger
  split_ifs with hint
  · exact Or.inl ⟨_, rfl, Int32.toInt_ofInt_of_le hint.1 hint.2⟩
  · exact Or.inr ⟨_, rfl, Int64.toInt_ofInt_of_le h.1 h.2⟩

/-- The reader that keeps integers, and that reads all else as the parser does. -/
def exactReading (atof : CString → UInt64) : Reader where
  value l := ((integerOf l).map exactInteger).getD ((reading atof).value l)
  commaName := (reading atof).commaName

/-- The literal is no long below the ints. -/
def NotBelow (l : Lexeme) : Prop := ∀ v, integerOf l = some v → -2 ^ 31 ≤ v

theorem forall_digits {digits : List UInt8} (h : allDigits digits = true) :
    digits ≠ [] ∧ ∀ b ∈ digits, isDigit b = true := by
  rwa [allDigits, Bool.and_eq_true, decide_eq_true_eq, List.all_eq_true] at h

theorem literal_cases {text : List UInt8} {v : ℤ} (h : integerLiteral text = some v) :
    ∃ digits, allDigits digits = true ∧ (text = 45 :: digits ∧ v = -(digitsValue digits : ℤ) ∨
      text = 43 :: digits ∧ v = digitsValue digits ∨ text = digits ∧ v = digitsValue digits) := by
  unfold integerLiteral at h
  split at h
  · split_ifs at h with hdigits
    exact ⟨_, hdigits, Or.inl ⟨rfl, (Option.some.inj h).symm⟩⟩
  · split_ifs at h with hdigits
    exact ⟨_, hdigits, Or.inr (Or.inl ⟨rfl, (Option.some.inj h).symm⟩)⟩
  · split_ifs at h with hdigits
    exact ⟨_, hdigits, Or.inr (Or.inr ⟨rfl, (Option.some.inj h).symm⟩)⟩

/-- A literal holds neither a point nor a NUL. -/
theorem notMem_literal {text : List UInt8} {v : ℤ} (h : integerLiteral text = some v) :
    46 ∉ text ∧ 0 ∉ text := by
  rcases literal_cases h with ⟨digits, hdigits, htext⟩
  have hall := (forall_digits hdigits).2
  have hpoint : 46 ∉ digits := fun hmem => ne_of_isDigit (hall _ hmem) rfl rfl
  have hnul : 0 ∉ digits := fun hmem => ne_of_isDigit (hall _ hmem) rfl rfl
  rcases htext with ⟨rfl, _⟩ | ⟨rfl, _⟩ | ⟨rfl, _⟩
  · simp [hpoint, hnul]
  · simp [hpoint, hnul]
  · exact ⟨hpoint, hnul⟩

theorem atoll_literal {text : List UInt8} {v : ℤ} (h : integerLiteral text = some v)
    (hrange : -2 ^ 63 ≤ v ∧ v < 2 ^ 63) : atoll (CString.ofBytes text) = v := by
  have hbytes : (CString.ofBytes text).bytes = text :=
    congrArg CString.bytes (CString.ofBytes_bytes ⟨text, (notMem_literal h).2⟩)
  have hclamp : max (-2 ^ 63) (min v (2 ^ 63 - 1)) = v := by omega
  rcases literal_cases h with ⟨digits, hdigits, ⟨rfl, hv⟩ | ⟨rfl, hv⟩ | ⟨rfl, hv⟩⟩
  · unfold atoll
    rw [hbytes]
    change max (-2 ^ 63) (min (-(digitsValue digits : ℤ)) (2 ^ 63 - 1)) = v
    rw [← hv]
    exact hclamp
  · unfold atoll
    rw [hbytes]
    change max (-2 ^ 63) (min (digitsValue digits : ℤ) (2 ^ 63 - 1)) = v
    rw [← hv]
    exact hclamp
  · rcases forall_digits hdigits with ⟨hne, hall⟩
    rw [atoll_digits hne hall, ← hv]
    exact hclamp

theorem integerOf_cases {l : Lexeme} {v : ℤ} (h : integerOf l = some v) :
    ∃ text hword, l = .word text hword ∧ integerLiteral text = some v ∧
      (-2 ^ 63 ≤ v ∧ v < 2 ^ 63) := by
  cases l with
  | word text hword =>
    rcases Option.filter_eq_some_iff.1 h with ⟨hliteral, hrange⟩
    rw [Bool.and_eq_true, decide_eq_true_eq, decide_eq_true_eq] at hrange
    exact ⟨text, hword, rfl, hliteral, hrange⟩
  | quoted stringChar text hquote hcloses => cases h

/-- The parser keeps an integer exactly if it is not below the ints. -/
theorem alike_iff (atof : CString → UInt64) (l : Lexeme) :
    Alike (reading atof) (exactReading atof) l ↔ NotBelow l := by
  have hexact : (exactReading atof).value l =
      ((integerOf l).map exactInteger).getD ((reading atof).value l) := rfl
  unfold Alike NotBelow
  rw [hexact]
  cases hinteger : integerOf l with
  | none => exact iff_of_true rfl fun v hv => by cases hv
  | some v =>
    rcases integerOf_cases hinteger with ⟨text, hword, rfl, hliteral, hrange⟩
    have hread : (reading atof).value (.word text hword) =
        if v ≤ 2 ^ 31 - 1 then .int (Int32.ofInt v) else .long (Int64.ofInt v) := by
      change (if 46 ∈ text then _ else longValue (CString.ofBytes text)) = _
      rw [if_neg (notMem_literal hliteral).1, longValue, atoll_literal hliteral hrange]
    have hforall : (∀ w, some v = some w → -2 ^ 31 ≤ w) ↔ -2 ^ 31 ≤ v :=
      ⟨fun h => h v rfl, fun h w hw => Option.some.inj hw ▸ h⟩
    rw [hread, hforall, Option.map_some, Option.getD_some, exactInteger]
    by_cases hlow : -2 ^ 31 ≤ v
    · refine iff_of_true ?_ hlow
      by_cases hhigh : v < 2 ^ 31
      · rw [if_pos (by omega), if_pos ⟨hlow, hhigh⟩]
      · rw [if_neg (by omega), if_neg fun h => hhigh h.2]
    · refine iff_of_false ?_ hlow
      rw [if_pos (by omega), if_neg fun h => hlow h.1]
      nofun

/-! ## Arrays of documents -/

/-- One document, with a word as its field `a`. -/
def wordItems (text : List UInt8) (h : IsWord text) : Items :=
  .item (.fields false (.quoted 34 [97] (Or.inr rfl) rfl) (.scalar (.word text h)) .empty) .empty

/-- `[{"a":`, the word and `}]`. -/
def wordBytes (text : List UInt8) : List UInt8 :=
  91 :: 123 :: 34 :: 97 :: 34 :: 58 :: (text ++ [125, 93])

theorem spells_word (text : List UInt8) (h : IsWord text) :
    Spells [] (wordItems text h).spelled (wordBytes text).tail := by
  have hend : Spells [] [tight [125], loose [93]] [125, 93] := .packed (.packed .nil)
  exact .packed (.packed (.packed (.packed hend)))

section array
variable {atof : CString → UInt64} {c : CString} {items : Items} {rest text : List UInt8}

/-- The integers of the written documents keep their values exactly if none of them that is stored is
below the ints. -/
theorem keepsIntegers_iff (hsize : c.length < 2 ^ 31) (hc : c.bytes = 91 :: text)
    (h : Spells rest items.spelled text) :
    parseArray atof c = .value (some (items.read (exactReading atof))) ↔
      items.Each NotBelow (reading atof) (exactReading atof) := by
  rw [parseArray_written hsize atof hc h, Parsing.value.injEq, Option.some.injEq,
    Items.read_eq_iff, Items.each_congr (alike_iff atof)]

end array

/-- The literal -5. -/
def minusFive : List UInt8 := [45, 53]

/-- The literal -2147483649. -/
def belowInts : List UInt8 := [45, 50, 49, 52, 55, 52, 56, 51, 54, 52, 57]

theorem minusFive_kept : parseArray (fun _ => 0) ⟨wordBytes minusFive, by decide⟩ =
    .value (some ((wordItems minusFive (.of_all rfl)).read (exactReading fun _ => 0))) := by
  have hinteger : integerOf (.word minusFive (.of_all rfl)) = some (-5) := by decide +kernel
  have hliteral : NotBelow (.word minusFive (.of_all rfl)) := by
    intro v hv
    rw [hinteger] at hv
    cases hv
    decide
  exact (keepsIntegers_iff (by decide) rfl (spells_word minusFive (.of_all rfl))).2
    ⟨⟨Or.inr ⟨rfl, hliteral⟩, True.intro⟩, True.intro⟩

/-- It is stored as the int 2147483647. -/
theorem belowInts_cut : parseArray (fun _ => 0) ⟨wordBytes belowInts, by decide⟩ ≠
    .value (some ((wordItems belowInts (.of_all rfl)).read (exactReading fun _ => 0))) := by
  decide +kernel

end BSONParser
end Djondb
