import Djondb.FilterOrder

set_option autoImplicit false

/-!
# `exists` and paths

`exists` looks its operand up as one key, while a value is found by following the path through nested
documents. On `BSONObj` the two agree on paths without a dot; the view also enters a document that
the path ends at, and makes of a field what the type that it finds for it says.
-/
namespace Djondb
open Bytes

/-! ## What a path comes to -/

/-- The path comes to a content that is no null. -/
def FilterDocument.Finds (bson : FilterDocument) (xpath : CString) : Prop :=
  ∃ content, bson.getXpath xpath = .value (some content) ∧ content.type ≠ .NULL_TYPE

/-- `exists($'p')` says whether `p` comes to a value, and `not exists($'p')` is its negation. -/
def FilterDocument.ExistsAgrees (bson : FilterDocument) (xpath : CString) : Prop :=
  ∃ b, (BaseExpression.unary .FO_EXISTS (.simple xpath)).eval bson = .value (some (.boolean b)) ∧
    (b = true ↔ bson.Finds xpath) ∧
    (BaseExpression.unary .FO_NOT (.unary .FO_EXISTS (.simple xpath))).eval bson =
      .value (some (.boolean (!b)))

theorem FilterDocument.existsAgrees_iff (bson : FilterDocument) (xpath : CString) :
    bson.ExistsAgrees xpath ↔ (bson.has xpath = true ↔ bson.Finds xpath) := by
  constructor
  · rintro ⟨b, hb, hfinds, -⟩
    cases hb
    exact hfinds
  · exact fun h => ⟨bson.has xpath, rfl, h, rfl⟩

namespace BSONObj

/-- The path ends at a field of the document, of a nested one, or inside of a plain value. -/
def endsAtWithin : ℕ → CString → BSONObj → Bool
  | 0, _, _ => false
  | fuel + 1, xpath, o =>
    match o.getContent xpath.untilDot with
    | none => false
    | some c =>
      match c, xpath.afterDot with
      | .bson inner, some rest => inner.endsAtWithin fuel rest
      | _, _ => true

def endsAt (xpath : CString) (o : BSONObj) : Bool := o.endsAtWithin (xpath.length + 1) xpath

/-- The bytes behind the value of a field, with those behind the document. -/
def following (key : CString) (tail : List UInt8) : BSONObj → List UInt8
  | empty => tail
  | field k _ rest => if k = key then rest.writeFields ++ tail else rest.following key tail

end BSONObj

/-- A value in the buffer can be taken for one of this type: a text needs the four bytes of its length,
a document has been made when the view was. -/
def BSONContent.readableAs (c : BSONContent) (following : List UInt8) : BSONTYPE → Bool
  | .BSON_TYPE => c.type = .BSON_TYPE
  | .PTRCHAR_TYPE => c.result.isSome && 4 ≤ (c.write ++ following).length
  | _ => true

/-- The same on the view, to which the first key that begins a path gives the type of a field. -/
def BSONObj.viewEndsAtWithin : ℕ → CString → BSONObj → List UInt8 → Bool
  | 0, _, _, _ => false
  | fuel + 1, xpath, o, tail =>
    match o.getContent xpath.untilDot, o.prefixField xpath.untilDot with
    | some c, some c0 =>
      if c0.type = .BSON_TYPE ∧ c.type = .BSON_TYPE ∧ 0 < xpath.length then
        match c with
        | .bson inner => inner.viewEndsAtWithin fuel (xpath.afterDot.getD emptyText)
            (o.following xpath.untilDot tail)
        | _ => false
      else c.readableAs (o.following xpath.untilDot tail) c0.type
    | _, _ => false

def BSONObj.viewEndsAt (xpath : CString) (o : BSONObj) (tail : List UInt8) : Bool :=
  o.viewEndsAtWithin (xpath.length + 1) xpath tail

/-! ## Documents -/

theorem BSONObj.getXpathWithin_isSome (fuel : ℕ) (o : BSONObj) (xpath : CString) :
    (o.getXpathWithin fuel xpath).isSome = o.endsAtWithin fuel xpath := by
  induction fuel generalizing o xpath with
  | zero => rfl
  | succ fuel ih =>
    rw [getXpathWithin, endsAtWithin]
    cases hdot : xpath.afterDot with
    | none =>
      rw [CString.untilDot_of_none hdot]
      cases o.getContent xpath with
      | none => rfl
      | some c => cases c <;> rfl
    | some rest =>
      cases o.getContent xpath.untilDot with
      | none => rfl
      | some c =>
        cases c with
        | bson inner => exact ih inner rest
        | _ => rfl

theorem BSONObj.finds_iff (o : BSONObj) (xpath : CString) :
    o.filterDocument.Finds xpath ↔ o.endsAt xpath = true := by
  have hsome := o.getXpathWithin_isSome (xpath.length + 1) xpath
  rw [BSONObj.endsAt, ← hsome, Option.isSome_iff_exists]
  constructor
  · rintro ⟨content, hcontent, -⟩
    rcases Option.map_eq_some_iff.1 (Outcome.value.inj hcontent) with ⟨c, hc, -⟩
    exact ⟨c, hc⟩
  · rintro ⟨c, hc⟩
    refine ⟨c.content, ?_, ?_⟩
    · exact congrArg Outcome.value (Option.map_eq_some_iff.2 ⟨c, hc, rfl⟩)
    · cases c <;> nofun

/-- Without a dot the path is a key. -/
theorem BSONObj.endsAt_key {xpath : CString} (o : BSONObj) (h : xpath.afterDot = none) :
    o.endsAt xpath = o.has xpath := by
  rw [endsAt, endsAtWithin, h, CString.untilDot_of_none h, BSONObj.has]
  cases o.getContent xpath with
  | none => rfl
  | some c => cases c <;> rfl

/-! ## Views -/

section view
variable {o : BSONObj} {xpath key : CString} (tail : List UInt8)

theorem getValue_following {c : BSONContent} (h : o.getContent key = some c) :
    (o.buffered tail).getValue key = some (c.buffered (o.following key tail)) := by
  induction o with
  | empty => cases h
  | field k c' rest ih =>
    rw [BSONObj.getContent] at h
    rw [BSONObj.buffered, BufferedElements.getValue, BSONObj.following]
    split_ifs at h with hk
    · rw [if_pos ((length_eq_and_strncmp_iff k key).2 hk), if_pos hk, ← Option.some.inj h]
    · rw [if_neg (mt (length_eq_and_strncmp_iff k key).1 hk), if_neg hk]
      exact ih h

theorem getContent_following {c c0 : BSONContent} (h : o.getContent key = some c)
    (h0 : o.prefixField key = some c0) : (o.buffered tail).getContent key =
      bufferedContent (c.buffered (o.following key tail)) c0.type := by
  have htype : (o.buffered tail).getType key = .value c0.type := by
    rw [getType_buffered, h0]
  rw [BufferedElements.getContent, getValue_following tail h]
  simp only [htype, Outcome.value_bind]

omit tail in
/-- A text is read where its length is. -/
theorem bufferedContent_text (memory : List UInt8) :
    (∃ b, bufferedContent (.pointer memory) .PTRCHAR_TYPE = .value b) ↔ 4 ≤ memory.length := by
  constructor
  · rintro ⟨b, hb⟩
    by_contra hshort
    have hread : readAt 4 memory = none := if_neg hshort
    rw [bufferedContent, BufferedValue.memory, Outcome.value_bind, hread] at hb
    cases hb
  · intro h
    have hread : readAt 4 memory = some (decodeWord 4 (memory.take 4)) := if_pos h
    refine ⟨⟨.PTRCHAR_TYPE, some (.pointer (memory.drop 4)), decodeWord 4 (memory.take 4)⟩, ?_⟩
    rw [bufferedContent, BufferedValue.memory, Outcome.value_bind, hread]
    rfl

theorem BSONContent.buffered_scalar {c : BSONContent} (following : List UInt8)
    (h : c.result.isSome = true) : c.buffered following = .pointer (c.write ++ following) := by
  cases c with
  | bson inner => nomatch h
  | array a => nomatch h
  | _ => rfl

theorem Outcome.ne_value {α : Type} {x : Outcome α} (h : x = .undefined) : ¬ ∃ a, x = .value a := by
  rintro ⟨a, ha⟩
  cases h.symm.trans ha

/-- The value can be taken for one of the type, or memory that is not there is read. -/
theorem bufferedContent_readable (c c0 : BSONContent) (following : List UInt8) :
    (∃ b, bufferedContent (c.buffered following) c0.type = .value b) ↔
      c.readableAs following c0.type = true := by
  cases c0 with
  | bson o0 =>
    cases c with
    | bson inner => exact iff_of_true ⟨_, rfl⟩ rfl
    | _ => exact iff_of_false (Outcome.ne_value rfl) nofun
  | string s0 =>
    change (∃ b, bufferedContent (c.buffered following) .PTRCHAR_TYPE = .value b) ↔
      (c.result.isSome && decide (4 ≤ (c.write ++ following).length)) = true
    cases hresult : c.result.isSome with
    | true =>
      rw [c.buffered_scalar following hresult, bufferedContent_text]
      simp
    | false =>
      refine iff_of_false (Outcome.ne_value ?_) Bool.false_ne_true
      cases c with
      | bson inner => rfl
      | array a => rfl
      | _ => nomatch hresult
  | _ => exact iff_of_true ⟨_, rfl⟩ rfl

/-- The content that the path comes to. -/
def BufferedElements.FindsWithin (fuel : ℕ) (xpath : CString) (elements : BufferedElements) : Prop :=
  ∃ b, elements.getXpathWithin fuel xpath = .value b ∧ b.type ≠ .NULL_TYPE

theorem findsWithin_missing (fuel : ℕ) (h : o.getContent xpath.untilDot = none) :
    ¬ (o.buffered tail).FindsWithin (fuel + 1) xpath := by
  have hcontent : (o.buffered tail).getContent xpath.untilDot = .value ⟨.NULL_TYPE, none, 0⟩ := by
    rw [BufferedElements.getContent, getValue_of_none tail h]
  rintro ⟨b, hb, htype⟩
  rw [BufferedElements.getXpathWithin, hcontent] at hb
  cases hb
  exact htype rfl

/-- A content that is not entered is found. -/
theorem findsWithin_content (fuel : ℕ) {c c0 : BSONContent}
    (h : o.getContent xpath.untilDot = some c) (h0 : o.prefixField xpath.untilDot = some c0)
    (hstop : ¬ (c0.type = .BSON_TYPE ∧ c.type = .BSON_TYPE ∧ 0 < xpath.length)) :
    (o.buffered tail).FindsWithin (fuel + 1) xpath ↔
      c.readableAs (o.following xpath.untilDot tail) c0.type = true := by
  rw [← bufferedContent_readable]
  unfold BufferedElements.FindsWithin
  rw [BufferedElements.getXpathWithin, getContent_following tail h h0]
  cases hb : bufferedContent (c.buffered (o.following xpath.untilDot tail)) c0.type with
  | value b =>
    have htype := bufferedContent_type hb
    have hleave : ¬ (b.type = .BSON_TYPE ∧ 0 < xpath.length) := by
      rintro ⟨hbson, hpos⟩
      rw [htype] at hbson
      refine hstop ⟨hbson, ?_, hpos⟩
      cases c with
      | bson inner => rfl
      | _ =>
        rw [hbson] at hb
        cases hb
    rw [Outcome.value_bind, if_neg hleave]
    refine ⟨fun _ => ⟨b, rfl⟩, fun _ => ⟨b, rfl, ?_⟩⟩
    rw [htype]
    cases c0 <;> rintro ⟨⟩
  | _ =>
    constructor
    · rintro ⟨b, hb', -⟩
      cases hb'
    · rintro ⟨b, hb'⟩
      cases hb'

theorem findsWithin_enters (fuel : ℕ) {inner : BSONObj} {c0 : BSONContent}
    (h : o.getContent xpath.untilDot = some (.bson inner))
    (h0 : o.prefixField xpath.untilDot = some c0) (heq : c0.type = .BSON_TYPE)
    (hpos : 0 < xpath.length) :
    (o.buffered tail).FindsWithin (fuel + 1) xpath ↔
      (inner.buffered (o.following xpath.untilDot tail)).FindsWithin fuel
        (xpath.afterDot.getD emptyText) := by
  unfold BufferedElements.FindsWithin
  have hcontent : (o.buffered tail).getContent xpath.untilDot =
      .value ⟨.BSON_TYPE, some ((BSONContent.bson inner).buffered (o.following xpath.untilDot tail)),
        ((BSONContent.bson inner).write.length : ℤ).bmod (2 ^ 32)⟩ := by
    rw [getContent_following tail h h0, heq]
    rfl
  rw [BufferedElements.getXpathWithin, hcontent, Outcome.value_bind, if_pos ⟨rfl, hpos⟩]
  rfl

theorem findsWithin_iff (fuel : ℕ) (o : BSONObj) (xpath : CString) (tail : List UInt8)
    (hfuel : xpath.length < fuel) :
    (o.buffered tail).FindsWithin fuel xpath ↔ o.viewEndsAtWithin fuel xpath tail = true := by
  induction fuel generalizing o xpath tail with
  | zero => exact absurd hfuel (Nat.not_lt_zero _)
  | succ fuel ih =>
    rw [BSONObj.viewEndsAtWithin]
    cases h : o.getContent xpath.untilDot with
    | none =>
      dsimp only
      simpa using findsWithin_missing tail fuel h
    | some c =>
      rcases BSONObj.prefixField_of_getContent h with ⟨c0, h0⟩
      rw [h0]
      dsimp only
      split_ifs with henter
      · rcases henter with ⟨h0type, htype, hpos⟩
        cases c with
        | bson inner =>
          rw [findsWithin_enters tail fuel h h0 h0type hpos]
          apply ih
          cases hdot : xpath.afterDot with
          | none =>
            rw [Option.getD_none]
            change 0 < fuel
            omega
          | some rest =>
            have hlen := CString.length_afterDot hdot
            rw [Option.getD_some]
            omega
        | _ => nomatch htype
      · exact findsWithin_content tail fuel h h0 henter

theorem view_finds_iff (o : BSONObj) (xpath : CString) :
    (o.view tail).filterDocument.Finds xpath ↔ o.viewEndsAt xpath tail = true := by
  rw [BSONObj.viewEndsAt, ← findsWithin_iff _ o xpath tail (Nat.lt_succ_self _)]
  constructor
  · rintro ⟨content, hcontent, htype⟩
    rcases Outcome.bind_eq_value.1 hcontent with ⟨b, hb, h⟩
    cases h
    exact ⟨b, hb, htype⟩
  · rintro ⟨b, hb, htype⟩
    exact ⟨b.content, Outcome.bind_eq_value.2 ⟨b, hb, rfl⟩, htype⟩

end view

/-! ## Both representations -/

/-- On the document, and on the view of its encoding wherever it lies in a buffer. -/
def existsAgreesOnBoth (o : BSONObj) (tail : List UInt8) (xpath : CString) : Prop :=
  o.filterDocument.ExistsAgrees xpath ∧
    ∃ b, BSONBufferedObj.new (writeBSON o ++ tail) = some b ∧ b.filterDocument.ExistsAgrees xpath

/-- A path with a dot has to be a key exactly where it comes to a value; on the view this goes for
every path. -/
theorem existsAgreesOnBoth_iff (d : Document) (hfit : d.obj.arraysFit = true) (tail : List UInt8)
    (xpath : CString) : existsAgreesOnBoth d.obj tail xpath ↔
      (xpath.afterDot = none ∨ d.obj.has xpath = d.obj.endsAt xpath) ∧
        d.obj.has xpath = d.obj.viewEndsAt xpath tail := by
  have hview := BSONBufferedObj.new_writeBSON d.obj tail d.wf hfit
  have hobj : d.obj.filterDocument.ExistsAgrees xpath ↔
      xpath.afterDot = none ∨ d.obj.has xpath = d.obj.endsAt xpath := by
    rw [FilterDocument.existsAgrees_iff, BSONObj.finds_iff]
    change (d.obj.has xpath = true ↔ _) ↔ _
    rw [← Bool.eq_iff_iff]
    constructor
    · exact .inr
    · rintro (hkey | h)
      · exact (d.obj.endsAt_key hkey).symm
      · exact h
  have hbuffered : (d.obj.view tail).filterDocument.ExistsAgrees xpath ↔
      d.obj.has xpath = d.obj.viewEndsAt xpath tail := by
    rw [FilterDocument.existsAgrees_iff, view_finds_iff, view_has]
    exact Bool.eq_iff_iff.symm
  rw [existsAgreesOnBoth, hobj, hview]
  simp [hbuffered]

/-- `a`, which is missing, and `ab`, which ends at the array. -/
theorem existsAgreesOnBoth_nestedDoc :
    existsAgreesOnBoth nestedDoc.obj [] ⟨[97, 98], by decide⟩ :=
  (existsAgreesOnBoth_iff nestedDoc (by decide) [] ⟨[97, 98], by decide⟩).2 (by decide)

/-- `b.a` is 1 in `{"ab": [{"c": true}], "b": {"a": 1}}`, but `exists($'b.a')` is false. -/
theorem not_existsAgreesOnBoth_nestedDoc :
    ¬ existsAgreesOnBoth nestedDoc.obj [] ⟨[98, 46, 97], by decide⟩ := by
  rintro ⟨h, -⟩
  rw [FilterDocument.existsAgrees_iff, BSONObj.finds_iff] at h
  revert h
  decide

end Djondb
