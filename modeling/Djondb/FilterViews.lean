import Djondb.FilterExpression

set_option autoImplicit false

/-!
# Filters on the two representations

The outcome of a filter depends on the document only through the outcomes of its paths. A path
has the same outcome on `BSONObj` and on the view unless it ends at a nested document, which the
view enters once more, or comes past a field whose type is looked up under another key.
-/
namespace Djondb
open Bytes

/-! ## Evaluation depends on the paths -/

theorem Outcome.bind_assoc {α β γ : Type} (x : Outcome α) (f : α → Outcome β)
    (g : β → Outcome γ) : ((x >>= f) >>= g) = (x >>= fun a => f a >>= g) := by
  cases x <;> rfl

/-- The result of a path, as `SimpleExpression` has it. -/
def FilterDocument.simple (bson : FilterDocument) (xpath : CString) : Outcome ExpressionResult := do
  let content ← bson.getXpath xpath
  evalContent content

namespace BaseExpression

/-- The paths that are followed; the operand of `exists` is a key. -/
def xpaths : BaseExpression → List CString
  | constant _ => []
  | simple expression => [expression]
  | unary .FO_NOT expression => expression.xpaths
  | unary .FO_EXISTS _ => []
  | binary _ left right => left.xpaths ++ right.xpaths

theorem eval_simple (bson : FilterDocument) (xpath : CString) :
    (simple xpath).eval bson = (do
      let result ← bson.simple xpath
      Outcome.value (some result)) := by
  rw [FilterDocument.simple, Outcome.bind_assoc]
  rfl

/-- The evaluation of a path keeps its outcome. -/
theorem result_injective {x y : Outcome ExpressionResult}
    (h : (do let result ← x; Outcome.value (some result)) =
      (do let result ← y; Outcome.value (some result))) : x = y := by
  cases x <;> cases y <;> cases h <;> rfl

theorem eval_congr (e : BaseExpression) {b1 b2 : FilterDocument} (hhas : b1.has = b2.has)
    (h : ∀ p ∈ e.xpaths, b1.simple p = b2.simple p) : e.eval b1 = e.eval b2 := by
  induction e with
  | constant value => rfl
  | simple xpath => rw [eval_simple, eval_simple, h xpath (by simp [xpaths])]
  | unary oper e ih =>
    cases oper with
    | FO_NOT =>
      have he := ih h
      rw [eval, eval, he]
    | FO_EXISTS =>
      rw [eval, eval]
      cases e with
      | simple xpath => rw [existsExpression, existsExpression, hhas]
      | _ => rfl
  | binary oper left right ihl ihr =>
    have hl := ihl fun p hp => h p (List.mem_append_left _ hp)
    have hr := ihr fun p hp => h p (List.mem_append_right _ hp)
    rw [eval, eval, hl, hr]

/-- The fields that an expression looks at: its paths and the keys of `exists`. -/
def fields : BaseExpression → List CString
  | constant _ => []
  | simple expression => [expression]
  | unary _ expression => expression.fields
  | binary _ left right => left.fields ++ right.fields

/-- Other fields do not matter. -/
theorem eval_congr_fields (e : BaseExpression) {b1 b2 : FilterDocument}
    (h : ∀ p ∈ e.fields, b1.simple p = b2.simple p ∧ b1.has p = b2.has p) :
    e.eval b1 = e.eval b2 := by
  induction e with
  | constant value => rfl
  | simple xpath => rw [eval_simple, eval_simple, (h xpath (by simp [fields])).1]
  | unary oper e ih =>
    cases oper with
    | FO_NOT =>
      have he := ih h
      rw [eval, eval, he]
    | FO_EXISTS =>
      rw [eval, eval]
      cases e with
      | simple xpath => rw [existsExpression, existsExpression, (h xpath (by simp [fields])).2]
      | _ => rfl
  | binary oper left right ihl ihr =>
    have hl := ihl fun p hp => h p (List.mem_append_left _ hp)
    have hr := ihr fun p hp => h p (List.mem_append_right _ hp)
    rw [eval, eval, hl, hr]

end BaseExpression

/-! ## One content -/

/-- The result type of a content; documents and arrays have none. -/
def BSONTYPE.resultType : BSONTYPE → Option RESULT_TYPE
  | BOOL_TYPE => some .RT_BOOLEAN
  | INT_TYPE => some .RT_INT
  | LONG_TYPE => some .RT_LONG
  | LONG64_TYPE => some .RT_LONG
  | DOUBLE_TYPE => some .RT_DOUBLE
  | PTRCHAR_TYPE => some .RT_PTRCHAR
  | STRING_TYPE => some .RT_PTRCHAR
  | NULL_TYPE => some .RT_NULL
  | BSON_TYPE => none
  | BSONARRAY_TYPE => none
  | UNKNOWN_TYPE => none

theorem evalContent_type {content : Content} {r : ExpressionResult}
    (h : evalContent (some content) = .value r) : content.type.resultType = some r.type := by
  rw [evalContent] at h
  cases ht : content.type with
  | NULL_TYPE =>
    rw [ht] at h
    cases h
    rfl
  | BSON_TYPE =>
    rw [ht] at h
    cases h
  | BSONARRAY_TYPE =>
    rw [ht] at h
    cases h
  | UNKNOWN_TYPE =>
    rw [ht] at h
    cases h
  | _ =>
    rw [ht] at h
    rcases Outcome.bind_eq_value.1 h with ⟨v, -, hv⟩
    cases hv
    rfl

/-- The result of a field of a document. -/
def BSONContent.result : BSONContent → Option ExpressionResult
  | boolean v => some (.boolean v)
  | int v => some (.int v)
  | long v => some (.long v)
  | double bits => some (.double bits)
  | string s => some (.ptrchar s.bytes)
  | bson _ => none
  | array _ => none

/-- A result, or the exception on documents and arrays. -/
def supported : Option ExpressionResult → Outcome ExpressionResult
  | some r => .value r
  | none => .exception .unsupportedType

theorem evalContent_content (c : BSONContent) : evalContent (some c.content) = supported c.result := by
  cases c <;> rfl

theorem BSONContent.result_type (c : BSONContent) :
    c.result.map ExpressionResult.type = c.type.resultType := by
  cases c <;> rfl

/-- The type of the content that a result of this type comes from. -/
def RESULT_TYPE.contentType : RESULT_TYPE → BSONTYPE
  | RT_INT => .INT_TYPE
  | RT_DOUBLE => .DOUBLE_TYPE
  | RT_LONG => .LONG_TYPE
  | RT_BOOLEAN => .BOOL_TYPE
  | RT_PTRCHAR => .PTRCHAR_TYPE
  | RT_NULL => .NULL_TYPE

theorem BSONContent.type_of_resultType {c : BSONContent} {t : RESULT_TYPE}
    (h : c.type.resultType = some t) : c.type = t.contentType := by
  cases c <;> cases h <;> rfl

/-- A content of the right type has the result of the field. -/
theorem bufferedContent_right (c : BSONContent) (tail : List UInt8) (hw : c.wf = true) :
    ∃ b, bufferedContent (c.buffered tail) c.type = .value b ∧ b.type = c.type ∧
      evalContent (some b.content) = supported c.result := by
  cases c with
  | boolean v =>
    refine ⟨_, rfl, rfl, ?_⟩
    simp only [evalContent, BSONBufferedContent.content, BSONBufferedContent.load,
      Outcome.ofOption, Outcome.value_bind, loadBool_buffered, supported, BSONContent.result]
  | int v =>
    refine ⟨_, rfl, rfl, ?_⟩
    simp only [evalContent, BSONBufferedContent.content, BSONBufferedContent.load,
      Outcome.ofOption, Outcome.value_bind, loadInt_buffered, supported, BSONContent.result]
  | long v =>
    refine ⟨_, rfl, rfl, ?_⟩
    simp only [evalContent, BSONBufferedContent.content, BSONBufferedContent.load,
      Outcome.ofOption, Outcome.value_bind, loadLong_buffered, supported, BSONContent.result]
  | double bits =>
    refine ⟨_, rfl, rfl, ?_⟩
    simp only [evalContent, BSONBufferedContent.content, BSONBufferedContent.load,
      Outcome.ofOption, Outcome.value_bind, loadDouble_buffered, supported, BSONContent.result]
  | string s =>
    have hs : s.length < 2 ^ 31 := by simpa [BSONContent.wf] using hw
    have hsplit : (BSONContent.string s).write ++ tail =
        writeInt s.length ++ (s.bytes ++ tail) := by
      rw [BSONContent.write, writeChars, List.append_assoc]
      rfl
    have hread := readAt_writeInt (word_four_natCast hs) (s.bytes ++ tail)
    have hdrop : (writeInt s.length ++ (s.bytes ++ tail)).drop 4 = s.bytes ++ tail :=
      List.drop_left' (writeInt_length _)
    have htext : BufferedValue.loadText s.length (s.bytes ++ tail) = .value s.bytes :=
      loadText_append tail s.bytes
    refine ⟨⟨.PTRCHAR_TYPE, some (.pointer (s.bytes ++ tail)), s.length⟩, ?_, rfl, ?_⟩
    · simp only [BSONContent.buffered, BSONContent.type, bufferedContent, BufferedValue.memory,
        Outcome.value_bind, hsplit, hread, hdrop, Outcome.ofOption]
    · simp only [evalContent, BSONBufferedContent.content, BSONBufferedContent.load,
        Outcome.ofOption, Outcome.value_bind, BufferedValue.memory, htext, supported,
        BSONContent.result]
  | bson o => exact ⟨_, rfl, rfl, rfl⟩
  | array a => exact ⟨_, rfl, rfl, rfl⟩

theorem bufferedContent_type {v : BufferedValue} {t : BSONTYPE} {b : BSONBufferedContent}
    (h : bufferedContent v t = .value b) : b.type = t := by
  cases t with
  | BSON_TYPE =>
    rcases Outcome.bind_eq_value.1 h with ⟨obj, -, h⟩
    cases h
    rfl
  | PTRCHAR_TYPE =>
    rcases Outcome.bind_eq_value.1 h with ⟨memory, -, h⟩
    rcases Outcome.bind_eq_value.1 h with ⟨len, -, h⟩
    cases h
    rfl
  | STRING_TYPE =>
    rcases Outcome.bind_eq_value.1 h with ⟨memory, -, h⟩
    rcases Outcome.bind_eq_value.1 h with ⟨len, -, h⟩
    cases h
    rfl
  | _ =>
    cases h
    rfl

/-- What a field reads as when the type of another one is looked up for it. -/
def misread (c0 c : BSONContent) (tail : List UInt8) : Outcome ExpressionResult := do
  let b ← bufferedContent (c.buffered tail) c0.type
  evalContent (some b.content)

section misread
variable {c0 c : BSONContent} (tail : List UInt8)

theorem misread_ne_result (hne : c0.type ≠ c.type) {r : ExpressionResult}
    (hr : c.result = some r) : misread c0 c tail ≠ .value r := by
  intro h
  rcases Outcome.bind_eq_value.1 h with ⟨b, hb, hv⟩
  have h0 : c0.type.resultType = some r.type := by
    rw [← bufferedContent_type hb]
    exact evalContent_type hv
  have hc : c.type.resultType = some r.type := by
    rw [← c.result_type, hr]
    rfl
  exact hne ((BSONContent.type_of_resultType h0).trans (BSONContent.type_of_resultType hc).symm)

theorem misread_array (h0 : c0.type = .BSONARRAY_TYPE) : misread c0 c tail = supported none := by
  rw [misread, h0]
  rfl

/-- A nested document or array is no memory to read a number or a text from. -/
theorem misread_nested (hne : c0.type ≠ c.type) (hc : c.result = none)
    (h0 : c0.type ≠ .BSONARRAY_TYPE) : misread c0 c tail = .undefined := by
  cases c with
  | bson o =>
    cases c0 with
    | bson o0 => exact absurd rfl hne
    | array a0 => exact absurd rfl h0
    | _ => rfl
  | array a =>
    cases c0 with
    | array a0 => exact absurd rfl hne
    | _ => rfl
  | _ => nomatch hc

end misread

/-! ## One path -/

def BSONObj.simpleWithin (fuel : ℕ) (xpath : CString) (o : BSONObj) : Outcome ExpressionResult :=
  evalContent ((o.getXpathWithin fuel xpath).map BSONContent.content)

def BufferedElements.simpleWithin (fuel : ℕ) (xpath : CString) (elements : BufferedElements) :
    Outcome ExpressionResult := do
  let content ← elements.getXpathWithin fuel xpath
  evalContent (some content.content)

def BSONContent.isNested (c : BSONContent) : Bool := c.result.isNone

/-- Where a path has the same outcome on both representations. -/
def BSONObj.xpathAlike : ℕ → CString → BSONObj → Bool
  | 0, _, _ => true
  | fuel + 1, xpath, o =>
    match o.getContent xpath.untilDot with
    | none => true
    | some c =>
      if (o.prefixField xpath.untilDot).map BSONContent.type = some c.type then
        match c, xpath.afterDot with
        | .bson inner, some rest => inner.xpathAlike fuel rest
        | .bson inner, none =>
          xpath.length = 0 || (inner.getContent emptyText).any BSONContent.isNested
        | _, _ => true
      else
        -- Both fail on a document taken for an array if the path names no plain value.
        c.type = .BSON_TYPE &&
          (o.prefixField xpath.untilDot).map BSONContent.type = some .BSONARRAY_TYPE &&
          (o.getXpathWithin (fuel + 1) xpath).any BSONContent.isNested

section document
variable {o : BSONObj} {xpath : CString} (fuel : ℕ)

theorem simple_missing (h : o.getContent xpath.untilDot = none) :
    o.simpleWithin (fuel + 1) xpath = .value .null := by
  rw [BSONObj.simpleWithin, BSONObj.getXpathWithin]
  cases hdot : xpath.afterDot with
  | none =>
    rw [CString.untilDot_of_none hdot] at h
    simp only [h]
    rfl
  | some rest =>
    simp only [h]
    rfl

theorem simple_leaf {c : BSONContent} (h : o.getContent xpath.untilDot = some c)
    (hc : c.type ≠ .BSON_TYPE) : o.simpleWithin (fuel + 1) xpath = supported c.result := by
  rw [← evalContent_content, BSONObj.simpleWithin, BSONObj.getXpathWithin]
  cases hdot : xpath.afterDot with
  | none =>
    rw [CString.untilDot_of_none hdot] at h
    simp only [h]
    rfl
  | some rest =>
    simp only [h]
    cases c with
    | bson inner => exact absurd rfl hc
    | _ => rfl

theorem simple_end {inner : BSONObj} (h : o.getContent xpath.untilDot = some (.bson inner))
    (hdot : xpath.afterDot = none) : o.simpleWithin (fuel + 1) xpath = supported none := by
  rw [CString.untilDot_of_none hdot] at h
  rw [BSONObj.simpleWithin, BSONObj.getXpathWithin]
  simp only [hdot, h]
  rfl

theorem simple_inner {inner : BSONObj} {rest : CString}
    (h : o.getContent xpath.untilDot = some (.bson inner)) (hdot : xpath.afterDot = some rest) :
    o.simpleWithin (fuel + 1) xpath = inner.simpleWithin fuel rest := by
  rw [BSONObj.simpleWithin, BSONObj.getXpathWithin]
  simp only [hdot, h]
  rfl

/-- On a document every path has a result or is not supported. -/
theorem simple_eq (o : BSONObj) (fuel : ℕ) (xpath : CString) :
    o.simpleWithin fuel xpath = match o.getXpathWithin fuel xpath with
      | some c => supported c.result
      | none => .value .null := by
  rw [BSONObj.simpleWithin]
  cases o.getXpathWithin fuel xpath with
  | none => rfl
  | some c => exact evalContent_content c

theorem simple_ne_undefined (o : BSONObj) (fuel : ℕ) (xpath : CString) :
    o.simpleWithin fuel xpath ≠ .undefined := by
  rw [simple_eq]
  cases o.getXpathWithin fuel xpath with
  | none => nofun
  | some c => cases hc : c.result <;> simp [supported, hc]

theorem simple_unsupported_iff (o : BSONObj) (fuel : ℕ) (xpath : CString) :
    o.simpleWithin fuel xpath = supported none ↔
      (o.getXpathWithin fuel xpath).any BSONContent.isNested = true := by
  rw [simple_eq]
  cases o.getXpathWithin fuel xpath with
  | none => simp [supported]
  | some c => cases hc : c.result <;> simp [supported, BSONContent.isNested, hc]

end document

section view
variable {o : BSONObj} {xpath : CString} (fuel : ℕ) (tail : List UInt8)

theorem getContent_buffered {key : CString} {c c0 : BSONContent} (h : o.getContent key = some c)
    (h0 : o.prefixField key = some c0) :
    ∃ tail', (o.buffered tail).getContent key = bufferedContent (c.buffered tail') c0.type := by
  rcases getValue_of_some tail h with ⟨tail', hvalue⟩
  have htype : (o.buffered tail).getType key = .value c0.type := by
    rw [getType_buffered, h0]
  refine ⟨tail', ?_⟩
  rw [BufferedElements.getContent, hvalue]
  simp only [htype, Outcome.value_bind]

theorem view_missing (h : o.getContent xpath.untilDot = none) :
    (o.buffered tail).simpleWithin (fuel + 1) xpath = .value .null := by
  have hcontent : (o.buffered tail).getContent xpath.untilDot = .value ⟨.NULL_TYPE, none, 0⟩ := by
    rw [BufferedElements.getContent, getValue_of_none tail h]
  rw [BufferedElements.simpleWithin, BufferedElements.getXpathWithin, hcontent]
  rfl

/-- A content that is not entered is evaluated. -/
theorem view_of_content {t : BSONTYPE} {v : BufferedValue}
    (h : (o.buffered tail).getContent xpath.untilDot = bufferedContent v t)
    (hstop : t = .BSON_TYPE → v.loadBSON = .undefined ∨ xpath.length = 0) :
    (o.buffered tail).simpleWithin (fuel + 1) xpath = (do
      let b ← bufferedContent v t
      evalContent (some b.content)) := by
  rw [BufferedElements.simpleWithin, BufferedElements.getXpathWithin, h]
  cases hb : bufferedContent v t with
  | value b =>
    have htype := bufferedContent_type hb
    have hleave : ¬ (b.type = .BSON_TYPE ∧ 0 < xpath.length) := by
      rintro ⟨hbson, hpos⟩
      rw [htype] at hbson
      rcases hstop hbson with hv | hzero
      · rw [hbson, bufferedContent, hv] at hb
        cases hb
      · omega
    rw [Outcome.value_bind, if_neg hleave]
  | exception e => rfl
  | undefined => rfl

theorem view_leaf {c c0 : BSONContent} (h : o.getContent xpath.untilDot = some c)
    (h0 : o.prefixField xpath.untilDot = some c0) (heq : c0.type = c.type) (hw : c.wf = true)
    (hstop : c.type = .BSON_TYPE → xpath.length = 0) :
    (o.buffered tail).simpleWithin (fuel + 1) xpath = supported c.result := by
  rcases getContent_buffered tail h h0 with ⟨tail', hcontent⟩
  rcases bufferedContent_right c tail' hw with ⟨b, hb, -, heval⟩
  rw [view_of_content fuel tail hcontent (fun ht => .inr (hstop (heq ▸ ht))), heq, hb]
  exact heval

theorem view_enters {inner : BSONObj} {c0 : BSONContent}
    (h : o.getContent xpath.untilDot = some (.bson inner))
    (h0 : o.prefixField xpath.untilDot = some c0) (heq : c0.type = .BSON_TYPE)
    (hpos : 0 < xpath.length) :
    ∃ tail', (o.buffered tail).simpleWithin (fuel + 1) xpath =
      (inner.buffered tail').simpleWithin fuel (xpath.afterDot.getD emptyText) := by
  rcases getContent_buffered tail h h0 with ⟨tail', hcontent⟩
  refine ⟨tail', ?_⟩
  rw [BufferedElements.simpleWithin, BufferedElements.getXpathWithin, hcontent, heq]
  change Outcome.bind (if _ then _ else _) _ = _
  rw [if_pos ⟨rfl, hpos⟩]
  rfl

theorem view_misreads {c c0 : BSONContent} (h : o.getContent xpath.untilDot = some c)
    (h0 : o.prefixField xpath.untilDot = some c0) (hne : c0.type ≠ c.type) :
    ∃ tail', (o.buffered tail).simpleWithin (fuel + 1) xpath = misread c0 c tail' := by
  rcases getContent_buffered tail h h0 with ⟨tail', hcontent⟩
  refine ⟨tail', view_of_content fuel tail hcontent ?_⟩
  intro hbson
  left
  cases c with
  | bson inner => exact absurd hbson hne
  | _ => rfl

end view

/-- The empty key has no other prefix than itself. -/
theorem prefixField_emptyText (o : BSONObj) :
    o.prefixField emptyText = o.getContent emptyText := by
  induction o with
  | empty => rfl
  | field k c rest ih =>
    rw [BSONObj.prefixField, BSONObj.getContent, ih]
    by_cases hk : k = emptyText
    · subst hk
      rfl
    · have hstart : k.bytes.isPrefixOf emptyText.bytes = false := by
        cases k with
        | mk bytes noNul =>
          cases bytes with
          | nil => exact absurd rfl hk
          | cons b bs => rfl
      rw [hstart, if_neg hk, if_neg Bool.false_ne_true]

theorem untilDot_emptyText : emptyText.untilDot = emptyText := rfl

/-- A nested document at the end of a path is entered for its field with the empty key. -/
theorem view_end_iff (inner : BSONObj) (fuel : ℕ) (tail : List UInt8)
    (hw : inner.fieldsWf = true) :
    (inner.buffered tail).simpleWithin (fuel + 1) emptyText = supported none ↔
      (inner.getContent emptyText).any BSONContent.isNested = true := by
  cases h : inner.getContent emptyText with
  | none =>
    rw [view_missing fuel tail (by rw [untilDot_emptyText, h])]
    simp [supported]
  | some c =>
    have h0 : inner.prefixField emptyText.untilDot = some c := by
      rw [untilDot_emptyText, prefixField_emptyText, h]
    have hkey : inner.getContent emptyText.untilDot = some c := h
    rw [view_leaf fuel tail hkey h0 rfl (BSONObj.wf_of_getContent hw h) (fun _ => rfl)]
    cases hc : c.result <;> simp [supported, BSONContent.isNested, hc]

theorem simpleWithin_iff (fuel : ℕ) (o : BSONObj) (xpath : CString) (tail : List UInt8)
    (hw : o.fieldsWf = true) (hfuel : xpath.length < fuel) :
    (o.buffered tail).simpleWithin fuel xpath = o.simpleWithin fuel xpath ↔
      o.xpathAlike fuel xpath = true := by
  induction fuel generalizing o xpath tail with
  | zero => exact absurd hfuel (Nat.not_lt_zero _)
  | succ fuel ih =>
    rw [BSONObj.xpathAlike]
    cases h : o.getContent xpath.untilDot with
    | none =>
      rw [view_missing fuel tail h, simple_missing fuel h]
      simp
    | some c =>
      rcases BSONObj.prefixField_of_getContent h with ⟨c0, h0⟩
      have hwc := BSONObj.wf_of_getContent hw h
      simp only [h0, Option.map_some, Option.some.injEq]
      split_ifs with heq
      · cases c with
        | bson inner =>
          have hwf : inner.length < 2 ^ 31 ∧ inner.fieldsWf = true := by
            simpa [BSONContent.wf] using hwc
          cases hdot : xpath.afterDot with
          | some rest =>
            have hlen := CString.length_afterDot hdot
            rcases view_enters fuel tail h h0 heq (by omega) with ⟨tail', hview⟩
            rw [hview, simple_inner fuel h hdot, hdot, Option.getD_some]
            exact ih inner rest tail' hwf.2 (by omega)
          | none =>
            rw [simple_end fuel h hdot]
            simp only [Bool.or_eq_true, decide_eq_true_eq]
            by_cases hzero : xpath.length = 0
            · rw [view_leaf fuel tail h h0 heq hwc (fun _ => hzero)]
              simp [hzero, BSONContent.result]
            · rcases view_enters fuel tail h h0 heq (by omega) with ⟨tail', hview⟩
              rw [hview, hdot, Option.getD_none]
              cases fuel with
              | zero => omega
              | succ fuel =>
                rw [view_end_iff inner fuel tail' hwf.2]
                simp [hzero]
        | _ =>
          rw [view_leaf fuel tail h h0 heq hwc (by rintro ⟨⟩), simple_leaf fuel h (by rintro ⟨⟩)]
          simp
      · rcases view_misreads fuel tail h h0 heq with ⟨tail', hview⟩
        rw [hview]
        cases hr : c.result with
        | some r =>
          have hc : c.type ≠ .BSON_TYPE := by
            intro hc
            cases c with
            | bson inner => cases hr
            | _ => cases hc
          rw [simple_leaf fuel h hc, hr]
          simp [supported, misread_ne_result tail' heq hr, hc]
        | none =>
          by_cases harray : c0.type = .BSONARRAY_TYPE
          · have hc : c.type = .BSON_TYPE := by
              cases c with
              | bson inner => rfl
              | array a => exact absurd harray heq
              | _ => cases hr
            rw [misread_array tail' harray, eq_comm, simple_unsupported_iff]
            simp [hc, harray]
          · rw [misread_nested tail' heq hr harray, eq_comm]
            simp [simple_ne_undefined, harray]

/-! ## Filters -/

/-- A path has the same outcome on the document and on the view of its encoding. -/
def BSONObj.pathAlike (o : BSONObj) (xpath : CString) : Bool := o.xpathAlike (xpath.length + 1) xpath

theorem view_simple (o : BSONObj) (tail : List UInt8) (xpath : CString) :
    (o.view tail).filterDocument.simple xpath =
      (o.buffered tail).simpleWithin (xpath.length + 1) xpath := by
  change Outcome.bind (Outcome.bind _ _) _ = Outcome.bind _ _
  exact Outcome.bind_assoc _ _ _

theorem view_simple_iff (o : BSONObj) (tail : List UInt8) (hw : o.fieldsWf = true)
    (xpath : CString) :
    (o.view tail).filterDocument.simple xpath = o.filterDocument.simple xpath ↔
      o.pathAlike xpath = true := by
  rw [view_simple]
  exact simpleWithin_iff _ o xpath tail hw (Nat.lt_succ_self _)

theorem view_has (o : BSONObj) (tail : List UInt8) :
    (o.view tail).filterDocument.has = o.filterDocument.has := by
  funext key
  exact has_buffered o tail key

/-- The filter has the same outcome on a document and on the view of its encoding. -/
def evaluatesAlike (o : BSONObj) (filter : Option BaseExpression) : Prop :=
  ∃ b, BSONBufferedObj.new (writeBSON o) = some b ∧
    evalFilter b.filterDocument filter = evalFilter o.filterDocument filter

theorem evaluatesAlike_iff_view (d : Document) (hfit : d.obj.arraysFit = true)
    (filter : Option BaseExpression) :
    evaluatesAlike d.obj filter ↔
      evalFilter (d.obj.view []).filterDocument filter = evalFilter d.obj.filterDocument filter := by
  have hview := BSONBufferedObj.new_writeBSON d.obj [] d.wf hfit
  rw [List.append_nil] at hview
  constructor
  · rintro ⟨b, hb, h⟩
    rw [hview] at hb
    cases hb
    exact h
  · intro h
    exact ⟨_, hview, h⟩

/-- The filters over some paths mean the same on both sides if and only if each path does. -/
theorem evaluatesAlike_iff (d : Document) (hfit : d.obj.arraysFit = true)
    (paths : CString → Prop) :
    (∀ filter : Option BaseExpression, (∀ e ∈ filter, ∀ p ∈ e.xpaths, paths p) →
      evaluatesAlike d.obj filter) ↔ ∀ p, paths p → d.obj.pathAlike p = true := by
  have hw := (BSONObj.wf_iff.1 d.wf).2
  constructor
  · intro h p hp
    have hsimple := h (some (.simple p)) (by simp [BaseExpression.xpaths, hp])
    rw [evaluatesAlike_iff_view d hfit, evalFilter, evalFilter, BaseExpression.eval_simple,
      BaseExpression.eval_simple] at hsimple
    exact (view_simple_iff d.obj [] hw p).1 (BaseExpression.result_injective hsimple)
  · intro h filter hfilter
    rw [evaluatesAlike_iff_view d hfit]
    cases filter with
    | none => rfl
    | some e =>
      apply BaseExpression.eval_congr
      · exact view_has d.obj []
      · intro p hp
        exact (view_simple_iff d.obj [] hw p).2 (h p (hfilter e rfl p hp))

/-- `$'b.a' > 0` on `nestedDoc`. -/
theorem evaluatesAlike_nestedDoc : evaluatesAlike nestedDoc.obj
    (some (.binary .FO_GREATERTHAN (.simple ⟨[98, 46, 97], by decide⟩) (.constant (.int 0)))) := by
  apply (evaluatesAlike_iff nestedDoc (by decide) (· = ⟨[98, 46, 97], by decide⟩)).2
  · rintro p rfl
    decide
  · intro e he p hp
    cases he
    simpa [BaseExpression.xpaths] using hp

/-- `$'b' == 1` throws on the document; the view enters `b` and finds no field there. -/
theorem not_evaluatesAlike_nestedDoc : ¬ evaluatesAlike nestedDoc.obj
    (some (.binary .FO_EQUALS (.simple ⟨[98], by decide⟩) (.constant (.int 1)))) := by
  rw [evaluatesAlike_iff_view nestedDoc (by decide)]
  decide

end Djondb
