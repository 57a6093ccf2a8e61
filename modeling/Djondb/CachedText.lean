import Djondb.BsonText

set_option autoImplicit false

/-!
# The text that `toChar` keeps

`BSONObj::toChar` keeps its text in `_cBSON` for the next call. `add` and `remove` drop the text of
their own document, but not that of the documents around it. Copies carry the texts along.
-/
namespace Djondb

/-! ## Documents with their texts -/

mutual

inductive CachedContent where
  | boolean (v : Bool)
  | int (v : Int32)
  | long (v : Int64)
  | double (bits : UInt64)
  | string (v : CString)
  | bson (v : CachedObj)
  | array (v : CachedArray)

/-- A `BSONObj`; `NULL` is a text that is not there. -/
inductive CachedObj where
  | mk (cBSON : Option (List UInt8)) (elements : CachedElements)

inductive CachedElements where
  | empty
  | field (key : CString) (content : CachedContent) (rest : CachedElements)

inductive CachedArray where
  | empty
  | item (obj : CachedObj) (rest : CachedArray)

end

@[elab_as_elim, induction_eliminator]
theorem CachedElements.fields_induction {P : CachedElements → Prop} (empty : P .empty)
    (field : ∀ key content rest, P rest → P (.field key content rest)) : ∀ e, P e
  | .empty => empty
  | .field key content rest => field key content rest (fields_induction empty field rest)

@[elab_as_elim, induction_eliminator]
theorem CachedArray.items_induction {P : CachedArray → Prop} (empty : P .empty)
    (item : ∀ obj rest, P rest → P (.item obj rest)) : ∀ a, P a
  | .empty => empty
  | .item obj rest => item obj rest (items_induction empty item rest)

mutual

/-- What a value is, without the texts. -/
def CachedContent.content : CachedContent → BSONContent
  | .boolean v => .boolean v
  | .int v => .int v
  | .long v => .long v
  | .double bits => .double bits
  | .string v => .string v
  | .bson v => .bson v.content
  | .array v => .array v.content

def CachedObj.content : CachedObj → BSONObj
  | .mk _ elements => elements.content

def CachedElements.content : CachedElements → BSONObj
  | .empty => .empty
  | .field key content rest => .field key content.content rest.content

def CachedArray.content : CachedArray → BSONArrayObj
  | .empty => .empty
  | .item obj rest => .item obj.content rest.content

end

mutual

/-- A value that has just been built. -/
def BSONContent.fresh : BSONContent → CachedContent
  | .boolean v => .boolean v
  | .int v => .int v
  | .long v => .long v
  | .double bits => .double bits
  | .string v => .string v
  | .bson o => .bson (.mk none o.freshElements)
  | .array a => .array a.fresh

def BSONObj.freshElements : BSONObj → CachedElements
  | .empty => .empty
  | .field key c rest => .field key c.fresh rest.freshElements

def BSONArrayObj.fresh : BSONArrayObj → CachedArray
  | .empty => .empty
  | .item o rest => .item (.mk none o.freshElements) rest.fresh

end

def BSONObj.fresh (o : BSONObj) : CachedObj := .mk none o.freshElements

mutual

theorem BSONContent.fresh_content : ∀ c : BSONContent, c.fresh.content = c
  | .boolean _ => rfl
  | .int _ => rfl
  | .long _ => rfl
  | .double _ => rfl
  | .string _ => rfl
  | .bson o => congrArg BSONContent.bson o.freshElements_content
  | .array a => congrArg BSONContent.array a.fresh_content

theorem BSONObj.freshElements_content : ∀ o : BSONObj, o.freshElements.content = o
  | .empty => rfl
  | .field key c rest => by
    rw [BSONObj.freshElements, CachedElements.content, c.fresh_content, rest.freshElements_content]

theorem BSONArrayObj.fresh_content : ∀ a : BSONArrayObj, a.fresh.content = a
  | .empty => rfl
  | .item o rest => by
    rw [BSONArrayObj.fresh, CachedArray.content, CachedObj.content, o.freshElements_content,
      rest.fresh_content]

end

theorem BSONObj.fresh_obj_content (o : BSONObj) : o.fresh.content = o := o.freshElements_content

section toChar
variable (formatDouble : UInt64 → List UInt8)

mutual

/-- The `switch` of `BSONObj::toChar`; a nested document keeps its text as well. -/
def CachedContent.toChar : CachedContent → Outcome (List UInt8 × CachedContent)
  | .boolean v => .value (formatBool v, .boolean v)
  | .int v => .value (formatInt v.toInt, .int v)
  | .long v => .value (formatInt v.toInt, .long v)
  | .double bits => .value (formatDouble bits, .double bits)
  | .string s => .value (quoted s, .string s)
  | .bson o => do
    let (chr, o) ← o.toChar
    .value (chr, .bson o)
  | .array a => do
    let (items, a) ← a.itemsToChar true
    .value (91 :: (items ++ [93]), .array a)

/-- `BSONObj::toChar`: the kept text, or the loop over the fields. -/
def CachedObj.toChar : CachedObj → Outcome (List UInt8 × CachedObj)
  | .mk (some cBSON) elements => .value (cBSON, .mk (some cBSON) elements)
  | .mk none elements => do
    let (result, elements) ← elements.fieldsToChar true [123]
    let result ← inBuffer (result ++ [125])
    .value (result, .mk (some result) elements)

def CachedElements.fieldsToChar :
    CachedElements → Bool → List UInt8 → Outcome (List UInt8 × CachedElements)
  | .empty, _, result => .value (result, .empty)
  | .field key c rest, first, result => do
    let result ← inBuffer (result ++ ((if first then [] else [44]) ++ keyText key))
    let (chr, c) ← c.toChar
    let result ← inBuffer (result ++ chr)
    let (result, rest) ← rest.fieldsToChar false result
    .value (result, .field key c rest)

/-- The loop of `BSONArrayObj::toChar`, into a stream without a fixed size. -/
def CachedArray.itemsToChar : CachedArray → Bool → Outcome (List UInt8 × CachedArray)
  | .empty, _ => .value ([], .empty)
  | .item o rest, first => do
    let (chr, o) ← o.toChar
    let (items, rest) ← rest.itemsToChar false
    .value ((if first then [] else [44, 32]) ++ (chr ++ items), .item o rest)

end

/-! ## What is printed and what is left -/

mutual

/-- The text that is printed for a value, with the texts that are kept inside of it. -/
def CachedContent.shown : CachedContent → List UInt8
  | .boolean v => formatBool v
  | .int v => formatInt v.toInt
  | .long v => formatInt v.toInt
  | .double bits => formatDouble bits
  | .string s => quoted s
  | .bson o => o.shown
  | .array a => 91 :: (a.itemsShown true ++ [93])

def CachedObj.shown : CachedObj → List UInt8
  | .mk (some cBSON) _ => cBSON
  | .mk none elements => 123 :: (elements.fieldsShown true ++ [125])

def CachedElements.fieldsShown : CachedElements → Bool → List UInt8
  | .empty, _ => []
  | .field key c rest, first =>
    (if first then [] else [44]) ++ (keyText key ++ (c.shown ++ rest.fieldsShown false))

def CachedArray.itemsShown : CachedArray → Bool → List UInt8
  | .empty, _ => []
  | .item o rest, first => (if first then [] else [44, 32]) ++ (o.shown ++ rest.itemsShown false)

end

mutual

/-- A value after it has been printed: every document in it keeps its text. -/
def CachedContent.printed : CachedContent → CachedContent
  | .bson o => .bson o.printed
  | .array a => .array a.printed
  | .boolean v => .boolean v
  | .int v => .int v
  | .long v => .long v
  | .double bits => .double bits
  | .string s => .string s

def CachedObj.printed : CachedObj → CachedObj
  | .mk (some cBSON) elements => .mk (some cBSON) elements
  | .mk none elements =>
    .mk (some (123 :: (elements.fieldsShown formatDouble true ++ [125]))) elements.printed

def CachedElements.printed : CachedElements → CachedElements
  | .empty => .empty
  | .field key c rest => .field key c.printed rest.printed

def CachedArray.printed : CachedArray → CachedArray
  | .empty => .empty
  | .item o rest => .item o.printed rest.printed

end

variable {formatDouble}

/-- The text and what is left, or memory outside of the buffer is written, and then the text is too
long. -/
def PrintsTo {α : Type} (outcome : Outcome (List UInt8 × α)) (text : List UInt8) (after : α) : Prop :=
  outcome = .value (text, after) ∨ outcome = .undefined ∧ MAX_BSONOBJ_BUFFER ≤ text.length

section PrintsTo
variable {α β : Type} {text text' : List UInt8} {a : α} {b : β}

theorem PrintsTo.bind {outcome : Outcome (List UInt8 × α)}
    {f : List UInt8 × α → Outcome (List UInt8 × β)} (h : PrintsTo outcome text a)
    (hle : text.length ≤ text'.length) (hf : PrintsTo (f (text, a)) text' b) :
    PrintsTo (outcome >>= f) text' b := by
  rcases h with h | ⟨h, hlen⟩
  · rw [h]
    exact hf
  · rw [h]
    exact .inr ⟨rfl, by omega⟩

theorem PrintsTo.inBuffer {f : List UInt8 → Outcome (List UInt8 × β)}
    (hle : text.length ≤ text'.length) (hf : PrintsTo (f text) text' b) :
    PrintsTo (inBuffer text >>= f) text' b := by
  rcases inBuffer_prints text with h | ⟨h, hlen⟩
  · rw [h]
    exact hf
  · rw [h]
    exact .inr ⟨rfl, by omega⟩

end PrintsTo

mutual

theorem CachedContent.toChar_prints : ∀ c : CachedContent,
    PrintsTo (c.toChar formatDouble) (c.shown formatDouble) (c.printed formatDouble)
  | .boolean _ => .inl rfl
  | .int _ => .inl rfl
  | .long _ => .inl rfl
  | .double _ => .inl rfl
  | .string _ => .inl rfl
  | .bson o => by
    unfold CachedContent.toChar CachedContent.shown CachedContent.printed
    exact o.toChar_prints.bind le_rfl (.inl rfl)
  | .array a => by
    unfold CachedContent.toChar CachedContent.shown CachedContent.printed
    refine (a.itemsToChar_prints true).bind ?_ (.inl rfl)
    rw [List.length_cons, List.length_append]
    omega

theorem CachedObj.toChar_prints : ∀ o : CachedObj,
    PrintsTo (o.toChar formatDouble) (o.shown formatDouble) (o.printed formatDouble)
  | .mk (some _) _ => .inl rfl
  | .mk none elements => by
    unfold CachedObj.toChar CachedObj.shown CachedObj.printed
    have helements := elements.fieldsToChar_prints true [123]
    refine helements.bind ?_ ?_
    · simp
    · exact PrintsTo.inBuffer (by simp) (.inl rfl)

theorem CachedElements.fieldsToChar_prints : ∀ (e : CachedElements) (first : Bool)
    (result : List UInt8), PrintsTo (e.fieldsToChar formatDouble first result)
      (result ++ e.fieldsShown formatDouble first) (e.printed formatDouble)
  | .empty, first, result => by
    rw [CachedElements.fieldsShown, List.append_nil]
    exact .inl rfl
  | .field key c rest, first, result => by
    have hrest := rest.fieldsToChar_prints false
      (result ++ ((if first then [] else [44]) ++ keyText key) ++ c.shown formatDouble)
    have hassoc : result ++ (CachedElements.field key c rest).fieldsShown formatDouble first =
        result ++ ((if first then [] else [44]) ++ keyText key) ++ c.shown formatDouble ++
          rest.fieldsShown formatDouble false := by
      rw [CachedElements.fieldsShown]
      simp only [List.append_assoc]
    rw [hassoc, CachedElements.fieldsToChar, CachedElements.printed]
    apply PrintsTo.inBuffer
    · simp only [List.length_append]
      omega
    · apply c.toChar_prints.bind
      · simp only [List.length_append]
        omega
      · apply PrintsTo.inBuffer
        · simp only [List.length_append]
          omega
        · exact hrest.bind le_rfl (.inl rfl)

theorem CachedArray.itemsToChar_prints : ∀ (a : CachedArray) (first : Bool),
    PrintsTo (a.itemsToChar formatDouble first) (a.itemsShown formatDouble first)
      (a.printed formatDouble)
  | .empty, _ => .inl rfl
  | .item o rest, first => by
    rw [CachedArray.itemsToChar, CachedArray.itemsShown, CachedArray.printed]
    apply o.toChar_prints.bind
    · simp only [List.length_append]
      omega
    · apply (rest.itemsToChar_prints false).bind
      · simp only [List.length_append]
        omega
      · exact .inl rfl

end

def CachedObj.cBSON : CachedObj → Option (List UInt8)
  | mk cBSON _ => cBSON

/-- A kept text is returned; any other is printed and kept exactly if it fits into the buffer. -/
theorem CachedObj.toChar_eq (o : CachedObj) : o.toChar formatDouble =
    if o.cBSON.isSome ∨ (o.shown formatDouble).length < MAX_BSONOBJ_BUFFER then
      .value (o.shown formatDouble, o.printed formatDouble)
    else .undefined := by
  rcases o with ⟨_ | cBSON, elements⟩
  · have hfits : ∀ r, (mk none elements).toChar formatDouble = .value r →
        r.1.length < MAX_BSONOBJ_BUFFER := by
      intro r h
      unfold CachedObj.toChar at h
      rcases Outcome.bind_eq_value.1 h with ⟨printed, -, h⟩
      rcases Outcome.bind_eq_value.1 h with ⟨result, hresult, h⟩
      unfold inBuffer at hresult
      split_ifs at hresult with hlt
      cases hresult
      cases h
      exact hlt
    have hnone : (mk none elements).cBSON.isSome = false := rfl
    rw [hnone]
    simp only [Bool.false_eq_true, false_or]
    rcases CachedObj.toChar_prints (mk none elements) with h | ⟨h, hlen⟩
    · rw [if_pos (hfits _ h), h]
    · rw [if_neg (not_lt.2 hlen), h]
  · have hsome : (mk (some cBSON) elements).cBSON.isSome = true := rfl
    rw [if_pos (.inl hsome)]
    rfl

/-! ## The size of the text -/

variable (formatDouble)

mutual

/-- How many bytes a value takes in the text. -/
def CachedContent.textSize : CachedContent → ℕ
  | .boolean v => if v then 4 else 5
  | .int v => (formatInt v.toInt).length
  | .long v => (formatInt v.toInt).length
  | .double bits => (formatDouble bits).length
  | .string s => s.length + 2
  | .bson o => o.textSize
  | .array a => a.itemsSize true + 2

def CachedObj.textSize : CachedObj → ℕ
  | .mk (some cBSON) _ => cBSON.length
  | .mk none elements => elements.fieldsSize true + 2

/-- A key stands between quotes, blanks and a colon; commas stand between fields. -/
def CachedElements.fieldsSize : CachedElements → Bool → ℕ
  | .empty, _ => 0
  | .field key c rest, first =>
    (if first then 0 else 1) + (key.length + 6) + c.textSize + rest.fieldsSize false

def CachedArray.itemsSize : CachedArray → Bool → ℕ
  | .empty, _ => 0
  | .item o rest, first => (if first then 0 else 2) + o.textSize + rest.itemsSize false

end

variable {formatDouble}

theorem keyText_length (key : CString) : (keyText key).length = key.length + 6 := by
  have hlen : key.length = key.bytes.length := rfl
  simp [keyText, quoted, hlen]

mutual

theorem CachedContent.shown_length : ∀ c : CachedContent,
    (c.shown formatDouble).length = c.textSize formatDouble
  | .boolean v => by cases v <;> rfl
  | .int _ => rfl
  | .long _ => rfl
  | .double _ => rfl
  | .string s => by
    rw [CachedContent.shown, CachedContent.textSize, quoted, List.length_cons, List.length_append]
    rfl
  | .bson o => by
    rw [CachedContent.shown, CachedContent.textSize, o.shown_length]
  | .array a => by
    rw [CachedContent.shown, CachedContent.textSize, ← a.itemsShown_length true, List.length_cons,
      List.length_append]
    rfl

theorem CachedObj.shown_length : ∀ o : CachedObj,
    (o.shown formatDouble).length = o.textSize formatDouble
  | .mk (some _) _ => rfl
  | .mk none elements => by
    rw [CachedObj.shown, CachedObj.textSize, ← elements.fieldsShown_length true, List.length_cons,
      List.length_append]
    rfl

theorem CachedElements.fieldsShown_length : ∀ (e : CachedElements) (first : Bool),
    (e.fieldsShown formatDouble first).length = e.fieldsSize formatDouble first
  | .empty, _ => rfl
  | .field key c rest, first => by
    rw [CachedElements.fieldsShown, CachedElements.fieldsSize, List.length_append,
      List.length_append, List.length_append, keyText_length, c.shown_length,
      rest.fieldsShown_length false]
    cases first <;> simp only [List.length_nil, List.length_cons, if_true, Bool.false_eq_true,
      if_false] <;> omega

theorem CachedArray.itemsShown_length : ∀ (a : CachedArray) (first : Bool),
    (a.itemsShown formatDouble first).length = a.itemsSize formatDouble first
  | .empty, _ => rfl
  | .item o rest, first => by
    rw [CachedArray.itemsShown, CachedArray.itemsSize, List.length_append, List.length_append,
      o.shown_length, rest.itemsShown_length false]
    cases first <;> simp only [List.length_nil, List.length_cons, if_true, Bool.false_eq_true,
      if_false] <;> omega

end

/-- No byte is written behind the buffer, and no assertion fails, exactly if there is a kept text or
the size of the text is below that of the buffer. -/
theorem CachedObj.toChar_inBuffer_iff (formatDouble : UInt64 → List UInt8) (o : CachedObj) :
    o.toChar formatDouble ≠ .undefined ↔
      o.cBSON.isSome = true ∨ o.textSize formatDouble < MAX_BSONOBJ_BUFFER := by
  rw [toChar_eq, o.shown_length]
  split_ifs with h
  · exact iff_of_true nofun h
  · exact iff_of_false (fun hne => hne rfl) h

/-- A string of `n` times `x`. -/
def manyX (n : ℕ) : CString where
  bytes := List.replicate n 120
  noNul h := absurd (List.eq_of_mem_replicate h) (by decide)

theorem length_manyX (n : ℕ) : (manyX n).length = n := List.length_replicate

/-- `{"a": "xx...x"}`. -/
def longText (n : ℕ) : BSONObj := .field ⟨[97], noNul_a⟩ (.string (manyX n)) .empty

theorem textSize_longText (n : ℕ) : (longText n).fresh.textSize (fun _ => []) = n + 11 := by
  change 0 + (1 + 6) + ((manyX n).length + 2) + 0 + 2 = n + 11
  rw [length_manyX]
  omega

/-- The NUL behind the closing brace is written to the byte behind the buffer. -/
theorem longText_not_inBuffer : (longText 7989).fresh.toChar (fun _ => []) = .undefined := by
  have hsize := textSize_longText 7989
  rw [CachedObj.toChar_eq, CachedObj.shown_length, hsize]
  rfl

end toChar
end Djondb
