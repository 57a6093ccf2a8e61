import Djondb.CachedText

set_option autoImplicit false

/-!
# When the kept text is stale

A program reads and writes a document and, through `getBSON` and `getBSONArray`, what is nested in it.
A write drops the text of its own document only. As long as no document around it keeps a text, every
kept text is the one of the current content.
-/
namespace Djondb

/-! ## Programs on a document -/

/-- `getBSON(key)`, or `getBSONArray(key)->get(index)`. -/
inductive CachedStep where
  | bson (key : CString)
  | item (key : CString) (index : ℕ)

/-- What is called on a document that has been reached. Arguments are copied with their texts. -/
inductive CachedCall where
  | add (key : CString) (val : CachedContent)
  | remove (key : CString)
  | toChar
  /-- `getBSONArray(key)->add(obj)`. -/
  | arrayAdd (key : CString) (obj : CachedObj)
  /-- `getBSONArray(key)->toChar()`. -/
  | arrayToChar (key : CString)

namespace CachedElements

/-- `std::map::erase` and `std::map::insert`. -/
def add (key : CString) (c : CachedContent) : CachedElements → CachedElements
  | empty => field key c empty
  | field k c' rest =>
    if key = k then field key c rest
    else if key < k then field key c (field k c' rest)
    else field k c' (rest.add key c)

def remove (key : CString) : CachedElements → CachedElements
  | empty => empty
  | field k c rest => if k = key then rest else field k c (rest.remove key)

/-- What happens to the value that `getContent` finds; the getters throw where there is none. -/
def modify (key : CString) (f : CachedContent → Outcome CachedContent) :
    CachedElements → Outcome CachedElements
  | empty => .exception (.keyNotFound key)
  | field k c rest =>
    if k = key then do
      let c ← f c
      .value (field k c rest)
    else do
      let rest ← rest.modify key f
      .value (field k c rest)

def getContent (key : CString) : CachedElements → Option CachedContent
  | empty => none
  | field k c rest => if k = key then some c else rest.getContent key

end CachedElements

namespace CachedArray

/-- `push_back`. -/
def add (obj : CachedObj) : CachedArray → CachedArray
  | empty => item obj empty
  | item o rest => item o (rest.add obj)

/-- What happens to an element; `at` throws behind the last one. -/
def modify (f : CachedObj → Outcome CachedObj) : ℕ → CachedArray → Outcome CachedArray
  | _, empty => .exception .outOfRange
  | 0, item o rest => do
    let o ← f o
    .value (item o rest)
  | index + 1, item o rest => do
    let rest ← rest.modify f index
    .value (item o rest)

def get : ℕ → CachedArray → Option CachedObj
  | _, empty => none
  | 0, item o _ => some o
  | index + 1, item _ rest => rest.get index

end CachedArray

namespace CachedContent

/-- `getBSON` casts a document only. -/
def onBSON (key : CString) (f : CachedObj → Outcome CachedObj) : CachedContent → Outcome CachedContent
  | bson o => do
    let o ← f o
    .value (bson o)
  | _ => .exception (.keyNotFound key)

def onBSONArray (key : CString) (f : CachedArray → Outcome CachedArray) :
    CachedContent → Outcome CachedContent
  | array a => do
    let a ← f a
    .value (array a)
  | _ => .exception (.keyNotFound key)

end CachedContent

namespace CachedObj
variable (formatDouble : UInt64 → List UInt8)

/-- The calls on the document itself. -/
def perform : CachedCall → CachedObj → Outcome CachedObj
  | .add key val, mk _ elements => .value (mk none (elements.add key val))
  | .remove key, mk _ elements => .value (mk none (elements.remove key))
  | .toChar, o => do
    let (_, o) ← o.toChar formatDouble
    .value o
  | .arrayAdd key obj, mk cBSON elements => do
    let elements ← elements.modify key
      (CachedContent.onBSONArray key fun a => .value (a.add obj))
    .value (mk cBSON elements)
  | .arrayToChar key, mk cBSON elements => do
    let elements ← elements.modify key (CachedContent.onBSONArray key fun a => do
      let (_, a) ← a.itemsToChar formatDouble true
      .value a)
    .value (mk cBSON elements)

/-- The call on the document that the getters lead to; the texts on the way stay as they are. -/
def performAt (call : CachedCall) : List CachedStep → CachedObj → Outcome CachedObj
  | [], o => o.perform formatDouble call
  | .bson key :: steps, mk cBSON elements => do
    let elements ← elements.modify key (CachedContent.onBSON key (performAt call steps))
    .value (mk cBSON elements)
  | .item key index :: steps, mk cBSON elements => do
    let elements ← elements.modify key
      (CachedContent.onBSONArray key (CachedArray.modify (performAt call steps) index))
    .value (mk cBSON elements)

/-- The document that a getter leads to. -/
def enter : CachedStep → CachedObj → Option CachedObj
  | .bson key, mk _ elements =>
    match elements.getContent key with
    | some (.bson o) => some o
    | _ => none
  | .item key index, mk _ elements =>
    match elements.getContent key with
    | some (.array a) => a.get index
    | _ => none

def docAt : List CachedStep → CachedObj → Option CachedObj
  | [], o => some o
  | step :: steps, o => (o.enter step).bind (docAt steps)

end CachedObj

/-- `toChar` leaves the content as it is. -/
def CachedCall.reads : CachedCall → Bool
  | .toChar => true
  | .arrayToChar _ => true
  | _ => false

/-- No document around the one that is written keeps a text; an array belongs to its document. -/
def CachedObj.textsDropped (call : CachedCall) : List CachedStep → CachedObj → Bool
  | [], o =>
    match call with
    | .arrayAdd _ _ => o.cBSON.isNone
    | _ => true
  | step :: steps, o =>
    call.reads || o.cBSON.isNone && (o.enter step).all (textsDropped call steps)

/-! ## Kept texts of the current content -/

section
variable (formatDouble : UInt64 → List UInt8)

mutual

/-- Every text that is kept is the text of the content, which fits into the buffer. -/
def CachedContent.Current : CachedContent → Prop
  | .bson o => o.Current
  | .array a => a.Current
  | .boolean _ => True
  | .int _ => True
  | .long _ => True
  | .double _ => True
  | .string _ => True

def CachedObj.Current : CachedObj → Prop
  | .mk cBSON elements =>
    (∀ text ∈ cBSON, text = elements.content.text formatDouble ∧
      text.length < MAX_BSONOBJ_BUFFER) ∧ elements.Current

def CachedElements.Current : CachedElements → Prop
  | .empty => True
  | .field _ c rest => c.Current ∧ rest.Current

def CachedArray.Current : CachedArray → Prop
  | .empty => True
  | .item o rest => o.Current ∧ rest.Current

end

end

section current
variable {formatDouble : UInt64 → List UInt8}

mutual

theorem BSONContent.fresh_current : ∀ c : BSONContent, c.fresh.Current formatDouble
  | .boolean _ => trivial
  | .int _ => trivial
  | .long _ => trivial
  | .double _ => trivial
  | .string _ => trivial
  | .bson o => ⟨nofun, o.freshElements_current⟩
  | .array a => a.fresh_current

theorem BSONObj.freshElements_current : ∀ o : BSONObj, o.freshElements.Current formatDouble
  | .empty => trivial
  | .field _ c rest => ⟨c.fresh_current, rest.freshElements_current⟩

theorem BSONArrayObj.fresh_current : ∀ a : BSONArrayObj, a.fresh.Current formatDouble
  | .empty => trivial
  | .item o rest => ⟨⟨nofun, o.freshElements_current⟩, rest.fresh_current⟩

end

theorem BSONObj.fresh_obj_current (o : BSONObj) : o.fresh.Current formatDouble :=
  ⟨nofun, o.freshElements_current⟩

mutual

theorem CachedContent.Current.shown_eq : ∀ {c : CachedContent}, c.Current formatDouble →
    c.shown formatDouble = c.content.text formatDouble
  | .boolean _, _ => rfl
  | .int _, _ => rfl
  | .long _, _ => rfl
  | .double _, _ => rfl
  | .string _, _ => rfl
  | .bson o, h => by
    have ho : o.Current formatDouble := h
    rw [CachedContent.shown, ho.shown_eq]
    rfl
  | .array a, h => by
    have ha : a.Current formatDouble := h
    rw [CachedContent.shown, ha.itemsShown_eq true]
    rfl

theorem CachedObj.Current.shown_eq : ∀ {o : CachedObj}, o.Current formatDouble →
    o.shown formatDouble = o.content.text formatDouble
  | .mk (some text) _, h => (h.1 text rfl).1
  | .mk none elements, h => by
    rw [CachedObj.shown, h.2.fieldsShown_eq true]
    rfl

theorem CachedElements.Current.fieldsShown_eq : ∀ {e : CachedElements}, e.Current formatDouble →
    ∀ first, e.fieldsShown formatDouble first = e.content.fieldsText formatDouble first
  | .empty, _, _ => rfl
  | .field key c rest, h, first => by
    rw [CachedElements.fieldsShown, CachedElements.content, BSONObj.fieldsText, h.1.shown_eq,
      h.2.fieldsShown_eq false]

theorem CachedArray.Current.itemsShown_eq : ∀ {a : CachedArray}, a.Current formatDouble →
    ∀ first, a.itemsShown formatDouble first = a.content.itemsText formatDouble first
  | .empty, _, _ => rfl
  | .item o rest, h, first => by
    rw [CachedArray.itemsShown, CachedArray.content, BSONArrayObj.itemsText, h.1.shown_eq,
      h.2.itemsShown_eq false]
    rfl

end

/-- The text that a call of `toChar` returns. -/
def CachedObj.toCharText (formatDouble : UInt64 → List UInt8) (o : CachedObj) :
    Outcome (List UInt8) := do
  let (chr, _) ← o.toChar formatDouble
  .value chr

/-- A document with current texts prints as one that has just been built. -/
theorem CachedObj.Current.toCharText_eq {o : CachedObj} (h : o.Current formatDouble) :
    o.toCharText formatDouble = o.content.toChar formatDouble := by
  rw [CachedObj.toCharText, CachedObj.toChar_eq, BSONObj.toChar_eq, h.shown_eq]
  have hkept : o.cBSON.isSome = true → (o.content.text formatDouble).length < MAX_BSONOBJ_BUFFER := by
    intro hsome
    rcases o with ⟨_ | text, elements⟩
    · cases hsome
    · have htext := h.1 text rfl
      change (elements.content.text formatDouble).length < _
      rw [← htext.1]
      exact htext.2
  by_cases hfits : (o.content.text formatDouble).length < MAX_BSONOBJ_BUFFER
  · rw [if_pos (.inr hfits), if_pos hfits]
    rfl
  · rw [if_neg (fun hor => hor.elim (fun hsome => hfits (hkept hsome)) hfits), if_neg hfits]
    rfl

/-! ## Writes -/

theorem CachedElements.Current.add {e : CachedElements} {c : CachedContent}
    (h : e.Current formatDouble) (hc : c.Current formatDouble) (key : CString) :
    (e.add key c).Current formatDouble := by
  induction e with
  | empty => exact ⟨hc, trivial⟩
  | field k c' rest ih =>
    rw [CachedElements.add]
    split_ifs
    · exact ⟨hc, h.2⟩
    · exact ⟨hc, h⟩
    · exact ⟨h.1, ih h.2⟩

theorem CachedElements.Current.remove {e : CachedElements} (h : e.Current formatDouble)
    (key : CString) : (e.remove key).Current formatDouble := by
  induction e with
  | empty => trivial
  | field k c rest ih =>
    rw [CachedElements.remove]
    split_ifs
    · exact h.2
    · exact ⟨h.1, ih h.2⟩

theorem CachedArray.Current.add {a : CachedArray} {o : CachedObj} (h : a.Current formatDouble)
    (ho : o.Current formatDouble) : (a.add o).Current formatDouble := by
  induction a with
  | empty => exact ⟨ho, trivial⟩
  | item o' rest ih => exact ⟨h.1, ih h.2⟩

/-- A write through a getter changes one value. -/
theorem CachedElements.modify_eq_value {key : CString}
    {f : CachedContent → Outcome CachedContent} {e e' : CachedElements}
    (h : e.modify key f = .value e') (he : e.Current formatDouble) : ∃ c c',
      e.getContent key = some c ∧ f c = .value c' ∧ c.Current formatDouble ∧
        (c'.Current formatDouble → e'.Current formatDouble) ∧
        (c'.content = c.content → e'.content = e.content) := by
  induction e generalizing e' with
  | empty => cases h
  | field k c rest ih =>
    rw [modify] at h
    split_ifs at h with hk
    · rcases Outcome.bind_eq_value.1 h with ⟨c', hc', h⟩
      cases h
      refine ⟨c, c', by rw [getContent, if_pos hk], hc', he.1, fun hc => ⟨hc, he.2⟩, ?_⟩
      intro hcontent
      rw [content, content, hcontent]
    · rcases Outcome.bind_eq_value.1 h with ⟨rest', hrest, h⟩
      cases h
      rcases ih hrest he.2 with ⟨c₀, c', hc₀, hc', hcurrent₀, hcurrent, hcontent⟩
      refine ⟨c₀, c', by rw [getContent, if_neg hk, hc₀], hc', hcurrent₀,
        fun hc => ⟨he.1, hcurrent hc⟩, ?_⟩
      intro hsame
      rw [content, content, hcontent hsame]

theorem CachedArray.modify_eq_value {index : ℕ} {f : CachedObj → Outcome CachedObj}
    {a a' : CachedArray} (h : a.modify f index = .value a') (ha : a.Current formatDouble) :
    ∃ o o', a.get index = some o ∧ f o = .value o' ∧ o.Current formatDouble ∧
      (o'.Current formatDouble → a'.Current formatDouble) ∧
      (o'.content = o.content → a'.content = a.content) := by
  induction a generalizing index a' with
  | empty => cases index <;> cases h
  | item o rest ih =>
    cases index with
    | zero =>
      rcases Outcome.bind_eq_value.1 h with ⟨o', ho', h⟩
      cases h
      refine ⟨o, o', rfl, ho', ha.1, fun ho => ⟨ho, ha.2⟩, ?_⟩
      intro hcontent
      rw [content, content, hcontent]
    | succ index =>
      rcases Outcome.bind_eq_value.1 h with ⟨rest', hrest, h⟩
      cases h
      rcases ih hrest ha.2 with ⟨o₀, o', ho₀, ho', hcurrent₀, hcurrent, hcontent⟩
      refine ⟨o₀, o', ho₀, ho', hcurrent₀, fun ho => ⟨ha.1, hcurrent ho⟩, ?_⟩
      intro hsame
      rw [content, content, hcontent hsame]

/-! ## Reads -/

mutual

theorem CachedContent.printed_content : ∀ c : CachedContent,
    (c.printed formatDouble).content = c.content
  | .boolean _ => rfl
  | .int _ => rfl
  | .long _ => rfl
  | .double _ => rfl
  | .string _ => rfl
  | .bson o => congrArg BSONContent.bson o.printed_content
  | .array a => congrArg BSONContent.array a.printed_content

theorem CachedObj.printed_content : ∀ o : CachedObj, (o.printed formatDouble).content = o.content
  | .mk (some _) _ => rfl
  | .mk none elements => elements.printed_content

theorem CachedElements.printed_content : ∀ e : CachedElements,
    (e.printed formatDouble).content = e.content
  | .empty => rfl
  | .field key c rest => by
    rw [CachedElements.printed, CachedElements.content, CachedElements.content, c.printed_content,
      rest.printed_content]

theorem CachedArray.printed_content : ∀ a : CachedArray,
    (a.printed formatDouble).content = a.content
  | .empty => rfl
  | .item o rest => by
    rw [CachedArray.printed, CachedArray.content, CachedArray.content, o.printed_content,
      rest.printed_content]

end

mutual

/-- The texts inside of what fits into the buffer fit into it too. -/
theorem CachedContent.Current.printed : ∀ {c : CachedContent}, c.Current formatDouble →
    (c.shown formatDouble).length < MAX_BSONOBJ_BUFFER → (c.printed formatDouble).Current formatDouble
  | .boolean _, _, _ => trivial
  | .int _, _, _ => trivial
  | .long _, _, _ => trivial
  | .double _, _, _ => trivial
  | .string _, _, _ => trivial
  | .bson o, h, hfits => by
    have ho : o.Current formatDouble := h
    exact ho.printed hfits
  | .array a, h, hfits => by
    have ha : a.Current formatDouble := h
    refine ha.printed true ?_
    rw [CachedContent.shown, List.length_cons, List.length_append] at hfits
    omega

theorem CachedObj.Current.printed : ∀ {o : CachedObj}, o.Current formatDouble →
    (o.shown formatDouble).length < MAX_BSONOBJ_BUFFER → (o.printed formatDouble).Current formatDouble
  | .mk (some _) _, h, _ => h
  | .mk none elements, h, hfits => by
    constructor
    · intro text htext
      cases htext
      rw [elements.printed_content]
      exact ⟨h.shown_eq, hfits⟩
    · refine h.2.printed true ?_
      rw [CachedObj.shown, List.length_cons, List.length_append] at hfits
      omega

theorem CachedElements.Current.printed : ∀ {e : CachedElements}, e.Current formatDouble →
    ∀ first, (e.fieldsShown formatDouble first).length < MAX_BSONOBJ_BUFFER →
      (e.printed formatDouble).Current formatDouble
  | .empty, _, _, _ => trivial
  | .field key c rest, h, first, hfits => by
    rw [CachedElements.fieldsShown] at hfits
    simp only [List.length_append] at hfits
    exact ⟨h.1.printed (by omega), h.2.printed false (by omega)⟩

theorem CachedArray.Current.printed : ∀ {a : CachedArray}, a.Current formatDouble →
    ∀ first, (a.itemsShown formatDouble first).length < MAX_BSONOBJ_BUFFER →
      (a.printed formatDouble).Current formatDouble
  | .empty, _, _, _ => trivial
  | .item o rest, h, first, hfits => by
    rw [CachedArray.itemsShown] at hfits
    simp only [List.length_append] at hfits
    exact ⟨h.1.printed (by omega), h.2.printed false (by omega)⟩

end

theorem CachedObj.Current.toChar {o o' : CachedObj} {text : List UInt8}
    (h : o.Current formatDouble) (hprint : o.toChar formatDouble = .value (text, o')) :
    o'.Current formatDouble ∧ o'.content = o.content := by
  rw [CachedObj.toChar_eq] at hprint
  split_ifs at hprint with hfits
  cases hprint
  refine ⟨?_, o.printed_content⟩
  rcases hfits with hkept | hfits
  · rcases o with ⟨_ | kept, elements⟩
    · cases hkept
    · exact h
  · exact h.printed hfits

/-- Every element fits into its own buffer, the array need not. -/
theorem CachedArray.Current.itemsToChar {a a' : CachedArray} {text : List UInt8} {first : Bool}
    (h : a.Current formatDouble) (hprint : a.itemsToChar formatDouble first = .value (text, a')) :
    a'.Current formatDouble ∧ a'.content = a.content := by
  induction a generalizing a' text first with
  | empty =>
    cases hprint
    exact ⟨trivial, rfl⟩
  | item o rest ih =>
    rcases Outcome.bind_eq_value.1 hprint with ⟨⟨chr, o'⟩, ho, hprint⟩
    rcases Outcome.bind_eq_value.1 hprint with ⟨⟨items, rest'⟩, hrest, hprint⟩
    cases hprint
    rcases h.1.toChar ho with ⟨ho', hcontent⟩
    rcases ih h.2 hrest with ⟨hrest', hcontents⟩
    refine ⟨⟨ho', hrest'⟩, ?_⟩
    rw [CachedArray.content, CachedArray.content, hcontent, hcontents]

/-! ## One call -/

/-- The documents that a call copies keep current texts. -/
def CachedCall.ArgumentCurrent (formatDouble : UInt64 → List UInt8) : CachedCall → Prop
  | .add _ val => val.Current formatDouble
  | .arrayAdd _ obj => obj.Current formatDouble
  | _ => True

/-- What a call leaves: current texts, and for a call that reads the same content. -/
def CachedObj.Left (formatDouble : UInt64 → List UInt8) (reads : Bool) (o o' : CachedObj) : Prop :=
  o'.Current formatDouble ∧ (reads = true → o'.content = o.content)

/-- The text of a document can stay where none is kept or the call reads. -/
theorem CachedObj.Current.modify {cBSON : Option (List UInt8)} {elements elements' : CachedElements}
    {key : CString} {f : CachedContent → Outcome CachedContent} {reads : Bool}
    (h : (CachedObj.mk cBSON elements).Current formatDouble)
    (hmodify : elements.modify key f = .value elements') (htexts : reads = true ∨ cBSON = none)
    (hf : ∀ c c', elements.getContent key = some c → f c = .value c' → c.Current formatDouble →
      c'.Current formatDouble ∧ (reads = true → c'.content = c.content)) :
    (CachedObj.mk cBSON elements).Left formatDouble reads (.mk cBSON elements') := by
  rcases CachedElements.modify_eq_value hmodify h.2 with ⟨c, c', hget, hc', hc, hcurrent, hcontent⟩
  rcases hf c c' hget hc' hc with ⟨hleft, hsame⟩
  refine ⟨⟨fun text htext => ?_, hcurrent hleft⟩, fun hreads => hcontent (hsame hreads)⟩
  rcases htexts with hreads | hnone
  · rw [hcontent (hsame hreads)]
    exact h.1 text htext
  · rw [hnone] at htext
    cases htext

section calls
variable {call : CachedCall}

theorem CachedObj.Current.perform {o o' : CachedObj} (h : o.Current formatDouble)
    (harg : call.ArgumentCurrent formatDouble) (hdrop : o.textsDropped call [] = true)
    (hcall : o.perform formatDouble call = .value o') : o.Left formatDouble call.reads o' := by
  rcases o with ⟨cBSON, elements⟩
  cases call with
  | add key val =>
    cases hcall
    exact ⟨⟨nofun, h.2.add harg key⟩, nofun⟩
  | remove key =>
    cases hcall
    exact ⟨⟨nofun, h.2.remove key⟩, nofun⟩
  | toChar =>
    rcases Outcome.bind_eq_value.1 hcall with ⟨⟨text, o''⟩, hprint, hcall⟩
    cases hcall
    rcases h.toChar hprint with ⟨hcurrent, hcontent⟩
    exact ⟨hcurrent, fun _ => hcontent⟩
  | arrayAdd key obj =>
    rcases Outcome.bind_eq_value.1 hcall with ⟨elements', hmodify, hcall⟩
    cases hcall
    refine h.modify hmodify (.inr (Option.isNone_iff_eq_none.1 hdrop)) ?_
    intro c c' _ hc' hc
    cases c with
    | array a =>
      cases hc'
      exact ⟨CachedArray.Current.add hc harg, nofun⟩
    | _ => nomatch hc'
  | arrayToChar key =>
    rcases Outcome.bind_eq_value.1 hcall with ⟨elements', hmodify, hcall⟩
    cases hcall
    refine h.modify hmodify (.inl rfl) ?_
    intro c c' _ hc' hc
    cases c with
    | array a =>
      rcases Outcome.bind_eq_value.1 hc' with ⟨a', ha', hc'⟩
      cases hc'
      rcases Outcome.bind_eq_value.1 ha' with ⟨⟨text, a''⟩, hprint, ha'⟩
      cases ha'
      rcases CachedArray.Current.itemsToChar hc hprint with ⟨hcurrent, hcontent⟩
      exact ⟨hcurrent, fun _ => congrArg BSONContent.array hcontent⟩
    | _ => nomatch hc'

theorem CachedObj.textsDropped_reads (hreads : call.reads = true) (steps : List CachedStep)
    (o : CachedObj) : o.textsDropped call steps = true := by
  cases steps with
  | nil => cases call <;> first | rfl | nomatch hreads
  | cons step steps => rw [textsDropped, hreads, Bool.true_or]

/-- What the condition says about a step of the way. -/
theorem CachedObj.textsDropped_cons {step : CachedStep} {steps : List CachedStep} {o inner : CachedObj}
    (h : o.textsDropped call (step :: steps) = true) (henter : o.enter step = some inner) :
    (call.reads = true ∨ o.cBSON = none) ∧ inner.textsDropped call steps = true := by
  rw [textsDropped, Bool.or_eq_true, Bool.and_eq_true, henter, Option.all_some] at h
  rcases h with hreads | ⟨hnone, hinner⟩
  · exact ⟨.inl hreads, textsDropped_reads hreads steps inner⟩
  · exact ⟨.inr (Option.isNone_iff_eq_none.1 hnone), hinner⟩

/-- A call keeps all texts current where the documents around the one that is written keep none. -/
theorem CachedObj.Current.performAt {steps : List CachedStep} {o o' : CachedObj}
    (h : o.Current formatDouble) (harg : call.ArgumentCurrent formatDouble)
    (hdrop : o.textsDropped call steps = true)
    (hcall : o.performAt formatDouble call steps = .value o') :
    o.Left formatDouble call.reads o' := by
  induction steps generalizing o o' with
  | nil => exact h.perform harg hdrop hcall
  | cons step steps ih =>
    rcases o with ⟨cBSON, elements⟩
    cases step with
    | bson key =>
      rcases Outcome.bind_eq_value.1 hcall with ⟨elements', hmodify, hcall⟩
      cases hcall
      rcases CachedElements.modify_eq_value hmodify h.2 with ⟨c, c', hget, hc', -⟩
      cases c with
      | bson inner =>
        have henter : (CachedObj.mk cBSON elements).enter (.bson key) = some inner := by
          rw [CachedObj.enter, hget]
        rcases CachedObj.textsDropped_cons hdrop henter with ⟨htexts, hinner⟩
        refine h.modify hmodify htexts ?_
        intro c₀ c₀' hget₀ hc₀' hc
        obtain rfl := Option.some.inj (hget.symm.trans hget₀)
        rcases Outcome.bind_eq_value.1 hc₀' with ⟨inner', hinner', hc₀'⟩
        cases hc₀'
        rcases ih hc hinner hinner' with ⟨hcurrent, hcontent⟩
        exact ⟨hcurrent, fun hreads => congrArg BSONContent.bson (hcontent hreads)⟩
      | _ => nomatch hc'
    | item key index =>
      rcases Outcome.bind_eq_value.1 hcall with ⟨elements', hmodify, hcall⟩
      cases hcall
      rcases CachedElements.modify_eq_value hmodify h.2 with ⟨c, c', hget, hc', hcurrent, -⟩
      cases c with
      | array a =>
        rcases Outcome.bind_eq_value.1 hc' with ⟨a', ha', -⟩
        rcases CachedArray.modify_eq_value ha' hcurrent with ⟨inner, inner', hitem, -⟩
        have henter : (CachedObj.mk cBSON elements).enter (.item key index) = some inner := by
          rw [CachedObj.enter, hget]
          exact hitem
        rcases CachedObj.textsDropped_cons hdrop henter with ⟨htexts, hinner⟩
        refine h.modify hmodify htexts ?_
        intro c₀ c₀' hget₀ hc₀' hc
        obtain rfl := Option.some.inj (hget.symm.trans hget₀)
        rcases Outcome.bind_eq_value.1 hc₀' with ⟨b, hb, hc₀'⟩
        cases hc₀'
        rcases CachedArray.modify_eq_value hb hc with
          ⟨o₀, o₀', hitem₀, ho₀', ho₀, hcurrent₀, hcontent₀⟩
        obtain rfl := Option.some.inj (hitem.symm.trans hitem₀)
        rcases ih ho₀ hinner ho₀' with ⟨hleft, hcontent⟩
        exact ⟨hcurrent₀ hleft,
          fun hreads => congrArg BSONContent.array (hcontent₀ (hcontent hreads))⟩
      | _ => nomatch hc'

end calls

/-! ## Programs -/

theorem CachedElements.Current.getContent {e : CachedElements} {key : CString} {c : CachedContent}
    (h : e.Current formatDouble) (hget : e.getContent key = some c) : c.Current formatDouble := by
  induction e with
  | empty => cases hget
  | field k c' rest ih =>
    rw [CachedElements.getContent] at hget
    split_ifs at hget
    · rw [← Option.some.inj hget]
      exact h.1
    · exact ih h.2 hget

theorem CachedArray.Current.get {a : CachedArray} {index : ℕ} {o : CachedObj}
    (h : a.Current formatDouble) (hget : a.get index = some o) : o.Current formatDouble := by
  induction a generalizing index with
  | empty => cases index <;> cases hget
  | item o' rest ih =>
    cases index with
    | zero =>
      cases hget
      exact h.1
    | succ index => exact ih h.2 hget

theorem CachedObj.Current.enter {o inner : CachedObj} {step : CachedStep}
    (h : o.Current formatDouble) (henter : o.enter step = some inner) :
    inner.Current formatDouble := by
  rcases o with ⟨cBSON, elements⟩
  cases step with
  | bson key =>
    rw [CachedObj.enter] at henter
    split at henter
    · rename_i hget
      cases henter
      exact h.2.getContent hget
    · cases henter
  | item key index =>
    rw [CachedObj.enter] at henter
    split at henter
    · rename_i hget
      exact CachedArray.Current.get (h.2.getContent hget) henter
    · cases henter

theorem CachedObj.Current.docAt {steps : List CachedStep} {o inner : CachedObj}
    (h : o.Current formatDouble) (hat : o.docAt steps = some inner) :
    inner.Current formatDouble := by
  induction steps generalizing o with
  | nil =>
    cases hat
    exact h
  | cons step steps ih =>
    rcases Option.bind_eq_some_iff.1 hat with ⟨next, henter, hat⟩
    exact ih (h.enter henter) hat

/-- The documents of a program whose writes find the texts of the documents around dropped. What is
added comes from such documents as well, and is no part of what the call removes. -/
inductive CachedObj.Made (formatDouble : UInt64 → List UInt8) : CachedObj → Prop
  | built (o : BSONObj) : Made formatDouble o.fresh
  /-- A copy of a document that the getters lead to. -/
  | copy (steps : List CachedStep) {o inner : CachedObj} : Made formatDouble o →
    o.docAt steps = some inner → Made formatDouble inner
  | remove (steps : List CachedStep) (key : CString) {o o' : CachedObj} : Made formatDouble o →
    o.textsDropped (.remove key) steps = true →
    o.performAt formatDouble (.remove key) steps = .value o' → Made formatDouble o'
  | addBSON (steps : List CachedStep) (key : CString) {o o' val : CachedObj} :
    Made formatDouble o → Made formatDouble val →
    o.textsDropped (.add key (.bson val)) steps = true →
    o.performAt formatDouble (.add key (.bson val)) steps = .value o' → Made formatDouble o'
  /-- A plain value, an array or a document that is the field `key'` somewhere. -/
  | addContent (steps : List CachedStep) (key key' : CString) {o o' : CachedObj}
    {cBSON : Option (List UInt8)} {elements : CachedElements} {val : CachedContent} :
    Made formatDouble o → Made formatDouble (.mk cBSON elements) →
    elements.getContent key' = some val → o.textsDropped (.add key val) steps = true →
    o.performAt formatDouble (.add key val) steps = .value o' → Made formatDouble o'
  | arrayAdd (steps : List CachedStep) (key : CString) {o o' val : CachedObj} :
    Made formatDouble o → Made formatDouble val →
    o.textsDropped (.arrayAdd key val) steps = true →
    o.performAt formatDouble (.arrayAdd key val) steps = .value o' → Made formatDouble o'
  | read (steps : List CachedStep) (call : CachedCall) {o o' : CachedObj} : Made formatDouble o →
    call.reads = true → o.performAt formatDouble call steps = .value o' → Made formatDouble o'

/-- A call that reads copies nothing. -/
theorem CachedCall.argumentCurrent_reads {call : CachedCall} (h : call.reads = true) :
    call.ArgumentCurrent formatDouble := by
  cases call with
  | add key val => nomatch h
  | arrayAdd key obj => nomatch h
  | _ => trivial

theorem CachedObj.Made.current {o : CachedObj} (h : o.Made formatDouble) : o.Current formatDouble := by
  induction h with
  | built o => exact o.fresh_obj_current
  | copy steps _ hat ih => exact ih.docAt hat
  | remove steps key _ hdrop hcall ih =>
    have harg : (CachedCall.remove key).ArgumentCurrent formatDouble := trivial
    exact (ih.performAt harg hdrop hcall).1
  | @addBSON steps key o o' val _ _ hdrop hcall ih ihval =>
    have harg : (CachedCall.add key (.bson val)).ArgumentCurrent formatDouble := ihval
    exact (ih.performAt harg hdrop hcall).1
  | @addContent steps key key' o o' cBSON elements val _ _ hget hdrop hcall ih ihval =>
    have harg : (CachedCall.add key val).ArgumentCurrent formatDouble := ihval.2.getContent hget
    exact (ih.performAt harg hdrop hcall).1
  | @arrayAdd steps key o o' val _ _ hdrop hcall ih ihval =>
    have harg : (CachedCall.arrayAdd key val).ArgumentCurrent formatDouble := ihval
    exact (ih.performAt harg hdrop hcall).1
  | read steps call _ hreads hcall ih =>
    have harg : call.ArgumentCurrent formatDouble := CachedCall.argumentCurrent_reads hreads
    exact (ih.performAt harg (CachedObj.textsDropped_reads hreads _ _) hcall).1

/-- `toChar` prints such a document as one with the same content that has just been built. -/
theorem CachedObj.Made.toChar_fresh {o : CachedObj} (h : o.Made formatDouble) :
    o.toCharText formatDouble = o.content.fresh.toCharText formatDouble := by
  rw [h.current.toCharText_eq, (BSONObj.fresh_obj_current o.content).toCharText_eq,
    BSONObj.fresh_obj_content]

end current

/-! ## A stale text -/

/-- `{"a": {}}`. -/
def nestedEmpty : BSONObj := .field ⟨[97], noNul_a⟩ (.bson .empty) .empty

/-- `getBSON("a")->toChar()`, `getBSON("a")->add("b", true)`, and then `toChar()`. -/
theorem nestedEmpty_toChar : ∃ o₁ o₂,
    nestedEmpty.fresh.performAt (fun _ => []) .toChar [.bson ⟨[97], by decide⟩] = .value o₁ ∧
    o₁.performAt (fun _ => []) (.add ⟨[98], by decide⟩ (.boolean true))
      [.bson ⟨[97], by decide⟩] = .value o₂ ∧
    o₂.toCharText (fun _ => []) = o₂.content.fresh.toCharText fun _ => [] := by
  refine ⟨_, _, rfl, rfl, CachedObj.Made.toChar_fresh ?_⟩
  have hbuilt : nestedEmpty.fresh.Made fun _ => [] := .built nestedEmpty
  have hread := CachedObj.Made.read [.bson ⟨[97], by decide⟩] .toChar hbuilt rfl rfl
  have hvalue : (BSONObj.field ⟨[98], by decide⟩ (.boolean true) .empty).fresh.Made fun _ => [] :=
    .built _
  exact .addContent [.bson ⟨[97], by decide⟩] ⟨[98], by decide⟩ ⟨[98], by decide⟩ hread hvalue rfl rfl
    rfl

/-- After `toChar()`, `getBSON("a")->add("b", true)` leaves the text `{ "a" : {}}`. -/
theorem nestedEmpty_stale : ∃ o₁ o₂,
    nestedEmpty.fresh.performAt (fun _ => []) .toChar [] = .value o₁ ∧
    o₁.performAt (fun _ => []) (.add ⟨[98], by decide⟩ (.boolean true))
      [.bson ⟨[97], by decide⟩] = .value o₂ ∧
    o₂.toCharText (fun _ => []) ≠ o₂.content.fresh.toCharText fun _ => [] := by
  refine ⟨_, _, rfl, rfl, ?_⟩
  decide

end Djondb
