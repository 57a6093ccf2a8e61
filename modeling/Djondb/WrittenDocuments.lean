import Djondb.BsonObj

set_option autoImplicit false

/-!
# Documents as they are written

A text of a document, told apart into names, scalars and what nests them. What it stands for depends
on how a reader takes names and scalars; where two readers take names alike, they read the same
document if they take every value alike that is not replaced further on.
-/
namespace Djondb

namespace BSONObj

theorem add_add_self (o : BSONObj) (key : CString) (c c' : BSONContent) :
    (o.add key c).add key c' = o.add key c' := by
  induction o with
  | empty => simp [add]
  | field k v rest ih =>
    by_cases hk : key = k
    · simp [add, hk]
    · by_cases hlt : key < k
      · simp [add, hk, hlt]
      · simp [add, hk, hlt, ih]

theorem add_add_of_ne (o : BSONObj) {key key' : CString} (h : key ≠ key') (c c' : BSONContent) :
    (o.add key c).add key' c' = (o.add key' c').add key c := by
  induction o with
  | empty =>
    rcases lt_or_gt_of_ne h with hlt | hlt
    · simp [add, h, h.symm, hlt, hlt.not_gt]
    · simp [add, h, h.symm, hlt, hlt.not_gt]
  | field k v rest ih =>
    rcases lt_trichotomy key k with hk | rfl | hk
    · rcases lt_trichotomy key' k with hk' | rfl | hk'
      · rcases lt_or_gt_of_ne h with hlt | hlt
        · simp [add, h, h.symm, hk, hk', hk.ne, hk'.ne, hlt, hlt.not_gt]
        · simp [add, h, h.symm, hk, hk', hk.ne, hk'.ne, hlt, hlt.not_gt]
      · simp [add, h, h.symm, hk, hk.not_gt]
      · simp [add, h.symm, hk, hk.ne, hk'.ne', hk'.not_gt, (hk.trans hk').not_gt]
    · rcases lt_or_gt_of_ne h with hlt | hlt
      · simp [add, h.symm, hlt.not_gt]
      · simp [add, h, h.symm, hlt, hlt.not_gt]
    · rcases lt_trichotomy key' k with hk' | rfl | hk'
      · simp [add, h, hk.ne', hk.not_gt, hk', hk'.ne, (hk'.trans hk).not_gt]
      · simp [add, h, hk.not_gt]
      · simp [add, hk.ne', hk.not_gt, hk'.ne', hk'.not_gt, ih]

end BSONObj

namespace Written

/-- A character of a word. -/
def wordChar (b : UInt8) : Bool := b ∉ [123, 91, 93, 125, 44, 58, 39, 34, 32, 13, 10]

/-- A name or a scalar that has no quotes. -/
structure IsWord (text : List UInt8) : Prop where
  ne_nil : text ≠ []
  chars : ∀ b ∈ text, wordChar b = true

theorem IsWord.of_all {b : UInt8} {text : List UInt8} (h : (b :: text).all wordChar = true) :
    IsWord (b :: text) :=
  ⟨List.cons_ne_nil _ _, List.all_eq_true.1 h⟩

/-- A closing quote behind the text is the first one that no backslash stands before. -/
def closes (stringChar : UInt8) : Bool → List UInt8 → Bool
  | escaped, [] => !escaped
  | escaped, b :: rest => (b ≠ stringChar || escaped) && closes stringChar (b = 92) rest

/-- A name or a scalar. -/
inductive Lexeme where
  | word (text : List UInt8) (h : IsWord text)
  | quoted (stringChar : UInt8) (text : List UInt8) (hquote : stringChar = 39 ∨ stringChar = 34)
    (hcloses : closes stringChar false text = true)

def Lexeme.content : Lexeme → List UInt8
  | word text _ => text
  | quoted _ text _ _ => text

def Lexeme.spelled : Lexeme → List UInt8
  | word text _ => text
  | quoted stringChar text _ _ => stringChar :: (text ++ [stringChar])

mutual

inductive Value where
  | scalar (l : Lexeme)
  | document (d : Doc)
  | array (items : Items)

/-- The first field may have a comma before it. -/
inductive Doc where
  | empty
  | fields (comma : Bool) (name : Lexeme) (value : Value) (rest : Fields)

inductive Fields where
  | empty
  | field (name : Lexeme) (value : Value) (rest : Fields)

inductive Items where
  | empty
  | item (d : Doc) (rest : Items)

end

/-- The fields behind one another. -/
@[elab_as_elim, induction_eliminator]
theorem Fields.fields_induction {P : Fields → Prop} (empty : P .empty)
    (field : ∀ name value rest, P rest → P (.field name value rest)) : ∀ fs, P fs
  | .empty => empty
  | .field name value rest => field name value rest (fields_induction empty field rest)

/-! ## The text -/

/-- A piece of the text, and whether it is a part of an array and of no document in it. -/
structure Piece where
  text : List UInt8
  loose : Bool

def tight (text : List UInt8) : Piece := ⟨text, false⟩

def loose (text : List UInt8) : Piece := ⟨text, true⟩

def isBlank (b : UInt8) : Bool := b = 32 || b = 13 || b = 10

/-- What may stand in front of a piece: between the documents of an array anything but what opens a
document or ends the array. -/
def allowed (loose : Bool) (b : UInt8) : Bool := isBlank b || loose && b ≠ 93 && b ≠ 123

mutual

/-- The pieces of the text. -/
def Value.spelled : Value → List Piece
  | .scalar l => [tight l.spelled]
  | .document d => tight [123] :: d.body
  | .array items => tight [91] :: items.spelled

/-- The pieces behind the opening brace. -/
def Doc.body : Doc → List Piece
  | .empty => [tight [125]]
  | .fields comma name value rest =>
    (if comma then [tight [44]] else []) ++
      tight name.spelled :: tight [58] :: (value.spelled ++ rest.spelled)

def Fields.spelled : Fields → List Piece
  | .empty => [tight [125]]
  | .field name value rest =>
    tight [44] :: tight name.spelled :: tight [58] :: (value.spelled ++ rest.spelled)

def Items.spelled : Items → List Piece
  | .empty => [loose [93]]
  | .item d rest => loose [123] :: (d.body ++ rest.more)

/-- Behind an item. -/
def Items.more : Items → List Piece
  | .empty => [loose [93]]
  | .item d rest => loose [44] :: loose [123] :: (d.body ++ rest.more)

end

/-- A document that is an item. -/
def Doc.spelled (d : Doc) : List Piece := loose [123] :: d.body

/-- The text consists of the pieces with what they allow before them, and goes on behind them. -/
inductive Spells (rest : List UInt8) : List Piece → List UInt8 → Prop where
  | nil : Spells rest [] rest
  | cons {gap text : List UInt8} {piece : Piece} {pieces : List Piece}
      (hgap : ∀ b ∈ gap, allowed piece.loose b = true) (h : Spells rest pieces text) :
      Spells rest (piece :: pieces) (gap ++ (piece.text ++ text))

namespace Spells
variable {rest text : List UInt8} {piece : Piece} {pieces pieces' : List Piece}

/-- A piece without anything before it. -/
theorem packed (h : Spells rest pieces text) : Spells rest (piece :: pieces) (piece.text ++ text) :=
  .cons (fun _ hb => absurd hb List.not_mem_nil) h

theorem eq_of_nil (h : Spells rest [] text) : text = rest := by
  cases h
  rfl

theorem exists_gap (h : Spells rest (piece :: pieces) text) :
    ∃ gap text', text = gap ++ (piece.text ++ text') ∧ (∀ b ∈ gap, allowed piece.loose b = true) ∧
      Spells rest pieces text' := by
  cases h with
  | cons hgap h => exact ⟨_, _, rfl, hgap, h⟩

/-- More in front of a piece. -/
theorem gap {more : List UInt8} (hgap : ∀ b ∈ more, allowed piece.loose b = true)
    (h : Spells rest (piece :: pieces) text) : Spells rest (piece :: pieces) (more ++ text) := by
  rcases h.exists_gap with ⟨gap, text', rfl, hgap', h⟩
  rw [← List.append_assoc]
  exact .cons (List.forall_mem_append.2 ⟨hgap, hgap'⟩) h

theorem exists_middle (h : Spells rest (pieces ++ pieces') text) :
    ∃ middle, Spells middle pieces text ∧ Spells rest pieces' middle := by
  induction pieces generalizing text with
  | nil => exact ⟨text, .nil, h⟩
  | cons piece pieces ih =>
    rcases h.exists_gap with ⟨gap, text', rfl, hgap, h⟩
    rcases ih h with ⟨middle, hfirst, hsecond⟩
    exact ⟨middle, .cons hgap hfirst, hsecond⟩

end Spells

/-! ## A text is that of one document -/

/-- The texts of the pieces. -/
def texts (pieces : List Piece) : List (List UInt8) := pieces.map Piece.text

theorem texts_append (pieces pieces' : List Piece) :
    texts (pieces ++ pieces') = texts pieces ++ texts pieces' := List.map_append

theorem Lexeme.spelled_ne (l : Lexeme) {b : UInt8} (hb : wordChar b = false) : l.spelled ≠ [b] := by
  intro h
  cases l with
  | word text hword =>
    have htext : text = [b] := h
    have hchar := hword.chars b (by rw [htext]; exact List.mem_singleton_self b)
    rw [hb] at hchar
    cases hchar
  | quoted stringChar text hquote hcloses =>
    rw [spelled, List.cons.injEq] at h
    exact List.append_ne_nil_of_right_ne_nil _ (List.cons_ne_nil _ _) h.2

theorem Lexeme.spelled_inj {l l' : Lexeme} (h : l.spelled = l'.spelled) : l = l' := by
  have hne : ∀ {text : List UInt8} {stringChar : UInt8} {tail : List UInt8},
      (∀ b ∈ text, wordChar b = true) → stringChar = 39 ∨ stringChar = 34 →
        text ≠ stringChar :: tail := by
    rintro text stringChar tail hword hquote rfl
    have hchar := hword stringChar List.mem_cons_self
    rcases hquote with rfl | rfl
    · cases hchar
    · cases hchar
  cases l with
  | word text hword =>
    cases l' with
    | word text' hword' =>
      cases h
      rfl
    | quoted stringChar' text' hquote' hcloses' => exact absurd h (hne hword.chars hquote')
  | quoted stringChar text hquote hcloses =>
    cases l' with
    | word text' hword' => exact absurd h.symm (hne hword'.chars hquote)
    | quoted stringChar' text' hquote' hcloses' =>
      rcases List.cons.inj h with ⟨rfl, htail⟩
      cases List.append_inj_left' htail rfl
      rfl

section inj
variable {r r' : List (List UInt8)}

/-- What begins with a lexeme is not what begins with a single character. -/
theorem scalar_ne (l : Lexeme) {b : UInt8} (hb : wordChar b = false) {pieces pieces' : List Piece} :
    texts (tight l.spelled :: pieces) ++ r ≠ texts (tight [b] :: pieces') ++ r' :=
  fun h => l.spelled_ne hb (List.cons.inj h).1

/-- Behind the first piece there are two parts. -/
theorem texts_tail {piece piece' : Piece} {first second first' second' : List Piece}
    (h : texts (piece :: (first ++ second)) ++ r = texts (piece' :: (first' ++ second')) ++ r') :
    texts first ++ (texts second ++ r) = texts first' ++ (texts second' ++ r') := by
  rw [← List.append_assoc, ← List.append_assoc, ← texts_append, ← texts_append]
  exact (List.cons.inj h).2

/-- A name, its colon and what follows. -/
theorem name_inj {name name' : Lexeme} {first second first' second' : List Piece}
    (h : texts (tight name.spelled :: tight [58] :: (first ++ second)) ++ r =
      texts (tight name'.spelled :: tight [58] :: (first' ++ second')) ++ r') :
    name = name' ∧ texts first ++ (texts second ++ r) = texts first' ++ (texts second' ++ r') := by
  rcases List.cons.inj h with ⟨hname, htail⟩
  exact ⟨Lexeme.spelled_inj hname, texts_tail htail⟩

mutual

theorem Value.spelled_inj : ∀ (v v' : Value) {r r' : List (List UInt8)},
    texts v.spelled ++ r = texts v'.spelled ++ r' → v = v' ∧ r = r'
  | .scalar l, .scalar l', r, r', h => by
    rw [Value.spelled, Value.spelled] at h
    rcases List.cons.inj h with ⟨hl, hr⟩
    exact ⟨congrArg Value.scalar (Lexeme.spelled_inj hl), hr⟩
  | .scalar l, .document d, r, r', h => by
    rw [Value.spelled, Value.spelled] at h
    exact absurd h (scalar_ne l rfl)
  | .scalar l, .array items, r, r', h => by
    rw [Value.spelled, Value.spelled] at h
    exact absurd h (scalar_ne l rfl)
  | .document d, .scalar l, r, r', h => by
    rw [Value.spelled, Value.spelled] at h
    exact absurd h.symm (scalar_ne l rfl)
  | .document d, .document d', r, r', h => by
    rw [Value.spelled, Value.spelled] at h
    rcases Doc.body_inj d d' (List.cons.inj h).2 with ⟨rfl, hr⟩
    exact ⟨rfl, hr⟩
  | .document d, .array items, r, r', h => by
    rw [Value.spelled, Value.spelled] at h
    cases (List.cons.inj h).1
  | .array items, .scalar l, r, r', h => by
    rw [Value.spelled, Value.spelled] at h
    exact absurd h.symm (scalar_ne l rfl)
  | .array items, .document d, r, r', h => by
    rw [Value.spelled, Value.spelled] at h
    cases (List.cons.inj h).1
  | .array items, .array items', r, r', h => by
    rw [Value.spelled, Value.spelled] at h
    rcases Items.spelled_inj items items' (List.cons.inj h).2 with ⟨rfl, hr⟩
    exact ⟨rfl, hr⟩

theorem Doc.body_inj : ∀ (d d' : Doc) {r r' : List (List UInt8)},
    texts d.body ++ r = texts d'.body ++ r' → d = d' ∧ r = r'
  | .empty, .empty, r, r', h => by
    rw [Doc.body] at h
    exact ⟨rfl, (List.cons.inj h).2⟩
  | .empty, .fields comma name value rest, r, r', h => by
    rw [Doc.body, Doc.body] at h
    cases comma with
    | false => exact absurd h.symm (scalar_ne name rfl)
    | true => cases (List.cons.inj h).1
  | .fields comma name value rest, .empty, r, r', h => by
    rw [Doc.body, Doc.body] at h
    cases comma with
    | false => exact absurd h (scalar_ne name rfl)
    | true => cases (List.cons.inj h).1
  | .fields comma name value rest, .fields comma' name' value' rest', r, r', h => by
    rw [Doc.body, Doc.body] at h
    have hcomma : comma = comma' ∧
        texts (tight name.spelled :: tight [58] :: (value.spelled ++ rest.spelled)) ++ r =
          texts (tight name'.spelled :: tight [58] :: (value'.spelled ++ rest'.spelled)) ++ r' := by
      cases comma with
      | false =>
        cases comma' with
        | false => exact ⟨rfl, h⟩
        | true => exact absurd h (scalar_ne name rfl)
      | true =>
        cases comma' with
        | false => exact absurd h.symm (scalar_ne name' rfl)
        | true => exact ⟨rfl, (List.cons.inj h).2⟩
    rcases name_inj hcomma.2 with ⟨hname, hfields⟩
    rcases Value.spelled_inj value value' hfields with ⟨hvalue, hrest⟩
    rcases Fields.spelled_inj rest rest' hrest with ⟨hrest, hr⟩
    rw [hcomma.1, hname, hvalue, hrest]
    exact ⟨rfl, hr⟩

theorem Fields.spelled_inj : ∀ (fs fs' : Fields) {r r' : List (List UInt8)},
    texts fs.spelled ++ r = texts fs'.spelled ++ r' → fs = fs' ∧ r = r'
  | .empty, .empty, r, r', h => by
    rw [Fields.spelled] at h
    exact ⟨rfl, (List.cons.inj h).2⟩
  | .empty, .field name value rest, r, r', h => by
    rw [Fields.spelled, Fields.spelled] at h
    cases (List.cons.inj h).1
  | .field name value rest, .empty, r, r', h => by
    rw [Fields.spelled, Fields.spelled] at h
    cases (List.cons.inj h).1
  | .field name value rest, .field name' value' rest', r, r', h => by
    rw [Fields.spelled, Fields.spelled] at h
    rcases name_inj (List.cons.inj h).2 with ⟨hname, hfields⟩
    rcases Value.spelled_inj value value' hfields with ⟨hvalue, hrest⟩
    rcases Fields.spelled_inj rest rest' hrest with ⟨hrest, hr⟩
    rw [hname, hvalue, hrest]
    exact ⟨rfl, hr⟩

theorem Items.spelled_inj : ∀ (items items' : Items) {r r' : List (List UInt8)},
    texts items.spelled ++ r = texts items'.spelled ++ r' → items = items' ∧ r = r'
  | .empty, .empty, r, r', h => by
    rw [Items.spelled] at h
    exact ⟨rfl, (List.cons.inj h).2⟩
  | .empty, .item d rest, r, r', h => by
    rw [Items.spelled, Items.spelled] at h
    cases (List.cons.inj h).1
  | .item d rest, .empty, r, r', h => by
    rw [Items.spelled, Items.spelled] at h
    cases (List.cons.inj h).1
  | .item d rest, .item d' rest', r, r', h => by
    rw [Items.spelled, Items.spelled] at h
    rcases Doc.body_inj d d' (texts_tail h) with ⟨hd, hmore⟩
    rcases Items.more_inj rest rest' hmore with ⟨hrest, hr⟩
    rw [hd, hrest]
    exact ⟨rfl, hr⟩

theorem Items.more_inj : ∀ (items items' : Items) {r r' : List (List UInt8)},
    texts items.more ++ r = texts items'.more ++ r' → items = items' ∧ r = r'
  | .empty, .empty, r, r', h => by
    rw [Items.more] at h
    exact ⟨rfl, (List.cons.inj h).2⟩
  | .empty, .item d rest, r, r', h => by
    rw [Items.more, Items.more] at h
    cases (List.cons.inj h).1
  | .item d rest, .empty, r, r', h => by
    rw [Items.more, Items.more] at h
    cases (List.cons.inj h).1
  | .item d rest, .item d' rest', r, r', h => by
    rw [Items.more, Items.more] at h
    rcases Doc.body_inj d d' (texts_tail (List.cons.inj h).2) with ⟨hd, hmore⟩
    rcases Items.more_inj rest rest' hmore with ⟨hrest, hr⟩
    rw [hd, hrest]
    exact ⟨rfl, hr⟩

end

theorem Doc.spelled_inj {d d' : Doc} (h : texts d.spelled = texts d'.spelled) : d = d' := by
  have hbody : texts d.body ++ [] = texts d'.body ++ [] := by
    rw [List.append_nil, List.append_nil]
    exact (List.cons.inj h).2
  exact (Doc.body_inj d d' hbody).1

end inj

/-! ## What is read -/

def Lexeme.name (l : Lexeme) : CString := CString.ofBytes l.content

/-- What a reader takes a value for, and a name with a comma before it. -/
structure Reader where
  value : Lexeme → BSONContent
  commaName : Lexeme → CString

/-- The name of the first field. -/
def Reader.name (r : Reader) (comma : Bool) (name : Lexeme) : CString :=
  if comma then r.commaName name else name.name

section read
variable (r : Reader)

mutual

def Value.read : Value → BSONContent
  | .scalar l => r.value l
  | .document d => .bson d.read
  | .array items => .array items.read

def Doc.read : Doc → BSONObj
  | .empty => .empty
  | .fields comma name value rest =>
    rest.readInto (BSONObj.empty.add (r.name comma name) value.read)

def Fields.readInto : Fields → BSONObj → BSONObj
  | .empty, obj => obj
  | .field name value rest, obj => rest.readInto (obj.add name.name value.read)

def Items.read : Items → BSONArrayObj
  | .empty => .empty
  | .item d rest => .item d.read rest.read

end

end read

def Fields.names : Fields → List CString
  | .empty => []
  | .field name _ rest => name.name :: rest.names

section each
variable (P : Lexeme → Prop) (r r' : Reader)

mutual

/-- Every scalar has the property, unless its field is replaced further on. A first name that the
two readers do not take alike has to be replaced as both. -/
def Value.Each : Value → Prop
  | .scalar l => P l
  | .document d => d.Each
  | .array items => items.Each

def Doc.Each : Doc → Prop
  | .empty => True
  | .fields comma name value rest =>
    (r.name comma name ∈ rest.names ∧ r'.name comma name ∈ rest.names ∨
      r.name comma name = r'.name comma name ∧ value.Each) ∧ rest.Each

def Fields.Each : Fields → Prop
  | .empty => True
  | .field name value rest => (name.name ∈ rest.names ∨ value.Each) ∧ rest.Each

def Items.Each : Items → Prop
  | .empty => True
  | .item d rest => d.Each ∧ rest.Each

end

end each

section congr
variable {P Q : Lexeme → Prop} {r r' : Reader}

mutual

theorem Value.each_congr (h : ∀ l, P l ↔ Q l) :
    ∀ v : Value, v.Each P r r' ↔ v.Each Q r r'
  | .scalar l => h l
  | .document d => Doc.each_congr h d
  | .array items => Items.each_congr h items

theorem Doc.each_congr (h : ∀ l, P l ↔ Q l) :
    ∀ d : Doc, d.Each P r r' ↔ d.Each Q r r'
  | .empty => Iff.rfl
  | .fields comma name value rest => by
    rw [Doc.Each, Doc.Each, Value.each_congr h value, Fields.each_congr h rest]

theorem Fields.each_congr (h : ∀ l, P l ↔ Q l) :
    ∀ fs : Fields, fs.Each P r r' ↔ fs.Each Q r r'
  | .empty => Iff.rfl
  | .field name value rest => by
    rw [Fields.Each, Fields.Each, Value.each_congr h value, Fields.each_congr h rest]

theorem Items.each_congr (h : ∀ l, P l ↔ Q l) :
    ∀ items : Items, items.Each P r r' ↔ items.Each Q r r'
  | .empty => Iff.rfl
  | .item d rest => by
    rw [Items.Each, Items.Each, Doc.each_congr h d, Items.each_congr h rest]

end

end congr

/-! ## When two readers read the same -/

namespace Fields
variable (r : Reader)

/-- A field that is replaced further on does not matter. -/
theorem readInto_add (fs : Fields) {key : CString} (h : key ∈ fs.names) (obj : BSONObj)
    (c : BSONContent) : fs.readInto r (obj.add key c) = fs.readInto r obj := by
  induction fs generalizing obj with
  | empty => cases h
  | field name value rest ih =>
    rw [readInto, readInto]
    by_cases hkey : key = name.name
    · rw [hkey, BSONObj.add_add_self]
    · rw [BSONObj.add_add_of_ne _ hkey, ih ((List.mem_cons.1 h).resolve_left hkey)]

theorem getContent_readInto (fs : Fields) {key : CString} (h : key ∉ fs.names) (obj : BSONObj) :
    (fs.readInto r obj).getContent key = obj.getContent key := by
  induction fs generalizing obj with
  | empty => rfl
  | field name value rest ih =>
    rw [names, List.mem_cons, not_or] at h
    rw [readInto, ih h.2, BSONObj.getContent_add_of_ne _ _ h.1]

end Fields

/-- The readers take the scalar for the same value. -/
def Alike (r r' : Reader) (l : Lexeme) : Prop := r.value l = r'.value l

section agree
variable {r r' : Reader}

mutual

theorem Value.read_of_each : ∀ v : Value, v.Each (Alike r r') r r' → v.read r = v.read r'
  | .scalar _, h => h
  | .document d, h => by rw [Value.read, Value.read, Doc.read_of_each d h]
  | .array items, h => by rw [Value.read, Value.read, Items.read_of_each items h]

theorem Doc.read_of_each : ∀ d : Doc, d.Each (Alike r r') r r' → d.read r = d.read r'
  | .empty, _ => rfl
  | .fields comma name value rest, h => by
    rw [Doc.read, Doc.read]
    rcases h with ⟨⟨hreplaced, hreplaced'⟩ | ⟨hname, hvalue⟩, hrest⟩
    · rw [rest.readInto_add r hreplaced, rest.readInto_add r' hreplaced',
        Fields.readInto_of_each rest hrest]
    · rw [hname, Value.read_of_each value hvalue, Fields.readInto_of_each rest hrest]

theorem Fields.readInto_of_each : ∀ fs : Fields, fs.Each (Alike r r') r r' → ∀ obj : BSONObj,
    fs.readInto r obj = fs.readInto r' obj
  | .empty, _, _ => rfl
  | .field name value rest, h, obj => by
    rw [Fields.readInto, Fields.readInto]
    rcases h with ⟨hreplaced | hvalue, hrest⟩
    · rw [rest.readInto_add r hreplaced, rest.readInto_add r' hreplaced,
        Fields.readInto_of_each rest hrest]
    · rw [Value.read_of_each value hvalue, Fields.readInto_of_each rest hrest]

theorem Items.read_of_each : ∀ items : Items,
    items.Each (Alike r r') r r' → items.read r = items.read r'
  | .empty, _ => rfl
  | .item d rest, h => by
    rw [Items.read, Items.read, Doc.read_of_each d h.1, Items.read_of_each rest h.2]

end

mutual

theorem Value.each_of_read : ∀ v : Value, v.read r = v.read r' → v.Each (Alike r r') r r'
  | .scalar _, h => h
  | .document d, h => Doc.each_of_read d (BSONContent.bson.inj h)
  | .array items, h => Items.each_of_read items (BSONContent.array.inj h)

theorem Doc.each_of_read : ∀ d : Doc, d.read r = d.read r' → d.Each (Alike r r') r r'
  | .empty, _ => True.intro
  | .fields comma name value rest, h => by
    rw [Doc.read, Doc.read] at h
    refine ⟨?_, Fields.each_of_readInto rest h⟩
    have hfirst := fun key => congrArg (BSONObj.getContent key) h
    by_cases hname : r.name comma name = r'.name comma name
    · rw [← hname] at hfirst ⊢
      by_cases hreplaced : r.name comma name ∈ rest.names
      · exact Or.inl ⟨hreplaced, hreplaced⟩
      · refine Or.inr ⟨rfl, Value.each_of_read value ?_⟩
        have hcontent := hfirst (r.name comma name)
        rw [rest.getContent_readInto r hreplaced, BSONObj.getContent_add_self,
          rest.getContent_readInto r' hreplaced, BSONObj.getContent_add_self] at hcontent
        exact Option.some.inj hcontent
    · refine Or.inl ⟨?_, ?_⟩
      · by_contra hkept
        have hcontent := hfirst (r.name comma name)
        rw [rest.getContent_readInto r hkept, BSONObj.getContent_add_self,
          rest.getContent_readInto r' hkept, BSONObj.getContent_add_of_ne _ _ hname] at hcontent
        cases hcontent
      · by_contra hkept
        have hcontent := hfirst (r'.name comma name)
        rw [rest.getContent_readInto r hkept, BSONObj.getContent_add_of_ne _ _ (Ne.symm hname),
          rest.getContent_readInto r' hkept, BSONObj.getContent_add_self] at hcontent
        cases hcontent

theorem Fields.each_of_readInto : ∀ (fs : Fields) {obj obj' : BSONObj},
    fs.readInto r obj = fs.readInto r' obj' → fs.Each (Alike r r') r r'
  | .empty, _, _, _ => True.intro
  | .field name value rest, obj, obj', h => by
    rw [Fields.readInto, Fields.readInto] at h
    refine ⟨?_, Fields.each_of_readInto rest h⟩
    by_cases hreplaced : name.name ∈ rest.names
    · exact Or.inl hreplaced
    · refine Or.inr (Value.each_of_read value ?_)
      have hcontent := congrArg (BSONObj.getContent name.name) h
      rw [rest.getContent_readInto r hreplaced, BSONObj.getContent_add_self,
        rest.getContent_readInto r' hreplaced, BSONObj.getContent_add_self] at hcontent
      exact Option.some.inj hcontent

theorem Items.each_of_read : ∀ items : Items,
    items.read r = items.read r' → items.Each (Alike r r') r r'
  | .empty, _ => True.intro
  | .item d rest, h =>
    ⟨Doc.each_of_read d (BSONArrayObj.item.inj h).1,
      Items.each_of_read rest (BSONArrayObj.item.inj h).2⟩

end

theorem Items.read_eq_iff (items : Items) :
    items.read r = items.read r' ↔ items.Each (Alike r r') r r' :=
  ⟨Items.each_of_read items, Items.read_of_each items⟩

end agree

end Written
end Djondb
