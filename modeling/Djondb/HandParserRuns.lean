import Djondb.HandParserRounds
import Djondb.WrittenDocuments

set_option autoImplicit false

/-!
# The hand-written parser on written documents

In a text that the positions can count the parser goes over a written document piece by piece, and
what it stores is what it reads there.
-/
namespace Djondb
open Written

namespace BSONParser

/-- How the hand-written parser takes scalars, and a name that a comma has been kept before. -/
def reading (atof : CString → UInt64) : Reader where
  value
    | .word text _ =>
      if 46 ∈ text then .double (atof (CString.ofBytes text))
      else longValue (CString.ofBytes text)
    | .quoted _ text _ _ => .string (CString.ofBytes text)
  commaName l := CString.ofBytes (44 :: l.content)

/-- The items of the first array and those of the second one behind them. -/
def appendItems : BSONArrayObj → BSONArrayObj → BSONArrayObj
  | .empty, items => items
  | .item first rest, items => .item first (appendItems rest items)

theorem appendItems_addItem (obj : BSONObj) (items items' : BSONArrayObj) :
    appendItems (addItem obj items) items' = appendItems items (.item obj items') := by
  induction items with
  | empty => rfl
  | item first rest ih => rw [addItem, appendItems, appendItems, ih]

theorem appendItems_empty (items : BSONArrayObj) : appendItems items .empty = items := by
  induction items with
  | empty => rfl
  | item first rest ih => rw [appendItems, ih]

section runs
variable {atof : CString → UInt64} {c : CString} {x : ℕ} {f : Frame} {b : UInt8}
variable {rest text : List UInt8}

theorem drop_piece {piece : List UInt8} (h : c.bytes.drop x = piece ++ rest) :
    c.bytes.drop (x + piece.length) = rest := by
  rw [← List.drop_drop, h, List.drop_left]

variable (hsize : c.length < 2 ^ 31)
include hsize

theorem next_of_char {α : Type} (hb : c.bytes[x]? = some b) (p : ℕ → Parsing α) :
    (next x >>= p) = p (x + 1) := by
  have hx : x < c.length := (List.getElem?_eq_some_iff.1 hb).1
  rw [next_bind, if_pos (by omega)]

theorem room_of_lt {buffer : List UInt8} (h : buffer.length < c.length) :
    (buffer.length : ℤ) < lenBuffer c := by
  rw [lenBuffer_eq hsize]
  omega

/-! ### Single characters -/

section characters
variable (hb : c.bytes[x]? = some b)
include hb

omit hsize in
theorem round_char (hbrace : b ≠ 123) (hbracket : b ≠ 91) :
    (calls atof c).parseBSON f x = field atof c (calls atof c) f b x := by
  rw [parseBSON_eq, parseBSONRound, hb]
  dsimp only
  rw [if_neg hbrace, if_neg hbracket]

omit hsize hb in
/-- A character that ends no field. -/
theorem field_character (hbrace : b ≠ 125) (hcomma : b ≠ 44) :
    field atof c (calls atof c) f b x = character c (calls atof c) f b x := by
  unfold field
  cases f.phase with
  | value name => exact if_neg (not_or.2 ⟨hbrace, hcomma⟩)
  | _ => exact if_neg hbrace

theorem parseBSON_blank (hblank : isBlank b = true) :
    (calls atof c).parseBSON f x = (calls atof c).parseBSON f (x + 1) := by
  have hcases : b = 32 ∨ b = 13 ∨ b = 10 := by
    simpa only [isBlank, Bool.or_eq_true, decide_eq_true_eq, or_assoc] using hblank
  have hne : ∀ b' : UInt8, isBlank b' = false → b ≠ b' := by
    rintro b' h rfl
    exact absurd hblank (by rw [h]; exact Bool.false_ne_true)
  rw [round_char hb (hne 123 rfl) (hne 91 rfl), field_character (hne 125 rfl) (hne 44 rfl),
    character, if_neg (hne 58 rfl), if_neg (not_or.2 ⟨hne 39 rfl, hne 34 rfl⟩), if_pos hcases,
    next_of_char hsize hb]

theorem parseBSON_char (hword : wordChar b = true) (hlen : f.buffer.length < x) :
    (calls atof c).parseBSON f x =
      (calls atof c).parseBSON
        { f with buffer := f.buffer ++ [b], type := f.typeAt b } (x + 1) := by
  have hx : x < c.length := (List.getElem?_eq_some_iff.1 hb).1
  have hne : ∀ b' : UInt8, wordChar b' = false → b ≠ b' := by
    rintro b' h rfl
    exact absurd hword (by rw [h]; exact Bool.false_ne_true)
  have hkept : kept b = true := by
    unfold wordChar at hword
    unfold kept
    rw [decide_eq_true_eq] at hword ⊢
    exact fun hmem => hword (List.mem_cons_of_mem _ (List.mem_cons_of_mem _
      (List.mem_cons_of_mem _ hmem)))
  rw [round_char hb (hne 123 rfl) (hne 91 rfl), field_keeps _ _ _ _ _ hkept, push_bind,
    if_pos (room_of_lt hsize (by omega)), next_of_char hsize hb]

theorem parseBSON_colon (hcolon : b = 58) (hlen : f.buffer.length < x) :
    (calls atof c).parseBSON f x = (calls atof c).parseBSON
      ⟨f.res, .value (CString.ofBytes f.buffer), [], .long64⟩ (x + 1) := by
  have hx : x < c.length := (List.getElem?_eq_some_iff.1 hb).1
  subst hcolon
  rw [round_char hb (by decide) (by decide), field_character (by decide) (by decide), character,
    if_pos rfl, text_bind, if_pos (room_of_lt hsize (by omega)), next_of_char hsize hb]

omit hsize in
/-- The end of a document behind a value. -/
theorem parseBSON_closes {name : CString} {value : BSONContent} (hbrace : b = 125)
    (hphase : f.phase = .value name) (hvalue : f.type.content atof c f.buffer = .value value) :
    (calls atof c).parseBSON f x = .value (f.res.add name value, x) := by
  subst hbrace
  rw [round_char hb (by decide) (by decide), field, hphase]
  dsimp only
  rw [if_pos (Or.inl rfl), endField, hvalue]
  rfl

omit hsize in
theorem parseBSON_closesEmpty (hbrace : b = 125) (hphase : f.phase = .name) :
    (calls atof c).parseBSON f x = .value (f.res, x) := by
  subst hbrace
  rw [round_char hb (by decide) (by decide), field, hphase]
  exact if_pos rfl

theorem parseBSON_comma {name : CString} {value : BSONContent} (hcomma : b = 44)
    (hphase : f.phase = .value name) (hvalue : f.type.content atof c f.buffer = .value value) :
    (calls atof c).parseBSON f x =
      (calls atof c).parseBSON ⟨f.res.add name value, .name, [], .long64⟩ (x + 1) := by
  subst hcomma
  rw [round_char hb (by decide) (by decide), field, hphase]
  dsimp only
  rw [if_pos (Or.inr rfl), endField, hvalue, Parsing.value_bind, if_pos (by decide),
    next_of_char hsize hb]

/-- A comma in front of the first name is kept. -/
theorem parseBSON_keptComma (hcomma : b = 44) (hphase : f.phase = .name)
    (hlen : f.buffer.length < x) :
    (calls atof c).parseBSON f x =
      (calls atof c).parseBSON { f with buffer := f.buffer ++ [44] } (x + 1) := by
  have hx : x < c.length := (List.getElem?_eq_some_iff.1 hb).1
  subst hcomma
  have htype : f.typeAt 44 = f.type := by rw [Frame.typeAt, hphase]
  rw [round_char hb (by decide) (by decide), field, hphase]
  dsimp only
  rw [if_neg (by decide), character, if_neg (by decide), if_neg (by decide), if_neg (by decide),
    push_bind, if_pos (room_of_lt hsize (by omega)), next_of_char hsize hb, htype, ← hphase]

end characters

/-! ### Pieces -/

theorem parseBSON_gap {gap : List UInt8} (hgap : ∀ b ∈ gap, isBlank b = true)
    (h : c.bytes.drop x = gap ++ rest) :
    (calls atof c).parseBSON f x = (calls atof c).parseBSON f (x + gap.length) := by
  induction gap generalizing x with
  | nil => rfl
  | cons b gap ih =>
    rcases List.forall_mem_cons.1 hgap with ⟨hblank, hgap⟩
    rcases drop_eq_cons h with ⟨hb, htail⟩
    rw [parseBSON_blank hsize hb hblank, ih hgap htail, List.length_cons, Nat.add_right_comm,
      Nat.add_assoc]

/-- The type behind a word. -/
def Frame.typeBehind (f : Frame) (text : List UInt8) : Pending :=
  match f.phase with
  | .value _ => if 46 ∈ text then .double else f.type
  | _ => f.type

omit hsize in
theorem typeBehind_cons (f : Frame) (b : UInt8) (text : List UInt8) :
    ({ f with buffer := f.buffer ++ [b], type := f.typeAt b } : Frame).typeBehind text =
      f.typeBehind (b :: text) := by
  unfold Frame.typeBehind Frame.typeAt
  cases f.phase with
  | value name =>
    dsimp only
    by_cases hpoint : b = 46
    · rw [if_pos hpoint, ite_self, if_pos (List.mem_cons.2 (Or.inl hpoint.symm))]
    · rw [if_neg hpoint]
      refine if_congr ?_ rfl rfl
      rw [List.mem_cons, or_iff_right (Ne.symm hpoint)]
  | _ => rfl

theorem parseBSON_word (hword : ∀ b ∈ text, wordChar b = true) (h : c.bytes.drop x = text ++ rest)
    (hlen : f.buffer.length < x) :
    (calls atof c).parseBSON f x = (calls atof c).parseBSON
      { f with buffer := f.buffer ++ text, type := f.typeBehind text } (x + text.length) := by
  induction text generalizing x f with
  | nil =>
    have htype : f.typeBehind [] = f.type := by
      unfold Frame.typeBehind
      cases f.phase <;> rfl
    rw [htype, List.append_nil]
    rfl
  | cons b text ih =>
    rcases List.forall_mem_cons.1 hword with ⟨hchar, hword⟩
    rcases drop_eq_cons h with ⟨hb, htail⟩
    rw [parseBSON_char hsize hb hchar hlen, ih hword htail, typeBehind_cons, List.append_assoc,
      List.length_cons, Nat.add_right_comm, Nat.add_assoc]
    · rfl
    · rw [List.length_append]
      exact Nat.succ_lt_succ hlen

theorem collect_closes {stringChar : UInt8} (startPos : ℕ) {escaped : Bool} {buffer : List UInt8}
    (hcloses : closes stringChar escaped text = true)
    (h : c.bytes.drop x = text ++ stringChar :: rest) (hlen : buffer.length < x) :
    collect c stringChar startPos (text ++ stringChar :: rest) escaped buffer x =
      .value (buffer ++ text, x + text.length) := by
  induction text generalizing x escaped buffer with
  | nil =>
    have hescaped : escaped = false := by simpa [closes] using hcloses
    rw [List.nil_append, collect, hescaped, if_neg (by simp), List.append_nil]
    rfl
  | cons b text ih =>
    rcases drop_eq_cons h with ⟨hb, htail⟩
    have hx : x < c.length := (List.getElem?_eq_some_iff.1 hb).1
    rw [closes, Bool.and_eq_true, Bool.or_eq_true, decide_eq_true_eq] at hcloses
    rw [List.cons_append, collect, if_pos hcloses.1, push_bind,
      if_pos (room_of_lt hsize (by omega)), next_of_char hsize hb, ih hcloses.2 htail,
      List.append_assoc, List.length_cons, Nat.add_right_comm, Nat.add_assoc]
    · rfl
    · rw [List.length_append]
      exact Nat.succ_lt_succ hlen

theorem parseBSON_quoted {stringChar : UInt8} (hquote : stringChar = 39 ∨ stringChar = 34)
    (hcloses : closes stringChar false text = true)
    (h : c.bytes.drop x = stringChar :: (text ++ [stringChar]) ++ rest)
    (hlen : f.buffer.length < x) :
    (calls atof c).parseBSON f x = (calls atof c).parseBSON
      { f with buffer := f.buffer ++ text, type := .string } (x + (text.length + 2)) := by
  rw [List.cons_append, List.append_assoc, List.singleton_append] at h
  rcases drop_eq_cons h with ⟨hb, htail⟩
  have hend : c.bytes[x + 1 + text.length]? = some stringChar :=
    (drop_eq_cons (drop_piece htail)).1
  have hne : ∀ b' : UInt8, b' ≠ 39 → b' ≠ 34 → stringChar ≠ b' := by
    rintro b' h39 h34 rfl
    exact hquote.elim h39 h34
  rw [round_char hb (hne 123 (by decide) (by decide)) (hne 91 (by decide) (by decide)),
    field_character (hne 125 (by decide) (by decide)) (hne 44 (by decide) (by decide)), character,
    if_neg (hne 58 (by decide) (by decide)), if_pos hquote, next_of_char hsize hb, htail]
  rw [collect_closes hsize _ hcloses htail (hlen.trans (Nat.lt_succ_self _)),
    Parsing.value_bind]
  dsimp only
  rw [next_of_char hsize hend]
  congr 1
  omega

/-- The variables behind a lexeme. -/
def Frame.behind (f : Frame) : Lexeme → Frame
  | .word text _ => { f with buffer := f.buffer ++ text, type := f.typeBehind text }
  | .quoted _ text _ _ => { f with buffer := f.buffer ++ text, type := .string }

theorem parseBSON_lexeme (l : Lexeme) (h : c.bytes.drop x = l.spelled ++ rest)
    (hlen : f.buffer.length < x) :
    (calls atof c).parseBSON f x =
      (calls atof c).parseBSON (f.behind l) (x + l.spelled.length) := by
  cases l with
  | word text hword => exact parseBSON_word hsize hword.chars h hlen
  | quoted stringChar text hquote hcloses =>
    have hlength : (Lexeme.quoted stringChar text hquote hcloses).spelled.length =
        text.length + 2 := by
      rw [Lexeme.spelled, List.length_cons, List.length_append]
      rfl
    rw [hlength]
    exact parseBSON_quoted hsize hquote hcloses h hlen

omit hsize in
theorem buffer_behind (f : Frame) (l : Lexeme) : (f.behind l).buffer = f.buffer ++ l.content := by
  cases l <;> rfl

omit hsize in
theorem length_content_le (l : Lexeme) : l.content.length ≤ l.spelled.length := by
  cases l with
  | word text h => exact le_rfl
  | quoted stringChar text hquote hcloses =>
    rw [Lexeme.content, Lexeme.spelled, List.length_cons, List.length_append]
    omega

omit hsize in
theorem length_spelled_pos (l : Lexeme) : 0 < l.spelled.length := by
  cases l with
  | word text h => exact List.length_pos_iff.2 h.ne_nil
  | quoted stringChar text hquote hcloses => exact Nat.succ_pos _

/-- What is kept of a scalar is read as the value. -/
theorem content_behind (l : Lexeme) (name : CString) (res : BSONObj)
    (hlen : l.content.length < c.length) :
    ((⟨res, .value name, [], .long64⟩ : Frame).behind l).type.content atof c l.content =
      .value ((reading atof).value l) := by
  cases l with
  | word text h =>
    dsimp only [Frame.behind, Frame.typeBehind, reading, Lexeme.content] at hlen ⊢
    split_ifs with hpoint
    · rw [Pending.content, text_bind, if_pos (room_of_lt hsize hlen)]
    · rw [Pending.content, text_bind, if_pos (room_of_lt hsize hlen)]
  | quoted stringChar text hquote hcloses =>
    dsimp only [Frame.behind, reading, Lexeme.content] at hlen ⊢
    rw [Pending.content, text_bind, if_pos (room_of_lt hsize hlen)]

theorem parseBSON_piece (atof : CString → UInt64) {piece : List UInt8} {pieces : List Piece}
    (h : Spells rest (tight piece :: pieces) (c.bytes.drop x)) : ∃ y text, x ≤ y ∧
      (∀ f, (calls atof c).parseBSON f x = (calls atof c).parseBSON f y) ∧
        c.bytes.drop y = piece ++ text ∧ Spells rest pieces text := by
  rcases h.exists_gap with ⟨gap, text, htext, hgap, hrest⟩
  have hblank : ∀ b ∈ gap, isBlank b = true := fun b hb => by
    simpa [allowed, tight] using hgap b hb
  exact ⟨x + gap.length, text, Nat.le_add_right _ _, fun f => parseBSON_gap hsize hblank htext,
    drop_piece htext, hrest⟩

theorem parseBSON_byte (atof : CString → UInt64) {pieces : List Piece}
    (h : Spells rest (tight [b] :: pieces) (c.bytes.drop x)) : ∃ y, x ≤ y ∧
      (∀ f, (calls atof c).parseBSON f x = (calls atof c).parseBSON f y) ∧
        c.bytes[y]? = some b ∧ Spells rest pieces (c.bytes.drop (y + 1)) := by
  rcases parseBSON_piece hsize atof h with ⟨y, text, hxy, hgap, hpiece, h⟩
  rcases drop_eq_cons hpiece with ⟨hb, rfl⟩
  exact ⟨y, hxy, hgap, hb, h⟩

/-- A name and its colon. -/
theorem parseBSON_name (atof : CString → UInt64) {pieces : List Piece} (l : Lexeme)
    (h : Spells rest (tight l.spelled :: tight [58] :: pieces) (c.bytes.drop x))
    (hlen : f.buffer.length < x) :
    ∃ y, 0 < y ∧ (calls atof c).parseBSON f x = (calls atof c).parseBSON
        ⟨f.res, .value (CString.ofBytes (f.buffer ++ l.content)), [], .long64⟩ y ∧
      Spells rest pieces (c.bytes.drop y) := by
  rcases parseBSON_piece hsize atof h with ⟨y, text, hxy, hgap, hname, h⟩
  have htext : c.bytes.drop (y + l.spelled.length) = text := drop_piece hname
  rw [← htext] at h
  rcases parseBSON_byte hsize atof h with ⟨z, hyz, hgap', hb, h⟩
  refine ⟨z + 1, Nat.succ_pos _, ?_, h⟩
  have hlen' : (f.behind l).buffer.length < z := by
    have hcontent := length_content_le l
    rw [buffer_behind, List.length_append]
    omega
  rw [hgap, parseBSON_lexeme hsize l hname (hlen.trans_le hxy), hgap',
    parseBSON_colon hsize hb rfl hlen', buffer_behind]
  cases l <;> rfl

/-! ### Arrays -/

theorem parseArray_skip {created : Bool} {result : BSONArrayObj} (hb : c.bytes[x]? = some b)
    (hbracket : b ≠ 93) (hbrace : b ≠ 123) :
    (calls atof c).parseArray created result x =
      (calls atof c).parseArray created result (x + 1) := by
  rw [parseArray_eq, parseArrayRound, hb]
  dsimp only
  rw [if_neg hbracket, if_neg hbrace, next_of_char hsize hb]

theorem parseArray_gap {created : Bool} {result : BSONArrayObj} {gap : List UInt8}
    (hgap : ∀ b ∈ gap, b ≠ 93 ∧ b ≠ 123) (h : c.bytes.drop x = gap ++ rest) :
    (calls atof c).parseArray created result x =
      (calls atof c).parseArray created result (x + gap.length) := by
  induction gap generalizing x with
  | nil => rfl
  | cons b gap ih =>
    rcases List.forall_mem_cons.1 hgap with ⟨⟨hbracket, hbrace⟩, hgap⟩
    rcases drop_eq_cons h with ⟨hb, htail⟩
    rw [parseArray_skip hsize hb hbracket hbrace, ih hgap htail, List.length_cons,
      Nat.add_right_comm, Nat.add_assoc]

omit hsize in
theorem ne_of_allowed (h : allowed true b = true) : b ≠ 93 ∧ b ≠ 123 := by
  simp only [allowed, isBlank, Bool.or_eq_true, Bool.and_eq_true, decide_eq_true_eq, true_and] at h
  rcases h with (((rfl | rfl) | rfl) | h)
  · decide
  · decide
  · decide
  · exact h

theorem parseArray_byte (atof : CString → UInt64) {pieces : List Piece}
    (h : Spells rest (loose [b] :: pieces) (c.bytes.drop x)) : ∃ y,
      (∀ created result, (calls atof c).parseArray created result x =
        (calls atof c).parseArray created result y) ∧
        c.bytes[y]? = some b ∧ Spells rest pieces (c.bytes.drop (y + 1)) := by
  rcases h.exists_gap with ⟨gap, text, htext, hgap, h⟩
  rcases drop_eq_cons (drop_piece htext) with ⟨hb, rfl⟩
  have hskip : ∀ b ∈ gap, b ≠ 93 ∧ b ≠ 123 := fun b hb => ne_of_allowed (hgap b hb)
  exact ⟨x + gap.length, fun _ _ => parseArray_gap hsize hskip htext, hb, h⟩

/-! ### Documents -/

/-- The call returns what it has read, at the closing character. -/
def Returns {α : Type} (c : CString) (p : Parsing (α × ℕ)) (a : α) (b : UInt8)
    (rest : List UInt8) : Prop :=
  ∃ y, p = .value (a, y) ∧ c.bytes[y]? = some b ∧ c.bytes.drop (y + 1) = rest

/-- The call goes on behind the value of a field. -/
def GoesOn (atof : CString → UInt64) (c : CString) (res : BSONObj) (name : CString) (x : ℕ)
    (value : BSONContent) (rest : List UInt8) : Prop :=
  ∃ f y, (calls atof c).parseBSON ⟨res, .value name, [], .long64⟩ x =
      (calls atof c).parseBSON f y ∧ c.bytes.drop y = rest ∧ f.res = res ∧
    f.phase = .value name ∧ f.type.content atof c f.buffer = .value value ∧ f.buffer.length < y

omit hsize in
theorem Returns.of_eq {α : Type} {p q : Parsing (α × ℕ)} {a : α} (h : Returns c q a b rest)
    (hpq : p = q) : Returns c p a b rest := by
  rwa [hpq]

omit hsize in
theorem GoesOn.of_eq {res : BSONObj} {name : CString} {y : ℕ} {value : BSONContent}
    (h : GoesOn atof c res name y value rest)
    (hxy : (calls atof c).parseBSON ⟨res, .value name, [], .long64⟩ x =
      (calls atof c).parseBSON ⟨res, .value name, [], .long64⟩ y) :
    GoesOn atof c res name x value rest := by
  unfold GoesOn
  rwa [hxy]

theorem parseBSON_start (hb : c.bytes[x]? = some 123) :
    (calls atof c).parseBSON .start x =
      (calls atof c).parseBSON ⟨.empty, .name, [], .long64⟩ (x + 1) := by
  have hclear : clear c = .value () := by
    unfold clear
    rw [lenBuffer_eq hsize, if_pos (by omega)]
  rw [parseBSON_eq, parseBSONRound, hb]
  change (clear c >>= fun _ => _) = _
  rw [hclear, Parsing.value_bind]
  exact next_of_char hsize hb _

/-- A document is called at its brace, and it is the value. -/
theorem goesOn_document {res d : BSONObj} {name : CString} (hb : c.bytes[x]? = some 123)
    (h : Returns c ((calls atof c).parseBSON .start x) d 125 rest) :
    GoesOn atof c res name x (.bson d) rest := by
  rcases h with ⟨y, hreturns, hend, hrest⟩
  refine ⟨⟨res, .value name, [], .bson d⟩, y + 1, ?_, hrest, rfl, rfl, rfl, Nat.succ_pos _⟩
  rw [parseBSON_eq, parseBSONRound, hb]
  change ((calls atof c).parseBSON .start x >>= fun _ => _) = _
  rw [hreturns, Parsing.value_bind]
  exact next_of_char hsize hend _

/-- An array is called at its bracket; the one that ends it is kept. -/
theorem goesOn_array {res : BSONObj} {a : BSONArrayObj} {name : CString}
    (hb : c.bytes[x]? = some 91)
    (h : Returns c ((calls atof c).parseArray true .empty (x + 1)) a 93 rest) :
    GoesOn atof c res name x (.array a) rest := by
  rcases h with ⟨y, hreturns, hend, hrest⟩
  have hx : x < c.length := (List.getElem?_eq_some_iff.1 hb).1
  have hxy : x + 1 ≤ y := by
    have hends := parseArray_ends atof c true .empty (x + 1)
    rwa [hreturns] at hends
  have hchar : charAt c y = .value 93 := by rw [charAt, hend]
  have hroom : (([] : List UInt8).length : ℤ) < lenBuffer c :=
    room_of_lt hsize (Nat.zero_lt_of_lt hx)
  refine ⟨⟨res, .value name, [93], .array a⟩, y + 1, ?_, hrest, rfl, rfl, rfl,
    (Nat.succ_pos x).trans_le hxy |> Nat.succ_lt_succ⟩
  rw [parseBSON_eq, parseBSONRound, hb]
  change ((calls atof c).parseArray true .empty x >>= fun _ => _) = _
  rw [parseArray_skip hsize hb (by decide) (by decide), hreturns, Parsing.value_bind]
  dsimp only
  rw [hchar, Parsing.value_bind, field_keeps _ _ _ _ _ (by decide), push_bind, if_pos hroom,
    next_of_char hsize hend]
  rfl

theorem goesOn_scalar {res : BSONObj} {name : CString} (l : Lexeme) (hx : 0 < x)
    (h : c.bytes.drop x = l.spelled ++ rest) :
    GoesOn atof c res name x ((reading atof).value l) rest := by
  have hlength : l.spelled.length + rest.length = c.length - x := by
    rw [← List.length_append, ← h, List.length_drop]
    rfl
  have hspelled := length_spelled_pos l
  have hcontent := length_content_le l
  refine ⟨_, _, parseBSON_lexeme hsize l h hx, drop_piece h, ?_, ?_, ?_, ?_⟩
  · cases l <;> rfl
  · cases l <;> rfl
  · rw [buffer_behind, List.nil_append]
    exact content_behind hsize l name res (by omega)
  · rw [buffer_behind, List.nil_append]
    omega

/-- The first name of a document, with a comma before it or without. -/
theorem parseBSON_first (atof : CString → UInt64) {pieces : List Piece}
    (hb : c.bytes[x]? = some 123) (comma : Bool) (l : Lexeme)
    (h : Spells rest ((if comma then [tight [44]] else []) ++
      tight l.spelled :: tight [58] :: pieces) (c.bytes.drop (x + 1))) :
    ∃ y, 0 < y ∧ (calls atof c).parseBSON .start x = (calls atof c).parseBSON
        ⟨.empty, .value ((reading atof).name comma l), [], .long64⟩ y ∧
      Spells rest pieces (c.bytes.drop y) := by
  rw [parseBSON_start hsize hb]
  cases comma with
  | false =>
    exact parseBSON_name (f := ⟨.empty, .name, [], .long64⟩) hsize atof l h (Nat.succ_pos x)
  | true =>
    rcases parseBSON_byte hsize atof h with ⟨y, hxy, hgap, hcomma, h⟩
    have hkept : (calls atof c).parseBSON ⟨.empty, .name, [], .long64⟩ y =
        (calls atof c).parseBSON ⟨.empty, .name, [44], .long64⟩ (y + 1) :=
      parseBSON_keptComma hsize hcomma rfl rfl (Nat.zero_lt_of_lt hxy)
    rcases parseBSON_name (f := ⟨.empty, .name, [44], .long64⟩) hsize atof l h
      (Nat.succ_lt_succ (Nat.zero_lt_of_lt hxy)) with ⟨z, hz, hname, h⟩
    refine ⟨z, hz, ?_, h⟩
    rw [hgap, hkept]
    exact hname

theorem parseArray_document {acc : BSONArrayObj} {d : BSONObj} {y : ℕ}
    (hb : c.bytes[x]? = some 123) (h : (calls atof c).parseBSON .start x = .value (d, y))
    (hend : c.bytes[y]? = some 125) : (calls atof c).parseArray true acc x =
      (calls atof c).parseArray true (addItem d acc) (y + 1) := by
  rw [← parseArray_skip hsize hend (by decide) (by decide), parseArray_eq, parseArrayRound, hb]
  change ((calls atof c).parseBSON .start x >>= fun _ => _) = _
  rw [h]
  rfl

theorem returns_noItems {acc : BSONArrayObj} (h : Spells rest [loose [93]] (c.bytes.drop x)) :
    Returns c ((calls atof c).parseArray true acc x) (appendItems acc .empty) 93 rest := by
  rcases parseArray_byte hsize atof h with ⟨y, hgap, hend, htail⟩
  refine ⟨y, ?_, hend, htail.eq_of_nil⟩
  rw [hgap, parseArray_eq, parseArrayRound, hend, appendItems_empty]
  exact if_pos rfl

/-- Behind an item there is a comma or the end. -/
theorem returns_more {a acc : BSONArrayObj} (items : Items)
    (hitems : ∀ {y : ℕ}, Spells rest items.spelled (c.bytes.drop y) →
      Returns c ((calls atof c).parseArray true acc y) a 93 rest)
    (h : Spells rest items.more (c.bytes.drop x)) :
    Returns c ((calls atof c).parseArray true acc x) a 93 rest := by
  cases items with
  | empty => exact hitems h
  | item d items =>
    rw [Items.more] at h
    rcases parseArray_byte hsize atof h with ⟨y, hgap, hb, h⟩
    rw [← Items.spelled] at h
    exact (hitems h).of_eq ((hgap _ _).trans (parseArray_skip hsize hb (by decide) (by decide)))

mutual

theorem Value.goesOn : ∀ (v : Value) {x : ℕ} {rest : List UInt8} {res : BSONObj} {name : CString},
    0 < x → Spells rest v.spelled (c.bytes.drop x) →
      GoesOn atof c res name x (v.read (reading atof)) rest
  | .scalar l, x, rest, res, name, hx, h => by
    rw [Value.spelled] at h
    rcases parseBSON_piece hsize atof h with ⟨y, text, hxy, hgap, hpiece, htail⟩
    cases htail
    exact (goesOn_scalar hsize l (hx.trans_le hxy) hpiece).of_eq (hgap _)
  | .document d, x, rest, res, name, hx, h => by
    rw [Value.spelled] at h
    rcases parseBSON_byte hsize atof h with ⟨y, hxy, hgap, hb, htail⟩
    exact (goesOn_document hsize hb (Doc.returns d hb htail)).of_eq (hgap _)
  | .array items, x, rest, res, name, hx, h => by
    rw [Value.spelled] at h
    rcases parseBSON_byte hsize atof h with ⟨y, hxy, hgap, hb, htail⟩
    exact (goesOn_array hsize hb (Items.returns items .empty htail)).of_eq (hgap _)

theorem Doc.returns : ∀ (d : Doc) {x : ℕ} {rest : List UInt8}, c.bytes[x]? = some 123 →
    Spells rest d.body (c.bytes.drop (x + 1)) →
      Returns c ((calls atof c).parseBSON .start x) (d.read (reading atof)) 125 rest
  | .empty, x, rest, hb, h => by
    rw [Doc.body] at h
    rcases parseBSON_byte hsize atof h with ⟨y, hxy, hgap, hend, htail⟩
    refine ⟨y, ?_, hend, htail.eq_of_nil⟩
    rw [parseBSON_start hsize hb, hgap]
    exact parseBSON_closesEmpty hend rfl rfl
  | .fields comma name value fs, x, rest, hb, h => by
    rcases parseBSON_first hsize atof hb comma name h with ⟨y, hy, hrun, h⟩
    rcases h.exists_middle with ⟨middle, hvalue, hfs⟩
    rcases Value.goesOn value hy hvalue with ⟨f, z, hgoes, hmiddle, hres, hphase, hcontent, hlen⟩
    rw [← hmiddle] at hfs
    have hreturns := Fields.returns fs hphase hcontent hlen hfs
    rw [hres] at hreturns
    exact hreturns.of_eq (hrun.trans hgoes)

theorem Fields.returns : ∀ (fs : Fields) {f : Frame} {name : CString} {value : BSONContent} {x : ℕ}
    {rest : List UInt8}, f.phase = .value name → f.type.content atof c f.buffer = .value value →
    f.buffer.length < x → Spells rest fs.spelled (c.bytes.drop x) →
      Returns c ((calls atof c).parseBSON f x)
        (fs.readInto (reading atof) (f.res.add name value)) 125 rest
  | .empty, f, name, value, x, rest, hphase, hvalue, hlen, h => by
    rw [Fields.spelled] at h
    rcases parseBSON_byte hsize atof h with ⟨y, hxy, hgap, hend, htail⟩
    refine ⟨y, ?_, hend, htail.eq_of_nil⟩
    rw [hgap]
    exact parseBSON_closes hend rfl hphase hvalue
  | .field next v fs, f, name, value, x, rest, hphase, hvalue, hlen, h => by
    rw [Fields.spelled] at h
    rcases parseBSON_byte hsize atof h with ⟨y, hxy, hgap, hcomma, h⟩
    rcases parseBSON_name (f := ⟨f.res.add name value, .name, [], .long64⟩) hsize atof next h
      (Nat.succ_pos y) with ⟨z, hz, hname, h⟩
    rcases h.exists_middle with ⟨middle, hv, hfs⟩
    rcases Value.goesOn v hz hv with ⟨g, w, hgoes, hmiddle, hres, hphase', hcontent, hlen'⟩
    rw [← hmiddle] at hfs
    have hreturns := Fields.returns fs hphase' hcontent hlen' hfs
    rw [hres] at hreturns
    refine hreturns.of_eq ?_
    rw [hgap, parseBSON_comma hsize hcomma rfl hphase hvalue]
    exact hname.trans hgoes

theorem Items.returns : ∀ (items : Items) (acc : BSONArrayObj) {x : ℕ} {rest : List UInt8},
    Spells rest items.spelled (c.bytes.drop x) →
      Returns c ((calls atof c).parseArray true acc x)
        (appendItems acc (items.read (reading atof))) 93 rest
  | .empty, acc, x, rest, h => by
    rw [Items.spelled] at h
    exact returns_noItems hsize h
  | .item d items, acc, x, rest, h => by
    rw [Items.spelled] at h
    rcases parseArray_byte hsize atof h with ⟨y, hgap, hb, h⟩
    rcases h.exists_middle with ⟨middle, hd, hmore⟩
    rcases Doc.returns d hb hd with ⟨z, hreturns, hend, hrest⟩
    rw [← hrest] at hmore
    have hitems := returns_more hsize items
      (Items.returns items (addItem (d.read (reading atof)) acc)) hmore
    rw [appendItems_addItem] at hitems
    exact hitems.of_eq ((hgap _ _).trans (parseArray_document hsize hb hreturns hend))

end

/-- The array of written documents. -/
theorem parseArray_written (atof : CString → UInt64) {items : Items}
    (hc : c.bytes = 91 :: text) (h : Spells rest items.spelled text) :
    parseArray atof c = .value (some (items.read (reading atof))) := by
  have hdrop : c.bytes.drop 0 = 91 :: text := hc
  rcases drop_eq_cons hdrop with ⟨hb, htext⟩
  rw [← htext] at h
  have hreturns : Returns c ((calls atof c).parseArray true .empty 1) _ 93 rest :=
    Items.returns hsize items .empty h
  rcases hreturns with ⟨y, hreturns, _, _⟩
  have hchar : charAt c 0 = .value 91 := by rw [charAt, hb]
  have hskip : skipBlanks c.bytes 0 = .value 0 := by
    rw [hc, skipBlanks, if_neg (by decide)]
  unfold parseArray
  rw [hskip, Parsing.value_bind, hchar, Parsing.value_bind]
  change ((calls atof c).parseArray true .empty 0 >>= fun _ => _) = _
  rw [parseArray_skip hsize hb (by decide) (by decide), hreturns]
  rfl

end runs

end BSONParser
end Djondb
