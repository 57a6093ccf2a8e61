import Djondb.HandParser

set_option autoImplicit false

/-!
# The hand-written parser ends

Every call ends within as many rounds as the text needs, so that the calls satisfy the equations of
the loops.
-/
namespace Djondb

namespace Parsing
variable {α β : Type}

/-- It ends, and what it gives has a property. -/
def Ends (P : α → Prop) : Parsing α → Prop
  | value a => P a
  | exception _ => True
  | undefined => True
  | unfinished => False

/-- They do not differ, unless the first one is unfinished. -/
def Approx (r s : Parsing α) : Prop := r = unfinished ∨ r = s

variable {r s : Parsing α} {f g : α → Parsing β} {P : α → Prop} {Q : β → Prop}

theorem Ends.bind (h : r.Ends P) (hf : ∀ a, P a → (f a).Ends Q) : (r >>= f).Ends Q := by
  cases r with
  | value a => exact hf a h
  | exception e => trivial
  | undefined => trivial
  | unfinished => exact h

theorem Ends.mono {P' : α → Prop} (h : r.Ends P) (hP : ∀ a, P a → P' a) : r.Ends P' := by
  cases r with
  | value a => exact hP a h
  | exception e => trivial
  | undefined => trivial
  | unfinished => exact h

theorem Approx.refl (r : Parsing α) : r.Approx r := Or.inr rfl

theorem Approx.bind (h : r.Approx s) (hf : ∀ a, (f a).Approx (g a)) :
    (r >>= f).Approx (s >>= g) := by
  rcases h with rfl | rfl
  · exact Or.inl rfl
  · cases r with
    | value a => exact hf a
    | exception e => exact .refl _
    | undefined => exact .refl _
    | unfinished => exact .refl _

theorem Approx.eq (h : r.Approx s) (hr : r.Ends P) : r = s := by
  rcases h with rfl | rfl
  · exact absurd hr id
  · rfl

end Parsing

namespace BSONParser
variable (atof : CString → UInt64) (c : CString)

/-! ## The rounds are enough -/

/-- The second calls never differ from finished first ones. -/
structure Calls.Approx (calls calls' : Calls) : Prop where
  parseBSON : ∀ f x, (calls.parseBSON f x).Approx (calls'.parseBSON f x)
  parseArray : ∀ created result pos,
    (calls.parseArray created result pos).Approx (calls'.parseArray created result pos)

section approx
variable {atof c} {calls calls' : Calls} (h : calls.Approx calls')
include h

theorem character_approx (f : Frame) (b : UInt8) (x : ℕ) :
    (character c calls f b x).Approx (character c calls' f b x) := by
  unfold character
  split_ifs with hcolon hquote hblank
  · exact .bind (.refl _) fun _ => .bind (.refl _) fun _ => h.parseBSON _ _
  · exact .bind (.refl _) fun _ => .bind (.refl _) fun _ => .bind (.refl _) fun _ => h.parseBSON _ _
  · exact .bind (.refl _) fun _ => h.parseBSON _ _
  · exact .bind (.refl _) fun _ => .bind (.refl _) fun _ => h.parseBSON _ _

theorem endField_approx (f : Frame) (name : CString) (b : UInt8) (x : ℕ) :
    (endField atof c calls f name b x).Approx (endField atof c calls' f name b x) := by
  unfold endField
  refine .bind (.refl _) fun value => ?_
  dsimp only
  split_ifs with hcomma
  · exact .bind (.refl _) fun _ => h.parseBSON _ _
  · exact .refl _

theorem field_approx (f : Frame) (b : UInt8) (x : ℕ) :
    (field atof c calls f b x).Approx (field atof c calls' f b x) := by
  unfold field
  cases f.phase with
  | value name =>
    dsimp only
    split_ifs with hend
    · exact endField_approx h f name b x
    · exact character_approx h f b x
  | _ =>
    dsimp only
    split_ifs with hbrace
    · exact .refl _
    · exact character_approx h f b x

theorem parseBSONRound_approx (f : Frame) (x : ℕ) :
    (parseBSONRound atof c calls f x).Approx (parseBSONRound atof c calls' f x) := by
  unfold parseBSONRound
  cases c.bytes[x]? with
  | none => exact .refl _
  | some b =>
    dsimp only
    split_ifs with hbrace hbracket
    · cases f.phase with
      | nothing => exact .bind (.refl _) fun _ => .bind (.refl _) fun _ => h.parseBSON _ _
      | name => exact .refl _
      | value name =>
        exact .bind (h.parseBSON _ _) fun _ => .bind (.refl _) fun _ => h.parseBSON _ _
    · exact .bind (h.parseArray _ _ _) fun _ => .bind (.refl _) fun _ => field_approx h _ _ _
    · exact field_approx h f b x

theorem parseArrayRound_approx (created : Bool) (result : BSONArrayObj) (pos : ℕ) :
    (parseArrayRound c calls created result pos).Approx
      (parseArrayRound c calls' created result pos) := by
  unfold parseArrayRound
  cases c.bytes[pos]? with
  | none => exact .refl _
  | some b =>
    dsimp only
    split_ifs with hbracket hbrace hcreated
    · exact .refl _
    · exact .bind (h.parseBSON _ _) fun _ => h.parseArray _ _ _
    · exact .bind (h.parseBSON _ _) fun _ => .refl _
    · exact .bind (.refl _) fun _ => h.parseArray _ _ _

end approx

theorem rounds_approx (n : ℕ) : (rounds atof c n).Approx (rounds atof c (n + 1)) := by
  induction n with
  | zero => exact ⟨fun _ _ => Or.inl rfl, fun _ _ _ => Or.inl rfl⟩
  | succ n ih => exact ⟨parseBSONRound_approx ih, parseArrayRound_approx ih⟩

/-- With `n` rounds the calls end that have so few characters left, at a position that is not before
the first one. A call at an opening brace or bracket goes at least over that. -/
structure Calls.Finish (calls : Calls) (n : ℕ) : Prop where
  parseBSON : ∀ f x, 2 * (c.length - x) + 2 ≤ n → (calls.parseBSON f x).Ends fun r => x ≤ r.2
  parseArray : ∀ created result x, 2 * (c.length - x) + 2 ≤ n →
    (calls.parseArray created result x).Ends fun r => x ≤ r.2
  start : ∀ x, c.bytes[x]? = some 123 → 2 * (c.length - x) + 1 ≤ n →
    (calls.parseBSON .start x).Ends fun r => x < r.2
  create : ∀ x, c.bytes[x]? = some 91 → 2 * (c.length - x) + 1 ≤ n →
    (calls.parseArray true .empty x).Ends fun r => x < r.2

section finish
variable {c} {calls : Calls} {n : ℕ} {x : ℕ}

theorem next_ends (x : ℕ) : (next x).Ends fun y => y = x + 1 := by
  unfold next
  split_ifs
  · exact rfl
  · exact True.intro

theorem push_ends (buffer : List UInt8) (b : UInt8) : (push c buffer b).Ends fun _ => True := by
  unfold push
  split_ifs <;> exact True.intro

theorem text_ends (buffer : List UInt8) : (text c buffer).Ends fun _ => True := by
  unfold text
  split_ifs <;> exact True.intro

theorem clear_ends : (clear c).Ends fun _ => True := by
  unfold clear
  split_ifs <;> exact True.intro

theorem charAt_ends (x : ℕ) : (charAt c x).Ends fun _ => True := by
  unfold charAt
  cases c.bytes[x]? with
  | none =>
    dsimp only
    split_ifs <;> exact True.intro
  | some b => trivial

theorem collect_ends (stringChar : UInt8) (startPos : ℕ) (rest : List UInt8) (escaped : Bool)
    (buffer : List UInt8) (x : ℕ) :
    (collect c stringChar startPos rest escaped buffer x).Ends fun r => x ≤ r.2 := by
  induction rest generalizing escaped buffer x with
  | nil => trivial
  | cons b rest ih =>
    rw [collect]
    split_ifs with hopen
    · refine (push_ends _ _).bind fun buffer _ => (next_ends _).bind fun y hy => ?_
      refine (ih _ _ _).mono fun r hr => ?_
      omega
    · exact le_rfl

theorem content_ends (buffer : List UInt8) (type : Pending) :
    (type.content atof c buffer).Ends fun _ => True := by
  cases type with
  | bson value => trivial
  | array value => trivial
  | _ => exact (text_ends _).bind fun _ _ => trivial

variable (h : calls.Finish c n)
include h

theorem character_ends (hn : 2 * (c.length - (x + 1)) + 2 ≤ n) (f : Frame) (b : UInt8) :
    (character c calls f b x).Ends fun r => x ≤ r.2 := by
  have hstep : ∀ f y, x + 1 ≤ y → (calls.parseBSON f y).Ends fun r => x ≤ r.2 := by
    intro f y hy
    refine (h.parseBSON f y (by omega)).mono fun r hr => ?_
    omega
  unfold character
  split_ifs with hcolon hquote hblank
  · exact (text_ends _).bind fun _ _ => (next_ends _).bind fun y hy => hstep _ _ hy.ge
  · refine (next_ends _).bind fun y hy => (collect_ends _ _ _ _ _ _).bind fun r hr => ?_
    exact (next_ends _).bind fun z hz => hstep _ _ (by omega)
  · exact (next_ends _).bind fun y hy => hstep _ _ hy.ge
  · exact (push_ends _ _).bind fun _ _ => (next_ends _).bind fun y hy => hstep _ _ hy.ge

theorem endField_ends (hn : 2 * (c.length - (x + 1)) + 2 ≤ n) (f : Frame) (name : CString)
    (b : UInt8) : (endField atof c calls f name b x).Ends fun r => x ≤ r.2 := by
  unfold endField
  refine (content_ends atof _ _).bind fun value _ => ?_
  dsimp only
  split_ifs with hcomma
  · refine (next_ends _).bind fun y hy => (h.parseBSON _ _ (by omega)).mono fun r hr => ?_
    omega
  · exact le_rfl

theorem field_ends (hn : 2 * (c.length - (x + 1)) + 2 ≤ n) (f : Frame) (b : UInt8) :
    (field atof c calls f b x).Ends fun r => x ≤ r.2 := by
  unfold field
  cases f.phase with
  | value name =>
    dsimp only
    split_ifs with hend
    · exact endField_ends atof h hn f name b
    · exact character_ends h hn f b
  | _ =>
    dsimp only
    split_ifs with hbrace
    · exact le_rfl
    · exact character_ends h hn f b

theorem parseBSONRound_ends (hn : 2 * (c.length - x) + 2 ≤ n + 1) (f : Frame) :
    (parseBSONRound atof c calls f x).Ends fun r => x ≤ r.2 := by
  unfold parseBSONRound
  cases hb : c.bytes[x]? with
  | none => exact le_rfl
  | some b =>
    have hx : x < c.length := (List.getElem?_eq_some_iff.1 hb).1
    dsimp only
    split_ifs with hbrace hbracket
    · subst hbrace
      cases f.phase with
      | nothing =>
        refine clear_ends.bind fun _ _ => (next_ends _).bind fun y hy => ?_
        refine (h.parseBSON _ _ (by omega)).mono fun r hr => ?_
        omega
      | name => trivial
      | value name =>
        refine (h.start x hb (by omega)).bind fun r hr => (next_ends _).bind fun y hy => ?_
        refine (h.parseBSON _ _ (by omega)).mono fun r hr => ?_
        omega
    · subst hbracket
      refine (h.create x hb (by omega)).bind fun r hr => (charAt_ends _).bind fun b _ => ?_
      refine (field_ends atof h (by omega) _ _).mono fun r hr => ?_
      omega
    · exact field_ends atof h (by omega) f b

theorem parseArrayRound_ends (hn : 2 * (c.length - x) + 2 ≤ n + 1) (created : Bool)
    (result : BSONArrayObj) : (parseArrayRound c calls created result x).Ends fun r => x ≤ r.2 := by
  unfold parseArrayRound
  cases hb : c.bytes[x]? with
  | none => exact le_rfl
  | some b =>
    have hx : x < c.length := (List.getElem?_eq_some_iff.1 hb).1
    dsimp only
    split_ifs with hbracket hbrace hcreated
    · exact le_rfl
    · subst hbrace
      refine (h.start x hb (by omega)).bind fun r hr => ?_
      refine (h.parseArray _ _ _ (by omega)).mono fun r' hr' => ?_
      omega
    · subst hbrace
      exact (h.start x hb (by omega)).bind fun r hr => True.intro
    · refine (next_ends _).bind fun y hy => (h.parseArray _ _ _ (by omega)).mono fun r hr => ?_
      omega

theorem parseBSONRound_start (hb : c.bytes[x]? = some 123) (hn : 2 * (c.length - x) + 1 ≤ n + 1) :
    (parseBSONRound atof c calls .start x).Ends fun r => x < r.2 := by
  have hx : x < c.length := (List.getElem?_eq_some_iff.1 hb).1
  unfold parseBSONRound
  rw [hb]
  refine clear_ends.bind fun _ _ => (next_ends _).bind fun y hy => ?_
  refine (h.parseBSON _ _ (by omega)).mono fun r hr => ?_
  omega

theorem parseArrayRound_create (hb : c.bytes[x]? = some 91)
    (hn : 2 * (c.length - x) + 1 ≤ n + 1) :
    (parseArrayRound c calls true .empty x).Ends fun r => x < r.2 := by
  have hx : x < c.length := (List.getElem?_eq_some_iff.1 hb).1
  unfold parseArrayRound
  rw [hb]
  refine (next_ends _).bind fun y hy => (h.parseArray _ _ _ (by omega)).mono fun r hr => ?_
  omega

end finish

theorem rounds_finish (n : ℕ) : (rounds atof c n).Finish c n := by
  induction n with
  | zero =>
    exact ⟨fun _ _ h => absurd h (by omega), fun _ _ _ h => absurd h (by omega),
      fun _ _ h => absurd h (by omega), fun _ _ h => absurd h (by omega)⟩
  | succ n ih =>
    exact ⟨fun f x hn => parseBSONRound_ends atof ih hn f,
      fun created result x hn => parseArrayRound_ends ih hn created result,
      fun x hb hn => parseBSONRound_start atof ih hb hn,
      fun x hb hn => parseArrayRound_create ih hb hn⟩

/-! ## The calls -/

theorem parseBSON_ends (f : Frame) (x : ℕ) :
    ((calls atof c).parseBSON f x).Ends fun r => x ≤ r.2 :=
  (rounds_finish atof c _).parseBSON f x (by omega)

theorem parseArray_ends (created : Bool) (result : BSONArrayObj) (x : ℕ) :
    ((calls atof c).parseArray created result x).Ends fun r => x ≤ r.2 :=
  (rounds_finish atof c _).parseArray created result x (by omega)

/-- A round of the calls calls them again. -/
theorem parseBSON_eq (f : Frame) (x : ℕ) :
    (calls atof c).parseBSON f x = parseBSONRound atof c (calls atof c) f x :=
  ((rounds_approx atof c _).parseBSON f x).eq (parseBSON_ends atof c f x)

theorem parseArray_eq (created : Bool) (result : BSONArrayObj) (x : ℕ) :
    (calls atof c).parseArray created result x =
      parseArrayRound c (calls atof c) created result x :=
  ((rounds_approx atof c _).parseArray created result x).eq
    (parseArray_ends atof c created result x)

theorem skipBlanks_ends (rest : List UInt8) (pos : ℕ) :
    (skipBlanks rest pos).Ends fun _ => True := by
  induction rest generalizing pos with
  | nil => trivial
  | cons b rest ih =>
    rw [skipBlanks]
    split_ifs with hblank
    · exact (next_ends _).bind fun _ _ => ih _
    · trivial

/-- The parser ends on every text. -/
theorem parseArray_ne_unfinished : parseArray atof c ≠ .unfinished := by
  have h : (parseArray atof c).Ends fun _ => True :=
    (skipBlanks_ends _ _).bind fun _ _ => (charAt_ends _).bind fun _ _ =>
      (parseArray_ends atof c _ _ _).bind fun _ _ => True.intro
  intro hunfinished
  rw [hunfinished] at h
  exact h

/-! ## Positions and room -/

section room
variable {c} {α : Type}

theorem next_bind (x : ℕ) (p : ℕ → Parsing α) :
    (next x >>= p) = if x + 1 < 2 ^ 31 then p (x + 1) else .undefined := by
  unfold next
  split_ifs with h
  · rfl
  · rfl

theorem text_bind (buffer : List UInt8) (p : CString → Parsing α) :
    (text c buffer >>= p) =
      if (buffer.length : ℤ) < lenBuffer c then p (CString.ofBytes buffer) else .undefined := by
  unfold text
  split_ifs with hroom
  · rfl
  · rfl

theorem push_bind (buffer : List UInt8) (b : UInt8) (p : List UInt8 → Parsing α) :
    (push c buffer b >>= p) =
      if (buffer.length : ℤ) < lenBuffer c then p (buffer ++ [b]) else .undefined := by
  unfold push
  split_ifs with hroom
  · rfl
  · rfl

theorem lenBuffer_eq (h : c.length < 2 ^ 31) : lenBuffer c = c.length := by
  unfold lenBuffer
  exact bmod_int (by omega) (by omega)

end room

/-! ## The text from a position on -/

section positions
variable {c} {x : ℕ} {b : UInt8} {rest : List UInt8}

theorem drop_eq_cons (h : c.bytes.drop x = b :: rest) :
    c.bytes[x]? = some b ∧ c.bytes.drop (x + 1) = rest := by
  have hx : x < c.bytes.length := by
    by_contra hge
    rw [List.drop_eq_nil_of_le (Nat.le_of_not_lt hge)] at h
    cases h
  rw [List.drop_eq_getElem_cons hx] at h
  rcases List.cons.inj h with ⟨hhead, htail⟩
  exact ⟨List.getElem?_eq_some_iff.2 ⟨hx, hhead⟩, htail⟩

theorem drop_of_getElem? (h : c.bytes[x]? = some b) :
    c.bytes.drop x = b :: c.bytes.drop (x + 1) := by
  rcases List.getElem?_eq_some_iff.1 h with ⟨hx, rfl⟩
  exact List.drop_eq_getElem_cons hx

end positions

theorem charAt_terminator : charAt c c.length = .value 0 := by
  have hnone : c.bytes[c.length]? = none := List.getElem?_eq_none le_rfl
  rw [charAt, hnone]
  exact if_pos rfl

/-- A character that does not end anything and is no blank. -/
def kept (b : UInt8) : Bool := b ∉ [125, 44, 58, 39, 34, 32, 13, 10]

theorem field_keeps (calls : Calls) (f : Frame) (x : ℕ) {b : UInt8} (hb : kept b = true) :
    field atof c calls f b x = push c f.buffer b >>= fun buffer =>
      next x >>= calls.parseBSON { f with buffer := buffer, type := f.typeAt b } := by
  have hne : ∀ b' : UInt8, kept b' = false → b ≠ b' := by
    rintro b' h rfl
    exact absurd hb (by rw [h]; exact Bool.false_ne_true)
  have hcharacter : character c calls f b x = push c f.buffer b >>= fun buffer =>
      next x >>= calls.parseBSON { f with buffer := buffer, type := f.typeAt b } := by
    unfold character
    rw [if_neg (hne 58 rfl), if_neg (not_or.2 ⟨hne 39 rfl, hne 34 rfl⟩),
      if_neg (not_or.2 ⟨hne 32 rfl, not_or.2 ⟨hne 13 rfl, hne 10 rfl⟩⟩)]
  rw [← hcharacter]
  unfold field
  cases f.phase with
  | value name => exact if_neg (not_or.2 ⟨hne 125 rfl, hne 44 rfl⟩)
  | _ => exact if_neg (hne 125 rfl)

end BSONParser
end Djondb
