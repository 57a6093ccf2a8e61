import Djondb.BSONBufferedObj

set_option autoImplicit false

/-!
# What `initialize` reads

`BSONBufferedObj::initialize` takes the counts and the lengths as they stand in the bytes and looks at
no bound. Here the places that it comes to are numbers, also in front of the bytes and behind them, so
that every read can be checked against the length of the sequence.
-/
namespace Djondb
open Bytes

/-! ## Walks over bytes -/

/-- How a walk goes: to its end, out of the bytes, or deeper into nested documents than allowed. -/
inductive Walk (α : Type) where
  | ended (a : α)
  | outside
  | deeper
  deriving DecidableEq

namespace Walk
variable {α β : Type}

def bind : Walk α → (α → Walk β) → Walk β
  | ended a, f => f a
  | outside, _ => outside
  | deeper, _ => deeper

instance : Monad Walk where
  pure := ended
  bind := bind

theorem bind_eq_ended {x : Walk α} {f : α → Walk β} {b : β} :
    (x >>= f) = ended b ↔ ∃ a, x = ended a ∧ f a = ended b := by
  cases x with
  | ended a =>
    constructor
    · exact fun h => ⟨a, rfl, h⟩
    · rintro ⟨a', ha, h⟩
      cases ha
      exact h
  | outside =>
    constructor
    · exact fun h => nomatch h
    · rintro ⟨a, ha, -⟩
      nomatch ha
  | deeper =>
    constructor
    · exact fun h => nomatch h
    · rintro ⟨a, ha, -⟩
      nomatch ha

end Walk

section memory
variable (memory : List UInt8)

/-- The bytes from `p` on that a word takes are bytes of the sequence. -/
def Inside (w : ℕ) (p : ℤ) : Prop := 0 ≤ p ∧ p + w ≤ memory.length

instance (w : ℕ) (p : ℤ) : Decidable (Inside memory w p) := inferInstanceAs (Decidable (_ ∧ _))

def wordAt (w : ℕ) (p : ℤ) : ℤ := decodeWord w ((memory.drop p.toNat).take w)

def readWordAt (w : ℕ) (p : ℤ) : Walk ℤ :=
  if Inside memory w p then .ended (wordAt memory w p) else .outside

theorem readWordAt_eq_ended {w : ℕ} {p v : ℤ} :
    readWordAt memory w p = .ended v ↔ Inside memory w p ∧ wordAt memory w p = v := by
  unfold readWordAt
  split_ifs with h
  · simp [h]
  · simp [h]

/-! ## `initialize` -/

section walk
variable (inner : ℤ → Walk ℤ)

/-- The loop of `BSONBufferedArrayObj::initialize`; `_bufferArrayLen` is an `int`. -/
def walkItems : ℕ → ℤ → ℤ → Walk ℤ
  | 0, _, len => .ended len
  | n + 1, p, len => do
    let size ← inner p
    walkItems n (p + size) ((len + size).bmod (2 ^ 32))

/-- `BSONBufferedArrayObj::initialize`, with `bufferLength` as its result. -/
def walkArray (p : ℤ) : Walk ℤ := do
  let elements ← readWordAt memory 8 p
  walkItems inner elements.toNat (p + 8) 8

/-- The `switch` on the tag: how far the value goes. -/
def walkValue (p : ℤ) : BSONTYPE → Walk ℤ
  | .BOOL_TYPE => .ended 1
  | .INT_TYPE => .ended 4
  | .LONG_TYPE => .ended 8
  | .LONG64_TYPE => .ended 8
  | .DOUBLE_TYPE => .ended 8
  | .PTRCHAR_TYPE => do
    let len ← readWordAt memory 4 p
    .ended (4 + len)
  | .STRING_TYPE => do
    let len ← readWordAt memory 4 p
    .ended (4 + len)
  | .BSON_TYPE => inner p
  | .BSONARRAY_TYPE => walkArray memory inner p
  | .UNKNOWN_TYPE => .ended 0
  | .NULL_TYPE => .ended 0

/-- The loop of `BSONBufferedObj::initialize`, with what it adds to `_bufferBSONLen`. -/
def walkElements : ℕ → ℤ → Walk ℤ
  | 0, _ => .ended 0
  | n + 1, p => do
    let keySize ← readWordAt memory 4 p
    let type ← readWordAt memory 8 (p + 4 + keySize)
    let tag := (BSONTYPE.ofCode type).getD .UNKNOWN_TYPE
    let size ← walkValue memory inner (p + 12 + keySize) tag
    let rest ← walkElements n (p + 12 + keySize + size)
    .ended (12 + keySize + size + rest)

end walk

/-- `BSONBufferedObj::initialize` on a document at `p`, to a depth of nesting, with `bufferLength` as
its result. The counter of the loop is an `int`: with more elements than it can count it leaves the
arrays of the keys and values. -/
def walkObj : ℕ → ℤ → Walk ℤ
  | 0, _ => .deeper
  | depth + 1, p => do
    let elements ← readWordAt memory 8 p
    if 2 ^ 31 ≤ elements then .outside
    else do
      let rest ← walkElements memory (walkObj depth) elements.toNat (p + 8)
      .ended (8 + rest)

end memory

/-! ## Layouts -/

mutual

/-- How a document may lie in bytes: its elements with the sizes of their keys and their tags. -/
inductive LaidObj where
  | mk (elements : LaidElements)

inductive LaidElements where
  | empty
  | element (keySize type : ℤ) (value : LaidValue) (rest : LaidElements)

inductive LaidValue where
  | plain
  | text (len : ℤ)
  | bson (obj : LaidObj)
  | array (items : LaidItems)

inductive LaidItems where
  | empty
  | item (obj : LaidObj) (rest : LaidItems)

end

def LaidElements.count : LaidElements → ℕ
  | empty => 0
  | element _ _ _ rest => rest.count + 1

def LaidItems.count : LaidItems → ℕ
  | empty => 0
  | item _ rest => rest.count + 1

/-- What a value of this tag takes that no length in the bytes says. -/
def BSONTYPE.plainSize : BSONTYPE → ℤ
  | BOOL_TYPE => 1
  | INT_TYPE => 4
  | LONG_TYPE => 8
  | LONG64_TYPE => 8
  | DOUBLE_TYPE => 8
  | _ => 0

def tagOf (type : ℤ) : BSONTYPE := (BSONTYPE.ofCode type).getD .UNKNOWN_TYPE

mutual

def LaidObj.size : LaidObj → ℤ
  | .mk elements => 8 + elements.size

def LaidElements.size : LaidElements → ℤ
  | .empty => 0
  | .element keySize type value rest => 12 + keySize + value.size (tagOf type) + rest.size

def LaidValue.size : LaidValue → BSONTYPE → ℤ
  | .plain, type => type.plainSize
  | .text len, _ => 4 + len
  | .bson obj, _ => obj.size
  | .array items, _ => items.sizeFrom 8

/-- The length of an array is counted in an `int`. -/
def LaidItems.sizeFrom : LaidItems → ℤ → ℤ
  | .empty, len => len
  | .item obj rest, len => rest.sizeFrom ((len + obj.size).bmod (2 ^ 32))

end

/-- The form that a value of this tag has. -/
def LaidValue.fits : LaidValue → BSONTYPE → Bool
  | .plain, type =>
    type ≠ .PTRCHAR_TYPE && type ≠ .STRING_TYPE && type ≠ .BSON_TYPE && type ≠ .BSONARRAY_TYPE
  | .text _, type => type = .PTRCHAR_TYPE || type = .STRING_TYPE
  | .bson _, type => type = .BSON_TYPE
  | .array _, type => type = .BSONARRAY_TYPE

section lies
variable (memory : List UInt8)

mutual

/-- The bytes at `p` are those of the layout: all its counts, lengths and tags are in the sequence. -/
def LaidObj.LiesAt (p : ℤ) : LaidObj → Prop
  | .mk elements => Inside memory 8 p ∧ wordAt memory 8 p < 2 ^ 31 ∧
      (wordAt memory 8 p).toNat = elements.count ∧ elements.LieAt (p + 8)

def LaidElements.LieAt (p : ℤ) : LaidElements → Prop
  | .empty => True
  | .element keySize type value rest =>
    (Inside memory 4 p ∧ wordAt memory 4 p = keySize) ∧
      (Inside memory 8 (p + 4 + keySize) ∧ wordAt memory 8 (p + 4 + keySize) = type) ∧
      value.fits (tagOf type) = true ∧ value.LiesAt (p + 12 + keySize) ∧
      rest.LieAt (p + 12 + keySize + value.size (tagOf type))

def LaidValue.LiesAt (p : ℤ) : LaidValue → Prop
  | .plain => True
  | .text len => Inside memory 4 p ∧ wordAt memory 4 p = len
  | .bson obj => obj.LiesAt p
  | .array items => (Inside memory 8 p ∧ (wordAt memory 8 p).toNat = items.count) ∧
      items.LieAt (p + 8)

def LaidItems.LieAt (p : ℤ) : LaidItems → Prop
  | .empty => True
  | .item obj rest => obj.LiesAt p ∧ rest.LieAt (p + obj.size)

end

end lies

mutual

/-- How deep documents are nested. -/
def LaidObj.depth : LaidObj → ℕ
  | .mk elements => elements.depth + 1

def LaidElements.depth : LaidElements → ℕ
  | .empty => 0
  | .element _ _ value rest => max value.depth rest.depth

def LaidValue.depth : LaidValue → ℕ
  | .plain => 0
  | .text _ => 0
  | .bson obj => obj.depth
  | .array items => items.depth

def LaidItems.depth : LaidItems → ℕ
  | .empty => 0
  | .item obj rest => max obj.depth rest.depth

end

/-! ## A walk that ends follows a layout -/

section memory
variable {memory : List UInt8}

section below
variable {inner : ℤ → Walk ℤ}

/-- `inner` ends at documents that are laid out. -/
def FollowsLayouts (memory : List UInt8) (inner : ℤ → Walk ℤ) : Prop :=
  ∀ p size, inner p = .ended size → ∃ obj : LaidObj, obj.LiesAt memory p ∧ obj.size = size

theorem walkItems_layout (hin : FollowsLayouts memory inner) (n : ℕ) {p len size : ℤ}
    (h : walkItems inner n p len = .ended size) :
    ∃ items : LaidItems, items.count = n ∧ items.LieAt memory p ∧ items.sizeFrom len = size := by
  induction n generalizing p len with
  | zero =>
    cases h
    exact ⟨.empty, rfl, trivial, rfl⟩
  | succ n ih =>
    rcases Walk.bind_eq_ended.1 h with ⟨itemSize, hitem, hrest⟩
    rcases hin p itemSize hitem with ⟨obj, hobj, rfl⟩
    rcases ih hrest with ⟨rest, hcount, hlie, hsize⟩
    exact ⟨.item obj rest, congrArg (· + 1) hcount, ⟨hobj, hlie⟩, hsize⟩

theorem walkValue_layout (hin : FollowsLayouts memory inner) {p size : ℤ} {tag : BSONTYPE}
    (h : walkValue memory inner p tag = .ended size) :
    ∃ value : LaidValue, value.fits tag = true ∧ value.LiesAt memory p ∧ value.size tag = size := by
  have htext : ∀ {s : ℤ}, (do
      let len ← readWordAt memory 4 p
      Walk.ended (4 + len)) = .ended s →
      ∃ len, LaidValue.LiesAt memory p (.text len) ∧ 4 + len = s := by
    intro s hs
    rcases Walk.bind_eq_ended.1 hs with ⟨len, hlen, hs⟩
    cases hs
    exact ⟨len, (readWordAt_eq_ended memory).1 hlen, rfl⟩
  cases tag with
  | PTRCHAR_TYPE =>
    rcases htext h with ⟨len, hlen, hsize⟩
    exact ⟨.text len, rfl, hlen, hsize⟩
  | STRING_TYPE =>
    rcases htext h with ⟨len, hlen, hsize⟩
    exact ⟨.text len, rfl, hlen, hsize⟩
  | BSON_TYPE =>
    rcases hin p size h with ⟨obj, hobj, hsize⟩
    exact ⟨.bson obj, rfl, hobj, hsize⟩
  | BSONARRAY_TYPE =>
    rcases Walk.bind_eq_ended.1 h with ⟨elements, helements, hitems⟩
    rcases (readWordAt_eq_ended memory).1 helements with ⟨hinside, rfl⟩
    rcases walkItems_layout hin _ hitems with ⟨items, hcount, hlie, hsize⟩
    exact ⟨.array items, rfl, ⟨⟨hinside, hcount.symm⟩, hlie⟩, hsize⟩
  | _ =>
    cases h
    exact ⟨.plain, rfl, trivial, rfl⟩

theorem walkElements_layout (hin : FollowsLayouts memory inner) (n : ℕ) {p size : ℤ}
    (h : walkElements memory inner n p = .ended size) :
    ∃ elements : LaidElements, elements.count = n ∧ elements.LieAt memory p ∧
      elements.size = size := by
  induction n generalizing p size with
  | zero =>
    cases h
    exact ⟨.empty, rfl, trivial, rfl⟩
  | succ n ih =>
    rcases Walk.bind_eq_ended.1 h with ⟨keySize, hkey, h⟩
    rcases Walk.bind_eq_ended.1 h with ⟨type, htype, h⟩
    rcases Walk.bind_eq_ended.1 h with ⟨valueSize, hvalue, h⟩
    rcases Walk.bind_eq_ended.1 h with ⟨restSize, hrest, h⟩
    cases h
    rcases walkValue_layout hin hvalue with ⟨value, hfits, hlies, rfl⟩
    rcases ih hrest with ⟨rest, hcount, hlie, rfl⟩
    exact ⟨.element keySize type value rest, congrArg (· + 1) hcount,
      ⟨(readWordAt_eq_ended memory).1 hkey, (readWordAt_eq_ended memory).1 htype, hfits, hlies, hlie⟩,
      rfl⟩

end below

theorem walkObj_layout (depth : ℕ) : FollowsLayouts memory (walkObj memory depth) := by
  induction depth with
  | zero => exact fun p size h => nomatch h
  | succ depth ih =>
    intro p size h
    rcases Walk.bind_eq_ended.1 h with ⟨elements, helements, h⟩
    rcases (readWordAt_eq_ended memory).1 helements with ⟨hinside, rfl⟩
    split_ifs at h with hmany
    rcases Walk.bind_eq_ended.1 h with ⟨restSize, hrest, h⟩
    cases h
    rcases walkElements_layout ih _ hrest with ⟨laid, hcount, hlie, rfl⟩
    exact ⟨.mk laid, ⟨hinside, not_le.1 hmany, hcount.symm, hlie⟩, rfl⟩

/-! ## A layout is followed to its end -/

mutual

theorem LaidObj.walk : ∀ (obj : LaidObj) (p : ℤ) (depth : ℕ), obj.LiesAt memory p →
    obj.depth ≤ depth → walkObj memory depth p = .ended obj.size
  | .mk elements, p, 0, _, hdepth => absurd hdepth (Nat.not_succ_le_zero _)
  | .mk elements, p, depth + 1, h, hdepth => by
    rcases h with ⟨hinside, hmany, hcount, hlie⟩
    have hrest := elements.walk (p + 8) depth hlie (Nat.le_of_succ_le_succ hdepth)
    refine Walk.bind_eq_ended.2 ⟨_, (readWordAt_eq_ended memory).2 ⟨hinside, rfl⟩, ?_⟩
    rw [if_neg (not_le.2 hmany), hcount]
    exact Walk.bind_eq_ended.2 ⟨_, hrest, rfl⟩

theorem LaidElements.walk : ∀ (elements : LaidElements) (p : ℤ) (depth : ℕ),
    elements.LieAt memory p → elements.depth ≤ depth →
      walkElements memory (walkObj memory depth) elements.count p = .ended elements.size
  | .empty, _, _, _, _ => rfl
  | .element keySize type value rest, p, depth, h, hdepth => by
    rcases h with ⟨hkey, htype, hfits, hlies, hlie⟩
    have hdepths := max_le_iff.1 hdepth
    have hvalue := value.walk (p + 12 + keySize) depth (tagOf type) hfits hlies hdepths.1
    have hrest := rest.walk (p + 12 + keySize + value.size (tagOf type)) depth hlie hdepths.2
    refine Walk.bind_eq_ended.2 ⟨keySize, (readWordAt_eq_ended memory).2 hkey, ?_⟩
    refine Walk.bind_eq_ended.2 ⟨type, (readWordAt_eq_ended memory).2 htype, ?_⟩
    refine Walk.bind_eq_ended.2 ⟨_, hvalue, ?_⟩
    exact Walk.bind_eq_ended.2 ⟨_, hrest, rfl⟩

theorem LaidValue.walk : ∀ (value : LaidValue) (p : ℤ) (depth : ℕ) (tag : BSONTYPE),
    value.fits tag = true → value.LiesAt memory p → value.depth ≤ depth →
      walkValue memory (walkObj memory depth) p tag = .ended (value.size tag)
  | .plain, p, depth, tag, hfits, _, _ => by
    cases tag <;> first | rfl | nomatch hfits
  | .text len, p, depth, tag, hfits, h, _ => by
    have hread : readWordAt memory 4 p = .ended len := (readWordAt_eq_ended memory).2 h
    rcases Bool.or_eq_true_iff.1 hfits with htag | htag
    · rw [of_decide_eq_true htag]
      exact Walk.bind_eq_ended.2 ⟨len, hread, rfl⟩
    · rw [of_decide_eq_true htag]
      exact Walk.bind_eq_ended.2 ⟨len, hread, rfl⟩
  | .bson obj, p, depth, tag, hfits, h, hdepth => by
    rw [of_decide_eq_true hfits]
    exact obj.walk p depth h hdepth
  | .array items, p, depth, tag, hfits, h, hdepth => by
    rcases h with ⟨⟨hinside, hcount⟩, hlie⟩
    have hitems := items.walk (p + 8) 8 depth hlie hdepth
    rw [of_decide_eq_true hfits]
    refine Walk.bind_eq_ended.2 ⟨_, (readWordAt_eq_ended memory).2 ⟨hinside, rfl⟩, ?_⟩
    rw [hcount]
    exact hitems

theorem LaidItems.walk : ∀ (items : LaidItems) (p len : ℤ) (depth : ℕ), items.LieAt memory p →
    items.depth ≤ depth →
      walkItems (walkObj memory depth) items.count p len = .ended (items.sizeFrom len)
  | .empty, _, _, _, _, _ => rfl
  | .item obj rest, p, len, depth, h, hdepth => by
    have hdepths := max_le_iff.1 hdepth
    have hobj := obj.walk p depth h.1 hdepths.1
    exact Walk.bind_eq_ended.2 ⟨_, hobj, rest.walk _ _ depth h.2 hdepths.2⟩

end

end memory

/-! ## More depth changes nothing -/

namespace Walk
variable {α β : Type}

/-- The one walk was stopped for its depth, or both are the same. -/
def Below (x y : Walk α) : Prop := x = deeper ∨ x = y

theorem Below.refl (x : Walk α) : x.Below x := .inr rfl

theorem Below.bind {x y : Walk α} {f g : α → Walk β} (h : x.Below y) (hf : ∀ a, (f a).Below (g a)) :
    (x >>= f).Below (y >>= g) := by
  rcases h with rfl | rfl
  · exact .inl rfl
  · cases x with
    | ended a => exact hf a
    | outside => exact .inr rfl
    | deeper => exact .inl rfl

theorem Below.trans {x y z : Walk α} (hxy : x.Below y) (hyz : y.Below z) : x.Below z := by
  rcases hxy with rfl | rfl
  · exact .inl rfl
  · exact hyz

end Walk

section below
variable (memory : List UInt8) {inner inner' : ℤ → Walk ℤ} (h : ∀ p, (inner p).Below (inner' p))
include h

omit memory in
theorem walkItems_below (n : ℕ) (p len : ℤ) :
    (walkItems inner n p len).Below (walkItems inner' n p len) := by
  induction n generalizing p len with
  | zero => exact .refl _
  | succ n ih => exact (h p).bind fun size => ih (p + size) _

theorem walkArray_below (p : ℤ) : (walkArray memory inner p).Below (walkArray memory inner' p) :=
  (Walk.Below.refl _).bind fun elements => walkItems_below h elements.toNat (p + 8) 8

theorem walkValue_below (p : ℤ) (tag : BSONTYPE) :
    (walkValue memory inner p tag).Below (walkValue memory inner' p tag) := by
  cases tag with
  | BSON_TYPE => exact h p
  | BSONARRAY_TYPE => exact walkArray_below memory h p
  | _ => exact .refl _

theorem walkElements_below (n : ℕ) (p : ℤ) :
    (walkElements memory inner n p).Below (walkElements memory inner' n p) := by
  induction n generalizing p with
  | zero => exact .refl _
  | succ n ih =>
    refine (Walk.Below.refl _).bind fun keySize => ?_
    refine (Walk.Below.refl _).bind fun type => ?_
    refine (walkValue_below memory h _ _).bind fun size => ?_
    exact (ih _).bind fun rest => .refl _

end below

theorem walkObj_below (memory : List UInt8) (depth : ℕ) (p : ℤ) :
    (walkObj memory depth p).Below (walkObj memory (depth + 1) p) := by
  induction depth generalizing p with
  | zero => exact .inl rfl
  | succ depth ih =>
    refine (Walk.Below.refl _).bind fun elements => ?_
    split_ifs
    · exact .refl _
    · exact (walkElements_below memory ih _ _).bind fun rest => .refl _

theorem walkObj_below_of_le (memory : List UInt8) {depth depth' : ℕ} (h : depth ≤ depth') (p : ℤ) :
    (walkObj memory depth p).Below (walkObj memory depth' p) := by
  induction h with
  | refl => exact .refl _
  | step _ ih => exact ih.trans (walkObj_below memory _ p)

/-! ## The constructors -/

/-- What is constructed over the bytes. -/
inductive Scanned where
  | obj
  | array

def Scanned.tag : Scanned → BSONTYPE
  | obj => .BSON_TYPE
  | array => .BSONARRAY_TYPE

/-- The constructor, to a depth of nesting. -/
def Scanned.scan (root : Scanned) (memory : List UInt8) (depth : ℕ) : Walk ℤ :=
  walkValue memory (walkObj memory depth) 0 root.tag

theorem Scanned.scan_below (root : Scanned) (memory : List UInt8) {depth depth' : ℕ}
    (h : depth ≤ depth') : (root.scan memory depth).Below (root.scan memory depth') :=
  walkValue_below memory (walkObj_below_of_le memory h) 0 root.tag

/-- The constructor comes to an end, and every byte that it reads is one of the sequence. -/
structure ScansInside (root : Scanned) (memory : List UInt8) : Prop where
  inside : ∀ depth, root.scan memory depth ≠ .outside
  ends : ∃ depth size, root.scan memory depth = .ended size

/-- A walk that goes outside does so at every greater depth, so that one that ends is enough. -/
theorem scansInside_of_ended {root : Scanned} {memory : List UInt8} {depth : ℕ} {size : ℤ}
    (hends : root.scan memory depth = .ended size) : ScansInside root memory := by
  refine ⟨fun depth' houtside => ?_, depth, size, hends⟩
  rcases le_total depth' depth with hle | hle
  · rcases root.scan_below memory hle with h | h
    · nomatch houtside.symm.trans h
    · nomatch houtside.symm.trans (h.trans hends)
  · rcases root.scan_below memory hle with h | h
    · nomatch hends.symm.trans h
    · nomatch hends.symm.trans (h.trans houtside)

/-- The constructor stays inside exactly if the bytes are laid out: there is a finite tree of
documents all of whose counts, lengths and tags lie in the sequence. -/
theorem scansInside_iff (root : Scanned) (memory : List UInt8) :
    ScansInside root memory ↔
      ∃ value : LaidValue, value.fits root.tag = true ∧ value.LiesAt memory 0 := by
  constructor
  · rintro ⟨-, depth, size, h⟩
    rcases walkValue_layout (walkObj_layout depth) h with ⟨value, hfits, hlies, -⟩
    exact ⟨value, hfits, hlies⟩
  · rintro ⟨value, hfits, hlies⟩
    exact scansInside_of_ended (value.walk 0 value.depth root.tag hfits hlies le_rfl)

/-- A count of one element and nothing behind it. -/
theorem not_scansInside : ¬ ScansInside .obj [1, 0, 0, 0, 0, 0, 0, 0] := by
  rintro ⟨hinside, -⟩
  exact hinside 1 (by decide)

/-! ## Views are walks -/

section views
variable {memory : List UInt8} {p : ℕ}

theorem readWordAt_of_readAt {w : ℕ} {v : ℤ} (h : readAt w (memory.drop p) = some v)
    (hp : p ≤ memory.length) : readWordAt memory w p = .ended v := by
  unfold readAt at h
  split_ifs at h with hlen
  rw [List.length_drop] at hlen
  refine (readWordAt_eq_ended memory).2 ⟨⟨by omega, by omega⟩, ?_⟩
  rw [wordAt, Int.toNat_natCast]
  exact Option.some.inj h

theorem advance_eq_some {n : ℤ} {rest : List UInt8} (h : advance n (memory.drop p) = some rest)
    (hp : p ≤ memory.length) :
    ∃ q : ℕ, (q : ℤ) = p + n ∧ q ≤ memory.length ∧ rest = memory.drop q := by
  unfold advance at h
  split_ifs at h with hn
  rw [List.length_drop] at hn
  rw [List.drop_drop] at h
  exact ⟨p + n.toNat, by omega, by omega, (Option.some.inj h).symm⟩

/-- Where the view of a document has an element: its words, its value at `q`, and the rest of the
document at `q'`. -/
theorem initializeElements_succ {inner : List UInt8 → Option BSONBufferedObj} {n : ℕ}
    {len size : ℤ} {elements : BufferedElements} (hp : p ≤ memory.length)
    (h : initializeElements inner (n + 1) (memory.drop p) len = some (elements, size)) :
    ∃ (keySize type valueSize : ℤ) (value : BufferedValue) (rest : BufferedElements) (q q' : ℕ),
      readWordAt memory 4 p = .ended keySize ∧
      readWordAt memory 8 (p + 4 + keySize) = .ended type ∧
      p + 4 + keySize ≤ memory.length ∧ (q : ℤ) = p + 12 + keySize ∧ q ≤ memory.length ∧
      initializeValue inner (memory.drop q) (tagOf type) = some (value, valueSize) ∧
      (q' : ℤ) = q + valueSize ∧ q' ≤ memory.length ∧
      initializeElements inner n (memory.drop q') (len + 4 + keySize + 8 + valueSize) =
        some (rest, size) ∧
      elements = .element ((memory.drop (p + 4)).take keySize.toNat) (tagOf type) value rest := by
  rcases Option.bind_eq_some_iff.1 h with ⟨keySize, hkey, h⟩
  rcases Option.bind_eq_some_iff.1 h with ⟨keys, hkeys, h⟩
  rcases advance_eq_some hkeys hp with ⟨q₁, hq₁, hlen₁, rfl⟩
  rcases Option.bind_eq_some_iff.1 h with ⟨types, htypes, h⟩
  rcases advance_eq_some htypes hlen₁ with ⟨q₂, hq₂, hlen₂, rfl⟩
  rcases Option.bind_eq_some_iff.1 h with ⟨type, htype, h⟩
  rcases Option.bind_eq_some_iff.1 h with ⟨values, hvalues, h⟩
  rcases advance_eq_some hvalues hlen₂ with ⟨q₃, hq₃, hlen₃, rfl⟩
  rcases Option.bind_eq_some_iff.1 h with ⟨⟨value, valueSize⟩, hvalue, h⟩
  rcases Option.bind_eq_some_iff.1 h with ⟨behind, hbehind, h⟩
  rcases advance_eq_some hbehind hlen₃ with ⟨q₄, hq₄, hlen₄, rfl⟩
  rcases Option.bind_eq_some_iff.1 h with ⟨⟨rest, size'⟩, hrest, h⟩
  cases h
  have hplace₁ : q₁ = p + 4 := by omega
  have hplace₂ : (p : ℤ) + 4 + keySize = q₂ := by omega
  have htypeAt := readWordAt_of_readAt htype hlen₂
  rw [← hplace₂] at htypeAt
  refine ⟨keySize, type, valueSize, value, rest, q₃, q₄, readWordAt_of_readAt hkey hp, htypeAt,
    ?_, ?_, hlen₃, hvalue, hq₄, hlen₄, hrest, ?_⟩
  · omega
  · omega
  · rw [hplace₁]
    rfl

/-- `walk` ends where `inner` makes a view, with its length. -/
def WalksAs (memory : List UInt8) (inner : List UInt8 → Option BSONBufferedObj)
    (walk : ℤ → Walk ℤ) : Prop :=
  ∀ (p : ℕ) obj, p ≤ memory.length → inner (memory.drop p) = some obj →
    walk p = .ended obj.bufferLength

variable {inner : List UInt8 → Option BSONBufferedObj} {walk : ℤ → Walk ℤ}
variable (hin : WalksAs memory inner walk)
include hin

theorem walkItems_of_initializeItems (n : ℕ) {len size : ℤ} {items : BufferedItems}
    (hp : p ≤ memory.length) (h : initializeItems inner n (memory.drop p) len = some (items, size)) :
    walkItems walk n p len = .ended size := by
  induction n generalizing p len items with
  | zero =>
    cases h
    rfl
  | succ n ih =>
    rcases Option.bind_eq_some_iff.1 h with ⟨obj, hobj, h⟩
    rcases Option.bind_eq_some_iff.1 h with ⟨rest, hadvance, h⟩
    rcases Option.bind_eq_some_iff.1 h with ⟨⟨rest', size'⟩, hrest, h⟩
    cases h
    rcases advance_eq_some hadvance hp with ⟨q, hq, hqlen, rfl⟩
    refine Walk.bind_eq_ended.2 ⟨_, hin p obj hp hobj, ?_⟩
    rw [← hq]
    exact ih hqlen hrest

theorem walkArray_of_initialize {array : BSONBufferedArrayObj} (hp : p ≤ memory.length)
    (h : initializeBufferedArray inner (memory.drop p) = some array) :
    walkArray memory walk p = .ended array.bufferLength := by
  rcases Option.bind_eq_some_iff.1 h with ⟨elements, helements, h⟩
  rcases Option.bind_eq_some_iff.1 h with ⟨⟨items, len⟩, hitems, h⟩
  cases h
  have hread := readWordAt_of_readAt helements hp
  have hinside := ((readWordAt_eq_ended memory).1 hread).1
  rw [List.drop_drop] at hitems
  refine Walk.bind_eq_ended.2 ⟨elements, hread, ?_⟩
  have hlen : p + 8 ≤ memory.length := by
    have := hinside.2
    omega
  exact walkItems_of_initializeItems hin _ hlen hitems

theorem walkValue_of_initializeValue {tag : BSONTYPE} {value : BufferedValue} {size : ℤ}
    (hp : p ≤ memory.length) (h : initializeValue inner (memory.drop p) tag = some (value, size)) :
    walkValue memory walk p tag = .ended size := by
  cases tag with
  | PTRCHAR_TYPE =>
    rcases Option.map_eq_some_iff.1 h with ⟨len, hlen, h⟩
    cases h
    exact Walk.bind_eq_ended.2 ⟨len, readWordAt_of_readAt hlen hp, rfl⟩
  | STRING_TYPE =>
    rcases Option.map_eq_some_iff.1 h with ⟨len, hlen, h⟩
    cases h
    exact Walk.bind_eq_ended.2 ⟨len, readWordAt_of_readAt hlen hp, rfl⟩
  | BSON_TYPE =>
    rcases Option.map_eq_some_iff.1 h with ⟨obj, hobj, h⟩
    cases h
    exact hin p obj hp hobj
  | BSONARRAY_TYPE =>
    rcases Option.map_eq_some_iff.1 h with ⟨array, harray, h⟩
    cases h
    exact walkArray_of_initialize hin hp harray
  | _ =>
    cases h
    rfl

theorem walkElements_of_initializeElements (n : ℕ) {len size : ℤ} {elements : BufferedElements}
    (hp : p ≤ memory.length)
    (h : initializeElements inner n (memory.drop p) len = some (elements, size)) :
    walkElements memory walk n p = .ended (size - len) := by
  induction n generalizing p len elements with
  | zero =>
    cases h
    rw [sub_self]
    rfl
  | succ n ih =>
    rcases initializeElements_succ hp h with ⟨keySize, type, valueSize, value, rest, q, q', hkey,
      htype, -, hq, hlen, hvalue, hq', hlen', hrest, -⟩
    refine Walk.bind_eq_ended.2 ⟨keySize, hkey, ?_⟩
    refine Walk.bind_eq_ended.2 ⟨type, htype, ?_⟩
    rw [← hq]
    refine Walk.bind_eq_ended.2 ⟨valueSize, walkValue_of_initializeValue hin hlen hvalue, ?_⟩
    rw [← hq']
    refine Walk.bind_eq_ended.2 ⟨_, ih hlen' hrest, ?_⟩
    congr 1
    omega

end views

theorem walkObj_of_initializeObj (memory : List UInt8) (fuel : ℕ) :
    WalksAs memory (initializeObj fuel) (walkObj memory fuel) := by
  induction fuel with
  | zero => exact fun p obj _ h => nomatch h
  | succ fuel ih =>
    intro p obj hp h
    rcases Option.bind_eq_some_iff.1 h with ⟨elements, helements, h⟩
    split_ifs at h with hmany
    rcases Option.bind_eq_some_iff.1 h with ⟨⟨laid, len⟩, hlaid, h⟩
    cases h
    have hread := readWordAt_of_readAt helements hp
    have hinside := ((readWordAt_eq_ended memory).1 hread).1
    have hlen : p + 8 ≤ memory.length := by
      have := hinside.2
      omega
    rw [List.drop_drop] at hlaid
    refine Walk.bind_eq_ended.2 ⟨elements, hread, ?_⟩
    rw [if_neg hmany]
    refine Walk.bind_eq_ended.2 ⟨_, walkElements_of_initializeElements ih _ hlen hlaid, ?_⟩
    change Walk.ended (8 + (len - 8)) = .ended len
    congr 1
    omega

/-- Where the constructor makes a view, the walk comes to its end, as far as the view says. -/
theorem BSONBufferedObj.scan_new {buffer : List UInt8} {obj : BSONBufferedObj}
    (h : new buffer = some obj) :
    Scanned.obj.scan buffer (buffer.length + 1) = .ended obj.bufferLength :=
  walkObj_of_initializeObj buffer (buffer.length + 1) 0 obj (Nat.zero_le _) h

/-- The encoding of a document is scanned inside, whatever follows it. -/
theorem scansInside_writeBSON (d : Document) (hfit : d.obj.arraysFit = true) (tail : List UInt8) :
    ScansInside .obj (writeBSON d.obj ++ tail) :=
  scansInside_of_ended
    (BSONBufferedObj.scan_new (BSONBufferedObj.new_writeBSON d.obj tail d.wf hfit))

end Djondb
