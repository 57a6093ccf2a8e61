import Djondb.DjString
import Djondb.LibSearchPage
import Mathlib.Data.List.Induction

set_option autoImplicit false

/-!
# Index pages

The arrays of `bplusindexp.cpp` and the pages built from them. An array slot is an `Option`;
`NULL` is `none`. The array helpers are the loops of the source; the lemmas say what they do to
an array cut at the position they work on.
-/
namespace Djondb

/-- Should be even (3, 5, 7), says the source. -/
def BUCKET_MAX_ELEMENTS : ℕ := 5

section arrays
variable {α : Type}

/-- `malloc` for an array; its slots are written before they are read. -/
def mallocArray (size : ℕ) : List (Option α) := List.replicate size none

/-- The inner loop of `shiftRightArray`, with `x = n - 1` running down to `startPoint`. -/
def shiftRightLoop (startPoint : ℕ) : ℕ → List (Option α) → List (Option α)
  | 0, array => array
  | n + 1, array =>
    if startPoint ≤ n then
      shiftRightLoop startPoint n ((array.set (n + 1) (array.getD n none)).set n none)
    else array

def shiftRightArray (array : List (Option α)) (startPoint count size : ℕ) : List (Option α) :=
  (List.range count).foldl (fun array _ => shiftRightLoop startPoint (size - 1) array) array

/-- The inner loop of `shiftLeftArray`, from `x` on for `n` steps. -/
def shiftLeftLoop : ℕ → ℕ → List (Option α) → List (Option α)
  | _, 0, array => array
  | x, n + 1, array =>
    shiftLeftLoop (x + 1) n ((array.set (x - 1) (array.getD x none)).set x none)

def shiftLeftArray (array : List (Option α)) (startPoint count size : ℕ) : List (Option α) :=
  (List.range count).foldl
    (fun array _ => shiftLeftLoop (startPoint + 1) (size - (startPoint + 1)) array) array

def insertArray (array : List (Option α)) (element : Option α) (pos length : ℕ) :
    List (Option α) :=
  (shiftRightArray array pos 1 length).set pos element

def initializeArray (array : List (Option α)) (size : ℕ) : List (Option α) :=
  (List.range size).foldl (fun array x => array.set x none) array

/-- The loop of `copyArray`: `n` slots of `source` from `x` on into `destination` from `i` on. -/
def copyLoop (source : List (Option α)) : ℕ → ℕ → ℕ → List (Option α) → List (Option α)
  | _, _, 0, destination => destination
  | x, i, n + 1, destination =>
    copyLoop source (x + 1) (i + 1) n (destination.set i (source.getD x none))

def copyArray (source destination : List (Option α)) (startIndex endIndex offset : ℕ) :
    List (Option α) :=
  copyLoop source startIndex offset (endIndex + 1 - startIndex) destination

theorem set_at_length (A B : List (Option α)) (x y : Option α) :
    (A ++ x :: B).set A.length y = A ++ y :: B := by
  simp

/-- Shifting `M` over the slot behind it leaves room for an element before it. -/
theorem shiftRightLoop_set (A M R : List (Option α)) (z e : Option α) :
    (shiftRightLoop A.length (A.length + M.length) (A ++ M ++ z :: R)).set A.length e =
      A ++ e :: M ++ R := by
  induction M using List.reverseRecOn generalizing z R with
  | nil =>
    obtain _ | ⟨a, A⟩ := A
    · rfl
    · simp [shiftRightLoop]
  | append_singleton M m ih =>
    have hlen : A.length + (M ++ [m]).length = (A ++ M).length + 1 := by simp; omega
    have hge : A.length ≤ (A ++ M).length := by simp
    have hget : (A ++ (M ++ [m]) ++ z :: R).getD (A ++ M).length none = m := by
      simp
    have hset : ((A ++ (M ++ [m]) ++ z :: R).set ((A ++ M).length + 1) m).set (A ++ M).length none =
        A ++ M ++ none :: m :: R := by
      have h1 := set_at_length (A ++ M ++ [m]) R z m
      have h2 := set_at_length (A ++ M) (m :: R) m none
      simp only [List.append_assoc, List.length_append, List.length_singleton,
        List.singleton_append] at h1 h2 ⊢
      rw [← Nat.add_assoc] at h1
      rw [h1, h2]
    have hrec := ih (m :: R) none
    rw [hlen, shiftRightLoop, if_pos hge, hget, hset, List.length_append, hrec]
    simp

theorem insertArray_eq (A M : List (Option α)) (z e : Option α) {l : ℕ}
    (h : l = A.length + M.length + 1) :
    insertArray (A ++ M ++ [z]) e A.length l = A ++ e :: M := by
  subst l
  have hset := shiftRightLoop_set A M [] z e
  rw [List.append_nil] at hset
  exact hset

/-- The emptied slot travels to the end of the shifted part. -/
theorem shiftLeftLoop_none (A M R : List (Option α)) :
    shiftLeftLoop (A.length + 1) M.length (A ++ none :: M ++ R) = A ++ M ++ none :: R := by
  induction M generalizing A with
  | nil => simp [shiftLeftLoop]
  | cons m M ih =>
    have hget : (A ++ none :: m :: M ++ R).getD (A.length + 1) none = m := by
      simp
    have hset : ((A ++ none :: m :: M ++ R).set (A.length + 1 - 1) m).set (A.length + 1) none =
        (A ++ [m]) ++ none :: M ++ R := by
      have h1 := set_at_length A (m :: M ++ R) none m
      have h2 := set_at_length (A ++ [m]) (M ++ R) m none
      simp only [List.append_assoc, List.length_append, List.length_singleton, List.cons_append,
        List.nil_append, Nat.add_sub_cancel] at h1 h2 ⊢
      rw [h1, h2]
    have hlen : A.length + 1 = (A ++ [m]).length := by simp
    rw [List.length_cons, shiftLeftLoop, hget, hset, hlen, ih]
    simp

theorem shiftLeftArray_eq (a b : Option α) (M R : List (Option α)) :
    shiftLeftArray (a :: b :: M ++ R) 0 1 (M.length + 2) = b :: M ++ none :: R := by
  have h := shiftLeftLoop_none [b] M R
  change shiftLeftLoop 1 (M.length + 2 - 1) (a :: b :: M ++ R) = _
  exact h

theorem copyLoop_eq (S S' Y A X B : List (Option α)) (h : X.length = Y.length) :
    copyLoop (S ++ Y ++ S') S.length A.length Y.length (A ++ X ++ B) = A ++ Y ++ B := by
  induction Y generalizing S A X with
  | nil =>
    obtain rfl : X = [] := List.length_eq_zero_iff.1 h
    rfl
  | cons y Y ih =>
    obtain _ | ⟨x, X⟩ := X
    · simp at h
    have hget : (S ++ y :: Y ++ S').getD S.length none = y := by
      simp
    have hset : (A ++ x :: X ++ B).set A.length y = (A ++ [y]) ++ X ++ B := by
      simp
    have hrec := ih (S ++ [y]) (A ++ [y]) X (by simpa using h)
    rw [List.length_cons, copyLoop, hget, hset]
    simpa using hrec

theorem foldl_set_none (array : List (Option α)) (n : ℕ) (h : n ≤ array.length) :
    (List.range n).foldl (fun array x => array.set x none) array =
      List.replicate n none ++ array.drop n := by
  induction n with
  | zero => simp
  | succ n ih =>
    have hn : n < array.length := by omega
    have hdrop : array.drop n = array[n] :: array.drop (n + 1) := List.drop_eq_getElem_cons hn
    have hset := set_at_length (List.replicate n none) (array.drop (n + 1)) array[n] none
    rw [List.length_replicate] at hset
    rw [List.range_succ, List.foldl_append, ih (by omega), hdrop, List.foldl_cons, List.foldl_nil,
      hset, List.replicate_succ']
    simp

theorem initializeArray_eq {array : List (Option α)} {size : ℕ} (h : array.length = size) :
    initializeArray array size = List.replicate size none := by
  subst size
  simpa [initializeArray] using foldl_set_none array array.length le_rfl

end arrays

/-! ## Entries and pages -/

/-- An entry; its key document is `{_id: key}`. -/
structure Index where
  key : CString
  documentId : CString
  posData : ℤ
  indexPos : ℤ
  deriving DecidableEq

abbrev Rank := ℕ ×ₗ List ℕ

def Index.rank (e : Index) : Rank := e.key.rank

def findInsertPositionLoop (elements : List (Option Index)) (key : CString) : ℕ → ℕ → ℕ
  | x, 0 => x
  | x, n + 1 =>
    match elements.getD x none with
    | none => x
    | some current =>
      if djCompare current.key.bytes key.bytes = .lt then x
      else findInsertPositionLoop elements key (x + 1) n

def findInsertPositionArray (elements : List (Option Index)) (index : Index) (len size : ℕ) : ℕ :=
  if len = 0 then 0 else findInsertPositionLoop elements index.key 0 size

structure IndexPage where
  elements : List (Option Index)
  pointers : List (Option ℕ)
  leftSibling : Option ℕ
  rightSibling : Option ℕ
  parentElement : Option ℕ
  size : ℕ
  bufferIndex : ℤ
  bufferPos : ℤ
  isLoaded : Bool
  deriving DecidableEq

namespace IndexPage

/-- The constructor `IndexPage()`. -/
def new : IndexPage where
  elements := initializeArray (mallocArray BUCKET_MAX_ELEMENTS) BUCKET_MAX_ELEMENTS
  pointers := initializeArray (mallocArray (BUCKET_MAX_ELEMENTS + 1)) (BUCKET_MAX_ELEMENTS + 1)
  leftSibling := none
  rightSibling := none
  parentElement := none
  size := 0
  bufferIndex := -1
  bufferPos := -1
  isLoaded := false

/-- The page that `createRoot` fills. -/
def root (element : Option Index) (left right : ℕ) : IndexPage :=
  { new with
    pointers := (new.pointers.set 0 (some left)).set 1 (some right)
    elements := new.elements.set 0 element
    size := 1 }

def element (page : IndexPage) (x : ℕ) : Option Index := page.elements.getD x none

def pointer (page : IndexPage) (x : ℕ) : Option ℕ := page.pointers.getD x none

def isLeaf (page : IndexPage) : Bool :=
  (List.range (page.size + 1)).all (fun x => (page.pointer x).isNone)

def isFull (page : IndexPage) : Bool := page.size ≥ BUCKET_MAX_ELEMENTS

def movePointers (page : IndexPage) (startPoint count : ℕ) : IndexPage :=
  { page with
    pointers := shiftRightArray page.pointers startPoint count (BUCKET_MAX_ELEMENTS + 1) }

def moveElements (page : IndexPage) (startPoint count : ℕ) : IndexPage :=
  { page with elements := shiftRightArray page.elements startPoint count BUCKET_MAX_ELEMENTS }

def findInsertPosition (page : IndexPage) (index : Index) : ℕ :=
  findInsertPositionArray page.elements index page.size BUCKET_MAX_ELEMENTS

def insertAt (page : IndexPage) (pos : ℕ) (index : Index) (rightPointer : Option ℕ) :
    IndexPage :=
  let page := (page.moveElements pos 1).movePointers (pos + 1) 1
  { page with
    elements := page.elements.set pos (some index)
    pointers := page.pointers.set (pos + 1) rightPointer
    size := page.size + 1 }

/-! The temporal arrays of a split, and what either page gets of them. -/

def splitElements (page : IndexPage) : List (Option Index) :=
  copyArray page.elements
    (initializeArray (mallocArray (BUCKET_MAX_ELEMENTS + 1)) BUCKET_MAX_ELEMENTS)
    0 (BUCKET_MAX_ELEMENTS - 1) 0

def splitPointers (page : IndexPage) : List (Option ℕ) :=
  copyArray page.pointers
    (initializeArray (mallocArray (BUCKET_MAX_ELEMENTS + 2)) (BUCKET_MAX_ELEMENTS + 1))
    0 BUCKET_MAX_ELEMENTS 0

def posToInsert (page : IndexPage) (index : Index) : ℕ :=
  findInsertPositionArray page.splitElements index page.size BUCKET_MAX_ELEMENTS

def tmpelements (page : IndexPage) (index : Index) : List (Option Index) :=
  insertArray page.splitElements (some index) (page.posToInsert index) (BUCKET_MAX_ELEMENTS + 1)

def tmppointers (page : IndexPage) (index : Index) (rightPage : Option ℕ) :
    List (Option ℕ) :=
  insertArray page.splitPointers rightPage (page.posToInsert index + 1) (BUCKET_MAX_ELEMENTS + 2)

def midPoint : ℕ := BUCKET_MAX_ELEMENTS / 2

def keepElements (page : IndexPage) (tmpelements : List (Option Index)) : IndexPage :=
  { page with
    elements := copyArray tmpelements (initializeArray page.elements BUCKET_MAX_ELEMENTS)
      0 midPoint 0
    size := BUCKET_MAX_ELEMENTS / 2 + 1 }

def keepPointers (page : IndexPage) (tmppointers : List (Option ℕ)) : IndexPage :=
  { page with
    pointers := copyArray tmppointers (initializeArray page.pointers (BUCKET_MAX_ELEMENTS + 1))
      0 (midPoint + 1) 0 }

def takeElements (page : IndexPage) (tmpelements : List (Option Index)) : IndexPage :=
  { page with
    elements := copyArray tmpelements page.elements (midPoint + 1) BUCKET_MAX_ELEMENTS 0
    size := BUCKET_MAX_ELEMENTS / 2 + 1 }

def takePointers (page : IndexPage) (tmppointers : List (Option ℕ)) : IndexPage :=
  { page with
    pointers := copyArray tmppointers page.pointers (midPoint + 2) (BUCKET_MAX_ELEMENTS + 1) 1 }

/-- Removes the promoted entry and the empty pointer in front of it. -/
def dropFirst (page : IndexPage) : IndexPage :=
  { page with
    elements := shiftLeftArray page.elements 0 1 (BUCKET_MAX_ELEMENTS - 1)
    pointers := shiftLeftArray page.pointers 0 1 BUCKET_MAX_ELEMENTS
    size := page.size - 1 }

/-- The end of a split: the slots from `size` on are set to `NULL`. -/
def clean (page : IndexPage) : IndexPage :=
  let xs := (List.range BUCKET_MAX_ELEMENTS).drop page.size
  { page with
    elements := xs.foldl (fun elements x => elements.set x none) page.elements
    pointers := (xs.foldl (fun pointers x => pointers.set (x + 1) none) page.pointers).set
      BUCKET_MAX_ELEMENTS none }

end IndexPage

/-! ## The entries and children of a page -/

/-- The slots of a page hold the entries `es` and the children `ps`, followed by `NULL`s. -/
structure IndexPage.Shape (page : IndexPage) (es : List Index) (ps : List ℕ) : Prop where
  elements : page.elements = es.map some ++ List.replicate (BUCKET_MAX_ELEMENTS - es.length) none
  pointers :
    page.pointers = ps.map some ++ List.replicate (BUCKET_MAX_ELEMENTS + 1 - ps.length) none
  size : page.size = es.length
  le : es.length ≤ BUCKET_MAX_ELEMENTS
  children : ps = [] ∨ ps.length = es.length + 1

theorem getD_map_some {α : Type} (xs : List α) (n x : ℕ) :
    (xs.map some ++ List.replicate n none).getD x none = xs[x]? := by
  by_cases h : x < xs.length
  · simp [List.getD_eq_getElem?_getD, List.getElem?_append_left, h]
  · have hx : xs.length ≤ x := by omega
    rw [List.getD_eq_getElem?_getD, List.getElem?_append_right (by simpa using hx),
      List.getElem?_replicate, List.getElem?_eq_none hx]
    split <;> rfl

theorem findInsertPositionLoop_eq (es : List Index) (key : CString) (x n k : ℕ)
    (h : es.length ≤ x + n) :
    findInsertPositionLoop (es.map some ++ List.replicate k none) key x n =
      x + SearchPage.slot Index.rank key.rank (es.drop x) := by
  induction n generalizing x with
  | zero =>
    have hd : es.drop x = [] := List.drop_eq_nil_iff.2 h
    rw [hd]
    rfl
  | succ n ih =>
    rw [findInsertPositionLoop, getD_map_some]
    by_cases hx : x < es.length
    · rw [List.getElem?_eq_getElem hx, List.drop_eq_getElem_cons hx]
      simp only [CString.compare_lt_iff]
      rw [ih (x + 1) (by omega), SearchPage.slot, SearchPage.slot, List.findIdx_cons]
      by_cases hlt : es[x].key.rank < key.rank
      · have hd : decide (es[x].rank < key.rank) = true := decide_eq_true hlt
        rw [if_pos hlt, hd]
        rfl
      · have hd : decide (es[x].rank < key.rank) = false := decide_eq_false hlt
        rw [if_neg hlt, hd]
        simp only [cond_false]
        omega
    · have hd : es.drop x = [] := List.drop_eq_nil_iff.2 (by omega)
      rw [List.getElem?_eq_none (by omega), hd]
      rfl

theorem findInsertPositionArray_eq (es : List Index) (index : Index) (n k : ℕ)
    (h : es.length ≤ n) :
    findInsertPositionArray (es.map some ++ List.replicate k none) index es.length n =
      SearchPage.slot Index.rank index.rank es := by
  rw [findInsertPositionArray]
  split_ifs with h0
  · obtain rfl := List.length_eq_zero_iff.1 h0
    rfl
  · rw [findInsertPositionLoop_eq es index.key 0 n k (by omega), List.drop_zero, Nat.zero_add]
    rfl

namespace IndexPage

theorem new_shape : new.Shape [] [] := by
  constructor <;> decide

theorem root_shape (e : Index) (left right : ℕ) :
    (root (some e) left right).Shape [e] [left, right] :=
  ⟨rfl, rfl, rfl, by simp [BUCKET_MAX_ELEMENTS], Or.inr rfl⟩

variable {page : IndexPage} {es : List Index} {ps : List ℕ}

theorem Shape.element_eq (h : page.Shape es ps) (x : ℕ) : page.element x = es[x]? := by
  rw [element, h.elements, getD_map_some]

theorem Shape.pointer_eq (h : page.Shape es ps) (x : ℕ) : page.pointer x = ps[x]? := by
  rw [pointer, h.pointers, getD_map_some]

/-- The pointers that the page follows are those to `ps`. -/
structure PointsTo (page : IndexPage) (ps : List ℕ) : Prop where
  mem : ∀ x c, page.pointer x = some c → c ∈ ps
  slot : ∀ c ∈ ps, some c ∈ (List.range (BUCKET_MAX_ELEMENTS + 1)).map page.pointer

theorem PointsTo.mem_iff (h : page.PointsTo ps) (c : ℕ) :
    some c ∈ (List.range (BUCKET_MAX_ELEMENTS + 1)).map page.pointer ↔ c ∈ ps := by
  refine ⟨fun hc => ?_, h.slot c⟩
  obtain ⟨x, -, hx⟩ := List.mem_map.1 hc
  exact h.mem x c hx

theorem Shape.children_le (h : page.Shape es ps) : ps.length ≤ es.length + 1 := by
  obtain rfl | hlen := h.children
  · simp
  · exact hlen.le

theorem Shape.pointsTo (h : page.Shape es ps) : page.PointsTo ps := by
  refine ⟨fun x c hx => ?_, fun c hc => ?_⟩
  · rw [h.pointer_eq] at hx
    exact List.mem_of_getElem? hx
  · obtain ⟨x, hx, rfl⟩ := List.mem_iff_getElem.1 hc
    have hle := h.le
    have hle' := h.children_le
    refine List.mem_map.2 ⟨x, List.mem_range.2 (by omega), ?_⟩
    rw [h.pointer_eq, List.getElem?_eq_getElem hx]

theorem Shape.isLeaf_eq (h : page.Shape es ps) : page.isLeaf = ps.isEmpty := by
  obtain rfl | hlen := h.children
  · simp [isLeaf, h.pointer_eq]
  · have hne : ps ≠ [] := List.ne_nil_of_length_pos (by omega)
    rw [List.isEmpty_eq_false_iff.2 hne, isLeaf, List.all_eq_false]
    refine ⟨0, by simp, ?_⟩
    have h0 : 0 < ps.length := by omega
    simp [h.pointer_eq, List.getElem?_eq_getElem h0]

theorem Shape.isFull_eq (h : page.Shape es ps) :
    page.isFull = decide (BUCKET_MAX_ELEMENTS ≤ es.length) := by
  rw [isFull, h.size]

theorem Shape.findInsertPosition_eq (h : page.Shape es ps) (index : Index) :
    page.findInsertPosition index = SearchPage.slot Index.rank index.rank es := by
  rw [findInsertPosition, h.size, h.elements, findInsertPositionArray_eq es index _ _ h.le]

end IndexPage

/-! ## What the array steps do to entries and children -/

section slots
variable {α : Type}

theorem insertArray_map_some (X Y : List α) (e : α) (n : ℕ) {l : ℕ}
    (h : l = X.length + Y.length + n + 1) :
    insertArray ((X ++ Y).map some ++ List.replicate (n + 1) none) (some e) X.length l =
      (X ++ e :: Y).map some ++ List.replicate n none := by
  have heq := insertArray_eq (X.map some) (Y.map some ++ List.replicate n none) none (some e)
    (l := l) (by simp; omega)
  rw [List.length_map] at heq
  simpa [List.replicate_succ'] using heq

theorem insertArray_none (pos n : ℕ) (h : pos ≤ n) :
    insertArray (List.replicate (n + 1) (none : Option α)) none pos (n + 1) =
      List.replicate (n + 1) none := by
  have heq := insertArray_eq (List.replicate pos (none : Option α)) (List.replicate (n - pos) none)
    none none (l := n + 1) (by simp; omega)
  have h1 : List.replicate pos (none : Option α) ++ List.replicate (n - pos) none ++ [none] =
      List.replicate (n + 1) none := by
    rw [← List.replicate_add, ← List.replicate_succ']
    congr 1
    omega
  have h2 : List.replicate pos (none : Option α) ++ none :: List.replicate (n - pos) none =
      List.replicate (n + 1) none := by
    rw [← List.replicate_succ, ← List.replicate_add]
    congr 1
    omega
  rwa [h1, h2, List.length_replicate] at heq

/-- Copying the slots that hold `Y` behind `k` empty ones. -/
theorem copyArray_map_some (X Y Z : List α) (R : List (Option α)) (k n : ℕ) (hY : Y ≠ []) :
    copyArray ((X ++ Y ++ Z).map some ++ R) (List.replicate (k + Y.length + n) none) X.length
      (X.length + Y.length - 1) k =
      List.replicate k none ++ Y.map some ++ List.replicate n none := by
  have hpos := List.length_pos_iff.2 hY
  have hlen : X.length + Y.length - 1 + 1 - X.length = (Y.map some).length := by
    rw [List.length_map]
    omega
  have heq := copyLoop_eq (X.map some) (Z.map some ++ R) (Y.map some)
    (List.replicate k (none : Option α)) (List.replicate Y.length none) (List.replicate n none)
    (by simp)
  rw [List.length_map, List.length_replicate, ← List.replicate_add, ← List.replicate_add] at heq
  rw [copyArray, hlen, ← heq]
  simp

theorem set_none_of_le (X : List α) (n i : ℕ) (h : X.length ≤ i) :
    (X.map some ++ List.replicate n none).set i none = X.map some ++ List.replicate n none := by
  rw [List.set_append_right _ _ (by simpa using h), List.set_replicate_self]

theorem foldl_set_none_of_le (X : List α) (n : ℕ) (f : ℕ → ℕ) (xs : List ℕ)
    (h : ∀ x ∈ xs, X.length ≤ f x) :
    xs.foldl (fun array x => array.set (f x) none) (X.map some ++ List.replicate n none) =
      X.map some ++ List.replicate n none := by
  induction xs with
  | nil => rfl
  | cons x xs ih =>
    rw [List.foldl_cons, set_none_of_le X n _ (h x (by simp))]
    exact ih fun y hy => h y (by simp [hy])

end slots

namespace IndexPage
variable {page : IndexPage} {es : List Index} {ps : List ℕ}

/-- A page with room has nothing to clean up. -/
theorem Shape.clean_eq (h : page.Shape es ps) (hroom : es.length < BUCKET_MAX_ELEMENTS) :
    page.clean = page := by
  have hle := h.children_le
  have hx : ∀ x ∈ (List.range BUCKET_MAX_ELEMENTS).drop es.length, es.length ≤ x := by
    intro x hx
    obtain ⟨i, hi, rfl⟩ := List.mem_iff_getElem.1 hx
    simp
  have h1 := foldl_set_none_of_le es (BUCKET_MAX_ELEMENTS - es.length) id _ hx
  have h2 := foldl_set_none_of_le ps (BUCKET_MAX_ELEMENTS + 1 - ps.length) (· + 1) _
    (fun x hx' => hle.trans (Nat.succ_le_succ (hx x hx')))
  have h3 := set_none_of_le ps (BUCKET_MAX_ELEMENTS + 1 - ps.length) BUCKET_MAX_ELEMENTS (by omega)
  simp only [id_eq] at h1
  rw [clean, h.size, h.elements, h.pointers]
  simp only [h1, h2, h3]
  rw [← h.elements, ← h.pointers, ← h.size]

/-- Inserting an entry into a leaf that has room. -/
theorem Shape.insertAt_leaf {A B : List Index} {e : Index} (h : page.Shape (A ++ B) [])
    (hroom : (A ++ B).length < BUCKET_MAX_ELEMENTS) :
    (page.insertAt A.length e none).Shape (A ++ e :: B) [] := by
  have hlen : (A ++ B).length = A.length + B.length := List.length_append
  obtain ⟨n, hn⟩ : ∃ n, BUCKET_MAX_ELEMENTS - (A ++ B).length = n + 1 :=
    ⟨BUCKET_MAX_ELEMENTS - (A ++ B).length - 1, by omega⟩
  refine ⟨?_, ?_, ?_, ?_, Or.inl rfl⟩
  · have hins := insertArray_map_some A B e n (l := BUCKET_MAX_ELEMENTS) (by omega)
    change insertArray page.elements (some e) A.length BUCKET_MAX_ELEMENTS = _
    rw [h.elements, hn, hins]
    congr 2
    simp
    omega
  · have hins := insertArray_none (α := ℕ) (A.length + 1) BUCKET_MAX_ELEMENTS (by omega)
    change insertArray page.pointers none (A.length + 1) (BUCKET_MAX_ELEMENTS + 1) = _
    rw [h.pointers]
    exact hins
  · change page.size + 1 = _
    rw [h.size]
    simp
    omega
  · simp only [List.length_append, List.length_cons] at hroom ⊢
    omega

/-- Inserting a separator and the child behind it into an inner page that has room. -/
theorem Shape.insertAt_inner {A B : List Index} {PA PB : List ℕ} {e : Index} {c r : ℕ}
    (h : page.Shape (A ++ B) (PA ++ c :: PB)) (hPA : PA.length = A.length)
    (hroom : (A ++ B).length < BUCKET_MAX_ELEMENTS) :
    (page.insertAt A.length e (some r)).Shape (A ++ e :: B) (PA ++ c :: r :: PB) := by
  have hlen : (A ++ B).length = A.length + B.length := List.length_append
  have hplen : (PA ++ c :: PB).length = (A ++ B).length + 1 := by
    obtain hnil | hplen := h.children
    · simp at hnil
    · exact hplen
  have hPAB : (PA ++ c :: PB).length = PA.length + PB.length + 1 := by simp; omega
  obtain ⟨n, hn⟩ : ∃ n, BUCKET_MAX_ELEMENTS - (A ++ B).length = n + 1 :=
    ⟨BUCKET_MAX_ELEMENTS - (A ++ B).length - 1, by omega⟩
  refine ⟨?_, ?_, ?_, ?_, Or.inr ?_⟩
  · have hins := insertArray_map_some A B e n (l := BUCKET_MAX_ELEMENTS) (by omega)
    change insertArray page.elements (some e) A.length BUCKET_MAX_ELEMENTS = _
    rw [h.elements, hn, hins]
    congr 2
    simp
    omega
  · have hins := insertArray_map_some (PA ++ [c]) PB r n (l := BUCKET_MAX_ELEMENTS + 1)
      (by simp; omega)
    have hpos : (PA ++ [c]).length = A.length + 1 := by simp [hPA]
    have hn' : BUCKET_MAX_ELEMENTS + 1 - (PA ++ c :: PB).length = n + 1 := by omega
    change insertArray page.pointers (some r) (A.length + 1) (BUCKET_MAX_ELEMENTS + 1) = _
    rw [List.append_assoc, List.singleton_append, hpos] at hins
    rw [h.pointers, hn', hins]
    congr 1
    · simp
    · congr 1
      simp
      omega
  · change page.size + 1 = _
    rw [h.size]
    simp
    omega
  · simp only [List.length_append, List.length_cons] at hroom ⊢
    omega
  · simp only [List.length_append, List.length_cons] at hplen ⊢
    omega

/-! The temporal arrays of a full page, and its two halves. -/

theorem Shape.splitElements_eq (h : page.Shape es ps) (hfull : es.length = BUCKET_MAX_ELEMENTS) :
    page.splitElements = es.map some ++ List.replicate 1 none := by
  have hne : es ≠ [] := List.ne_nil_of_length_pos (by rw [hfull]; decide)
  have hcopy := copyArray_map_some [] es [] [] 0 1 hne
  rw [hfull] at hcopy
  have hnil : page.elements = ([] ++ es ++ []).map some ++ [] := by
    rw [h.elements, hfull]
    simp
  rw [splitElements, hnil]
  exact hcopy

theorem Shape.splitPointers_eq (h : page.Shape es ps) (hfull : es.length = BUCKET_MAX_ELEMENTS)
    (hps : ps ≠ []) : page.splitPointers = ps.map some ++ List.replicate 1 none := by
  have hlen : ps.length = BUCKET_MAX_ELEMENTS + 1 := by
    obtain hnil | hlen := h.children
    · exact absurd hnil hps
    · rw [hlen, hfull]
  have hcopy := copyArray_map_some [] ps [] [] 0 1 hps
  rw [hlen] at hcopy
  have hnil : page.pointers = ([] ++ ps ++ []).map some ++ [] := by
    rw [h.pointers, hlen]
    simp
  rw [splitPointers, hnil]
  exact hcopy

theorem Shape.posToInsert_eq (h : page.Shape es ps) (hfull : es.length = BUCKET_MAX_ELEMENTS)
    (index : Index) : page.posToInsert index = SearchPage.slot Index.rank index.rank es := by
  rw [posToInsert, h.splitElements_eq hfull, h.size,
    findInsertPositionArray_eq es index _ _ h.le]

theorem Shape.tmpelements_eq {A B : List Index} {index : Index} (h : page.Shape (A ++ B) ps)
    (hfull : (A ++ B).length = BUCKET_MAX_ELEMENTS)
    (hA : A.length = SearchPage.slot Index.rank index.rank (A ++ B)) :
    page.tmpelements index = (A ++ index :: B).map some := by
  have hins := insertArray_map_some A B index 0 (l := BUCKET_MAX_ELEMENTS + 1) (by
    rw [← hfull]
    simp)
  rw [tmpelements, h.splitElements_eq hfull, h.posToInsert_eq hfull, ← hA, hins]
  simp

theorem Shape.tmppointers_eq {A B : List Index} {PA PB : List ℕ} {c r : ℕ}
    {index : Index} (h : page.Shape (A ++ B) (PA ++ c :: PB)) (hPA : PA.length = A.length)
    (hfull : (A ++ B).length = BUCKET_MAX_ELEMENTS)
    (hA : A.length = SearchPage.slot Index.rank index.rank (A ++ B)) :
    page.tmppointers index (some r) = (PA ++ c :: r :: PB).map some := by
  have hlen : (PA ++ c :: PB).length = BUCKET_MAX_ELEMENTS + 1 := by
    obtain hnil | hlen := h.children
    · simp at hnil
    · rw [hlen, hfull]
  have hins := insertArray_map_some (PA ++ [c]) PB r 0 (l := BUCKET_MAX_ELEMENTS + 2) (by
    simp only [List.length_append, List.length_cons, List.length_nil] at hlen ⊢
    omega)
  have hpos : (PA ++ [c]).length = A.length + 1 := by simp [hPA]
  rw [hpos, List.append_assoc, List.singleton_append] at hins
  rw [tmppointers, h.splitPointers_eq hfull (by simp), h.posToInsert_eq hfull, ← hA, hins]
  simp

section halves
variable {A B : List Index} {C D : List ℕ}

theorem keepElements_eq (hlen : page.elements.length = BUCKET_MAX_ELEMENTS) (h1 : A.length = 3) :
    (page.keepElements ((A ++ B).map some)).elements = A.map some ++ List.replicate 2 none := by
  have hcopy := copyArray_map_some [] A B [] 0 2 (List.ne_nil_of_length_pos (by omega))
  rw [h1, List.append_nil] at hcopy
  rw [keepElements, initializeArray_eq hlen]
  exact hcopy

theorem keepPointers_eq (hlen : page.pointers.length = BUCKET_MAX_ELEMENTS + 1)
    (h1 : C.length = 4) :
    (page.keepPointers ((C ++ D).map some)).pointers = C.map some ++ List.replicate 2 none := by
  have hcopy := copyArray_map_some [] C D [] 0 2 (List.ne_nil_of_length_pos (by omega))
  rw [h1, List.append_nil] at hcopy
  rw [keepPointers, initializeArray_eq hlen]
  exact hcopy

theorem takeElements_eq (h1 : A.length = 3) (h2 : B.length = 3) :
    (new.takeElements ((A ++ B).map some)).elements = B.map some ++ List.replicate 2 none := by
  have hcopy := copyArray_map_some A B [] [] 0 2 (List.ne_nil_of_length_pos (by omega))
  rw [h1, h2, List.append_nil, List.append_nil] at hcopy
  exact hcopy

theorem takePointers_eq (h1 : C.length = 4) (h2 : D.length = 3) (page : IndexPage)
    (hnew : page.pointers = new.pointers) :
    (page.takePointers ((C ++ D).map some)).pointers =
      none :: D.map some ++ List.replicate 2 none := by
  have hcopy := copyArray_map_some C D [] [] 1 2 (List.ne_nil_of_length_pos (by omega))
  rw [h1, h2, List.append_nil, List.append_nil] at hcopy
  rw [takePointers, hnew]
  exact hcopy

/-- The left half of a leaf. -/
theorem Shape.keep_leaf (h : page.Shape es []) (h1 : A.length = 3) :
    (page.keepElements ((A ++ B).map some)).clean =
      page.keepElements ((A ++ B).map some) ∧
    (page.keepElements ((A ++ B).map some)).Shape A [] := by
  have hlen : page.elements.length = BUCKET_MAX_ELEMENTS := by
    have hle := h.le
    rw [h.elements]
    simp
    omega
  have hshape : (page.keepElements ((A ++ B).map some)).Shape A [] := by
    refine ⟨?_, h.pointers, h1.symm, by rw [h1]; decide, Or.inl rfl⟩
    rw [keepElements_eq hlen h1, h1]
    rfl
  exact ⟨hshape.clean_eq (by rw [h1]; decide), hshape⟩

/-- The left half of an inner page. -/
theorem Shape.keep_inner (h : page.Shape es ps) (h1 : A.length = 3) (hY1 : C.length = 4) :
    ((page.keepElements ((A ++ B).map some)).keepPointers ((C ++ D).map some)).clean =
      (page.keepElements ((A ++ B).map some)).keepPointers ((C ++ D).map some) ∧
    ((page.keepElements ((A ++ B).map some)).keepPointers ((C ++ D).map some)).Shape A C := by
  have hlen : page.elements.length = BUCKET_MAX_ELEMENTS := by
    have hle := h.le
    rw [h.elements]
    simp
    omega
  have hplen : page.pointers.length = BUCKET_MAX_ELEMENTS + 1 := by
    have hle := h.le
    have hle' := h.children_le
    rw [h.pointers]
    simp
    omega
  have hshape : ((page.keepElements ((A ++ B).map some)).keepPointers
      ((C ++ D).map some)).Shape A C := by
    refine ⟨?_, ?_, h1.symm, by rw [h1]; decide, Or.inr (by rw [hY1, h1])⟩
    · have heq := keepElements_eq (B := B) hlen h1
      rw [h1]
      exact heq
    · have hplen' : (page.keepElements ((A ++ B).map some)).pointers.length =
          BUCKET_MAX_ELEMENTS + 1 := hplen
      have heq := keepPointers_eq (D := D) hplen' hY1
      rw [hY1]
      exact heq
  exact ⟨hshape.clean_eq (by rw [h1]; decide), hshape⟩

theorem take_leaf (h1 : A.length = 3) (h2 : B.length = 3) :
    (new.takeElements ((A ++ B).map some)).Shape B [] := by
  refine ⟨?_, new_shape.pointers, h2.symm, by rw [h2]; decide, Or.inl rfl⟩
  rw [takeElements_eq h1 h2, h2]
  rfl

/-- A new inner page before its first entry has moved up. -/
structure Unshifted (page : IndexPage) (m : Index) (es : List Index) (ps : List ℕ) : Prop where
  elements :
    page.elements = (m :: es).map some ++ List.replicate (BUCKET_MAX_ELEMENTS - 1 - es.length) none
  pointers :
    page.pointers = none :: ps.map some ++ List.replicate (BUCKET_MAX_ELEMENTS - ps.length) none
  size : page.size = es.length + 1
  length : es.length = 2
  children : ps.length = es.length + 1

theorem take_inner {m : Index} (h1 : A.length = 3) (h2 : B.length = 2) (hY1 : C.length = 4)
    (hY2 : D.length = 3) :
    ((new.takeElements ((A ++ m :: B).map some)).takePointers ((C ++ D).map some)).Unshifted
      m B D := by
  refine ⟨?_, ?_, by rw [h2]; rfl, h2, by rw [hY2, h2]⟩
  · have heq := takeElements_eq (B := m :: B) h1 (by simp [h2])
    rw [h2]
    exact heq
  · have heq := takePointers_eq hY1 hY2 (new.takeElements ((A ++ m :: B).map some)) rfl
    rw [hY2]
    exact heq

theorem Unshifted.dropFirst {m : Index} (h : page.Unshifted m es ps) :
    page.dropFirst.Shape es ps := by
  have hps : ps.length = 3 := by rw [h.children, h.length]
  refine ⟨?_, ?_, ?_, by rw [h.length]; decide, Or.inr h.children⟩
  · obtain _ | ⟨a, es⟩ := es
    · have hlen := h.length
      simp at hlen
    have hes : es.length = 1 := by simpa using h.length
    have heq := shiftLeftArray_eq (some m) (some a) (es.map some ++ [none]) [none]
    rw [List.length_append, List.length_map, hes] at heq
    change shiftLeftArray page.elements 0 1 (BUCKET_MAX_ELEMENTS - 1) = _
    rw [h.elements, h.length]
    simpa [BUCKET_MAX_ELEMENTS] using heq
  · obtain _ | ⟨c, ps⟩ := ps
    · simp at hps
    have hps' : ps.length = 2 := by simpa using hps
    have heq := shiftLeftArray_eq none (some c) (ps.map some ++ [none]) [none]
    rw [List.length_append, List.length_map, hps'] at heq
    change shiftLeftArray page.pointers 0 1 BUCKET_MAX_ELEMENTS = _
    rw [h.pointers, List.length_cons, hps']
    simpa [BUCKET_MAX_ELEMENTS] using heq
  · change page.size - 1 = _
    rw [h.size]
    rfl

theorem Unshifted.pointsTo {m : Index} (h : page.Unshifted m es ps) : page.PointsTo ps := by
  have hget : ∀ x, page.pointer x = if x = 0 then none else ps[x - 1]? := by
    intro x
    rw [pointer, h.pointers]
    obtain _ | x := x
    · rfl
    · simpa using getD_map_some ps (BUCKET_MAX_ELEMENTS - ps.length) x
  refine ⟨fun x c hx => ?_, fun c hc => ?_⟩
  · rw [hget] at hx
    split_ifs at hx
    exact List.mem_of_getElem? hx
  · obtain ⟨x, hx, rfl⟩ := List.mem_iff_getElem.1 hc
    have hlen := h.children
    have hes := h.length
    refine List.mem_map.2 ⟨x + 1, List.mem_range.2 (by simp only [BUCKET_MAX_ELEMENTS]; omega), ?_⟩
    rw [hget, if_neg (by omega), Nat.add_sub_cancel, List.getElem?_eq_getElem hx]

end halves

end IndexPage

end Djondb
