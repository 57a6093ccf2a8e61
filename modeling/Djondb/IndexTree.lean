import Djondb.BPlusIndexP
import Djondb.LibSearchTree

set_option autoImplicit false

/-!
# The pages as a search tree

What each step of `BPlusIndexP` does to the pages, field by field, and the search tree that the
pages of an index represent.
-/
namespace Djondb
namespace BPlusIndexP
open SearchPage SearchTree

/-! ## Single steps -/

section steps
variable {s : BPlusIndexP} {p q : ℕ} {pg : IndexPage}

@[simp] theorem setPage_length : (s.setPage p pg).pages.length = s.pages.length := by
  simp [setPage]

@[simp] theorem setPage_head : (s.setPage p pg).head = s.head := rfl
@[simp] theorem setPage_bufferManager : (s.setPage p pg).bufferManager = s.bufferManager := rfl
@[simp] theorem setPage_keys : (s.setPage p pg).keys = s.keys := rfl

@[simp] theorem newPage_length : (s.newPage pg).pages.length = s.pages.length + 1 := by
  simp [newPage]

@[simp] theorem newPage_head : (s.newPage pg).head = s.head := rfl
@[simp] theorem newPage_bufferManager : (s.newPage pg).bufferManager = s.bufferManager := rfl
@[simp] theorem newPage_keys : (s.newPage pg).keys = s.keys := rfl

@[simp] theorem page_withManager (m : BufferManager) : (s.withManager m).page q = s.page q := rfl

theorem page_setPage_self (hp : p < s.pages.length) : (s.setPage p pg).page p = pg := by
  simp [page, setPage, hp]

theorem page_setPage_of_ne (h : q ≠ p) : (s.setPage p pg).page q = s.page q := by
  simp [page, setPage, h.symm]

theorem page_newPage_self : (s.newPage pg).page s.pages.length = pg := by
  simp [page, newPage]

theorem page_newPage_of_lt (h : q < s.pages.length) : (s.newPage pg).page q = s.page q := by
  simp [page, newPage, List.getElem?_append_left h]

theorem setPage_page_self (s : BPlusIndexP) (p : ℕ) : s.setPage p (s.page p) = s := by
  have hset : s.pages.set p (s.pages.getD p IndexPage.new) = s.pages := by
    refine List.ext_getElem? fun i => ?_
    rw [List.getElem?_set]
    split_ifs with hi hlt
    · subst i
      simp [List.getElem?_eq_getElem hlt]
    · subst i
      rw [List.getElem?_eq_none (by omega)]
    · rfl
  simp only [setPage, page, hset]

/-- A step that touches neither the set of pages nor the buffers. -/
structure SameRest (s s' : BPlusIndexP) : Prop where
  length : s'.pages.length = s.pages.length
  head : s'.head = s.head
  bufferManager : s'.bufferManager = s.bufferManager
  keys : s'.keys = s.keys

theorem SameRest.refl (s : BPlusIndexP) : SameRest s s := ⟨rfl, rfl, rfl, rfl⟩

theorem SameRest.trans {a b c : BPlusIndexP} (h1 : SameRest a b) (h2 : SameRest b c) :
    SameRest a c :=
  ⟨h2.length.trans h1.length, h2.head.trans h1.head, h2.bufferManager.trans h1.bufferManager,
    h2.keys.trans h1.keys⟩

theorem sameRest_setPage (s : BPlusIndexP) (p : ℕ) (pg : IndexPage) :
    SameRest s (s.setPage p pg) := ⟨setPage_length, rfl, rfl, rfl⟩

/-- The page `pg` with another parent. -/
def withParent (pg : IndexPage) (parent : Option ℕ) : IndexPage :=
  { pg with parentElement := parent }

@[simp] theorem withParent_shape {parent : Option ℕ} {es : List Index} {ps : List ℕ} :
    (withParent pg parent).Shape es ps ↔ pg.Shape es ps :=
  ⟨fun h => ⟨h.elements, h.pointers, h.size, h.le, h.children⟩,
    fun h => ⟨h.elements, h.pointers, h.size, h.le, h.children⟩⟩

theorem page_setParent {c : ℕ} {parent : Option ℕ} (hc : c < s.pages.length) :
    (s.setParent c parent).page q =
      if q = c then withParent (s.page c) parent else s.page q := by
  split_ifs with h
  · subst q
    exact page_setPage_self hc
  · exact page_setPage_of_ne h

/-- The loop of `refreshParentRelationship` over the slots `xs`. -/
def refreshSlots (s : BPlusIndexP) (p : ℕ) (xs : List ℕ) : BPlusIndexP :=
  xs.foldl (fun s x => match (s.page p).pointer x with
    | some child => s.setParent child (some p)
    | none => s) s

theorem pointer_setParent (s : BPlusIndexP) (c : ℕ) (parent : Option ℕ) (p x : ℕ) :
    ((s.setParent c parent).page p).pointer x = (s.page p).pointer x := by
  by_cases h : p = c
  · subst p
    by_cases hc : c < s.pages.length
    · rw [page_setParent hc, if_pos rfl]
      rfl
    · rw [setParent, setPage, List.set_eq_of_length_le (Nat.le_of_not_lt hc)]
  · rw [setParent, page_setPage_of_ne h]

theorem refreshSlots_spec (s : BPlusIndexP) (p : ℕ) (xs : List ℕ)
    (hlive : ∀ x c, (s.page p).pointer x = some c → c < s.pages.length) :
    SameRest s (s.refreshSlots p xs) ∧ ∀ c, (s.refreshSlots p xs).page c =
      if some c ∈ xs.map (s.page p).pointer then withParent (s.page c) (some p) else s.page c := by
  induction xs generalizing s with
  | nil => exact ⟨.refl s, fun c => by simp [refreshSlots]⟩
  | cons x xs ih =>
    obtain hx | ⟨child, hx⟩ := Option.eq_none_or_eq_some ((s.page p).pointer x)
    · have hstep : s.refreshSlots p (x :: xs) = s.refreshSlots p xs := by
        simp [refreshSlots, hx]
      rw [hstep]
      refine ⟨(ih s hlive).1, fun c => ?_⟩
      rw [(ih s hlive).2 c]
      simp [hx]
    · have hstep : s.refreshSlots p (x :: xs) = (s.setParent child (some p)).refreshSlots p xs := by
        simp [refreshSlots, hx]
      have hchild := hlive x child hx
      have hptr : ((s.setParent child (some p)).page p).pointer = (s.page p).pointer :=
        funext (pointer_setParent s child (some p) p)
      obtain ⟨hrest, hpage⟩ := ih (s.setParent child (some p)) (by
        intro y c hc
        rw [hptr] at hc
        simpa [setParent] using hlive y c hc)
      rw [hstep]
      refine ⟨(sameRest_setPage s child _).trans hrest, fun c => ?_⟩
      rw [hpage c, hptr, page_setParent hchild]
      simp only [List.map_cons, List.mem_cons, hx]
      by_cases hc : c = child
      · subst c
        simp [withParent]
      · have hne : some c ≠ some child := fun h => hc (Option.some.inj h)
        simp [hc]

theorem SameRest.eq {s' : BPlusIndexP} (h : SameRest s s') (hpage : ∀ c, s'.page c = s.page c) :
    s' = s := by
  have hpages : s'.pages = s.pages := by
    refine List.ext_getElem h.length fun i h1 h2 => ?_
    simpa [page, h1, h2] using hpage i
  cases s
  cases s'
  obtain ⟨-, hh, hb, hk⟩ := h
  simp_all

end steps

/-! ## The tree that the pages represent -/

abbrev PageTree := Tree ℕ Rank Index

/-- The pages are those of `T`; from level `n` up their slots hold the entries and children. -/
structure Represents (s : BPlusIndexP) (T : PageTree) (n : ℕ) : Prop where
  live : ∀ p, T.live p ↔ p < s.pages.length
  head : s.head = T.root
  height : T.level T.root < s.pages.length
  parent : ∀ p, T.live p → (s.page p).parentElement = T.parent p
  siblings : ∀ p, T.live p → (s.page p).leftSibling = none ∧ (s.page p).rightSibling = none
  shape : ∀ p, T.live p → n ≤ T.level p → (s.page p).Shape (T.entries p) (T.children p)

variable {s : BPlusIndexP} {T : PageTree} {n : ℕ}

/-- The links of a page in order need no refresh. -/
theorem Represents.refreshParentRelationship (h : Represents s T n) {x : Option (Split ℕ Rank)}
    (hl : T.Links x) {q : ℕ} (hq : T.live q) (hn : n ≤ T.level q) :
    s.refreshParentRelationship q = s := by
  have hchild : ∀ {x c}, (s.page q).pointer x = some c → c ∈ T.children q := by
    intro x c hc
    rw [(h.shape q hq hn).pointer_eq] at hc
    exact List.mem_of_getElem? hc
  obtain ⟨hrest, hpage⟩ := refreshSlots_spec s q (List.range (BUCKET_MAX_ELEMENTS + 1))
    fun x c hc => (h.live c).1 (hl.child q hq c (hchild hc)).1
  refine hrest.eq fun c => (hpage c).trans ?_
  split_ifs with hc
  · obtain ⟨x, -, hx⟩ := List.mem_map.1 hc
    obtain ⟨hcl, hcp, -⟩ := hl.child q hq c (hchild hx)
    rw [withParent, ← hcp, ← h.parent c hcl]
  · rfl

end BPlusIndexP
end Djondb
