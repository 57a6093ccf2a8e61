import Djondb.IndexRuns

set_option autoImplicit false

/-!
# The shape of an index

The pages of an index form a B+ tree. This is said of the pages alone, along the pointers that
lead from the root, and follows from the tree that they represent.
-/
namespace Djondb
namespace BPlusIndexP
open SearchPage SearchTree

/-- `n` pointers lead from page `p` to page `q`. -/
inductive Reaches (s : BPlusIndexP) (p : ℕ) : ℕ → ℕ → Prop
  | refl : Reaches s p p 0
  | step {q n : ℕ} (x c : ℕ) : Reaches s p q n → (s.page q).pointer x = some c →
      Reaches s p c (n + 1)

/-- The key of `e` lies below the pointer `x` of the page: strictly above `elements[x]` and at or
below `elements[x - 1]`. -/
structure Below (page : IndexPage) (x : ℕ) (e : Index) : Prop where
  above : ∀ a, page.element x = some a → djCompare a.key.bytes e.key.bytes = .lt
  atOrBelow : ∀ y a, x = y + 1 → page.element y = some a →
    djCompare a.key.bytes e.key.bytes ≠ .lt

structure PageShape (s : BPlusIndexP) (p : ℕ) : Prop where
  size_le : (s.page p).size ≤ BUCKET_MAX_ELEMENTS
  leaf_least : p ≠ s.head → (s.page p).isLeaf = true → 3 ≤ (s.page p).size
  inner_least : p ≠ s.head → (s.page p).isLeaf = false → 2 ≤ (s.page p).size
  elements : ∀ x, ((s.page p).element x).isSome = true ↔ x < (s.page p).size
  descending : ∀ x y a b, x < y → (s.page p).element x = some a → (s.page p).element y = some b →
    djCompare b.key.bytes a.key.bytes = .lt
  pointers : (s.page p).isLeaf = false →
    ∀ x, ((s.page p).pointer x).isSome = true ↔ x < (s.page p).size + 1
  child : ∀ x c, (s.page p).pointer x = some c → (s.page c).parentElement = some p
  separated : ∀ x c, (s.page p).pointer x = some c → ∀ q n, s.Reaches c q n →
    ∀ y e, (s.page q).element y = some e → Below (s.page p) x e

/-- The shape of a B+ tree. -/
structure WellShaped (s : BPlusIndexP) : Prop where
  depth : ∃ depth, ∀ p n, s.Reaches s.head p n → (s.page p).isLeaf = true → n = depth
  page : ∀ p n, s.Reaches s.head p n → s.PageShape p

section shape
variable {s : BPlusIndexP} {T : PageTree}

/-- Pointers lead from page to page, down one level each. -/
theorem Ready.reaches (h : Ready s T) {p q n : ℕ} (hp : T.live p) (hr : s.Reaches p q n) :
    T.live q ∧ T.level q + n = T.level p := by
  induction hr with
  | refl => exact ⟨hp, rfl⟩
  | step x c _ hc ih =>
    rcases ih with ⟨hq, hlevel⟩
    rw [(h.shape hq).pointer_eq] at hc
    rcases h.inv.child _ hq c (List.mem_of_getElem? hc) with ⟨hlive, -, hdown⟩
    exact ⟨hlive, by omega⟩

/-- A page owns the keys of all pages that it reaches. -/
theorem Ready.reaches_owns (h : Ready s T) {p q n : ℕ} (hp : T.live p) (hr : s.Reaches p q n)
    {k : Rank} (ho : T.Owns q k) : T.Owns p k := by
  induction hr with
  | refl => exact ho
  | @step q n x c hr hc ih =>
    have hq := (h.reaches hp hr).1
    rw [(h.shape hq).pointer_eq] at hc
    exact ih (h.inv.parent_owns hq (List.mem_of_getElem? hc) ho)

theorem Ready.isLeaf_iff (h : Ready s T) {p : ℕ} (hp : T.live p) :
    (s.page p).isLeaf = true ↔ T.level p = 0 := by
  rw [(h.shape hp).isLeaf_eq, List.isEmpty_iff]
  constructor
  · intro hnil
    by_contra hne
    have hlen := (h.inv.inner p hp hne).length_eq
    rw [hnil] at hlen
    simp at hlen
  · exact h.inv.leaf hp

/-- The interval of a child is cut out by its neighbours among the entries. -/
theorem Ready.below (h : Ready s T) {p x c : ℕ} (hp : T.live p)
    (hc : (T.children p)[x]? = some c) {e : Index} (ho : T.Owns c e.rank) :
    Below (s.page p) x e := by
  have hlevel := h.inv.level_pos hp (List.mem_of_getElem? hc)
  have hch := h.inv.inner p hp hlevel
  have hlow := congrArg (fun l => l[x]?) hch.lows
  have hhigh := congrArg (fun l => l[x]?) hch.highs
  simp only [List.getElem?_map, hc, Option.map_some] at hlow hhigh
  constructor
  · intro a ha
    rw [(h.shape hp).element_eq] at ha
    rw [List.getElem?_append_left (by
      rw [List.length_map]
      exact (List.getElem?_eq_some_iff.1 ha).1), List.getElem?_map, ha] at hlow
    have hlo := ho.1
    rw [Option.some.inj hlow] at hlo
    exact (CString.compare_lt_iff _ _).2 (WithBot.coe_lt_coe.1 hlo)
  · rintro y a rfl ha hlt
    rw [(h.shape hp).element_eq] at ha
    rw [List.getElem?_cons_succ, List.getElem?_map, ha] at hhigh
    have hhi := ho.2
    rw [Option.some.inj hhigh] at hhi
    exact absurd ((CString.compare_lt_iff _ _).1 hlt) (not_lt.2 (WithTop.coe_le_coe.1 hhi))

theorem Ready.pageShape (h : Ready s T) (hfilled : FilledFrom T 0) {p : ℕ} (hp : T.live p) :
    s.PageShape p := by
  have hshape := h.shape hp
  have hsize := hshape.size
  have hroot : p ≠ s.head → p ≠ T.root := fun hne heq => hne (heq.trans h.represents.head.symm)
  have hchildren : ∀ {x c}, (s.page p).pointer x = some c → (T.children p)[x]? = some c := by
    intro x c hc
    rw [← hshape.pointer_eq]
    exact hc
  refine ⟨?_, ?_, ?_, ?_, ?_, ?_, ?_, ?_⟩
  · rw [hsize]
    exact hshape.le
  · intro hne hleaf
    have hleast := hfilled p hp (Nat.zero_le _) (hroot hne)
    rw [(h.isLeaf_iff hp).1 hleaf] at hleast
    rw [hsize]
    exact hleast
  · intro hne hinner
    have hleast := hfilled p hp (Nat.zero_le _) (hroot hne)
    have hlevel : T.level p ≠ 0 := fun h0 => by
      rw [(h.isLeaf_iff hp).2 h0] at hinner
      cases hinner
    unfold leastElements at hleast
    rw [if_neg hlevel] at hleast
    rw [hsize]
    exact hleast
  · intro x
    rw [hshape.element_eq, hsize, isSome_getElem?]
  · intro x y a b hxy ha hb
    rw [hshape.element_eq] at ha hb
    rcases List.getElem?_eq_some_iff.1 ha with ⟨hx, rfl⟩
    rcases List.getElem?_eq_some_iff.1 hb with ⟨hy, rfl⟩
    exact (CString.compare_lt_iff _ _).2
      (List.pairwise_iff_getElem.1 (h.inv.sorted p hp) x y hx hy hxy)
  · intro hinner x
    have hlevel : T.level p ≠ 0 := fun h0 => by
      rw [(h.isLeaf_iff hp).2 h0] at hinner
      cases hinner
    rw [hshape.pointer_eq, hsize, isSome_getElem?, (h.inv.inner p hp hlevel).length_eq]
  · intro x c hc
    rcases h.inv.child p hp c (List.mem_of_getElem? (hchildren hc)) with ⟨hlive, hparent, -⟩
    rw [h.represents.parent c hlive, hparent]
  · intro x c hc q n hr y e he
    have hlive := (h.inv.child p hp c (List.mem_of_getElem? (hchildren hc))).1
    have hq := (h.reaches hlive hr).1
    rw [(h.shape hq).element_eq] at he
    have howns := h.inv.entry_owned hq (List.mem_of_getElem? he)
    exact h.below hp (hchildren hc) (h.reaches_owns hlive hr howns)

theorem Ready.wellShaped (h : Ready s T) (hfilled : FilledFrom T 0) : s.WellShaped := by
  have hhead : T.live s.head := h.represents.head ▸ h.inv.root
  constructor
  · refine ⟨T.level s.head, fun p n hr hleaf => ?_⟩
    rcases h.reaches hhead hr with ⟨hp, hlevel⟩
    rw [(h.isLeaf_iff hp).1 hleaf] at hlevel
    omega
  · exact fun p n hr => h.pageShape hfilled (h.reaches hhead hr).1

end shape

end BPlusIndexP
end Djondb
