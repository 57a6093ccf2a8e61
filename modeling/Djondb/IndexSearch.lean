import Djondb.IndexSplit

set_option autoImplicit false

/-!
# Searching the index

On pages in memory `findIndexPage` reaches the leaf that owns a key and `findIndex` stops at an
entry with the key, if there is one.
-/
namespace Djondb
namespace BPlusIndexP
open SearchPage SearchTree

/-- Every page of the tree is in memory, and nothing is left to be done. -/
structure Ready (s : BPlusIndexP) (T : PageTree) : Prop where
  inv : T.Inv Index.rank none
  represents : Represents s T 0
  placed : s.Placed
  loaded : ∀ q, T.live q → (s.page q).isLoaded = true

theorem scan_eq {page : IndexPage} {es : List Index} {ps : List ℕ} (h : page.Shape es ps)
    (stop : Ordering → Bool) (key : CString) (x n : ℕ) (hn : x + n = es.length) :
    scan stop page key x n =
      some (x + (es.drop x).findIdx (fun e => stop (djCompare e.key.bytes key.bytes))) := by
  induction n generalizing x with
  | zero =>
    have hd : es.drop x = [] := List.drop_eq_nil_iff.2 (by omega)
    rw [hd]
    rfl
  | succ n ih =>
    have hx : x < es.length := by omega
    rw [scan, h.element_eq, List.getElem?_eq_getElem hx, List.drop_eq_getElem_cons hx,
      List.findIdx_cons, ih (x + 1) (by omega)]
    cases hstop : stop (djCompare es[x].key.bytes key.bytes) with
    | true => simp [hstop]
    | false =>
      simp only [Option.bind_eq_bind, Option.bind_some, hstop, Bool.false_eq_true, if_false,
        cond_false, Option.some.injEq]
      omega

theorem scan_lt {page : IndexPage} {es : List Index} {ps : List ℕ} (h : page.Shape es ps)
    (key : CString) : scan (· = .lt) page key 0 page.size = some (slot Index.rank key.rank es) := by
  rw [scan_eq h _ key 0 page.size (by rw [h.size]; omega), Nat.zero_add, List.drop_zero]
  simp only [CString.compare_lt_iff]
  rfl

theorem compare_ne_gt_iff (s t : CString) : djCompare s.bytes t.bytes ≠ .gt ↔ s.rank ≤ t.rank := by
  rw [le_iff_lt_or_eq, ← CString.compare_lt_iff, CString.rank_injective.eq_iff,
    ← CString.compare_eq_iff]
  cases djCompare s.bytes t.bytes <;> simp

theorem scan_le {page : IndexPage} {es : List Index} {ps : List ℕ} (h : page.Shape es ps)
    (key : CString) : scan (· ≠ .gt) page key 0 page.size =
      some (es.findIdx (fun e => decide (e.rank ≤ key.rank))) := by
  rw [scan_eq h _ key 0 page.size (by rw [h.size]; omega), Nat.zero_add, List.drop_zero]
  simp only [compare_ne_gt_iff]
  rfl

/-- One page of `findIndex`: it stops at an entry with the key or goes on at the slot of the key. -/
theorem findIndex_step {s r : BPlusIndexP} {p : ℕ} {es : List Index} {ps : List ℕ} (key : CString)
    (fuel : ℕ) (hvisit : s.visit p = some r) (hshape : (r.page p).Shape es ps)
    (hsorted : Descending Index.rank es) :
    (∃ x e, es[x]? = some e ∧ e.key = key ∧ findIndex (fuel + 1) s p key = some (r, some (p, x))) ∨
      (∀ a ∈ es, a.key ≠ key) ∧ findIndex (fuel + 1) s p key =
        match ps[slot Index.rank key.rank es]? with
        | some child => findIndex fuel r child key
        | none => some (r, none) := by
  obtain ⟨e, he, hek⟩ | ⟨hslot, hne⟩ := first_le_cases (k := key.rank) hsorted
  · left
    have hkey : e.key = key := CString.rank_injective hek
    have hlt : es.findIdx (fun e => decide (e.rank ≤ key.rank)) < (r.page p).size := by
      rw [hshape.size]
      exact (List.getElem?_eq_some_iff.1 he).1
    have hcmp : djCompare e.key.bytes key.bytes = .eq := (CString.compare_eq_iff _ _).2 hkey
    have hany : ((r.page p).element (es.findIdx (fun e => decide (e.rank ≤ key.rank)))).any
        (fun current => djCompare current.key.bytes key.bytes = .eq) = true := by
      rw [hshape.element_eq, he]
      simp [hcmp]
    refine ⟨_, e, he, hkey, ?_⟩
    simp only [findIndex, hvisit, Option.bind_eq_bind, Option.bind_some, scan_le hshape, hany, hlt,
      and_self, if_true]
  · right
    have hnone : ¬ ((r.page p).element (slot Index.rank key.rank es)).any
        (fun current => djCompare current.key.bytes key.bytes = .eq) = true := by
      rw [hshape.element_eq]
      cases hget : es[slot Index.rank key.rank es]? with
      | none => simp
      | some a =>
        have hak := hne a (List.mem_of_getElem? hget)
        have hcmp : djCompare a.key.bytes key.bytes ≠ .eq := fun hcmp =>
          hak (congrArg CString.rank ((CString.compare_eq_iff _ _).1 hcmp))
        simp [hcmp]
    refine ⟨fun a ha hak => hne a ha (congrArg CString.rank hak), ?_⟩
    simp only [findIndex, hvisit, Option.bind_eq_bind, Option.bind_some, scan_le hshape, hslot, hnone]
    rw [if_neg (by simp)]
    cases hps : ps[slot Index.rank key.rank es]? with
    | none => simp only [hshape.pointer_eq, hps]
    | some child => simp only [hshape.pointer_eq, hps]

section search
variable {s : BPlusIndexP} {T : PageTree}

theorem Ready.visit (h : Ready s T) {p : ℕ} (hp : T.live p) : s.visit p = some s := by
  rw [BPlusIndexP.visit, if_pos (h.loaded p hp)]

theorem Ready.shape (h : Ready s T) {p : ℕ} (hp : T.live p) :
    (s.page p).Shape (T.entries p) (T.children p) :=
  h.represents.shape p hp (Nat.zero_le _)

/-- An inner page has a child at every slot. -/
theorem Ready.child_at (h : Ready s T) {p : ℕ} (hp : T.live p) (hl : T.level p ≠ 0) (k : Rank) :
    ∃ c, (T.children p)[slot Index.rank k (T.entries p)]? = some c := by
  have hlen := (h.inv.inner p hp hl).length_eq
  have hle := slot_le Index.rank k (T.entries p)
  exact ⟨_, List.getElem?_eq_getElem (by omega)⟩

theorem Ready.findIndexPage (h : Ready s T) (key : CString) (fuel : ℕ) {p : ℕ} (hp : T.live p)
    (hfuel : T.level p < fuel) (ho : T.Owns p key.rank) :
    ∃ leaf, BPlusIndexP.findIndexPage fuel s p key = some (s, leaf) ∧ T.live leaf ∧
      T.level leaf = 0 ∧ T.Owns leaf key.rank := by
  induction fuel generalizing p with
  | zero => omega
  | succ fuel ih =>
    by_cases hl : T.level p = 0
    · refine ⟨p, ?_, hp, hl, ho⟩
      simp [BPlusIndexP.findIndexPage, h.visit hp, (h.shape hp).isLeaf_eq, h.inv.leaf hp hl]
    · obtain ⟨c, hc⟩ := h.child_at hp hl key.rank
      obtain ⟨hcl, hclevel, hco⟩ := h.inv.child_owns hp ho hc
      obtain ⟨leaf, hleaf, hrest⟩ := ih hcl (by omega) hco
      refine ⟨leaf, ?_, hrest⟩
      have hne : (T.children p).isEmpty = false :=
        List.isEmpty_eq_false_iff.2 (List.ne_nil_of_mem (List.mem_of_getElem? hc))
      simp [BPlusIndexP.findIndexPage, h.visit hp, (h.shape hp).isLeaf_eq, hne, scan_lt (h.shape hp),
        (h.shape hp).pointer_eq, hc, hleaf]

/-- What `findIndex` has found: an entry with the key, or no leaf has one. -/
def Found (T : PageTree) (key : CString) : Option (ℕ × ℕ) → Prop
  | some (p, x) => T.live p ∧ ∃ e, (T.entries p)[x]? = some e ∧ e.key = key
  | none => ∀ a, T.InLeaf a → a.key ≠ key

theorem Ready.findIndex (h : Ready s T) (key : CString) (fuel : ℕ) {p : ℕ} (hp : T.live p)
    (hfuel : T.level p < fuel) (ho : T.Owns p key.rank) :
    ∃ r, BPlusIndexP.findIndex fuel s p key = some (s, r) ∧ Found T key r := by
  induction fuel generalizing p with
  | zero => omega
  | succ fuel ih =>
    obtain ⟨x, e, he, hek, hstep⟩ | ⟨hne, hstep⟩ :=
      findIndex_step key fuel (h.visit hp) (h.shape hp) (h.inv.sorted p hp)
    · exact ⟨some (p, x), hstep, hp, e, he, hek⟩
    · by_cases hl : T.level p = 0
      · refine ⟨none, ?_, fun a ha hak => ?_⟩
        · rw [hstep, h.inv.leaf hp hl]
          rfl
        · have hrank : key.rank = a.rank := congrArg CString.rank hak.symm
          exact hne a (h.inv.mem_owner hp hl (hrank ▸ ho) ha) hak
      · obtain ⟨c, hc⟩ := h.child_at hp hl key.rank
        obtain ⟨hcl, hclevel, hco⟩ := h.inv.child_owns hp ho hc
        obtain ⟨r, hr, hfound⟩ := ih hcl (by omega) hco
        refine ⟨r, ?_, hfound⟩
        rw [hstep, hc]
        exact hr

theorem Ready.root_lt_fuel (h : Ready s T) : T.level T.root < s.fuel :=
  h.represents.height.trans_le (Nat.le_add_right _ _)

/-- What `find` has returned. -/
def FoundEntry (T : PageTree) (key : CString) : Option Index → Prop
  | some e => e.key = key ∧ ∃ p, T.live p ∧ e ∈ T.entries p
  | none => ∀ a, T.InLeaf a → a.key ≠ key

theorem Ready.find (h : Ready s T) (key : CString) :
    ∃ r, s.find key = some (s, r) ∧ FoundEntry T key r := by
  obtain ⟨r, hr, hfound⟩ := h.findIndex key s.fuel h.inv.root h.root_lt_fuel (h.inv.root_owns _)
  rw [← h.represents.head] at hr
  refine ⟨s.entry r, by simp [BPlusIndexP.find, hr], ?_⟩
  obtain _ | ⟨p, x⟩ := r
  · exact hfound
  · obtain ⟨hp, e, he, hek⟩ := hfound
    have hentry : s.entry (some (p, x)) = some e := by
      rw [entry, Option.bind_some, (h.shape hp).element_eq, he]
    rw [hentry]
    exact ⟨hek, p, hp, List.mem_of_getElem? he⟩

end search

end BPlusIndexP
end Djondb
