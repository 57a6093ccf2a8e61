import Djondb.LibSearchPage

set_option autoImplicit false

/-!
# Search trees of pages with parent links

Pages are known by names. Every page has an interval of keys; leaves are at level 0. A split
gives a page a right neighbour that no page lists yet: until it is linked, the two pages share
the interval that the parent knows.
-/
namespace SearchTree
open SearchPage

structure Tree (ι K E : Type) where
  live : ι → Prop
  root : ι
  level : ι → ℕ
  entries : ι → List E
  children : ι → List ι
  parent : ι → Option ι
  lo : ι → WithBot K
  hi : ι → WithTop K

/-- Page `right` has taken the keys up to `sep` from `page` and is not linked yet. -/
structure Split (ι K : Type) where
  page : ι
  right : ι
  sep : K

variable {ι K E : Type}

namespace Tree

/-- An unlinked right neighbour is a page of its own level. -/
structure Unlinked (T : Tree ι K E) (x : Split ι K) : Prop where
  page : T.live x.page
  right : T.live x.right
  ne : x.page ≠ x.right
  parent : T.parent x.right = none
  not_root : x.right ≠ T.root
  level : T.level x.right = T.level x.page

/-- Parent links and child lists agree, and levels go down by one along them. -/
structure Links (T : Tree ι K E) (split : Option (Split ι K)) : Prop where
  root : T.live T.root
  root_parent : T.parent T.root = none
  level_le : ∀ p, T.live p → T.level p ≤ T.level T.root
  linked : ∀ p, T.live p → p ≠ T.root → (∀ x, split = some x → p ≠ x.right) →
    ∃ q, T.live q ∧ T.parent p = some q ∧ p ∈ T.children q
  child : ∀ q, T.live q → ∀ c ∈ T.children q,
    T.live c ∧ T.parent c = some q ∧ T.level c + 1 = T.level q
  unlinked : ∀ x, split = some x → T.Unlinked x

variable {T : Tree ι K E} {split : Option (Split ι K)}

theorem Links.leaf (h : T.Links split) {q : ι} (hq : T.live q) (h0 : T.level q = 0) :
    T.children q = [] := by
  refine List.eq_nil_iff_forall_not_mem.2 fun c hc => ?_
  have hlevel := (h.child q hq c hc).2.2
  omega

theorem Links.level_pos (h : T.Links split) {q c : ι} (hq : T.live q) (hc : c ∈ T.children q) :
    T.level q ≠ 0 := by
  have hlevel := (h.child q hq c hc).2.2
  omega

theorem Links.eq_root (h : T.Links (none : Option (Split ι K))) {p : ι} (hp : T.live p)
    (hl : T.level p = T.level T.root) : p = T.root := by
  by_contra hne
  obtain ⟨q, hq, -, hmem⟩ := h.linked p hp hne (by simp)
  have h1 := (h.child q hq p hmem).2.2
  have h2 := h.level_le q hq
  omega

/-- A page beside another one on its level is not the root. -/
theorem Links.ne_root (h : T.Links (none : Option (Split ι K))) {p q : ι} (hp : T.live p)
    (hl : T.level q = T.level p) (hne : q ≠ p) : q ≠ T.root := by
  rintro rfl
  exact hne (h.eq_root hp hl.symm).symm

theorem Links.live_ne (_ : T.Links split) {q r : ι} (hr : ¬ T.live r) (hq : T.live q) : q ≠ r :=
  fun heq => hr (heq ▸ hq)

theorem Links.not_mem_children_right {x : Split ι K} (h : T.Links (some x)) {q : ι} (hq : T.live q) :
    x.right ∉ T.children q := by
  intro hc
  have hpar := (h.child q hq _ hc).2.1
  rw [(h.unlinked x rfl).parent] at hpar
  cases hpar

theorem Links.not_mem_children_root (h : T.Links split) {q : ι} (hq : T.live q) :
    T.root ∉ T.children q := by
  intro hc
  have hpar := (h.child q hq _ hc).2.1
  rw [h.root_parent] at hpar
  cases hpar

/-- A leaf keeps a copy of the separator, an inner page gives it away. -/
def CutAt (T : Tree ι K E) (p : ι) (m : E) (B es2 : List E) (n : ℕ) (ps1 ps2 : List ι) : Prop :=
  (T.level p = 0 ∧ es2 = m :: B ∧ ps1 = [] ∧ ps2 = []) ∨
  (T.level p ≠ 0 ∧ es2 = B ∧ T.children p = ps1 ++ ps2 ∧ ps1.length = n + 1)

theorem CutAt.children_eq (h : T.Links (none : Option (Split ι K))) {p : ι} {m : E}
    {B es2 : List E} {n : ℕ} {ps1 ps2 : List ι} (hp : T.live p)
    (hc : T.CutAt p m B es2 n ps1 ps2) : T.children p = ps1 ++ ps2 := by
  obtain ⟨h0, -, rfl, rfl⟩ | ⟨-, -, heq, -⟩ := hc
  · exact h.leaf hp h0
  · exact heq

theorem Links.not_mem_self (h : T.Links split) {q : ι} (hq : T.live q) : q ∉ T.children q := by
  intro hc
  have hlevel := (h.child q hq q hc).2.2
  omega

theorem Links.parent_eq_none_iff (h : T.Links (none : Option (Split ι K))) {p : ι}
    (hp : T.live p) : T.parent p = none ↔ p = T.root := by
  constructor
  · intro hpar
    by_contra hne
    obtain ⟨q, -, hq, -⟩ := h.linked p hp hne (by simp)
    rw [hpar] at hq
    cases hq
  · rintro rfl
    exact h.root_parent

/-- The parent of a page, with its level. -/
theorem Links.exists_parent (h : T.Links split) {p : ι} (hp : T.live p) (hne : p ≠ T.root)
    (hr : ∀ x, split = some x → p ≠ x.right) :
    ∃ q, T.live q ∧ T.parent p = some q ∧ p ∈ T.children q ∧ T.level p + 1 = T.level q := by
  obtain ⟨q, hq, hpar, hmem⟩ := h.linked p hp hne hr
  exact ⟨q, hq, hpar, hmem, (h.child q hq p hmem).2.2⟩

theorem Links.parent_live (h : T.Links split) {p q : ι} (hp : T.live p)
    (hr : ∀ x, split = some x → p ≠ x.right) (hpar : T.parent p = some q) :
    T.live q ∧ p ∈ T.children q ∧ T.level p + 1 = T.level q := by
  have hne : p ≠ T.root := fun heq => by
    rw [heq, h.root_parent] at hpar
    cases hpar
  obtain ⟨q', hq', hpar', hmem, hlevel⟩ := h.exists_parent hp hne hr
  obtain rfl := Option.some.inj (hpar'.symm.trans hpar)
  exact ⟨hq', hmem, hlevel⟩

/-! ## Operations -/

section operations
variable [DecidableEq ι]

def setEntries (T : Tree ι K E) (p : ι) (es : List E) : Tree ι K E :=
  { T with entries := Function.update T.entries p es }

/-- The new page `r` takes the entries `es2` and the children `ps2` of `p`. -/
def cut (T : Tree ι K E) (p r : ι) (es1 es2 : List E) (ps1 ps2 : List ι) : Tree ι K E :=
  { T with
    live := fun q => T.live q ∨ q = r
    level := Function.update T.level r (T.level p)
    entries := Function.update (Function.update T.entries r es2) p es1
    children := Function.update (Function.update T.children r ps2) p ps1
    parent := fun c => if c ∈ ps2 then some r else if c = r then none else T.parent c }

/-- The parent `q` gets the separator and the pointer to the right neighbour. -/
def link (T : Tree ι K E) (x : Split ι K) (q : ι) (es : List E) (ps : List ι) : Tree ι K E :=
  { T with
    entries := Function.update T.entries q es
    children := Function.update T.children q ps
    parent := Function.update T.parent x.right (some q)
    lo := splitLo T.lo x.page x.right x.sep
    hi := splitHi T.hi x.right x.sep }

/-- The root `x.page` and its right neighbour get the new root `n` above them. -/
def grow (T : Tree ι K E) (x : Split ι K) (n : ι) (e : E) : Tree ι K E where
  live := fun q => T.live q ∨ q = n
  root := n
  level := Function.update T.level n (T.level x.page + 1)
  entries := Function.update T.entries n [e]
  children := Function.update T.children n [x.page, x.right]
  parent := Function.update (Function.update (Function.update T.parent n none) x.page (some n))
    x.right (some n)
  lo := Function.update (splitLo T.lo x.page x.right x.sep) n ⊥
  hi := Function.update (splitHi T.hi x.right x.sep) n ⊤

section cut
variable {p r q : ι} {es1 es2 : List E} {ps1 ps2 : List ι}

theorem cut_level (hr : q ≠ r) : (T.cut p r es1 es2 ps1 ps2).level q = T.level q :=
  Function.update_of_ne hr _ _

theorem cut_level_new : (T.cut p r es1 es2 ps1 ps2).level r = T.level p :=
  Function.update_self _ _ _

theorem cut_page : (T.cut p r es1 es2 ps1 ps2).entries p = es1 ∧
    (T.cut p r es1 es2 ps1 ps2).children p = ps1 := by
  simp [Tree.cut]

theorem cut_new (h : r ≠ p) : (T.cut p r es1 es2 ps1 ps2).entries r = es2 ∧
    (T.cut p r es1 es2 ps1 ps2).children r = ps2 := by
  simp [Tree.cut, h]

theorem cut_other (hp : q ≠ p) (hr : q ≠ r) :
    (T.cut p r es1 es2 ps1 ps2).entries q = T.entries q ∧
    (T.cut p r es1 es2 ps1 ps2).children q = T.children q := by
  simp [Tree.cut, hp, hr]

theorem cut_parent (hr : q ≠ r) :
    (T.cut p r es1 es2 ps1 ps2).parent q = if q ∈ ps2 then some r else T.parent q := by
  simp [Tree.cut, hr]

end cut

theorem Links.cut (h : T.Links (none : Option (Split ι K))) {p r : ι} (es1 es2 : List E) (k : K)
    {ps1 ps2 : List ι} (hp : T.live p) (hr : ¬ T.live r) (hps : T.children p = ps1 ++ ps2)
    (hnd : (T.children p).Nodup) : (T.cut p r es1 es2 ps1 ps2).Links (some ⟨p, r, k⟩) := by
  have hlive : ∀ {q : ι}, T.live q → q ≠ r := h.live_ne hr
  have hpr := hlive hp
  have hmem2 : ∀ {c : ι}, c ∈ ps2 → c ∈ T.children p := fun hc2 => by simp [hps, hc2]
  have hnot2 : ∀ {q c : ι}, T.live q → c ∈ T.children q → q ≠ p → c ∉ ps2 := by
    intro q c hq hcq hqp hc2
    have h1 := (h.child q hq c hcq).2.1
    have h2 := (h.child p hp c (hmem2 hc2)).2.1
    exact hqp (Option.some.inj (h1.symm.trans h2))
  have hroot2 : T.root ∉ ps2 := fun hc2 => h.not_mem_children_root hp (hmem2 hc2)
  rw [hps] at hnd
  refine ⟨Or.inl h.root, ?_, ?_, ?_, ?_, ?_⟩
  · simp [Tree.cut, hroot2, hlive h.root, h.root_parent]
  · rintro q (hq | rfl)
    · simpa [Tree.cut, hlive hq, hlive h.root] using h.level_le q hq
    · simpa [Tree.cut, hlive h.root] using h.level_le p hp
  · rintro q (hq | rfl) hne hx
    · by_cases hq2 : q ∈ ps2
      · exact ⟨r, Or.inr rfl, by simp [Tree.cut, hq2], by simp [Tree.cut, hq2, Ne.symm hpr]⟩
      · obtain ⟨q', hq', hpar, hmem⟩ := h.linked q hq hne (by simp)
        refine ⟨q', Or.inl hq', by simpa [Tree.cut, hq2, hlive hq] using hpar, ?_⟩
        by_cases hq'p : q' = p
        · subst q'
          rw [hps] at hmem
          simpa [Tree.cut, hq2] using hmem
        · simpa [Tree.cut, hq'p, hlive hq'] using hmem
    · exact absurd rfl (hx _ rfl)
  · rintro q (hq | rfl) c hcq
    · by_cases hqp : q = p
      · subst q
        have hc1 : c ∈ ps1 := by simpa [Tree.cut] using hcq
        have hc2 : c ∉ ps2 := fun hc2 => (List.nodup_append.1 hnd).2.2 c hc1 c hc2 rfl
        obtain ⟨hcl, hcp, hclev⟩ := h.child p hp c (by simp [hps, hc1])
        exact ⟨Or.inl hcl, by simp [Tree.cut, hc2, hlive hcl, hcp],
          by simp [Tree.cut, hlive hcl, hpr, hclev]⟩
      · have hcq' : c ∈ T.children q := by simpa [Tree.cut, hqp, hlive hq] using hcq
        obtain ⟨hcl, hcp, hclev⟩ := h.child q hq c hcq'
        exact ⟨Or.inl hcl, by simp [Tree.cut, hnot2 hq hcq' hqp, hlive hcl, hcp],
          by simp [Tree.cut, hlive hcl, hlive hq, hclev]⟩
    · have hc2 : c ∈ ps2 := by simpa [Tree.cut, Ne.symm hpr] using hcq
      obtain ⟨hcl, -, hclev⟩ := h.child p hp c (hmem2 hc2)
      exact ⟨Or.inl hcl, by simp [Tree.cut, hc2], by simp [Tree.cut, hlive hcl, hclev]⟩
  · rintro x ⟨⟩
    have hr2 : r ∉ ps2 := fun hc2 => hlive (h.child p hp r (hmem2 hc2)).1 rfl
    exact ⟨Or.inl hp, Or.inr rfl, hpr, by simp [Tree.cut, hr2], (hlive h.root).symm,
      by simp [Tree.cut, hpr]⟩

variable {x : Split ι K} {q : ι} {PA PB : List ι}

theorem Links.link (h : T.Links (some x)) (es : List E) (hq : T.live q)
    (hps : T.children q = PA ++ x.page :: PB) :
    (T.link x q es (PA ++ x.page :: x.right :: PB)).Links (none : Option (Split ι K)) := by
  obtain ⟨-, hr, -, -, hrr, hlevel⟩ := h.unlinked x rfl
  have hpage := h.child q hq x.page (by simp [hps])
  have hnr : ∀ {c q' : ι}, T.live q' → c ∈ T.children q' → c ≠ x.right := fun hq' hc heq =>
    h.not_mem_children_right hq' (heq ▸ hc)
  refine ⟨h.root, ?_, h.level_le, ?_, ?_, by simp⟩
  · simp [Tree.link, hrr.symm, h.root_parent]
  · intro p hp hne _
    by_cases hpr : p = x.right
    · subst p
      exact ⟨q, hq, by simp [Tree.link], by simp [Tree.link]⟩
    · obtain ⟨q', hq', hpar, hmem⟩ := h.linked p hp hne (by rintro _ ⟨⟩; exact hpr)
      refine ⟨q', hq', by simpa [Tree.link, hpr] using hpar, ?_⟩
      by_cases hqq : q' = q
      · subst q'
        rw [hps] at hmem
        simp only [Tree.link, Function.update_self]
        simp only [List.mem_append, List.mem_cons] at hmem ⊢
        tauto
      · simpa [Tree.link, hqq] using hmem
  · intro q' hq' c hc
    by_cases hqq : q' = q
    · subst q'
      simp only [Tree.link, Function.update_self, List.mem_append, List.mem_cons] at hc
      by_cases hcr : c = x.right
      · subst c
        exact ⟨hr, by simp [Tree.link], by
          change T.level x.right + 1 = T.level q
          rw [hlevel]
          exact hpage.2.2⟩
      · obtain ⟨hcl, hcp, hclev⟩ := h.child q hq c (by
          rw [hps]
          simp only [List.mem_append, List.mem_cons]
          tauto)
        exact ⟨hcl, by simpa [Tree.link, hcr] using hcp, hclev⟩
    · have hc' : c ∈ T.children q' := by simpa [Tree.link, hqq] using hc
      obtain ⟨hcl, hcp, hclev⟩ := h.child q' hq' c hc'
      exact ⟨hcl, by simpa [Tree.link, hnr hq' hc'] using hcp, hclev⟩

theorem Links.grow (h : T.Links (some x)) {n : ι} (e : E) (hroot : x.page = T.root)
    (hn : ¬ T.live n) : (T.grow x n e).Links (none : Option (Split ι K)) := by
  obtain ⟨hp, hr, hpr, -, -, hlevel⟩ := h.unlinked x rfl
  have hlive : ∀ {q : ι}, T.live q → q ≠ n := h.live_ne hn
  refine ⟨Or.inr rfl, ?_, ?_, ?_, ?_, by simp⟩
  · simp [Tree.grow, (hlive hp).symm, (hlive hr).symm]
  · rintro q (hq | rfl)
    · have hle := h.level_le q hq
      rw [← hroot] at hle
      simp only [Tree.grow, Function.update_self, Function.update_of_ne (hlive hq)]
      omega
    · exact le_rfl
  · rintro q (hq | rfl) hne -
    · by_cases hqr : q = x.right
      · exact ⟨n, Or.inr rfl, by simp [Tree.grow, hqr], by simp [Tree.grow, hqr]⟩
      by_cases hqp : q = x.page
      · exact ⟨n, Or.inr rfl, by simp [Tree.grow, hqp, hpr], by simp [Tree.grow, hqp]⟩
      · obtain ⟨q', hq', hpar, hmem⟩ := h.linked q hq (hroot ▸ hqp) (by rintro _ ⟨⟩; exact hqr)
        exact ⟨q', Or.inl hq', by simpa [Tree.grow, hqr, hqp, hlive hq] using hpar,
          by simpa [Tree.grow, hlive hq'] using hmem⟩
    · exact absurd rfl hne
  · rintro q (hq | rfl) c hc
    · have hc' : c ∈ T.children q := by simpa [Tree.grow, hlive hq] using hc
      obtain ⟨hcl, hcp, hclev⟩ := h.child q hq c hc'
      have hcr : c ≠ x.right := fun heq => h.not_mem_children_right hq (heq ▸ hc')
      have hcp' : c ≠ x.page := fun heq => h.not_mem_children_root hq (hroot ▸ heq ▸ hc')
      exact ⟨Or.inl hcl, by simpa [Tree.grow, hcr, hcp', hlive hcl] using hcp,
        by simpa [Tree.grow, hlive hcl, hlive hq] using hclev⟩
    · have hc' : c = x.page ∨ c = x.right := by simpa [Tree.grow] using hc
      obtain rfl | rfl := hc'
      · exact ⟨Or.inl hp, by simp [Tree.grow, hpr], by simp [Tree.grow, hlive hp]⟩
      · exact ⟨Or.inl hr, by simp [Tree.grow], by simp [Tree.grow, hlive hr, hlevel]⟩

end operations

/-! ## Order -/

variable [DecidableEq ι]

def ownLo (T : Tree ι K E) : Option (Split ι K) → ι → WithBot K
  | none => T.lo
  | some x => splitLo T.lo x.page x.right x.sep

def ownHi (T : Tree ι K E) : Option (Split ι K) → ι → WithTop K
  | none => T.hi
  | some x => splitHi T.hi x.right x.sep

variable [LinearOrder K] (key : E → K)

/-- The tree is in order, but for the split that is not linked yet. -/
structure Inv (T : Tree ι K E) (split : Option (Split ι K)) : Prop extends T.Links split where
  root_lo : T.lo T.root = ⊥
  root_hi : T.hi T.root = ⊤
  inner : ∀ q, T.live q → T.level q ≠ 0 → Children key T.lo T.hi (T.entries q) (T.children q)
    (T.ownLo split q) (T.ownHi split q)
  sorted : ∀ q, T.live q → Descending key (T.entries q)
  within : ∀ q, T.live q → Within key (T.ownLo split q) (T.ownHi split q) (T.entries q)
  separates : ∀ x, split = some x →
    T.lo x.page < (x.sep : WithBot K) ∧ (x.sep : WithTop K) < T.hi x.page

variable {key}

/-! ## Searching -/

/-- The interval of `p` contains `k`. -/
def Owns (T : Tree ι K E) (p : ι) (k : K) : Prop :=
  T.lo p < (k : WithBot K) ∧ (k : WithTop K) ≤ T.hi p

theorem Inv.root_owns (h : T.Inv key split) (k : K) : T.Owns T.root k := by
  rw [Owns, h.root_lo, h.root_hi]
  exact ⟨WithBot.bot_lt_coe k, le_top⟩

theorem Inv.entry_owned (h : T.Inv key none) {p : ι} (hp : T.live p) {e : E}
    (he : e ∈ T.entries p) : T.Owns p (key e) :=
  h.within p hp e he

/-- The child at the slot of `k` owns `k`. -/
theorem Inv.child_owns (h : T.Inv key none) {q c : ι} {k : K} (hq : T.live q)
    (howns : T.Owns q k) (hc : (T.children q)[slot key k (T.entries q)]? = some c) :
    T.live c ∧ T.level c + 1 = T.level q ∧ T.Owns c k := by
  have hmem : c ∈ T.children q := List.mem_of_getElem? hc
  obtain ⟨hlive, -, hlevel⟩ := h.child q hq c hmem
  have hch := h.inner q hq (h.level_pos hq hmem)
  obtain ⟨A, B, PA, PB, hcut, hps, hlen⟩ := exists_child_cut (h.sorted q hq) hc
  rw [hps, hcut.eq] at hch
  exact ⟨hlive, hlevel, hch.owns hlen hcut.ge hcut.lt howns.1 howns.2⟩

/-- Two children of a page do not own the same key. -/
theorem Inv.child_unique (h : T.Inv key none) {q c c' : ι} {k : K} (hq : T.live q)
    (hc : c ∈ T.children q) (hc' : c' ∈ T.children q) (ho : T.Owns c k) (ho' : T.Owns c' k) :
    c = c' := by
  have hch := h.inner q hq (h.level_pos hq hc)
  exact hch.owner_unique (h.sorted q hq) hc hc' ho.1 ho.2 ho'.1 ho'.2

/-- The interval of a child lies inside its parent's. -/
theorem Inv.parent_owns (h : T.Inv key none) {q c : ι} {k : K} (hq : T.live q)
    (hc : c ∈ T.children q) (ho : T.Owns c k) : T.Owns q k := by
  have hch := h.inner q hq (h.level_pos hq hc)
  obtain ⟨hl, hh⟩ := hch.nested_mem (h.within q hq) hc
  exact ⟨hl.trans_lt ho.1, ho.2.trans hh⟩

/-- The entries of the leaves. -/
def InLeaf (T : Tree ι K E) (e : E) : Prop := ∃ p, T.live p ∧ T.level p = 0 ∧ e ∈ T.entries p

/-- On each level one page owns a key. -/
theorem Inv.owner_unique (h : T.Inv key none) {p p' : ι} {k : K} (hp : T.live p) (hp' : T.live p')
    (hlevel : T.level p = T.level p') (ho : T.Owns p k) (ho' : T.Owns p' k) : p = p' := by
  obtain ⟨n, hn⟩ : ∃ n, T.level p + n = T.level T.root :=
    ⟨_, Nat.add_sub_cancel' (h.level_le p hp)⟩
  induction n generalizing p p' with
  | zero => rw [h.eq_root hp (by omega), h.eq_root hp' (by omega)]
  | succ n ih =>
    have hne : ∀ r, T.level r = T.level p → r ≠ T.root := by
      intro r hr hroot
      rw [hroot] at hr
      omega
    obtain ⟨q, hq, -, hc⟩ := h.linked p hp (hne p rfl) (by simp)
    obtain ⟨q', hq', -, hc'⟩ := h.linked p' hp' (hne p' hlevel.symm) (by simp)
    have h1 := (h.child q hq p hc).2.2
    have h2 := (h.child q' hq' p' hc').2.2
    obtain rfl : q = q' := ih hq hq' (by omega) (h.parent_owns hq hc ho)
      (h.parent_owns hq' hc' ho') (by omega)
    exact h.child_unique hq hc hc' ho ho'

/-- A leaf entry with key `k` is in the leaf that owns `k`. -/
theorem Inv.mem_owner (h : T.Inv key none) {p : ι} (hp : T.live p) (h0 : T.level p = 0) {e : E}
    (ho : T.Owns p (key e)) (he : T.InLeaf e) : e ∈ T.entries p := by
  obtain ⟨q, hq, hq0, heq⟩ := he
  rw [h.owner_unique hp hq (by rw [h0, hq0]) ho (h.entry_owned hq heq)]
  exact heq

/-- Leaf entries with the same key are the same. -/
theorem Inv.leaf_unique (h : T.Inv key none) {a b : E} (ha : T.InLeaf a) (hb : T.InLeaf b)
    (hab : key a = key b) : a = b := by
  obtain ⟨p, hp, h0, hap⟩ := ha
  have hbp := h.mem_owner hp h0 (hab ▸ h.entry_owned hp hap) hb
  obtain ⟨i, hi, rfl⟩ := List.mem_iff_getElem.1 hap
  obtain ⟨j, hj, rfl⟩ := List.mem_iff_getElem.1 hbp
  have hd := List.pairwise_iff_getElem.1 (h.sorted p hp)
  obtain hij | rfl | hij := lt_trichotomy i j
  · exact absurd hab (hd i j hi hj hij).ne'
  · rfl
  · exact absurd hab (hd j i hj hi hij).ne

theorem Inv.nodup_children (h : T.Inv key none) {q : ι} (hq : T.live q) :
    (T.children q).Nodup := by
  by_cases h0 : T.level q = 0
  · rw [h.leaf hq h0]
    exact List.nodup_nil
  · exact (h.inner q hq h0).nodup (h.sorted q hq) (h.within q hq)

theorem Inv.setEntries (h : T.Inv key none) {p : ι} {e : E} {A B : List E} (hp : T.live p)
    (h0 : T.level p = 0) (ho : T.Owns p (key e)) (hcut : Cut key (key e) (T.entries p) A B)
    (hne : ∀ a ∈ T.entries p, key a ≠ key e) : (T.setEntries p (A ++ e :: B)).Inv key none where
  root := h.root
  root_parent := h.root_parent
  level_le := h.level_le
  linked := h.linked
  child := h.child
  unlinked := by simp
  root_lo := h.root_lo
  root_hi := h.root_hi
  inner q hq hl := by
    have hqp : q ≠ p := fun heq => hl (heq ▸ h0)
    change Children key T.lo T.hi (Function.update T.entries p _ q) _ _ _
    rw [Function.update_of_ne hqp]
    exact h.inner q hq hl
  sorted q hq := by
    change Descending key (Function.update T.entries p _ q)
    by_cases hqp : q = p
    · subst q
      rw [Function.update_self]
      exact hcut.insert_descending (h.sorted p hp) fun a ha => hne a (by simp [hcut.eq, ha])
    · rw [Function.update_of_ne hqp]
      exact h.sorted q hq
  within q hq := by
    change Within key (T.lo q) (T.hi q) (Function.update T.entries p _ q)
    by_cases hqp : q = p
    · subst q
      rw [Function.update_self]
      intro a ha
      have hold := h.within p hp
      rw [hcut.eq] at hold
      simp only [List.mem_append, List.mem_cons] at ha
      obtain ha | rfl | ha := ha
      · exact hold a (by simp [ha])
      · exact ho
      · exact hold a (by simp [ha])
    · rw [Function.update_of_ne hqp]
      exact h.within q hq
  separates := by simp

/-- Entries may be replaced by others with the same keys. -/
theorem Inv.replaceEntries (h : T.Inv key none) {p : ι} {es : List E}
    (hes : es.map key = (T.entries p).map key) : (T.setEntries p es).Inv key none := by
  have hkeys : ∀ q, ((T.setEntries p es).entries q).map key = (T.entries q).map key := by
    intro q
    by_cases hqp : q = p
    · rw [hqp]
      simpa [Tree.setEntries] using hes
    · simp [Tree.setEntries, hqp]
  exact
    { root := h.root
      root_parent := h.root_parent
      level_le := h.level_le
      linked := h.linked
      child := h.child
      unlinked := by simp
      root_lo := h.root_lo
      root_hi := h.root_hi
      inner := fun q hq hl => (h.inner q hq hl).of_keys (hkeys q)
      sorted := fun q hq => (h.sorted q hq).of_keys (hkeys q)
      within := fun q hq => (h.within q hq).of_keys (hkeys q)
      separates := by simp }

theorem Inv.cut (h : T.Inv key none) {p r : ι} {A B es2 : List E} {m : E} {ps1 ps2 : List ι}
    (hp : T.live p) (hr : ¬ T.live r) (hes : T.entries p = A ++ m :: B) (hA : A ≠ [])
    (hc : T.CutAt p m B es2 A.length ps1 ps2) :
    (T.cut p r A es2 ps1 ps2).Inv key (some ⟨p, r, key m⟩) := by
  have hps := hc.children_eq h.toLinks hp
  have hlive : ∀ {q : ι}, T.live q → q ≠ r := h.live_ne hr
  have hpr := hlive hp
  have hw : Within key (T.lo p) (T.hi p) (A ++ m :: B) := hes ▸ h.within p hp
  have hd : Descending key (A ++ m :: B) := hes ▸ h.sorted p hp
  obtain ⟨hdA, hdB, hdAB⟩ := List.pairwise_append.1 hd
  have hAm : ∀ a ∈ A, key m < key a := fun a ha => hdAB a ha m (by simp)
  have hBm : ∀ b ∈ B, key b < key m := (List.pairwise_cons.1 hdB).1
  have hmhi : (key m : WithTop K) < T.hi p := by
    obtain ⟨a, ha⟩ := List.exists_mem_of_ne_nil A hA
    exact (WithTop.coe_lt_coe.2 (hAm a ha)).trans_le (hw a (by simp [ha])).2
  -- the entries that the new page takes lie at or below the separator
  have hes2 : Descending key es2 ∧ Within key (T.lo p) (key m) es2 := by
    have hwB : Within key (T.lo p) (key m) B := fun b hb =>
      ⟨(hw b (by simp [hb])).1, WithTop.coe_le_coe.2 (hBm b hb).le⟩
    obtain ⟨-, rfl, -, -⟩ | ⟨-, rfl, -, -⟩ := hc
    · refine ⟨hdB, fun b hb => ?_⟩
      obtain rfl | hb := List.mem_cons.1 hb
      · exact ⟨(hw b (by simp)).1, le_rfl⟩
      · exact hwB b hb
    · exact ⟨(List.pairwise_cons.1 hdB).2, hwB⟩
  have hsplit : T.level p ≠ 0 → Children key T.lo T.hi A ps1 (key m) (T.hi p) ∧
      Children key T.lo T.hi es2 ps2 (T.lo p) (key m) := by
    intro hl
    obtain ⟨h0, -⟩ | ⟨-, rfl, -, hlen⟩ := hc
    · exact absurd h0 hl
    · have hch := h.inner p hp hl
      rw [hes, hps] at hch
      exact hch.split hlen
  refine ⟨h.toLinks.cut A es2 _ hp hr hps (h.nodup_children hp), h.root_lo, h.root_hi, ?_, ?_, ?_, ?_⟩
  · rintro q (hq | rfl) hl
    · by_cases hqp : q = p
      · subst q
        simpa [Tree.cut, ownLo, ownHi, splitHi_of_ne hpr] using
          (hsplit (by simpa [Tree.cut, hpr] using hl)).1
      · simpa [Tree.cut, ownLo, ownHi, hqp, hlive hq, splitLo_of_ne, splitHi_of_ne] using
          h.inner q hq (by simpa [Tree.cut, hlive hq] using hl)
    · simpa [Tree.cut, ownLo, ownHi, hpr, hpr.symm] using
        (hsplit (by simpa [Tree.cut] using hl)).2
  · rintro q (hq | rfl)
    · by_cases hqp : q = p
      · subst q
        simp only [Tree.cut, Function.update_self]
        exact hdA
      · simpa [Tree.cut, hqp, hlive hq] using h.sorted q hq
    · simpa [Tree.cut, hpr.symm] using hes2.1
  · rintro q (hq | rfl)
    · by_cases hqp : q = p
      · subst q
        simp only [Tree.cut, ownLo, ownHi, splitLo_page, splitHi_of_ne hpr, Function.update_self]
        exact fun a ha => ⟨WithBot.coe_lt_coe.2 (hAm a ha), (hw a (by simp [ha])).2⟩
      · simpa [Tree.cut, ownLo, ownHi, hqp, hlive hq, splitLo_of_ne, splitHi_of_ne] using
          h.within q hq
    · simpa [Tree.cut, ownLo, ownHi, hpr, hpr.symm] using hes2.2
  · rintro x ⟨⟩
    exact ⟨(hw m (by simp)).1, hmhi⟩

variable {x : Split ι K} {q : ι} {PA PB : List ι}

/-- The parent of a page that has been split, cut at that page. -/
theorem Inv.link_parts (h : T.Inv key (some x)) (hq : T.live q)
    (hpar : T.parent x.page = some q) : ∃ A B PA PB, T.entries q = A ++ B ∧
      T.children q = PA ++ x.page :: PB ∧ PA.length = A.length ∧
      A.length = slot key x.sep (A ++ B) := by
  obtain ⟨hp, -, hne, hrp, -, hlevel⟩ := h.unlinked x rfl
  obtain ⟨hsl, hsh⟩ := h.separates x rfl
  obtain ⟨-, hmem, hqp⟩ := h.parent_live hp (by rintro _ ⟨⟩; exact hne) hpar
  have hq1 : q ≠ x.page := fun heq => by
    rw [heq] at hqp
    omega
  have hq2 : q ≠ x.right := fun heq => by
    rw [heq, hlevel] at hqp
    omega
  have hch := h.inner q hq (by omega)
  have hd := h.sorted q hq
  rw [show T.ownLo (some x) q = T.lo q from splitLo_of_ne hq1 hq2,
    show T.ownHi (some x) q = T.hi q from splitHi_of_ne hq2] at hch
  obtain ⟨PA, PB, hps⟩ := List.append_of_mem hmem
  have hlen := hch.length_eq
  rw [hps, List.length_append, List.length_cons] at hlen
  have htake : PA.length = ((T.entries q).take PA.length).length := by
    rw [List.length_take]
    omega
  refine ⟨(T.entries q).take PA.length, (T.entries q).drop PA.length, PA, PB,
    (List.take_append_drop _ _).symm, hps, htake, ?_⟩
  rw [hps] at hch
  rw [← List.take_append_drop PA.length (T.entries q)] at hch hd
  obtain ⟨hA, hB⟩ := hch.separates htake hd hsl hsh
  exact (slot_append (fun a ha => (hA a ha).not_gt) hB).symm

theorem Inv.link (h : T.Inv key (some x)) {A B : List E} {e : E} (hq : T.live q)
    (he : key e = x.sep) (hes : T.entries q = A ++ B) (hps : T.children q = PA ++ x.page :: PB)
    (hlen : PA.length = A.length) :
    (T.link x q (A ++ e :: B) (PA ++ x.page :: x.right :: PB)).Inv key none := by
  obtain ⟨-, -, -, -, hrr, hlevel⟩ := h.unlinked x rfl
  obtain ⟨hsl, hsh⟩ := h.separates x rfl
  have hpage := h.child q hq x.page (by simp [hps])
  have hq0 : T.level q ≠ 0 := by omega
  have hqp : q ≠ x.page := by
    intro heq
    rw [heq] at hpage
    omega
  have hqr : q ≠ x.right := by
    intro heq
    rw [heq, hlevel] at hpage
    omega
  have hlo : T.ownLo (some x) q = T.lo q := splitLo_of_ne hqp hqr
  have hhi : T.ownHi (some x) q = T.hi q := splitHi_of_ne hqr
  have hnp : ∀ {c q' : ι}, T.live q' → c ∈ T.children q' → q' ≠ q → c ≠ x.page := by
    rintro c q' hq' hc hne rfl
    exact hne (Option.some.inj ((h.child q' hq' _ hc).2.1.symm.trans hpage.2.1))
  have hch := h.inner q hq hq0
  have hd := h.sorted q hq
  have hw := h.within q hq
  rw [hes, hps, hlo, hhi] at hch
  rw [hes] at hd
  rw [hes, hlo, hhi] at hw
  have hnd := hch.nodup hd hw
  have hrmem : x.right ∉ PA ++ x.page :: PB := hps ▸ h.not_mem_children_right hq
  obtain ⟨hsepA, hsepB⟩ := hch.separates hlen hd hsl hsh
  obtain ⟨hnl, hnh⟩ := hch.nested hlen hw
  refine ⟨h.toLinks.link _ hq hps, ?_, ?_, ?_, ?_, ?_, by simp⟩
  · have hne : T.root ≠ x.page := fun heq =>
      h.not_mem_children_root hq (by simp [hps, heq])
    exact (splitLo_of_ne hne hrr.symm).trans h.root_lo
  · exact (splitHi_of_ne hrr.symm).trans h.root_hi
  · intro q' hq' hl
    by_cases hqq : q' = q
    · subst q'
      have hins := hch.insert (m := e) hlen hnd hrmem
      rw [he] at hins
      simpa [Tree.link, ownLo, ownHi, splitLo_of_ne hqp hqr, splitHi_of_ne hqr] using hins
    · have hold := h.inner q' hq' hl
      have hp' : x.page ∉ T.children q' := fun hc => hnp hq' hc hqq rfl
      have hr' : x.right ∉ T.children q' := h.not_mem_children_right hq'
      simp only [Tree.link, ownLo, ownHi, Function.update_of_ne hqq]
      exact ⟨(map_splitLo_of_notMem hp' hr').trans hold.lows,
        (map_splitHi_of_notMem hr').trans hold.highs⟩
  · intro q' hq'
    by_cases hqq : q' = q
    · subst q'
      simp only [Tree.link, Function.update_self]
      obtain ⟨hdA, hdB, hdAB⟩ := List.pairwise_append.1 hd
      refine List.pairwise_append.2 ⟨hdA, List.pairwise_cons.2 ⟨he ▸ hsepB, hdB⟩, ?_⟩
      intro a ha b hb
      obtain rfl | hb := List.mem_cons.1 hb
      · exact he ▸ hsepA a ha
      · exact hdAB a ha b hb
    · simpa [Tree.link, hqq] using h.sorted q' hq'
  · intro q' hq'
    by_cases hqq : q' = q
    · subst q'
      simp only [Tree.link, ownLo, ownHi, Function.update_self, splitLo_of_ne hqp hqr,
        splitHi_of_ne hqr]
      intro a ha
      simp only [List.mem_append, List.mem_cons] at ha
      obtain ha | rfl | ha := ha
      · exact hw a (by simp [ha])
      · rw [he]
        exact ⟨hnl.trans_lt hsl, hsh.le.trans hnh⟩
      · exact hw a (by simp [ha])
    · simpa [Tree.link, ownLo, ownHi, hqq] using h.within q' hq'

theorem Inv.grow (h : T.Inv key (some x)) {n : ι} {e : E} (hroot : x.page = T.root)
    (hn : ¬ T.live n) (he : key e = x.sep) : (T.grow x n e).Inv key none := by
  obtain ⟨hp, hr, hpr, -, -, -⟩ := h.unlinked x rfl
  have hlive : ∀ {q : ι}, T.live q → q ≠ n := h.live_ne hn
  refine ⟨h.toLinks.grow e hroot hn, by simp [Tree.grow], by simp [Tree.grow], ?_, ?_, ?_, by simp⟩
  · rintro q (hq | rfl) hl
    · have hold := h.inner q hq (by simpa [Tree.grow, hlive hq] using hl)
      have hp' : x.page ∉ T.children q := hroot ▸ h.not_mem_children_root hq
      have hr' : x.right ∉ T.children q := h.not_mem_children_right hq
      have hn' : ∀ c ∈ T.children q, c ≠ n := fun c hc => hlive (h.child q hq c hc).1
      have hl' : (T.children q).map (Function.update (splitLo T.lo x.page x.right x.sep) n ⊥) =
          (T.children q).map T.lo :=
        (List.map_congr_left fun c hc => Function.update_of_ne (hn' c hc) _ _).trans
          (map_splitLo_of_notMem hp' hr')
      have hh' : (T.children q).map (Function.update (splitHi T.hi x.right x.sep) n ⊤) =
          (T.children q).map T.hi :=
        (List.map_congr_left fun c hc => Function.update_of_ne (hn' c hc) _ _).trans
          (map_splitHi_of_notMem hr')
      simp only [Tree.grow, ownLo, ownHi, Function.update_of_ne (hlive hq)]
      exact ⟨hl'.trans hold.lows, hh'.trans hold.highs⟩
    · simp only [Tree.grow, ownLo, ownHi, Function.update_self]
      constructor
      · simp [hlive hp, hlive hr, hpr, he, hroot ▸ h.root_lo]
      · simp [hlive hp, hlive hr, hpr, he, splitHi_of_ne, hroot ▸ h.root_hi]
  · rintro q (hq | rfl)
    · simpa [Tree.grow, hlive hq] using h.sorted q hq
    · simp [Tree.grow, Descending]
  · rintro q (hq | rfl)
    · simpa [Tree.grow, ownLo, ownHi, hlive hq] using h.within q hq
    · simp [Tree.grow, ownLo, ownHi, Within]

end Tree
end SearchTree
