import Djondb.PageBounds
import Djondb.IndexShape
import Djondb.IndexUpdate

set_option autoImplicit false

/-!
# Progress of the index

A key that is added twice puts the entries out of order, and the tree of the pages with them. The
levels of the pages are enough for the steps of the index to return: whatever keys come, an
addition, an update and a search find what they follow.
-/
namespace Djondb

theorem IndexPage.exists_pointer {page : IndexPage} {c : ℕ} (h : some c ∈ page.pointers) :
    ∃ x, page.pointer x = some c := by
  rcases List.mem_iff_getElem.1 h with ⟨x, hx, hc⟩
  refine ⟨x, ?_⟩
  rw [IndexPage.pointer, List.getD_eq_getElem?_getD, List.getElem?_eq_getElem hx, hc]
  rfl

theorem IndexPage.PointsTo.mem_pointers {page : IndexPage} {ps : List ℕ} (h : page.PointsTo ps)
    {c : ℕ} (hc : some c ∈ page.pointers) : c ∈ ps := by
  rcases IndexPage.exists_pointer hc with ⟨x, hx⟩
  exact h.mem x c hx

namespace BPlusIndexP
open SearchPage

/-! ## Pages on their levels -/

/-- A page of level `n`: it has children if `n` is not 0, and its entries are as `Q` says. -/
def Formed (Q : Index → Prop) (page : IndexPage) (n : ℕ) : Prop :=
  ∃ es ps, Holds page es ps ∧ (∀ a ∈ es, Q a) ∧ (ps = [] ↔ n = 0)

/-- The pages from level `n` up are formed, in whatever order their entries are. -/
structure Standing (Q : Index → Prop) (level : ℕ → ℕ) (n : ℕ) (s : BPlusIndexP) : Prop where
  layered : Layered level s
  placed : s.Placed
  height : ∀ q < s.pages.length, level q < s.pages.length
  formed : ∀ q < s.pages.length, n ≤ level q → Formed Q (s.page q) (level q)

/-- The pages from level `n` up are in memory. -/
def Loaded (level : ℕ → ℕ) (n : ℕ) (s : BPlusIndexP) : Prop :=
  ∀ q < s.pages.length, n ≤ level q → (s.page q).isLoaded = true

/-- A step that stands on the pages from level `n` up. Below, pages change their parents only, and
no page loses its parent. -/
structure Advanced (Q : Index → Prop) (level level' : ℕ → ℕ) (n : ℕ) (s s' : BPlusIndexP) :
    Prop where
  standing : Standing Q level' n s'
  pages_le : s.pages.length ≤ s'.pages.length
  level_eq : ∀ q < s.pages.length, level' q = level q
  new_level : ∀ q < s'.pages.length, s.pages.length ≤ q → n ≤ level' q
  below : ∀ q < s.pages.length, level q < n → ∃ parent, s'.page q = withParent (s.page q) parent
  parent : ∀ q < s.pages.length, (s.page q).parentElement ≠ none →
    (s'.page q).parentElement ≠ none

section formed
variable {Q : Index → Prop} {page a b : IndexPage} {n m : ℕ}
variable {level level' level1 : ℕ → ℕ} {s s' s1 : BPlusIndexP} {p q P : ℕ}

theorem Formed.withParent (h : Formed Q page n) (parent : Option ℕ) :
    Formed Q (withParent page parent) n := by
  rcases h with ⟨es, ps, hholds, hQ, hps⟩
  exact ⟨es, ps, ⟨withParent_shape.2 hholds.shape, hholds.leftSibling, hholds.rightSibling⟩, hQ,
    hps⟩

theorem Formed.of_sameSlots (h : Formed Q b n) (hs : SameSlots a b) : Formed Q a n := by
  rcases h with ⟨es, ps, hholds, hQ, hps⟩
  exact ⟨es, ps, ⟨IndexPage.Shape.of_sameSlots hholds.shape hs,
    hs.leftSibling.trans hholds.leftSibling, hs.rightSibling.trans hholds.rightSibling⟩, hQ, hps⟩

theorem Standing.mono (h : Standing Q level m s) (hmn : m ≤ n) : Standing Q level n s :=
  ⟨h.layered, h.placed, h.height, fun q hq hn => h.formed q hq (hmn.trans hn)⟩

theorem Advanced.refl (h : Standing Q level n s) : Advanced Q level level n s s where
  standing := h
  pages_le := le_refl _
  level_eq _ _ := rfl
  new_level q hq hnew := by omega
  below q _ _ := ⟨(s.page q).parentElement, rfl⟩
  parent _ _ hne := hne

theorem Advanced.trans (h1 : Advanced Q level level1 n s s1)
    (h2 : Advanced Q level1 level' n s1 s') : Advanced Q level level' n s s' where
  standing := h2.standing
  pages_le := h1.pages_le.trans h2.pages_le
  level_eq q hq := (h2.level_eq q (hq.trans_le h1.pages_le)).trans (h1.level_eq q hq)
  new_level q hq hnew := by
    by_cases hq1 : q < s1.pages.length
    · rw [h2.level_eq q hq1]
      exact h1.new_level q hq1 hnew
    · exact h2.new_level q hq (Nat.le_of_not_lt hq1)
  below q hq hn := by
    have hlevel := h1.level_eq q hq
    rcases h1.below q hq hn with ⟨parent, hpage⟩
    rcases h2.below q (hq.trans_le h1.pages_le) (hlevel ▸ hn) with ⟨parent', hpage'⟩
    exact ⟨parent', by rw [hpage', hpage]; rfl⟩
  parent q hq hne := h2.parent q (hq.trans_le h1.pages_le) (h1.parent q hq hne)

/-- A page behind the step that is below level `n` was there, and only its parent may change. -/
theorem Advanced.kept (h : Advanced Q level level' n s s') (hq : q < s'.pages.length)
    (hn : ¬ n ≤ level' q) : q < s.pages.length ∧ level' q = level q ∧
      ∃ parent, s'.page q = withParent (s.page q) parent := by
  have hq' : q < s.pages.length := by
    by_contra hge
    exact hn (h.new_level q hq (Nat.le_of_not_lt hge))
  have hlevel := h.level_eq q hq'
  exact ⟨hq', hlevel, h.below q hq' (by omega)⟩

/-- What a step above level `n` leaves alone still stands. -/
theorem Advanced.extend (h : Advanced Q level level' n s s') (hs : Standing Q level m s)
    (hmn : m ≤ n) : Advanced Q level level' m s s' where
  standing :=
    { layered := h.standing.layered
      placed := h.standing.placed
      height := h.standing.height
      formed := fun q hq hm => by
        by_cases hn : n ≤ level' q
        · exact h.standing.formed q hq hn
        · rcases h.kept hq hn with ⟨hq', hlevel, parent, hpage⟩
          rw [hpage, hlevel]
          exact (hs.formed q hq' (by omega)).withParent parent }
  pages_le := h.pages_le
  level_eq := h.level_eq
  new_level q hq hnew := hmn.trans (h.new_level q hq hnew)
  below q hq hlow := h.below q hq (hlow.trans_le hmn)
  parent := h.parent

/-- Pages that a step leaves alone stay in memory. -/
theorem Advanced.loaded (h : Advanced Q level level' n s s') (hs : Loaded level m s)
    (hs' : Loaded level' n s') : Loaded level' m s' := by
  intro q hq hm
  by_cases hn : n ≤ level' q
  · exact hs' q hq hn
  · rcases h.kept hq hn with ⟨hq', hlevel, parent, hpage⟩
    rw [hpage]
    exact hs q hq' (by omega)

/-! ## Steps -/

theorem Standing.persistPage (h : Standing Q level n s) (hp : p < s.pages.length)
    (hn : n ≤ level p) : ∃ i s', s.persistPage p = some s' ∧ Persisted s p i s' ∧
      Advanced Q level level n s s' := by
  rcases h.placed.persistPage hp with ⟨i, s', hs', h'⟩
  have hmoved := (h.layered.persistPage hp hs').moved h.layered hp hn
  refine ⟨i, s', hs', h', ⟨hmoved.layered, h'.placed, fun q hq => ?_, fun q hq hm => ?_⟩,
    h'.length.ge, fun _ _ => rfl, fun q hq hnew => ?_, fun q hq hlow => ?_, fun q _ hne => ?_⟩
  · rw [h'.length] at hq ⊢
    exact h.height q hq
  · rw [h'.length] at hq
    exact (h.formed q hq hm).of_sameSlots (h'.sameSlots q)
  · rw [h'.length] at hq
    omega
  · have hne : q ≠ p := by
      intro hqp
      rw [hqp] at hlow
      omega
    rw [h'.page_ne q hne]
    exact ⟨(s.page q).parentElement, rfl⟩
  · rw [h'.parentElement]
    exact hne

theorem Relinked.advanced (h : Relinked P s s') (hs : Standing Q level n s)
    (hP : P < s.pages.length) (hkeys : s'.keys = s.keys) : Advanced Q level level n s s' := by
  have hpage : ∀ q, ∃ parent, s'.page q = withParent (s.page q) parent ∧
      ((s.page q).parentElement ≠ none → parent ≠ none) := by
    intro q
    rcases h.page q with hq | ⟨-, hq⟩
    · exact ⟨(s.page q).parentElement, hq, fun hne => hne⟩
    · exact ⟨some P, hq, fun _ => Option.some_ne_none P⟩
  refine ⟨⟨h.layered hs.layered hP, ?_, fun q hq => ?_, fun q hq hn => ?_⟩, h.length.ge,
    fun _ _ => rfl, fun q hq hnew => ?_, fun q _ _ => ?_, fun q _ hne => ?_⟩
  · apply hs.placed.of_sameManager _ h.bufferManager hkeys
    intro q hq
    rw [h.length] at hq
    exact Or.inr ⟨hq, (h.links q).2.2.1, (h.links q).2.2.2.1⟩
  · rw [h.length] at hq ⊢
    exact hs.height q hq
  · rw [h.length] at hq
    rcases hpage q with ⟨parent, hq', -⟩
    rw [hq']
    exact (hs.formed q hq hn).withParent parent
  · rw [h.length] at hq
    omega
  · rcases hpage q with ⟨parent, hq', -⟩
    exact ⟨parent, hq'⟩
  · rcases hpage q with ⟨parent, hq', hparent⟩
    rw [hq']
    exact hparent hne

/-- The entries and the children of a page are replaced. -/
theorem Standing.setPage (h : Standing Q level n s) {pg : IndexPage} (hp : p < s.pages.length)
    (hn : n ≤ level p) (hplace : pg.bufferIndex = (s.page p).bufferIndex ∧
      pg.bufferPos = (s.page p).bufferPos) (hparent : pg.parentElement = (s.page p).parentElement)
    (hpointer : ∀ c, some c ∈ pg.pointers → c < s.pages.length ∧ level c < level p)
    (hformed : Formed Q pg (level p)) : Advanced Q level level n s (s.setPage p pg) := by
  have hpage : ∀ q, q ≠ p → (s.setPage p pg).page q = s.page q := fun q hq => page_setPage_of_ne hq
  have hself : (s.setPage p pg).page p = pg := page_setPage_self hp
  refine ⟨⟨h.layered.setPage hplace hparent hpointer, ?_, fun q hq => ?_, fun q hq hm => ?_⟩,
    setPage_length.ge, fun _ _ => rfl, fun q hq hnew => ?_, fun q _ hlow => ?_, fun q _ hne => ?_⟩
  · refine h.placed.of_sameManager (fun q hq => Or.inr ?_) rfl rfl
    rw [setPage_length] at hq
    refine ⟨hq, ?_⟩
    by_cases hqp : q = p
    · rw [hqp, hself]
      exact hplace
    · rw [hpage q hqp]
      exact ⟨rfl, rfl⟩
  · rw [setPage_length] at hq ⊢
    exact h.height q hq
  · rw [setPage_length] at hq
    by_cases hqp : q = p
    · rw [hqp, hself]
      exact hformed
    · rw [hpage q hqp]
      exact h.formed q hq hm
  · rw [setPage_length] at hq
    omega
  · have hqp : q ≠ p := by
      intro hqp
      rw [hqp] at hlow
      omega
    exact ⟨(s.page q).parentElement, hpage q hqp⟩
  · by_cases hqp : q = p
    · rw [hqp, hself, hparent]
      exact hqp ▸ hne
    · rw [hpage q hqp]
      exact hne

theorem keys_refreshParentRelationship (s : BPlusIndexP) (P : ℕ) :
    (s.refreshParentRelationship P).keys = s.keys := by
  unfold refreshParentRelationship
  generalize List.range (BUCKET_MAX_ELEMENTS + 1) = xs
  induction xs generalizing s with
  | nil => rfl
  | cons x xs ih =>
    rw [List.foldl_cons, ih]
    split <;> rfl

/-! ## The end of a split -/

theorem Standing.finishSplit {r : ℕ} (h : Standing Q level n s) (hp : p < s.pages.length)
    (hr : r < s.pages.length) (hlevel : level r = level p) (hn : n ≤ level p)
    (hpp : (s.page p).parentElement ≠ none) (hrp : (s.page r).parentElement ≠ none) :
    ∃ s', s.finishSplit p r = some s' ∧ Advanced Q level level n s s' ∧
      s'.pages.length = s.pages.length ∧ ∀ q, (s.page q).isLoaded = true ∨ q = p ∨ q = r ∨
        AwaitsParent s p r q → (s'.page q).isLoaded = true := by
  rcases Option.ne_none_iff_exists'.1 hrp with ⟨R, hR⟩
  rcases h.layered.parent r R hR with ⟨hRlt, hRlevel⟩
  obtain ⟨s1, hs1⟩ : ∃ s1, s1 = s.refreshParentRelationship R := ⟨_, rfl⟩
  have hrelinked : Relinked R s s1 := hs1 ▸ relinked_refresh s R
  have h1 := hrelinked.advanced h hRlt (hs1 ▸ keys_refreshParentRelationship s R)
  have hlen1 := hrelinked.length
  -- the three writes
  rcases h1.standing.persistPage (p := p) (by omega) hn with ⟨i2, s2, hs2, hw2, h2⟩
  have hlen2 := hw2.length
  rcases h2.standing.persistPage (p := r) (by omega) (by omega) with ⟨i3, s3, hs3, hw3, h3⟩
  have hlen3 := hw3.length
  have hpp3 : (s3.page p).parentElement ≠ none := by
    rw [hw3.parentElement, hw2.parentElement]
    exact h1.parent p hp hpp
  rcases Option.ne_none_iff_exists'.1 hpp3 with ⟨P, hP⟩
  rcases h3.standing.layered.parent p P hP with ⟨hPlt, hPlevel⟩
  rcases h3.standing.persistPage hPlt (by omega) with ⟨i4, s4, hs4, hw4, h4⟩
  refine ⟨s4, ?_, ((h1.trans h2).trans h3).trans h4, by rw [hw4.length, hlen3, hlen2, hlen1],
    fun q hq => hw4.isLoaded ?_⟩
  · simp only [BPlusIndexP.finishSplit, refreshParent, hR, Option.map_some, ← hs1, hs2,
      persistParent, Option.bind_eq_bind, Option.bind_some, hs3, hP, hs4]
  · rcases hq with hq | hq | hq | ⟨hpq, hrq⟩
    · have hq1 : (s1.page q).isLoaded = true := by
        rw [(hrelinked.links q).2.2.2.2]
        exact hq
      exact Or.inr (hw3.isLoaded (Or.inr (hw2.isLoaded (Or.inr hq1))))
    · exact Or.inr (hw3.isLoaded (Or.inr (hw2.isLoaded (Or.inl hq))))
    · exact Or.inr (hw3.isLoaded (Or.inl hq))
    · -- both pages keep the parent that they share
      left
      have hRq : R = q := Option.some.inj (hR.symm.trans hrq)
      have hparent : (s1.page p).parentElement = some q := by
        rcases hrelinked.page p with hold | ⟨-, hnew⟩
        · rw [hold]
          exact hpq
        · rw [hnew, hRq]
          rfl
      rw [hw3.parentElement, hw2.parentElement, hparent] at hP
      exact Option.some.inj hP

/-! ## Additions -/

/-- `add` returns where fewer than `fuel` levels lie above its page. A page with children gets a
new one, and a leaf gets none. -/
def Progresses (Q : Index → Prop) (add : AddElement) (fuel : ℕ) : Prop :=
  ∀ (level : ℕ → ℕ) (s : BPlusIndexP) (p : ℕ) (e : Index) (right : Option ℕ),
    Standing Q level (level p) s → Q e → p < s.pages.length →
      (∀ q < s.pages.length, level q < level p + fuel) → (right = none ↔ level p = 0) →
        (∀ r, right = some r → r < s.pages.length ∧ level r < level p) →
          ∃ s' level', add s p e right = some s' ∧ Advanced Q level level' (level p) s s' ∧
            (Loaded level (level p) s → Loaded level' (level p) s') ∧
              ∀ r, right = some r → (s'.page r).parentElement ≠ none

theorem createRoot_advanced {r : ℕ} {e : Index} (h : Standing Q level n s) (he : Q e)
    (hp : p < s.pages.length) (hr : r < s.pages.length) (hpr : p ≠ r) (hlevel : level r = level p)
    (hn : n ≤ level p + 1) :
    Advanced Q level (levelWith level s.pages.length (level p + 1)) n s
      (s.createRoot (some e) p r) := by
  have hpages := createRoot_pages (s := s) (e := e) hp hr hpr
  rcases createRoot_moved h.layered hp hr hlevel e with ⟨hm, hlen, -, -⟩
  have hroot : (s.createRoot (some e) p r).page s.pages.length = IndexPage.root (some e) p r := by
    rw [hpages, if_neg (by omega), if_pos rfl]
  have hold : ∀ q < s.pages.length, ∃ parent, (s.createRoot (some e) p r).page q =
      withParent (s.page q) parent ∧ ((s.page q).parentElement ≠ none → parent ≠ none) := by
    intro q hq
    rw [hpages]
    split_ifs with hqpr hqN
    · exact ⟨some s.pages.length, rfl, fun _ => Option.some_ne_none _⟩
    · omega
    · exact ⟨(s.page q).parentElement, rfl, fun hne => hne⟩
  have hlevelN : levelWith level s.pages.length (level p + 1) s.pages.length = level p + 1 :=
    Function.update_self _ _ _
  have hheight := h.height p hp
  refine ⟨⟨hm.layered, ?_, fun q hq => ?_, fun q hq hle => ?_⟩, hm.pages_le, hm.level_eq,
    fun q hq hnew => ?_, fun q hq _ => ?_, fun q hq hne => ?_⟩
  · refine h.placed.of_sameManager (fun q hq => ?_) rfl rfl
    rw [hlen] at hq
    by_cases hqN : q = s.pages.length
    · rw [hqN, hroot]
      exact Or.inl rfl
    · have hq' : q < s.pages.length := by omega
      rcases hold q hq' with ⟨parent, hpage, -⟩
      rw [hpage]
      exact Or.inr ⟨hq', rfl, rfl⟩
  · rw [hlen] at hq ⊢
    by_cases hqN : q = s.pages.length
    · rw [hqN, hlevelN]
      omega
    · have hq' : q < s.pages.length := by omega
      have hlt := h.height q hq'
      rw [levelWith_of_lt hq']
      omega
  · rw [hlen] at hq
    by_cases hqN : q = s.pages.length
    · rw [hqN, hlevelN, hroot]
      refine ⟨[e], [p, r], ⟨IndexPage.root_shape e p r, rfl, rfl⟩, fun a ha => ?_, ?_⟩
      · rw [List.mem_singleton.1 ha]
        exact he
      · exact iff_of_false (List.cons_ne_nil _ _) (Nat.succ_ne_zero _)
    · have hq' : q < s.pages.length := by omega
      rcases hold q hq' with ⟨parent, hpage, -⟩
      rw [levelWith_of_lt hq'] at hle ⊢
      rw [hpage]
      exact (h.formed q hq' hle).withParent parent
  · rw [hlen] at hq
    have hqN : q = s.pages.length := by omega
    rw [hqN, hlevelN]
    exact hn
  · rcases hold q hq with ⟨parent, hpage, -⟩
    exact ⟨parent, hpage⟩
  · rcases hold q hq with ⟨parent, hpage, hparent⟩
    rw [hpage]
    exact hparent hne

theorem promote_progress {add : AddElement} {fuel r : ℕ} {e : Index} (hadd : Progresses Q add fuel)
    (h : Standing Q level (level p + 1) s) (he : Q e) (hp : p < s.pages.length)
    (hr : r < s.pages.length) (hpr : p ≠ r) (hlevel : level r = level p)
    (hfuel : ∀ q < s.pages.length, level q < level p + (fuel + 1)) :
    ∃ s' level', promote add s p e r = some s' ∧ Advanced Q level level' (level p + 1) s s' ∧
      (s'.page p).parentElement ≠ none ∧ (s'.page r).parentElement ≠ none ∧
        (Loaded level (level p + 1) s → ∀ q < s'.pages.length, level p + 1 ≤ level' q →
          (s'.page q).isLoaded = true ∨ AwaitsParent s' p r q) := by
  unfold promote
  cases hparent : (s.page p).parentElement with
  | some P =>
    rcases h.layered.parent p P hparent with ⟨hP, hPlevel⟩
    have hright : ∀ r', some r = some r' → r' < s.pages.length ∧ level r' < level P := by
      intro r' hr'
      cases hr'
      exact ⟨hr, hlevel ▸ hPlevel⟩
    have hinner : some r = none ↔ level P = 0 :=
      iff_of_false (Option.some_ne_none r) (by omega)
    rcases hadd level s P e (some r) (h.mono hPlevel) he hP
      (fun q hq => (hfuel q hq).trans_le (by omega)) hinner hright with ⟨s', level', hs', ha, hload, hrp⟩
    have ha' := ha.extend h hPlevel
    refine ⟨s', level', hs', ha', ha.parent p hp ?_, hrp r rfl, fun hloaded q hq hle => Or.inl ?_⟩
    · rw [hparent]
      exact Option.some_ne_none P
    · have hP' : Loaded level (level P) s := fun q hq hle => hloaded q hq (by omega)
      exact ha.loaded hloaded (hload hP') q hq hle
  | none =>
    have ha := createRoot_advanced h he hp hr hpr hlevel (le_refl _)
    rcases createRoot_moved h.layered hp hr hlevel e with ⟨hm, hlen, hawaits, -⟩
    refine ⟨_, _, rfl, ha, ?_, ?_, fun hloaded q hq hle => ?_⟩
    · rw [hawaits.1]
      exact Option.some_ne_none _
    · rw [hawaits.2]
      exact Option.some_ne_none _
    · by_cases hqN : q = s.pages.length
      · rw [hqN]
        exact Or.inr hawaits
      · have hq' : q < s.pages.length := by omega
        rw [levelWith_of_lt hq'] at hle
        left
        rw [createRoot_pages hp hr hpr, if_neg, if_neg hqN]
        · exact hloaded q hq' hle
        · rintro (rfl | rfl)
          · omega
          · omega

/-- The two halves of a page, before its new neighbour is linked. -/
theorem Standing.halves {left right : IndexPage} {ps1 ps2 : List ℕ}
    (h : Standing Q level (level p) s) (hp : p < s.pages.length)
    (hh : Halves s p left right ps1 ps2) (hlow : ∀ c ∈ ps1 ++ ps2, level c < level p) :
    Standing Q (levelWith level s.pages.length (level p)) (level p + 1)
      (splitState s p left right) := by
  rcases hh.pages hp with ⟨hlen, -, hmanager, hkeys, hleft, hright, hpage⟩
  have hchild : ∀ c ∈ ps1 ++ ps2, c < s.pages.length ∧ level c < level p := by
    intro c hc
    refine ⟨?_, hlow c hc⟩
    rcases List.mem_append.1 hc with hc | hc
    · exact (hh.live1 c hc).1
    · exact (hh.live2 c hc).1
  have hlayered : Layered (levelWith level s.pages.length (level p)) (splitState s p left right) := by
    have hleft' : ∀ c, some c ∈ left.pointers → c < s.pages.length ∧ level c < level p :=
      fun c hc => hchild c (List.mem_append_left _ (hh.left_pointer.mem_pointers hc))
    have hright' : ∀ c, some c ∈ right.pointers → c < s.pages.length ∧ level c < level p :=
      fun c hc => hchild c (List.mem_append_right _ (hh.right_pointer.mem_pointers hc))
    exact (splitStart_moved h.layered hp ⟨hh.bufferIndex, hh.bufferPos⟩ hh.parentElement hleft'
      hh.new_bufferIndex hh.new_parentElement hright' rfl).1.layered
  have hheight := h.height p hp
  refine ⟨hlayered, ?_, fun q hq => ?_, fun q hq hle => ?_⟩
  · refine h.placed.of_sameManager (fun q hq => ?_) hmanager hkeys
    rw [hlen] at hq
    by_cases hqN : q = s.pages.length
    · rw [hqN, hright]
      exact Or.inl hh.new_bufferIndex
    · have hq' : q < s.pages.length := by omega
      refine Or.inr ⟨hq', ?_⟩
      by_cases hqp : q = p
      · rw [hqp, hleft]
        exact ⟨hh.bufferIndex, hh.bufferPos⟩
      · rw [hpage q hq' hqp]
        exact ⟨rfl, rfl⟩
  · rw [hlen] at hq ⊢
    by_cases hqN : q = s.pages.length
    · rw [hqN, levelWith, Function.update_self]
      omega
    · have hq' : q < s.pages.length := by omega
      have hlt := h.height q hq'
      rw [levelWith_of_lt hq']
      omega
  · rw [hlen] at hq
    have hqN : q ≠ s.pages.length := by
      intro hqN
      rw [hqN, levelWith, Function.update_self] at hle
      omega
    have hq' : q < s.pages.length := by omega
    rw [levelWith_of_lt hq'] at hle ⊢
    have hqp : q ≠ p := by
      intro hqp
      rw [hqp] at hle
      omega
    rw [hpage q hq' hqp]
    exact (h.formed q hq' (by omega)).withParent _

/-- Between the promotion of a split and its writes: `s2` is what the promotion makes of the
halves. -/
structure Promoting (Q : Index → Prop) (level level2 : ℕ → ℕ) (s s2 : BPlusIndexP) (p : ℕ)
    (left right : IndexPage) (ps1 ps2 : List ℕ) : Prop where
  lt : p < s.pages.length
  halves : Halves s p left right ps1 ps2
  low : ∀ c ∈ ps1 ++ ps2, level c < level p
  advanced : Advanced Q (levelWith level s.pages.length (level p)) level2 (level p + 1)
    (splitState s p left right) s2

section promoting
variable {level2 : ℕ → ℕ} {s2 : BPlusIndexP} {left right : IndexPage} {ps1 ps2 : List ℕ} {c : ℕ}

theorem Promoting.pages_le (h : Promoting Q level level2 s s2 p left right ps1 ps2) :
    s.pages.length + 1 ≤ s2.pages.length := by
  rw [← (h.halves.pages h.lt).1]
  exact h.advanced.pages_le

theorem Promoting.level_eq (h : Promoting Q level level2 s s2 p left right ps1 ps2)
    (hq : q < s.pages.length + 1) :
    level2 q = levelWith level s.pages.length (level p) q := by
  rw [← (h.halves.pages h.lt).1] at hq
  exact h.advanced.level_eq q hq

theorem Promoting.level_old (h : Promoting Q level level2 s s2 p left right ps1 ps2)
    (hq : q < s.pages.length) : level2 q = level q := by
  rw [h.level_eq (by omega), levelWith_of_lt hq]

theorem Promoting.level_new (h : Promoting Q level level2 s s2 p left right ps1 ps2) :
    level2 s.pages.length = level p := by
  rw [h.level_eq (by omega), levelWith, Function.update_self]

/-- Up to the level of `p`, the promotion changes parents only. -/
theorem Promoting.below (h : Promoting Q level level2 s s2 p left right ps1 ps2)
    (hq : q < s.pages.length + 1) (hle : level2 q ≤ level p) :
    ∃ parent, s2.page q = withParent ((splitState s p left right).page q) parent := by
  rw [h.level_eq hq] at hle
  rw [← (h.halves.pages h.lt).1] at hq
  exact h.advanced.below q hq (by omega)

theorem Promoting.left_page (h : Promoting Q level level2 s s2 p left right ps1 ps2) :
    ∃ parent, s2.page p = withParent left parent := by
  have hlt := h.lt
  rcases h.halves.pages hlt with ⟨-, -, -, -, hleft, -, -⟩
  rcases h.below (q := p) (by omega) (h.level_old hlt).le with ⟨parent, hpage⟩
  exact ⟨parent, hleft ▸ hpage⟩

theorem Promoting.right_page (h : Promoting Q level level2 s s2 p left right ps1 ps2) :
    ∃ parent, s2.page s.pages.length = withParent right parent := by
  rcases h.halves.pages h.lt with ⟨-, -, -, -, -, hright, -⟩
  rcases h.below (Nat.lt_succ_self _) h.level_new.le with ⟨parent, hpage⟩
  exact ⟨parent, hright ▸ hpage⟩

/-- The pages that have been on the level of `p` before, or below. -/
theorem Promoting.kept (h : Promoting Q level level2 s s2 p left right ps1 ps2)
    (hq : q < s.pages.length) (hqp : q ≠ p) (hle : level q ≤ level p) :
    ∃ parent, s2.page q = withParent (s.page q) parent := by
  rcases h.halves.pages h.lt with ⟨-, -, -, -, -, -, hpage⟩
  rcases h.below (q := q) (by omega) ((h.level_old hq).le.trans hle) with ⟨parent, hpage2⟩
  refine ⟨parent, ?_⟩
  rw [hpage2, hpage q hq hqp]
  rfl

/-- A page on the level of `p` or above is above it, or has been there before. -/
theorem Promoting.above (h : Promoting Q level level2 s s2 p left right ps1 ps2)
    (hq : q < s2.pages.length) (hle : level p ≤ level2 q) (hqN : q ≠ s.pages.length) :
    level p + 1 ≤ level2 q ∨ q < s.pages.length ∧ level q = level p := by
  by_cases hup : level p + 1 ≤ level2 q
  · exact Or.inl hup
  · right
    have hlen := (h.halves.pages h.lt).1
    have hq1 : q < (splitState s p left right).pages.length := by
      by_contra hge
      exact hup (h.advanced.new_level q hq (Nat.le_of_not_lt hge))
    have hq' : q < s.pages.length := by omega
    have hlevel := h.level_old hq'
    exact ⟨hq', by omega⟩

theorem Promoting.child_lt (h : Promoting Q level level2 s s2 p left right ps1 ps2)
    (hc : c ∈ ps1 ++ ps2) : c < s.pages.length := by
  rcases List.mem_append.1 hc with hc | hc
  · exact (h.halves.live1 c hc).1
  · exact (h.halves.live2 c hc).1

theorem Promoting.child_parent (h : Promoting Q level level2 s s2 p left right ps1 ps2)
    (hc : c ∈ ps1 ++ ps2) : (s2.page c).parentElement ≠ none := by
  rcases h.halves.pages h.lt with ⟨hlen, -, -, -, -, -, hpage⟩
  have hcN := h.child_lt hc
  have hcp : c ≠ p := by
    rintro rfl
    exact lt_irrefl _ (h.low c hc)
  apply h.advanced.parent c (by omega)
  rw [hpage c hcN hcp]
  change (if c ∈ ps2 then some s.pages.length else if c ∈ ps1 then some p
    else (s.page c).parentElement) ≠ none
  rcases List.mem_append.1 hc with hc1 | hc2
  · rw [if_pos hc1]
    split_ifs <;> exact Option.some_ne_none _
  · rw [if_pos hc2]
    exact Option.some_ne_none _

theorem Promoting.parent (h : Promoting Q level level2 s s2 p left right ps1 ps2)
    (hq : q < s.pages.length) (hne : (s.page q).parentElement ≠ none) :
    (s2.page q).parentElement ≠ none := by
  rcases h.halves.pages h.lt with ⟨hlen, -, -, -, hleft, -, hpage⟩
  by_cases hchild : q ∈ ps1 ++ ps2
  · exact h.child_parent hchild
  · apply h.advanced.parent q (by omega)
    by_cases hqp : q = p
    · rw [hqp, hleft, h.halves.parentElement]
      exact hqp ▸ hne
    · rw [List.mem_append, not_or] at hchild
      rw [hpage q hq hqp, if_neg hchild.2, if_neg hchild.1]
      exact hne

/-- What was in memory still is, or waits for its parent to be written. -/
theorem Promoting.loaded (h : Promoting Q level level2 s s2 p left right ps1 ps2)
    (hload : Loaded level (level p) s)
    (hload2 : Loaded (levelWith level s.pages.length (level p)) (level p + 1)
      (splitState s p left right) → ∀ q < s2.pages.length, level p + 1 ≤ level2 q →
        (s2.page q).isLoaded = true ∨ AwaitsParent s2 p s.pages.length q)
    (hq : q < s2.pages.length) (hle : level p ≤ level2 q) (hqN : q ≠ s.pages.length)
    (hqp : q ≠ p) : (s2.page q).isLoaded = true ∨ AwaitsParent s2 p s.pages.length q := by
  rcases h.halves.pages h.lt with ⟨hlen, -, -, -, -, -, hpage⟩
  rcases h.above hq hle hqN with hup | ⟨hq', hsame⟩
  · apply hload2 _ q hq hup
    intro q hq hup
    rw [hlen] at hq
    have hqN : q ≠ s.pages.length := by
      intro hqN
      rw [hqN, levelWith, Function.update_self] at hup
      omega
    have hq' : q < s.pages.length := by omega
    rw [levelWith_of_lt hq'] at hup
    have hqp : q ≠ p := by
      intro hqp
      rw [hqp] at hup
      omega
    rw [hpage q hq' hqp]
    exact hload q hq' (by omega)
  · left
    rcases h.kept hq' hqp hsame.le with ⟨parent, hpage2⟩
    rw [hpage2]
    exact hload q hq' hsame.ge

/-! ### The new page changes once more -/

variable {f : IndexPage → IndexPage} {A es2 : List Index}

theorem Settles.setPage_parent (hf : Settles f right es2 ps2) {N : ℕ} (hN : N < s2.pages.length)
    (q : ℕ) :
    ((s2.setPage N (f (s2.page N))).page q).parentElement = (s2.page q).parentElement := by
  by_cases hqN : q = N
  · rw [hqN, page_setPage_self hN, hf.parentElement]
  · rw [page_setPage_of_ne hqN]

theorem Promoting.layered (h : Promoting Q level level2 s s2 p left right ps1 ps2)
    (hf : Settles f right es2 ps2) :
    Layered level2 (s2.setPage s.pages.length (f (s2.page s.pages.length))) := by
  have hlen := h.pages_le
  apply h.advanced.standing.layered.setPage ⟨hf.bufferIndex _, hf.bufferPos _⟩ (hf.parentElement _)
  intro c hc
  rcases h.right_page with ⟨parent, hpage⟩
  rw [hpage] at hc
  have hc2 : c ∈ ps1 ++ ps2 := List.mem_append_right _ ((hf.shape parent).pointsTo.mem_pointers hc)
  have hcN := h.child_lt hc2
  refine ⟨by omega, ?_⟩
  rw [h.level_old hcN, h.level_new]
  exact h.low c hc2

theorem Promoting.placed (h : Promoting Q level level2 s s2 p left right ps1 ps2)
    (hf : Settles f right es2 ps2) :
    (s2.setPage s.pages.length (f (s2.page s.pages.length))).Placed := by
  have hlen := h.pages_le
  refine h.advanced.standing.placed.of_sameManager (fun q hq => Or.inr ?_) rfl rfl
  rw [setPage_length] at hq
  refine ⟨hq, ?_⟩
  by_cases hqN : q = s.pages.length
  · rw [hqN, page_setPage_self (by omega)]
    exact ⟨hf.bufferIndex _, hf.bufferPos _⟩
  · rw [page_setPage_of_ne hqN]
    exact ⟨rfl, rfl⟩

theorem Promoting.standing (h : Promoting Q level level2 s s2 p left right ps1 ps2)
    (hs : Standing Q level (level p) s) (hleft : left.Shape A ps1) (hA : ∀ a ∈ A, Q a)
    (hps1 : ps1 = [] ↔ level p = 0) (hf : Settles f right es2 ps2) (hes2 : ∀ a ∈ es2, Q a)
    (hps2 : ps2 = [] ↔ level p = 0) : Standing Q level2 (level p)
      (s2.setPage s.pages.length (f (s2.page s.pages.length))) := by
  have hlen := h.pages_le
  have hlt := h.lt
  refine ⟨h.layered hf, h.placed hf, fun q hq => ?_, fun q hq hle => ?_⟩
  · rw [setPage_length] at hq ⊢
    exact h.advanced.standing.height q hq
  · rw [setPage_length] at hq
    by_cases hqN : q = s.pages.length
    · rcases h.right_page with ⟨parent, hpage⟩
      rw [hqN, page_setPage_self (by omega), h.level_new, hpage]
      refine ⟨es2, ps2, ⟨hf.shape parent, ?_, ?_⟩, hes2, hps2⟩
      · rw [hf.leftSibling]
        exact h.halves.new_leftSibling
      · rw [hf.rightSibling]
        exact h.halves.new_rightSibling
    · rw [page_setPage_of_ne hqN]
      by_cases hqp : q = p
      · rcases h.left_page with ⟨parent, hpage⟩
        rw [hqp, hpage, h.level_old hlt]
        exact Formed.withParent
          ⟨A, ps1, ⟨hleft, h.halves.leftSibling, h.halves.rightSibling⟩, hA, hps1⟩ parent
      · rcases h.above hq hle hqN with hup | ⟨hq', hsame⟩
        · exact h.advanced.standing.formed q hq hup
        · rcases h.kept hq' hqp hsame.le with ⟨parent, hpage⟩
          rw [hpage, h.level_old hq']
          exact (hs.formed q hq' hsame.ge).withParent parent

theorem Promoting.settled (h : Promoting Q level level2 s s2 p left right ps1 ps2)
    (hs : Standing Q level (level p) s) (hleft : left.Shape A ps1) (hA : ∀ a ∈ A, Q a)
    (hps1 : ps1 = [] ↔ level p = 0) (hf : Settles f right es2 ps2) (hes2 : ∀ a ∈ es2, Q a)
    (hps2 : ps2 = [] ↔ level p = 0) : Advanced Q level level2 (level p) s
      (s2.setPage s.pages.length (f (s2.page s.pages.length))) where
  standing := h.standing hs hleft hA hps1 hf hes2 hps2
  pages_le := by
    rw [setPage_length]
    exact (Nat.le_succ _).trans h.pages_le
  level_eq _ hq := h.level_old hq
  new_level q hq hnew := by
    rw [setPage_length] at hq
    by_cases hqN : q = s.pages.length
    · rw [hqN, h.level_new]
    · have hlen := (h.halves.pages h.lt).1
      exact (Nat.le_succ _).trans (h.advanced.new_level q hq (by omega))
  below q hq hlow := by
    have hqp : q ≠ p := by
      rintro rfl
      exact lt_irrefl _ hlow
    rw [page_setPage_of_ne hq.ne]
    exact h.kept hq hqp hlow.le
  parent q hq hne := by
    rw [hf.setPage_parent h.pages_le]
    exact h.parent hq hne

end promoting

/-- A split: promotion, what becomes of the new page then, and the writes. -/
theorem split_progress {add : AddElement} {fuel : ℕ} {left right : IndexPage} {ps1 ps2 : List ℕ}
    {A es2 : List Index} {m : Index} {f : IndexPage → IndexPage} (hadd : Progresses Q add fuel)
    (h : Standing Q level (level p) s) (hm : Q m) (hp : p < s.pages.length)
    (hfuel : ∀ q < s.pages.length, level q < level p + (fuel + 1))
    (hh : Halves s p left right ps1 ps2) (hlow : ∀ c ∈ ps1 ++ ps2, level c < level p)
    (hleft : left.Shape A ps1) (hA : ∀ a ∈ A, Q a) (hps1 : ps1 = [] ↔ level p = 0)
    (hf : Settles f right es2 ps2) (hes2 : ∀ a ∈ es2, Q a) (hps2 : ps2 = [] ↔ level p = 0) :
    ∃ s2 s' level', promote add (splitState s p left right) p m s.pages.length =
        some s2 ∧
      (s2.setPage s.pages.length (f (s2.page s.pages.length))).finishSplit p s.pages.length =
        some s' ∧ Advanced Q level level' (level p) s s' ∧
        (Loaded level (level p) s → Loaded level' (level p) s') ∧
          ∀ c ∈ ps1 ++ ps2, (s'.page c).parentElement ≠ none := by
  have hlen := (hh.pages hp).1
  obtain ⟨level1, hlevel1⟩ : ∃ level1, level1 = levelWith level s.pages.length (level p) := ⟨_, rfl⟩
  have hp1 : level1 p = level p := by rw [hlevel1, levelWith_of_lt hp]
  have hN1 : level1 s.pages.length = level p := by
    rw [hlevel1, levelWith, Function.update_self]
  -- promotion
  have hfuel1 : ∀ q < (splitState s p left right).pages.length,
      level1 q < level1 p + (fuel + 1) := by
    intro q hq
    rw [hp1]
    by_cases hqN : q = s.pages.length
    · rw [hqN, hN1]
      omega
    · have hq' : q < s.pages.length := by omega
      rw [hlevel1, levelWith_of_lt hq']
      exact hfuel q hq'
  have hstand1 : Standing Q level1 (level1 p + 1) (splitState s p left right) := by
    rw [hp1, hlevel1]
    exact h.halves hp hh hlow
  rcases promote_progress (r := s.pages.length) hadd hstand1 hm (by omega) (by omega) hp.ne
    (hN1.trans hp1.symm) hfuel1 with ⟨s2, level2, hs2, h2, hpp2, hrp2, hload2⟩
  rw [hp1, hlevel1] at h2 hload2
  have hpromoting : Promoting Q level level2 s s2 p left right ps1 ps2 := ⟨hp, hh, hlow, h2⟩
  have hlen2 := hpromoting.pages_le
  -- the new page and the writes
  obtain ⟨s3, hs3⟩ : ∃ s3, s3 = s2.setPage s.pages.length (f (s2.page s.pages.length)) := ⟨_, rfl⟩
  have h3 : Advanced Q level level2 (level p) s s3 := by
    rw [hs3]
    exact hpromoting.settled h hleft hA hps1 hf hes2 hps2
  have hlen3 : s3.pages.length = s2.pages.length := by rw [hs3, setPage_length]
  have hparent3 : ∀ q, (s3.page q).parentElement = (s2.page q).parentElement := by
    intro q
    rw [hs3]
    exact hf.setPage_parent hlen2 q
  have hp2 := hpromoting.level_old hp
  have hr2 := hpromoting.level_new
  rcases h3.standing.finishSplit (p := p) (r := s.pages.length) (by omega) (by omega) (by omega)
    hp2.ge (by rw [hparent3]; exact hpp2) (by rw [hparent3]; exact hrp2)
    with ⟨s', hs', h4, hlen4, hload4⟩
  refine ⟨s2, s', level2, hs2, hs3 ▸ hs', h3.trans h4, fun hload q hq hle => hload4 q ?_,
    fun c hc => ?_⟩
  · by_cases hqN : q = s.pages.length
    · exact Or.inr (Or.inr (Or.inl hqN))
    by_cases hqp : q = p
    · exact Or.inr (Or.inl hqp)
    rcases hpromoting.loaded hload hload2 (by omega) hle hqN hqp with hl | ⟨hpq, hrq⟩
    · left
      rw [hs3, page_setPage_of_ne hqN]
      exact hl
    · refine Or.inr (Or.inr (Or.inr ⟨?_, ?_⟩))
      · rw [hparent3]
        exact hpq
      · rw [hparent3]
        exact hrq
  · have hcN := hpromoting.child_lt hc
    apply h4.parent c (by omega)
    rw [hparent3]
    exact hpromoting.child_parent hc

/-- The entries of a page on both sides of the place of a new one. -/
theorem exists_place (es : List Index) (e : Index) :
    ∃ A B, es = A ++ B ∧ A.length = slot Index.rank e.rank es := by
  have hle := slot_le Index.rank e.rank es
  refine ⟨es.take (slot Index.rank e.rank es), es.drop (slot Index.rank e.rank es),
    (List.take_append_drop _ _).symm, ?_⟩
  rw [List.length_take]
  omega

theorem forall_mem_insert {A B : List Index} {e : Index} (hQ : ∀ a ∈ A ++ B, Q a) (he : Q e) :
    ∀ a ∈ A ++ e :: B, Q a := by
  intro a ha
  rcases List.mem_append.1 ha with ha | ha
  · exact hQ a (List.mem_append_left _ ha)
  · rcases List.mem_cons.1 ha with rfl | ha
    · exact he
    · exact hQ a (List.mem_append_right _ ha)

/-- An inner page has a child at the place of a new entry. -/
theorem exists_child_place {A B : List Index} {ps : List ℕ} (h : ps.length = (A ++ B).length + 1) :
    ∃ PA c PB, ps = PA ++ c :: PB ∧ PA.length = A.length := by
  rw [List.length_append] at h
  have hlt : A.length < ps.length := by omega
  refine ⟨ps.take A.length, ps[A.length], ps.drop (A.length + 1), ?_, ?_⟩
  · rw [← List.drop_eq_getElem_cons hlt, List.take_append_drop]
  · rw [List.length_take]
    omega

/-- A page with room after an insertion, with the new child among its children. -/
theorem insertAt_formed {es : List Index} {ps : List ℕ} {e : Index} {right : Option ℕ}
    (hholds : Holds page es ps) (hQ : ∀ a ∈ es, Q a) (he : Q e) (hps : ps = [] ↔ n = 0)
    (hroom : es.length < BUCKET_MAX_ELEMENTS) (hinner : right = none ↔ n = 0) :
    ∃ es' ps', Holds (page.insertAt (page.findInsertPosition e) e right) es' ps' ∧
      (∀ a ∈ es', Q a) ∧ (ps' = [] ↔ n = 0) ∧ ∀ r, right = some r → r ∈ ps' := by
  rcases exists_place es e with ⟨A, B, rfl, hA⟩
  have hpos : page.findInsertPosition e = A.length := by
    rw [hholds.shape.findInsertPosition_eq, hA]
  rw [hpos]
  cases right with
  | none =>
    have hnil := hps.2 (hinner.1 rfl)
    subst hnil
    refine ⟨A ++ e :: B, [], ⟨hholds.shape.insertAt_leaf hroom, hholds.leftSibling,
      hholds.rightSibling⟩, forall_mem_insert hQ he, hps, fun r hr => ?_⟩
    cases hr
  | some r =>
    have hn : n ≠ 0 := fun h0 => Option.some_ne_none r (hinner.2 h0)
    have hlen := hholds.shape.children.resolve_left fun hnil => hn (hps.1 hnil)
    rcases exists_child_place hlen with ⟨PA, c, PB, rfl, hPA⟩
    refine ⟨A ++ e :: B, PA ++ c :: r :: PB, ⟨hholds.shape.insertAt_inner hPA hroom,
      hholds.leftSibling, hholds.rightSibling⟩, forall_mem_insert hQ he, ?_, fun r' hr' => ?_⟩
    · exact iff_of_false (List.append_ne_nil_of_right_ne_nil _ (List.cons_ne_nil _ _)) hn
    · cases hr'
      simp

/-- The branch for a page with room: the page itself, and the parent of the new child. -/
theorem insertElement_progress {es : List Index} {ps : List ℕ} {e : Index} {right : Option ℕ}
    (h : Standing Q level (level p) s) (he : Q e) (hp : p < s.pages.length)
    (hholds : Holds (s.page p) es ps) (hQ : ∀ a ∈ es, Q a) (hps : ps = [] ↔ level p = 0)
    (hroom : es.length < BUCKET_MAX_ELEMENTS) (hinner : right = none ↔ level p = 0)
    (hright : ∀ r, right = some r → r < s.pages.length ∧ level r < level p) :
    ∃ s', (s.insertElement p e right).persistPage p = some s' ∧
      Advanced Q level level (level p) s s' ∧
        (Loaded level (level p) s → Loaded level (level p) s') ∧
          ∀ r, right = some r → (s'.page r).parentElement ≠ none := by
  obtain ⟨pg, hpg⟩ : ∃ pg, pg = (s.page p).insertAt ((s.page p).findInsertPosition e) e right :=
    ⟨_, rfl⟩
  rcases insertAt_formed hholds hQ he hps hroom hinner with ⟨es', ps', hholds', hQ', hps', hmem⟩
  rw [← hpg] at hholds'
  have hpointer : ∀ c, some c ∈ pg.pointers → c < s.pages.length ∧ level c < level p := by
    intro c hc
    rw [hpg] at hc
    rcases IndexPage.mem_insertAt hc with hc | hc
    · exact h.layered.pointer p c hc
    · exact hright c hc
  have hplace : pg.bufferIndex = (s.page p).bufferIndex ∧ pg.bufferPos = (s.page p).bufferPos := by
    rw [hpg]
    exact ⟨rfl, rfl⟩
  have hparent : pg.parentElement = (s.page p).parentElement := by
    rw [hpg]
    rfl
  have h1 := h.setPage hp (le_refl _) hplace hparent hpointer ⟨es', ps', hholds', hQ', hps'⟩
  have hlen1 : (s.setPage p pg).pages.length = s.pages.length := setPage_length
  have hload1 : ∀ q, ((s.setPage p pg).page q).isLoaded = (s.page q).isLoaded := by
    intro q
    by_cases hq : q = p
    · rw [hq, page_setPage_self hp, hpg]
      rfl
    · rw [page_setPage_of_ne hq]
  -- the parent of the new child
  obtain ⟨s2, hs2⟩ : ∃ s2, s2 = s.insertElement p e right := ⟨_, rfl⟩
  have h2 : Advanced Q level level (level p) (s.setPage p pg) s2 ∧
      s2.pages.length = s.pages.length ∧ (∀ q, (s2.page q).isLoaded = (s.page q).isLoaded) ∧
        ∀ r, right = some r → (s2.page r).parentElement = some p := by
    cases hr : right with
    | none =>
      have heq : s2 = s.setPage p pg := by
        rw [hs2, hpg, hr]
        rfl
      rw [heq]
      refine ⟨Advanced.refl h1.standing, hlen1, hload1, fun r hr => ?_⟩
      cases hr
    | some r =>
      have heq : s2 = (s.setPage p pg).setParent r (some p) := by
        rw [hs2, hpg, hr]
        rfl
      have hchild : some r ∈ ((s.setPage p pg).page p).pointers := by
        rw [page_setPage_self hp, hholds'.shape.pointers]
        exact List.mem_append_left _ (List.mem_map_of_mem (hmem r hr))
      have hrel : Relinked p (s.setPage p pg) s2 := by
        rw [heq]
        exact Relinked.setParent ⟨rfl, rfl, rfl, fun _ => Or.inl rfl⟩ hchild
      refine ⟨hrel.advanced h1.standing (hlen1.symm ▸ hp) (by rw [heq]; rfl),
        hrel.length.trans hlen1, fun q => (hrel.links q).2.2.2.2.trans (hload1 q), fun r' hr' => ?_⟩
      cases hr'
      rw [heq, page_setParent (hlen1.symm ▸ (hright r hr).1), if_pos rfl]
      rfl
  rcases h2 with ⟨h2, hlen2, hload2, hparent2⟩
  rcases h2.standing.persistPage (hlen2.symm ▸ hp) (le_refl _) with ⟨i, s', hs', hw, h3⟩
  refine ⟨s', hs2 ▸ hs', (h1.trans h2).trans h3, fun hload q hq hle => ?_, fun r hr => ?_⟩
  · rw [hw.length, hlen2] at hq
    apply hw.isLoaded
    right
    rw [hload2]
    exact hload q hq hle
  · rw [hw.parentElement, hparent2 r hr]
    exact Option.some_ne_none p

theorem splitAddLeaf_progress {add : AddElement} {fuel : ℕ} {es : List Index} {e : Index}
    (hadd : Progresses Q add fuel) (h : Standing Q level (level p) s) (he : Q e)
    (hp : p < s.pages.length) (hholds : Holds (s.page p) es []) (hQ : ∀ a ∈ es, Q a)
    (h0 : level p = 0) (hfull : es.length = BUCKET_MAX_ELEMENTS)
    (hfuel : ∀ q < s.pages.length, level q < level p + (fuel + 1)) :
    ∃ s' level', splitAddLeaf add s p e = some s' ∧ Advanced Q level level' (level p) s s' ∧
      (Loaded level (level p) s → Loaded level' (level p) s') := by
  rcases exists_place es e with ⟨A, B, rfl, hA⟩
  rcases exists_cut_overfull (X := A ++ e :: B) (by
    rw [← hfull]
    simp
    omega) with ⟨X1, m, X2, hX, hX1, hX2⟩
  have hQX : ∀ a ∈ X1 ++ m :: X2, Q a := by
    rw [← hX]
    exact forall_mem_insert hQ he
  obtain ⟨left, hleft⟩ : ∃ left, left = (s.page p).keepElements ((X1 ++ m :: X2).map some) :=
    ⟨_, rfl⟩
  obtain ⟨right, hright⟩ : ∃ right, right = IndexPage.new.takeElements ((X1 ++ m :: X2).map some) :=
    ⟨_, rfl⟩
  rcases hholds.shape.keep_leaf (B := m :: X2) hX1 with ⟨hclean, hkeep⟩
  rw [← hleft] at hclean hkeep
  have htake : right.Shape (m :: X2) [] := hright ▸ IndexPage.take_leaf hX1 (by simp [hX2])
  have hhalves : Halves s p left right [] [] := by
    rw [hleft, hright]
    exact ⟨hleft ▸ hkeep.pointsTo, hright ▸ htake.pointsTo, by simp, by simp, rfl,
      hholds.leftSibling, hholds.rightSibling, rfl, rfl, rfl, rfl, rfl, rfl, rfl⟩
  have hnil : ([] : List ℕ) = [] ↔ level p = 0 := iff_of_true rfl h0
  rcases split_progress hadd h (hQX m (by simp)) hp hfuel hhalves (by simp) hkeep
    (fun a ha => hQX a (List.mem_append_left _ ha)) hnil (settles_id htake)
    (fun a ha => hQX a (List.mem_append_right _ ha)) hnil with ⟨s2, s', level', hs2, hs', ha, hload, -⟩
  refine ⟨s', level', ?_, ha, hload⟩
  have hstate : (((s.setPage p left).newPage right).refreshParentRelationship
      p).refreshParentRelationship s.pages.length = splitState s p left right := rfl
  have helem : ((splitState s p left right).page s.pages.length).element 0 = some m := by
    rcases hhalves.pages hp with ⟨-, -, -, -, -, hpageR, -⟩
    rw [hpageR, htake.element_eq]
    rfl
  have htmp : (s.page p).tmpelements e = (X1 ++ m :: X2).map some := by
    rw [hholds.shape.tmpelements_eq hfull hA, hX]
  rw [id, setPage_page_self] at hs'
  simp only [splitAddLeaf, htmp, ← hleft, ← hright, hclean, hstate, helem, hs2, hs',
    Option.bind_eq_bind, Option.bind_some]

theorem splitAddInner_progress {add : AddElement} {fuel r : ℕ} {es : List Index} {ps : List ℕ}
    {e : Index} (hadd : Progresses Q add fuel) (h : Standing Q level (level p) s) (he : Q e)
    (hp : p < s.pages.length) (hholds : Holds (s.page p) es ps) (hQ : ∀ a ∈ es, Q a)
    (h0 : level p ≠ 0) (hps : ps ≠ []) (hfull : es.length = BUCKET_MAX_ELEMENTS)
    (hfuel : ∀ q < s.pages.length, level q < level p + (fuel + 1)) (hr : r < s.pages.length)
    (hrlevel : level r < level p) :
    ∃ s' level', splitAddInner add s p e (some r) = some s' ∧
      Advanced Q level level' (level p) s s' ∧
        (Loaded level (level p) s → Loaded level' (level p) s') ∧
          (s'.page r).parentElement ≠ none := by
  rcases exists_place es e with ⟨A, B, rfl, hA⟩
  have hlen := hholds.shape.children.resolve_left hps
  rcases exists_child_place hlen with ⟨PA, c, PB, rfl, hPA⟩
  rcases exists_cut_overfull (X := A ++ e :: B) (by
    rw [← hfull]
    simp
    omega) with ⟨X1, m, X2, hX, hX1, hX2⟩
  have hQX : ∀ a ∈ X1 ++ m :: X2, Q a := by
    rw [← hX]
    exact forall_mem_insert hQ he
  have hYlen : (PA ++ c :: r :: PB).length = 7 := by
    rw [hfull] at hlen
    simp only [List.length_append, List.length_cons, BUCKET_MAX_ELEMENTS] at hlen ⊢
    omega
  obtain ⟨Y1, Y2, hY, hY1, hY2⟩ : ∃ Y1 Y2, PA ++ c :: r :: PB = Y1 ++ Y2 ∧ Y1.length = 4 ∧
      Y2.length = 3 := by
    refine ⟨(PA ++ c :: r :: PB).take 4, (PA ++ c :: r :: PB).drop 4,
      (List.take_append_drop 4 _).symm, ?_, ?_⟩
    · rw [List.length_take, hYlen]
      rfl
    · rw [List.length_drop, hYlen]
  obtain ⟨left, hleft⟩ : ∃ left, left = ((s.page p).keepElements
      ((X1 ++ m :: X2).map some)).keepPointers ((Y1 ++ Y2).map some) := ⟨_, rfl⟩
  obtain ⟨right, hright⟩ : ∃ right, right = (IndexPage.new.takeElements
      ((X1 ++ m :: X2).map some)).takePointers ((Y1 ++ Y2).map some) := ⟨_, rfl⟩
  rcases hholds.shape.keep_inner (B := m :: X2) (D := Y2) hX1 hY1 with ⟨hclean, hkeep⟩
  rw [← hleft] at hclean hkeep
  have htake : right.Unshifted m X2 Y2 := hright ▸ IndexPage.take_inner hX1 hX2 hY1 hY2
  -- the children of both halves are on levels below
  have hlow : ∀ d ∈ Y1 ++ Y2, d < s.pages.length ∧ level d < level p := by
    intro d hd
    rw [← hY] at hd
    by_cases hdr : d = r
    · rw [hdr]
      exact ⟨hr, hrlevel⟩
    · apply h.layered.pointer p d
      rw [hholds.shape.pointers]
      apply List.mem_append_left
      apply List.mem_map_of_mem
      simp only [List.mem_append, List.mem_cons] at hd ⊢
      tauto
  have hne : ∀ d ∈ Y1 ++ Y2, d < s.pages.length ∧ d ≠ p := by
    intro d hd
    rcases hlow d hd with ⟨hlt, hlevel⟩
    refine ⟨hlt, ?_⟩
    rintro rfl
    exact lt_irrefl _ hlevel
  have hhalves : Halves s p left right Y1 Y2 := by
    rw [hleft, hright]
    exact ⟨hleft ▸ hkeep.pointsTo, hright ▸ htake.pointsTo,
      fun d hd => hne d (List.mem_append_left _ hd), fun d hd => hne d (List.mem_append_right _ hd),
      rfl, hholds.leftSibling, hholds.rightSibling, rfl, rfl, rfl, rfl, rfl, rfl, rfl⟩
  have hnil1 : Y1 = [] ↔ level p = 0 := iff_of_false (List.ne_nil_of_length_pos (by omega)) h0
  have hnil2 : Y2 = [] ↔ level p = 0 := iff_of_false (List.ne_nil_of_length_pos (by omega)) h0
  rcases split_progress hadd h (hQX m (by simp)) hp hfuel hhalves (fun d hd => (hlow d hd).2) hkeep
    (fun a ha => hQX a (List.mem_append_left _ ha)) hnil1 (settles_dropFirst htake)
    (fun a ha => hQX a (List.mem_append_right _ (List.mem_cons_of_mem _ ha))) hnil2
    with ⟨s2, s', level', hs2, hs', ha, hload, hparents⟩
  refine ⟨s', level', ?_, ha, hload, hparents r ?_⟩
  · have hstate : (((s.setPage p left).newPage right).refreshParentRelationship
        p).refreshParentRelationship s.pages.length = splitState s p left right := rfl
    have helem : ((splitState s p left right).page s.pages.length).element 0 = some m := by
      rcases hhalves.pages hp with ⟨-, -, -, -, -, hpageR, -⟩
      rw [hpageR, IndexPage.element, htake.elements]
      rfl
    have htmp : (s.page p).tmpelements e = (X1 ++ m :: X2).map some := by
      rw [hholds.shape.tmpelements_eq hfull hA, hX]
    have htmp' : (s.page p).tmppointers e (some r) = (Y1 ++ Y2).map some := by
      rw [hholds.shape.tmppointers_eq hPA hfull hA, hY]
    simp only [splitAddInner, htmp, htmp', ← hleft, ← hright, hclean, hstate, helem, hs2, hs',
      Option.bind_eq_bind, Option.bind_some]
  · rw [← hY]
    simp

theorem addElement_progress (fuel : ℕ) : Progresses Q (addElement fuel) fuel := by
  induction fuel with
  | zero =>
    intro level s p e right _ _ hp hfuel
    exact absurd (hfuel p hp) (lt_irrefl _)
  | succ fuel ih =>
    intro level s p e right h he hp hfuel hinner hright
    rcases h.formed p hp (le_refl _) with ⟨es, ps, hholds, hQ, hps⟩
    unfold addElement
    rw [hholds.shape.isFull_eq]
    by_cases hroom : es.length < BUCKET_MAX_ELEMENTS
    · rw [decide_eq_false (by omega)]
      rcases insertElement_progress h he hp hholds hQ hps hroom hinner hright
        with ⟨s', hs', ha, hload, hparent⟩
      exact ⟨s', level, hs', ha, hload, hparent⟩
    · have hfull : es.length = BUCKET_MAX_ELEMENTS :=
        le_antisymm hholds.shape.le (Nat.le_of_not_lt hroom)
      rw [decide_eq_true hfull.ge, if_pos rfl, splitAdd, hholds.shape.isLeaf_eq]
      cases right with
      | none =>
        have h0 := hinner.1 rfl
        have hnil := hps.2 h0
        subst hnil
        rcases splitAddLeaf_progress ih h he hp hholds hQ h0 hfull hfuel
          with ⟨s', level', hs', ha, hload⟩
        refine ⟨s', level', hs', ha, hload, fun r hr => ?_⟩
        cases hr
      | some r =>
        have h0 : level p ≠ 0 := fun h0 => Option.some_ne_none r (hinner.2 h0)
        have hne : ps ≠ [] := fun hnil => h0 (hps.1 hnil)
        rcases hright r rfl with ⟨hr, hrlevel⟩
        rcases splitAddInner_progress ih h he hp hholds hQ h0 hne hfull hfuel hr hrlevel
          with ⟨s', level', hs', ha, hload, hparent⟩
        refine ⟨s', level', ?_, ha, hload, fun r' hr' => ?_⟩
        · rw [List.isEmpty_eq_false_iff.2 hne]
          exact hs'
        · cases hr'
          exact hparent

end formed

/-! ## The index -/

/-- Between two calls: every page is in memory and formed. -/
def Stands (Q : Index → Prop) (s : BPlusIndexP) : Prop :=
  ∃ level, Standing Q level 0 s ∧ Loaded level 0 s

section index
variable {Q Q' : Index → Prop} {level : ℕ → ℕ} {s : BPlusIndexP} {key : CString}

theorem Formed.mono {page : IndexPage} {n : ℕ} (h : Formed Q page n) (hQ : ∀ a, Q a → Q' a) :
    Formed Q' page n := by
  rcases h with ⟨es, ps, hholds, hes, hps⟩
  exact ⟨es, ps, hholds, fun a ha => hQ a (hes a ha), hps⟩

theorem Stands.mono (h : Stands Q s) (hQ : ∀ a, Q a → Q' a) : Stands Q' s := by
  rcases h with ⟨level, h, hload⟩
  exact ⟨level, ⟨h.layered, h.placed, h.height, fun q hq hn => (h.formed q hq hn).mono hQ⟩, hload⟩

/-- An index in order stands. -/
theorem Ready.stands {T : PageTree} (h : Ready s T) (hQ : ∀ q, T.live q → ∀ a ∈ T.entries q, Q a) :
    Stands Q s := by
  have hlive := h.represents.live
  have hroot := h.represents.height
  have hout : ∀ q, ¬ q < s.pages.length → s.page q = IndexPage.new :=
    fun q hq => page_of_le s (Nat.le_of_not_lt hq)
  refine ⟨T.level, ⟨⟨h.placed.wf, ?_, fun q => ?_, fun q P hP => ?_, fun q c hc => ?_⟩, h.placed,
    fun q hq => ?_, fun q hq _ => ?_⟩, fun q hq _ => h.loaded q ((hlive q).2 hq)⟩
  · rw [h.represents.head]
    exact (hlive _).1 h.inv.root
  · by_cases hq : q < s.pages.length
    · rcases h.placed.place q hq with hneg | ⟨i, -, hpos, -⟩
      · exact Or.inl hneg
      · exact Or.inr hpos
    · rw [hout q hq]
      exact Or.inl rfl
  · have hq : q < s.pages.length := by
      by_contra hge
      rw [hout q hge] at hP
      cases hP
    rw [h.represents.parent q ((hlive q).2 hq)] at hP
    rcases h.inv.parent_live ((hlive q).2 hq) (by simp) hP with ⟨hPlive, -, hlevel⟩
    exact ⟨(hlive P).1 hPlive, by omega⟩
  · have hq : q < s.pages.length := by
      by_contra hge
      rw [hout q hge] at hc
      exact IndexPage.not_mem_new hc
    have hmem := (h.shape ((hlive q).2 hq)).pointsTo.mem_pointers hc
    rcases h.inv.child q ((hlive q).2 hq) c hmem with ⟨hclive, -, hlevel⟩
    exact ⟨(hlive c).1 hclive, by omega⟩
  · exact (h.inv.level_le q ((hlive q).2 hq)).trans_lt hroot
  · have hq' := (hlive q).2 hq
    refine ⟨T.entries q, T.children q, h.represents.holds hq' (Nat.zero_le _), hQ q hq', ?_⟩
    rw [← h.isLeaf_iff hq', (h.shape hq').isLeaf_eq, List.isEmpty_iff]

theorem Standing.visit (hload : Loaded level 0 s) {q : ℕ} (hq : q < s.pages.length) :
    s.visit q = some s := if_pos (hload q hq (Nat.zero_le _))

theorem findIndexPage_progress (h : Standing Q level 0 s) (hload : Loaded level 0 s)
    (key : CString) {fuel start : ℕ} (hstart : start < s.pages.length) (hfuel : level start < fuel) :
    ∃ q, findIndexPage fuel s start key = some (s, q) ∧ q < s.pages.length ∧ level q = 0 := by
  induction fuel generalizing start with
  | zero => omega
  | succ fuel ih =>
    rcases h.formed start hstart (Nat.zero_le _) with ⟨es, ps, hholds, -, hps⟩
    have hshape := hholds.shape
    unfold findIndexPage
    rw [Standing.visit hload hstart, Option.bind_eq_bind, Option.bind_some]
    dsimp only
    rw [hshape.isLeaf_eq]
    by_cases h0 : level start = 0
    · rw [hps.2 h0]
      exact ⟨start, rfl, hstart, h0⟩
    · have hne : ps ≠ [] := fun hnil => h0 (hps.1 hnil)
      rw [List.isEmpty_eq_false_iff.2 hne, scan_lt hshape]
      have hlt : slot Index.rank key.rank es < ps.length := by
        have hle := slot_le Index.rank key.rank es
        have hlen := hshape.children.resolve_left hne
        omega
      have hchild : (s.page start).pointer (slot Index.rank key.rank es) =
          some ps[slot Index.rank key.rank es] := by
        rw [hshape.pointer_eq, List.getElem?_eq_getElem hlt]
      rcases h.layered.pointer start _ (IndexPage.mem_pointers hchild) with ⟨hc, hlevel⟩
      rcases ih hc (by omega) with ⟨q, hq, hrest⟩
      refine ⟨q, ?_, hrest⟩
      rw [Option.bind_eq_bind, Option.bind_some, hchild]
      exact hq

/-- A place that `findIndex` returns is that of an entry with the key. -/
theorem findIndex_progress (h : Standing Q level 0 s) (hload : Loaded level 0 s) (key : CString)
    {fuel start : ℕ} (hstart : start < s.pages.length) (hfuel : level start < fuel) :
    ∃ r, findIndex fuel s start key = some (s, r) ∧ ∀ p x, r = some (p, x) →
      p < s.pages.length ∧ ∃ e, (s.page p).element x = some e ∧ e.key = key := by
  induction fuel generalizing start with
  | zero => omega
  | succ fuel ih =>
    rcases h.formed start hstart (Nat.zero_le _) with ⟨es, ps, hholds, -, hps⟩
    have hshape := hholds.shape
    unfold findIndex
    rw [Standing.visit hload hstart, Option.bind_eq_bind, Option.bind_some]
    dsimp only
    rw [scan_le hshape, Option.bind_eq_bind, Option.bind_some]
    generalize es.findIdx (fun e => decide (e.rank ≤ key.rank)) = x
    by_cases hfound : x < (s.page start).size ∧ ((s.page start).element x).any
        (fun current => djCompare current.key.bytes key.bytes = .eq) = true
    · rw [if_pos hfound]
      refine ⟨_, rfl, fun p y hr => ?_⟩
      cases hr
      rcases (Option.any_eq_true _ _).1 hfound.2 with ⟨e, he, hkey⟩
      exact ⟨hstart, e, he, (CString.compare_eq_iff _ _).1 (of_decide_eq_true hkey)⟩
    · rw [if_neg hfound]
      cases hx : (s.page start).pointer x with
      | none =>
        refine ⟨none, rfl, fun p y hr => ?_⟩
        cases hr
      | some c =>
        rcases h.layered.pointer start c (IndexPage.mem_pointers hx) with ⟨hc, hlevel⟩
        exact ih hc (by omega)

theorem Standing.lt_fuel (h : Standing Q level 0 s) {q : ℕ} (hq : q < s.pages.length) :
    level q < s.fuel := (h.height q hq).trans_le (Nat.le_add_right _ _)

/-- An entry on a page is as `Q` says. -/
theorem Standing.entry (h : Standing Q level 0 s) {p x : ℕ} {e : Index} (hp : p < s.pages.length)
    (he : (s.page p).element x = some e) : Q e := by
  rcases h.formed p hp (Nat.zero_le _) with ⟨es, ps, hholds, hQ, -⟩
  rw [hholds.shape.element_eq] at he
  exact hQ e (List.mem_of_getElem? he)

/-- A search changes nothing. -/
theorem Stands.find (h : Stands Q s) (key : CString) : ∃ found, s.find key = some (s, found) ∧
    ∀ e, found = some e → e.key = key ∧ Q e := by
  rcases h with ⟨level, h, hload⟩
  rcases findIndex_progress h hload key h.layered.head (h.lt_fuel h.layered.head) with ⟨r, hr, hplace⟩
  refine ⟨s.entry r, ?_, fun e he => ?_⟩
  · rw [BPlusIndexP.find, hr]
    rfl
  · cases r with
    | none => cases he
    | some place =>
      rcases place with ⟨p, x⟩
      rcases hplace p x rfl with ⟨hp, e', he', hkey⟩
      cases he'.symm.trans he
      exact ⟨hkey, h.entry hp he'⟩

theorem Stands.add (h : Stands Q s) (key documentId : CString) (filePos : ℤ)
    (hQ : Q ⟨key, documentId, filePos, 0⟩) :
    ∃ s', s.add key documentId filePos = some s' ∧ Stands Q s' := by
  rcases h with ⟨level, h, hload⟩
  rcases findIndexPage_progress h hload key h.layered.head (h.lt_fuel h.layered.head)
    with ⟨p, hfind, hp, h0⟩
  have hfuel : ∀ q < s.pages.length, level q < level p + s.fuel := by
    intro q hq
    exact (h.lt_fuel hq).trans_le (Nat.le_add_left _ _)
  rcases addElement_progress s.fuel level s p _ none (h.mono (Nat.zero_le _)) hQ hp hfuel
    (iff_of_true rfl h0) (fun r hr => absurd hr.symm (Option.some_ne_none r)) with ⟨s', level', hs', ha, hload', -⟩
  rw [h0] at ha hload'
  refine ⟨s', ?_, level', ha.standing, hload' hload⟩
  unfold BPlusIndexP.add insertIndexElement
  rw [hfind]
  exact hs'

theorem Stands.update (h : Stands Q s) (key : CString) (filePos : ℤ)
    (hQ : ∀ a, a.key = key → Q a → Q { a with posData := filePos }) :
    ∃ s' found, s.update key filePos = some (s', found) ∧ Stands Q s' := by
  rcases h with ⟨level, h, hload⟩
  rcases findIndexPage_progress h hload key h.layered.head (h.lt_fuel h.layered.head)
    with ⟨leaf, hleaf, hlt, -⟩
  rcases findIndex_progress h hload key hlt (h.lt_fuel hlt) with ⟨r, hr, hplace⟩
  unfold BPlusIndexP.update
  rw [hleaf, Option.bind_eq_bind, Option.bind_some]
  dsimp only
  rw [hr, Option.bind_eq_bind, Option.bind_some]
  dsimp only
  cases r with
  | none => exact ⟨s, false, rfl, level, h, hload⟩
  | some place =>
    rcases place with ⟨p, x⟩
    rcases hplace p x rfl with ⟨hp, e, he, hkey⟩
    rcases h.formed p hp (Nat.zero_le _) with ⟨es, ps, hholds, hes, hps⟩
    have hx : es[x]? = some e := by
      rw [← hholds.shape.element_eq]
      exact he
    have hxlt := (List.getElem?_eq_some_iff.1 hx).1
    obtain ⟨e', he'⟩ : ∃ e' : Index, e' = { e with posData := filePos } := ⟨_, rfl⟩
    obtain ⟨pg, hpg⟩ : ∃ pg : IndexPage, pg =
        { s.page p with elements := (s.page p).elements.set x (some e') } := ⟨_, rfl⟩
    have hset : s.setPosData (p, x) filePos = s.setPage p pg := by
      rw [setPosData, he, hpg, he']
      rfl
    have hformed : Formed Q pg (level p) := by
      refine ⟨es.set x e', ps, ⟨?_, ?_, ?_⟩, fun a ha => ?_, hps⟩
      · rw [hpg]
        exact shape_set hholds.shape hxlt e'
      · rw [hpg]
        exact hholds.leftSibling
      · rw [hpg]
        exact hholds.rightSibling
      · rcases List.mem_or_eq_of_mem_set ha with hmem | rfl
        · exact hes a hmem
        · rw [he']
          exact hQ e hkey (hes e (List.mem_of_getElem? hx))
    have h1 : Advanced Q level level 0 s (s.setPage p pg) := by
      refine h.setPage hp (Nat.zero_le _) ?_ ?_ ?_ hformed
      · rw [hpg]
        exact ⟨rfl, rfl⟩
      · rw [hpg]
      · intro c hc
        rw [hpg] at hc
        exact h.layered.pointer p c hc
    have hlen : (s.setPage p pg).pages.length = s.pages.length := setPage_length
    have hload1 : ∀ q, ((s.setPage p pg).page q).isLoaded = (s.page q).isLoaded := by
      intro q
      by_cases hq : q = p
      · rw [hq, page_setPage_self hp, hpg]
      · rw [page_setPage_of_ne hq]
    rcases h1.standing.persistPage (hlen.symm ▸ hlt) (Nat.zero_le _) with ⟨i, s', hs', hw, h2⟩
    refine ⟨s', true, ?_, level, h2.standing, fun q hq hn => hw.isLoaded (Or.inr ?_)⟩
    · change ((s.setPosData (p, x) filePos).persistPage leaf).bind (fun s => some (s, true)) = _
      rw [hset, hs']
      rfl
    · rw [hw.length, hlen] at hq
      rw [hload1]
      exact hload q hq hn

end index

end BPlusIndexP
end Djondb
