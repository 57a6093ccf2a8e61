import Djondb.IndexPersist

set_option autoImplicit false

/-!
# Adding entries

`addElement` and the splits keep the tree that the pages represent in order, at every level of a
cascading split, and say which pages are left to be written.
-/
namespace Djondb
namespace BPlusIndexP
open SearchPage SearchTree

/-! ## The end of a split -/

/-- What `finishSplit` has done. -/
structure Finished (s : BPlusIndexP) (T : PageTree) (n : ℕ) (p r : ℕ) (s' : BPlusIndexP) :
    Prop where
  represents : Represents s' T n
  placed : s'.Placed
  keys : s'.keys = s.keys
  page_ne : ∀ q, q ≠ p → q ≠ r → T.parent p ≠ some q → s'.page q = s.page q
  loaded : ∀ q, q = p ∨ q = r ∨ T.parent p = some q ∨ (s.page q).isLoaded = true →
    (s'.page q).isLoaded = true
  content : ∀ q, T.live q → q ≠ p → q ≠ r → T.parent p ≠ some q → ∀ i : ℕ,
    (s.page q).bufferIndex = i → s'.bufferManager.content i = s.bufferManager.content i
  headSynced : (T.parent p ≠ some T.root → HeadSynced s) → HeadSynced s'
  synced : T.parent r = T.parent p →
    (∀ q, T.live q → n ≤ T.level q → q ≠ p → q ≠ r →
      ¬ (T.parent p = some q ∧ q = T.root) → Synced s q) →
    ∀ q, T.live q → n ≤ T.level q → Synced s' q

theorem Persisted.isLoaded {s s' : BPlusIndexP} {p q : ℕ} {i : ℕ} (h : Persisted s p i s')
    (hq : q = p ∨ (s.page q).isLoaded = true) : (s'.page q).isLoaded = true := by
  by_cases hqp : q = p
  · rw [hqp, h.page]
  · rw [h.page_ne q hqp]
    exact hq.resolve_left hqp

theorem finishSplit_spec {s : BPlusIndexP} {T : PageTree} {n : ℕ} {p r : ℕ}
    (hl : T.Links (none : Option (Split ℕ Rank))) (hr : Represents s T n) (hpl : s.Placed)
    (hp : T.live p) (hr' : T.live r) (hpn : n ≤ T.level p)
    (hlevel : T.level r = T.level p) (hproot : p ≠ T.root) (hrroot : r ≠ T.root) :
    ∃ s', s.finishSplit p r = some s' ∧ Finished s T n p r s' := by
  obtain ⟨P, hP, hpP, hpmem, hPl⟩ := hl.exists_parent hp hproot (by simp)
  obtain ⟨R, hR, hrR, hrmem, hRl⟩ := hl.exists_parent hr' hrroot (by simp)
  obtain ⟨i1, s1, hs1, h1⟩ := hpl.persistPage ((hr.live p).1 hp)
  have hr1 := h1.represents hr
  obtain ⟨i2, s2, hs2, h2⟩ := h1.placed.persistPage ((hr1.live r).1 hr')
  have hr2 := h2.represents hr1
  obtain ⟨i3, s3, hs3, h3⟩ := h2.placed.persistPage ((hr2.live P).1 hP)
  have hr3 := h3.represents hr2
  have hPp : P ≠ p := fun heq => by
    rw [heq] at hPl
    omega
  have hPr : P ≠ r := fun heq => by
    rw [heq] at hPl
    omega
  refine ⟨s3, ?_, ?_⟩
  · have hrefresh := hr.refreshParentRelationship hl hR (by omega)
    have hparr : (s.page r).parentElement = some R := (hr.parent r hr').trans hrR
    have hparp : (s2.page p).parentElement = some P := (hr2.parent p hp).trans hpP
    simp only [finishSplit, refreshParent, hparr, Option.map_some, hrefresh, hs1, hs2, persistParent,
      hparp, Option.bind_eq_bind, Option.bind_some, hs3]
  have hneP : ∀ {q}, T.parent p ≠ some q → q ≠ P := fun hq heq => hq (heq ▸ hpP)
  -- only the parent of a page lists it
  have hparent : ∀ {q c}, T.live q → c ∈ T.children q → T.parent c = some q := fun hq hc =>
    (hl.child _ hq _ hc).2.1
  have hmem_p : ∀ {q}, T.live q → p ∈ T.children q → q = P := fun hq hc =>
    Option.some.inj ((hparent hq hc).symm.trans hpP)
  refine
    { represents := hr3
      placed := h3.placed
      keys := h3.keys.trans (h2.keys.trans h1.keys)
      page_ne := ?_
      loaded := ?_
      content := ?_
      headSynced := ?_
      synced := ?_ }
  · intro q hqp hqr hqP
    rw [h3.page_ne q (hneP hqP), h2.page_ne q hqr, h1.page_ne q hqp]
  · intro q hq
    rw [hpP] at hq
    refine h3.isLoaded ?_
    obtain hq | hq | hq | hq := hq
    · exact Or.inr (h2.isLoaded (Or.inr (h1.isLoaded (Or.inl hq))))
    · exact Or.inr (h2.isLoaded (Or.inl hq))
    · exact Or.inl (Option.some.inj hq).symm
    · exact Or.inr (h2.isLoaded (Or.inr (h1.isLoaded (Or.inr hq))))
  · intro q hq hqp hqr hqP i hi
    have hi1 : (s1.page q).bufferIndex = i := by rw [h1.page_ne q hqp, hi]
    have hi2 : (s2.page q).bufferIndex = i := by rw [h2.page_ne q hqr, hi1]
    obtain ⟨hi0, hne1⟩ := h1.ne_of_placed hpl ((hr.live p).1 hp) ((hr.live q).1 hq) hqp hi
    obtain ⟨-, hne2⟩ := h2.ne_of_placed h1.placed ((hr1.live r).1 hr') ((hr1.live q).1 hq) hqr hi1
    obtain ⟨-, hne3⟩ := h3.ne_of_placed h2.placed ((hr2.live P).1 hP) ((hr2.live q).1 hq)
      (hneP hqP) hi2
    rw [h3.content_ne i hne3 hi0.ne', h2.content_ne i hne2 hi0.ne', h1.content_ne i hne1 hi0.ne']
  · intro hhead
    have hiff : ∀ {u : BPlusIndexP} {q : ℕ}, Represents u T n → T.live q →
        ((u.page q).parentElement = none ↔ q = u.head) := by
      intro u q hu hq
      rw [hu.parent q hq, hu.head]
      exact hl.parent_eq_none_iff hq
    refine h3.headSynced (hiff hr2 hP) fun hPhead => ?_
    have hs := hhead (by
      rw [hpP, ← hr2.head]
      exact fun heq => hPhead (Option.some.inj heq))
    exact h2.headSynced (hiff hr1 hr') fun _ => h1.headSynced (hiff hr hp) fun _ => hs
  · intro htogether hsync q hq hqn
    have hR' : R = P := Option.some.inj (hrR.symm.trans (htogether.trans hpP))
    have hmem_r : ∀ {q}, T.live q → r ∈ T.children q → q = P := fun hq hc =>
      hR' ▸ Option.some.inj ((hparent hq hc).symm.trans hrR)
    have hself : ∀ {q}, T.live q → q ∉ T.children q := fun hq => hl.not_mem_self hq
    by_cases hqP : q = P
    · subst q
      exact h3.synced_self hr2 hP hqn (hself hP)
    -- the other pages list neither `p` nor `r`; those that list `P` know its place
    have hlast : Synced s2 q → Synced s3 q := by
      refine h3.synced_of_ne h2.placed hr2 hP hq hqn hqP fun hmem hneg => ?_
      have hProot : P ≠ T.root := fun heq => by
        have hnone := hparent hq hmem
        rw [heq, hl.root_parent] at hnone
        cases hnone
      obtain ⟨i, -, hi, -⟩ := hsync P hP (by omega) hPp hPr fun hx => hProot hx.2
      rw [h2.page_ne P hPr, h1.page_ne P hPp] at hneg
      omega
    by_cases hqr : q = r
    · subst q
      exact hlast (h2.synced_self hr1 hr' hqn (hself hr'))
    by_cases hqp : q = p
    · subst q
      exact hlast (h2.synced_of_ne h1.placed hr1 hr' hp hqn hqr
        (fun hmem => absurd (hmem_r hp hmem) hPp.symm) (h1.synced_self hr hp hqn (hself hp)))
    · refine hlast (h2.synced_of_ne h1.placed hr1 hr' hq hqn hqr
        (fun hmem => absurd (hmem_r hq hmem) hqP) ?_)
      refine h1.synced_of_ne hpl hr hp hq hqn hqp (fun hmem => absurd (hmem_p hq hmem) hqP) ?_
      refine hsync q hq hqn hqp hqr fun hx => hqP ?_
      exact Option.some.inj (hx.1.symm.trans hpP)

/-! ## Promotion -/

/-- The least number of entries of a page that is not the root. -/
def leastElements (level : ℕ) : ℕ := if level = 0 then 3 else 2

/-- From level `n` up every page but the root has enough entries. -/
def FilledFrom (T : PageTree) (n : ℕ) : Prop :=
  ∀ q, T.live q → n ≤ T.level q → q ≠ T.root → leastElements (T.level q) ≤ (T.entries q).length

/-- Pages that are old and have lost no entries. -/
theorem FilledFrom.of_grown {T T' : PageTree} {n : ℕ} (h : FilledFrom T n) (hroot : T'.root = T.root)
    (hold : ∀ q, T'.live q → n ≤ T'.level q → T.live q ∧ T'.level q = T.level q ∧
      (T.entries q).length ≤ (T'.entries q).length) : FilledFrom T' n := by
  intro q hq hn hne
  rcases hold q hq hn with ⟨hlive, hlevel, hle⟩
  rw [hlevel]
  exact (h q hlive (hlevel ▸ hn) (hroot ▸ hne)).trans hle

/-- When page `p` splits, a split above it will leave `p` and its new neighbour under different
parents: going up through full pages, some page is the last one that stays in the left half. -/
inductive Apart (T : PageTree) : ℕ → Prop
  | here {p P : ℕ} : T.parent p = some P → (T.entries P).length = BUCKET_MAX_ELEMENTS →
      (T.children P)[IndexPage.midPoint + 1]? = some p → Apart T p
  | above {p P : ℕ} : T.parent p = some P → (T.entries P).length = BUCKET_MAX_ELEMENTS →
      Apart T P → Apart T p

/-- What is known when `p` has been split and its new neighbour `r` is to be linked. -/
structure Promotable (s : BPlusIndexP) (T : PageTree) (p r : ℕ) (e : Index) : Prop where
  inv : T.Inv Index.rank (some ⟨p, r, e.rank⟩)
  represents : Represents s T (T.level p + 1)
  placed : s.Placed
  loaded : ∀ q, T.live q → T.level p < T.level q → (s.page q).isLoaded = true

theorem Promotable.unlinked {s : BPlusIndexP} {T : PageTree} {p r : ℕ} {e : Index}
    (h : Promotable s T p r e) : T.live p ∧ T.live r ∧ p ≠ r ∧ T.level r = T.level p := by
  obtain ⟨hp, hr, hpr, -, -, hlevel⟩ := h.inv.unlinked _ rfl
  exact ⟨hp, hr, hpr, hlevel⟩

theorem Promotable.parent_live {s : BPlusIndexP} {T : PageTree} {p r P : ℕ} {e : Index}
    (h : Promotable s T p r e) (hpar : T.parent p = some P) :
    T.live P ∧ T.level p + 1 = T.level P := by
  obtain ⟨hp, -, hpr, -⟩ := h.unlinked
  obtain ⟨hP, -, hlevel⟩ := h.inv.parent_live hp (by rintro _ ⟨⟩; exact hpr) hpar
  exact ⟨hP, hlevel⟩

/-- What has happened above the level of `p` once `r` is linked. The new root, if there is one,
is still to be written. -/
structure Promoted (s : BPlusIndexP) (T : PageTree) (p r : ℕ) (e : Index) (s' : BPlusIndexP)
    (T' : PageTree) : Prop where
  inv : T'.Inv Index.rank none
  represents : Represents s' T' (T.level p + 1)
  placed : s'.Placed
  keys : s'.keys = s.keys
  live : ∀ q, T.live q → T'.live q
  fresh : ∀ q, T'.live q → ¬ T.live q → T.level p < T'.level q
  level : ∀ q, T.live q → T'.level q = T.level q
  below : ∀ q, T.live q → T.level q ≤ T.level p →
    T'.entries q = T.entries q ∧ T'.children q = T.children q
  parent : ∀ q, T.live q → T.level q < T.level p → T'.parent q = T.parent q
  above : ∀ q, T'.live q → T.level p < T'.level q → ∀ a ∈ T'.entries q,
    a = e ∨ ∃ q', T.live q' ∧ T.level p < T.level q' ∧ a ∈ T.entries q'
  same : ∀ q, T.live q → T.level q ≤ T.level p → s'.page q = withParent (s.page q) (T'.parent q)
  content : ∀ q, T.live q → T.level q ≤ T.level p → ∀ i : ℕ, (s.page q).bufferIndex = i →
    s'.bufferManager.content i = s.bufferManager.content i
  loaded : ∀ q, T'.live q → T.level p < T'.level q →
    ¬ (T'.parent p = some q ∧ q = T'.root) → (s'.page q).isLoaded = true
  headSynced : HeadSynced s → T'.parent p ≠ some T'.root → HeadSynced s'
  synced : ¬ Apart T p → (∀ q, T.live q → T.level p < T.level q → Synced s q) →
    ∀ q, T'.live q → T.level p < T'.level q →
      ¬ (T'.parent p = some q ∧ q = T'.root) → Synced s' q
  together : ¬ Apart T p → T'.parent r = T'.parent p
  filled : FilledFrom T (T.level p + 1) → FilledFrom T' (T.level p + 1)

/-- `addElement` links a new page below a parent whose level is less than `n` from the top. -/
def LinksUpTo (addElement : AddElement) (n : ℕ) : Prop :=
  ∀ (s : BPlusIndexP) (T : PageTree) (p r P : ℕ) (e : Index), Promotable s T p r e →
    T.parent p = some P → T.level T.root < T.level P + n →
    ∃ s' T', addElement s P e (some r) = some s' ∧ Promoted s T p r e s' T'

section createRoot
variable {s : BPlusIndexP} {T : PageTree} {p r : ℕ} {e : Index}

theorem createRoot_pages (hp : p < s.pages.length) (hr : r < s.pages.length) (hpr : p ≠ r)
    (q : ℕ) : (s.createRoot (some e) p r).page q =
      if q = p ∨ q = r then withParent (s.page q) (some s.pages.length)
      else if q = s.pages.length then IndexPage.root (some e) p r else s.page q := by
  obtain ⟨s1, hs1⟩ : ∃ s1, s1 = { s.newPage (IndexPage.root (some e) p r) with
    head := s.pages.length } := ⟨_, rfl⟩
  have hlen : s1.pages.length = s.pages.length + 1 := by
    rw [hs1]
    exact newPage_length
  have hold : ∀ c, c < s.pages.length → s1.page c = s.page c := fun c hc => by
    rw [hs1]
    exact page_newPage_of_lt hc
  have hpage : (s.createRoot (some e) p r).page q =
      ((s1.setParent p (some s.pages.length)).setParent r (some s.pages.length)).page q := by
    rw [hs1]
    rfl
  have hlen' : (s1.setParent p (some s.pages.length)).pages.length = s1.pages.length :=
    setPage_length
  rw [hpage, page_setParent (by omega), page_setParent (by omega), page_setParent (by omega)]
  by_cases hqr : q = r
  · simp [hqr, hpr.symm, hold r hr]
  by_cases hqp : q = p
  · simp [hqp, hpr, hold p hp]
  by_cases hqn : q = s.pages.length
  · rw [if_neg hqr, if_neg hqp, if_neg (by simp [hqr, hqp]), if_pos hqn, hqn, hs1]
    exact page_newPage_self
  · rw [if_neg hqr, if_neg hqp, if_neg (by simp [hqr, hqp]), if_neg hqn, hs1]
    obtain hlt | hge := Nat.lt_or_ge q s.pages.length
    · exact page_newPage_of_lt hlt
    · have h1 : (s.pages ++ [IndexPage.root (some e) p r])[q]? = none :=
        List.getElem?_eq_none (by simp; omega)
      simp [page, newPage, h1, List.getElem?_eq_none hge]

theorem createRoot_promoted (h : Promotable s T p r e) (hroot : T.parent p = none) :
    Promoted s T p r e (s.createRoot (some e) p r)
      (T.grow ⟨p, r, e.rank⟩ s.pages.length e) := by
  obtain ⟨hp, hr, hpr, hlevel⟩ := h.unlinked
  have hlive := h.represents.live
  have hproot : p = T.root := by
    by_contra hne
    obtain ⟨q, -, hq, -⟩ := h.inv.linked p hp hne (by rintro _ ⟨⟩; exact hpr)
    rw [hroot] at hq
    cases hq
  have hn : ¬ T.live s.pages.length := fun hn => lt_irrefl _ ((hlive _).1 hn)
  have hne : ∀ {q}, T.live q → q ≠ s.pages.length := h.inv.live_ne hn
  have hpages := createRoot_pages (s := s) (e := e) ((hlive p).1 hp) ((hlive r).1 hr) hpr
  have hlen : (s.createRoot (some e) p r).pages.length = s.pages.length + 1 := by
    rw [createRoot, setParent, setPage_length, setParent, setPage_length]
    exact newPage_length
  have htop : ∀ {q}, T.live q → T.level q ≤ T.level p := fun hq => hproot ▸ h.inv.level_le _ hq
  have hroot' : (s.createRoot (some e) p r).page s.pages.length = IndexPage.root (some e) p r := by
    rw [hpages, if_neg, if_pos rfl]
    rintro (heq | heq)
    · exact hne hp heq.symm
    · exact hne hr heq.symm
  have hparent : ∀ q, T.live q → (s.createRoot (some e) p r).page q =
      withParent (s.page q) ((T.grow ⟨p, r, e.rank⟩ s.pages.length e).parent q) := by
    intro q hq
    rw [hpages]
    by_cases hqr : q = r
    · simp [Tree.grow, hqr]
    by_cases hqp : q = p
    · simp [Tree.grow, hqp, hpr]
    · rw [if_neg (by simp [hqr, hqp]), if_neg (hne hq)]
      simp [Tree.grow, hqr, hqp, hne hq, withParent, ← h.represents.parent q hq]
  -- the only page above the level of `p` is the new root
  have habove : ∀ q, (T.grow ⟨p, r, e.rank⟩ s.pages.length e).live q →
      T.level p < (T.grow ⟨p, r, e.rank⟩ s.pages.length e).level q → q = s.pages.length := by
    rintro q (hq | hq) hlt
    · have hle := htop hq
      simp only [Tree.grow, Function.update_of_ne (hne hq)] at hlt
      omega
    · exact hq
  have hexc : ∀ q, q = s.pages.length →
      (T.grow ⟨p, r, e.rank⟩ s.pages.length e).parent p = some q ∧
        q = (T.grow ⟨p, r, e.rank⟩ s.pages.length e).root := by
    rintro q rfl
    exact ⟨by simp [Tree.grow, hpr], rfl⟩
  refine
    { inv := h.inv.grow hproot hn rfl
      represents := ?_
      placed := ?_
      keys := rfl
      live := fun q hq => Or.inl hq
      fresh := ?_
      level := fun q hq => Function.update_of_ne (hne hq) _ _
      below := fun q hq _ =>
        ⟨Function.update_of_ne (hne hq) _ _, Function.update_of_ne (hne hq) _ _⟩
      parent := ?_
      above := ?_
      same := fun q hq _ => hparent q hq
      content := fun q _ _ i _ => rfl
      loaded := fun q hq hlt hx => absurd (hexc q (habove q hq hlt)) hx
      headSynced := fun _ hx => absurd (hexc _ rfl).1 hx
      synced := fun _ _ q hq hlt hx => absurd (hexc q (habove q hq hlt)) hx
      together := fun _ => by simp [Tree.grow, hpr]
      filled := fun _ q hq hlt hne => absurd (habove q hq hlt) hne }
  · refine ⟨fun q => ?_, rfl, ?_, ?_, ?_, ?_⟩
    · rw [hlen]
      change T.live q ∨ q = _ ↔ _
      rw [hlive q]
      omega
    · have hheight := h.represents.height
      rw [← hproot] at hheight
      simp only [Tree.grow, Function.update_self, hlen]
      omega
    · rintro q (hq | rfl)
      · rw [hparent q hq]
        rfl
      · rw [hroot']
        simp [Tree.grow, (hne hp).symm, (hne hr).symm, IndexPage.root, IndexPage.new]
    · rintro q (hq | rfl)
      · rw [hparent q hq]
        exact h.represents.siblings q hq
      · rw [hroot']
        exact ⟨rfl, rfl⟩
    · intro q hq hlt
      obtain rfl := habove q hq hlt
      rw [hroot']
      simpa [Tree.grow] using IndexPage.root_shape e p r
  · refine h.placed.of_sameManager (fun q hq => ?_) rfl rfl
    rw [hlen] at hq
    obtain hlt | heq := Nat.lt_succ_iff_lt_or_eq.1 hq
    · rw [hparent q ((hlive q).2 hlt)]
      exact Or.inr ⟨hlt, rfl, rfl⟩
    · rw [heq, hroot']
      exact Or.inl rfl
  · rintro q (hq | rfl) hnl
    · exact absurd hq hnl
    · simp [Tree.grow]
  · intro q hq hlt
    have hqp : q ≠ p := fun heq => by
      rw [heq] at hlt
      exact lt_irrefl _ hlt
    have hqr : q ≠ r := fun heq => by
      rw [heq, hlevel] at hlt
      exact lt_irrefl _ hlt
    simp [Tree.grow, hqp, hqr, hne hq]
  · intro q hq hlt a ha
    obtain rfl := habove q hq hlt
    exact Or.inl (by simpa [Tree.grow] using ha)

end createRoot

/-! ## A page with room -/

section room
variable {s : BPlusIndexP} {T : PageTree} {p r P : ℕ} {e : Index}

theorem insertElement_page (hP : P < s.pages.length) (hr : r < s.pages.length) (hne : r ≠ P)
    (q : ℕ) : (s.insertElement P e (some r)).page q =
      if q = P then (s.page P).insertAt ((s.page P).findInsertPosition e) e (some r)
      else if q = r then withParent (s.page r) (some P) else s.page q := by
  rw [insertElement, page_setParent (by simpa using hr), page_setPage_of_ne hne]
  by_cases hqP : q = P
  · rw [if_neg (by rw [hqP]; exact hne.symm), if_pos hqP, hqP, page_setPage_self hP]
  · rw [if_neg hqP, page_setPage_of_ne hqP]

theorem insertElement_rest : SameRest s (s.insertElement P e (some r)) :=
  (sameRest_setPage s P _).trans (sameRest_setPage _ r _)

theorem insertElement_promoted (h : Promotable s T p r e) (hpar : T.parent p = some P)
    (hroom : (T.entries P).length < BUCKET_MAX_ELEMENTS) :
    ∃ s' T', (s.insertElement P e (some r)).persistPage P = some s' ∧
      Promoted s T p r e s' T' := by
  obtain ⟨hp, hr, hpr, hlevel⟩ := h.unlinked
  obtain ⟨hP, hPl⟩ := h.parent_live hpar
  obtain ⟨A, B, PA, PB, hes, hps, hPA, hA⟩ := h.inv.link_parts hP hpar
  have hinv := h.inv.link (e := e) hP rfl hes hps hPA
  obtain ⟨T', hT'⟩ : ∃ T', T' = T.link ⟨p, r, e.rank⟩ P (A ++ e :: B) (PA ++ p :: r :: PB) :=
    ⟨_, rfl⟩
  have hlive := h.represents.live
  have hrP : r ≠ P := fun heq => by
    rw [heq] at hlevel
    omega
  have hshape : (s.page P).Shape (A ++ B) (PA ++ p :: PB) := by
    have hold := h.represents.shape P hP hPl.le
    rwa [hes, hps] at hold
  obtain ⟨s1, hs1⟩ : ∃ s1, s1 = s.insertElement P e (some r) := ⟨_, rfl⟩
  have hrest : SameRest s s1 := hs1 ▸ insertElement_rest
  have hpos : (s.page P).findInsertPosition e = A.length := by
    rw [hshape.findInsertPosition_eq, hA]
  have hpage : ∀ q, s1.page q = if q = P then (s.page P).insertAt A.length e (some r)
      else if q = r then withParent (s.page r) (some P) else s.page q := by
    intro q
    rw [hs1, insertElement_page ((hlive P).1 hP) ((hlive r).1 hr) hrP, hpos]
  have hpageP : s1.page P = (s.page P).insertAt A.length e (some r) := by
    rw [hpage, if_pos rfl]
  -- the other pages get at most another parent
  have hother : ∀ q, T.live q → q ≠ P → s1.page q = withParent (s.page q) (T'.parent q) := by
    intro q hq hqP
    rw [hpage, if_neg hqP]
    by_cases hqr : q = r
    · rw [if_pos hqr, hqr, hT']
      simp [Tree.link]
    · rw [if_neg hqr, hT']
      simp [Tree.link, hqr, withParent, ← h.represents.parent q hq]
  have hplace : ∀ q, T.live q → (s1.page q).bufferIndex = (s.page q).bufferIndex ∧
      (s1.page q).bufferPos = (s.page q).bufferPos := by
    intro q hq
    by_cases hqP : q = P
    · rw [hqP, hpageP]
      exact ⟨rfl, rfl⟩
    · rw [hother q hq hqP]
      exact ⟨rfl, rfl⟩
  have hr1 : Represents s1 T' (T.level p + 1) := by
    refine ⟨fun q => ?_, ?_, ?_, ?_, ?_, ?_⟩
    · rw [hrest.length, hT']
      exact hlive q
    · rw [hrest.head, h.represents.head, hT']
      rfl
    · rw [hrest.length, hT']
      exact h.represents.height
    · intro q hq
      rw [hT'] at hq
      by_cases hqP : q = P
      · rw [hqP, hpageP, hT']
        refine (h.represents.parent P hP).trans ?_
        simp [Tree.link, hrP.symm]
      · rw [hother q hq hqP]
        rfl
    · intro q hq
      rw [hT'] at hq
      by_cases hqP : q = P
      · rw [hqP, hpageP]
        exact h.represents.siblings P hP
      · rw [hother q hq hqP]
        exact h.represents.siblings q hq
    · intro q hq hlt
      rw [hT'] at hq hlt
      by_cases hqP : q = P
      · rw [hqP, hpageP, hT']
        simpa [Tree.link] using hshape.insertAt_inner hPA (hes ▸ hroom)
      · rw [hother q hq hqP]
        have hold := h.represents.shape q hq hlt
        simpa [hT', Tree.link, hqP] using hold
  have hpl1 : s1.Placed := by
    refine h.placed.of_sameManager (fun q hq => Or.inr ?_) hrest.bufferManager hrest.keys
    rw [hrest.length] at hq
    exact ⟨hq, hplace q ((hlive q).2 hq)⟩
  obtain ⟨i, s2, hs2, h2⟩ := hpl1.persistPage (p := P) (by
    rw [hrest.length]
    exact (hlive P).1 hP)
  have hlinks : T'.Links (none : Option (Split ℕ Rank)) := hT' ▸ hinv.toLinks
  have hP' : T'.live P := hT' ▸ hP
  have hlevel' : T'.level = T.level := by
    rw [hT']
    rfl
  have hlive' : T'.live = T.live := by
    rw [hT']
    rfl
  refine ⟨s2, T', by rw [← hs1]; exact hs2, ?_⟩
  refine
    { inv := hT' ▸ hinv
      represents := h2.represents hr1
      placed := h2.placed
      keys := h2.keys.trans hrest.keys
      live := fun q hq => hlive' ▸ hq
      fresh := fun q hq hnl => absurd (hlive' ▸ hq : T.live q) hnl
      level := fun q _ => congrFun hlevel' q
      below := ?_
      parent := ?_
      above := ?_
      same := ?_
      content := ?_
      loaded := ?_
      headSynced := ?_
      synced := ?_
      together := ?_
      filled := ?_ }
  · intro q _ hle
    have hqP : q ≠ P := fun heq => by
      rw [heq] at hle
      omega
    rw [hT']
    exact ⟨Function.update_of_ne hqP _ _, Function.update_of_ne hqP _ _⟩
  · intro q _ hlt
    have hqr : q ≠ r := fun heq => by
      rw [heq, hlevel] at hlt
      exact lt_irrefl _ hlt
    rw [hT']
    exact Function.update_of_ne hqr _ _
  · intro q hq hlt a ha
    rw [hlevel'] at hlt
    rw [hT'] at hq ha
    by_cases hqP : q = P
    · subst q
      simp only [Tree.link, Function.update_self, List.mem_append, List.mem_cons] at ha
      obtain ha | rfl | ha := ha
      · exact Or.inr ⟨P, hP, hlt, by simp [hes, ha]⟩
      · exact Or.inl rfl
      · exact Or.inr ⟨P, hP, hlt, by simp [hes, ha]⟩
    · simp only [Tree.link, Function.update_of_ne hqP] at ha
      exact Or.inr ⟨q, hq, hlt, ha⟩
  · intro q hq hle
    have hqP : q ≠ P := fun heq => by
      rw [heq] at hle
      omega
    rw [h2.page_ne q hqP, hother q hq hqP]
  · intro q hq hle j hj
    have hqP : q ≠ P := fun heq => by
      rw [heq] at hle
      omega
    have hj1 : (s1.page q).bufferIndex = j := (hplace q hq).1.trans hj
    obtain ⟨hj0, hji⟩ := h2.ne_of_placed hpl1 ((hr1.live P).1 hP') ((hr1.live q).1 (hlive' ▸ hq))
      hqP hj1
    rw [h2.content_ne j hji hj0.ne', hrest.bufferManager]
  · intro q hq hlt _
    rw [hlevel'] at hlt
    refine h2.isLoaded ?_
    by_cases hqP : q = P
    · exact Or.inl hqP
    · have hq' : T.live q := hlive' ▸ hq
      rw [hother q hq' hqP]
      exact Or.inr (h.loaded q hq' hlt)
  · intro hhead _
    refine h2.headSynced ?_ fun _ => ?_
    · rw [hr1.parent P hP', hr1.head]
      exact hlinks.parent_eq_none_iff hP'
    · obtain ⟨j, rest, hj, hc⟩ := hhead
      refine ⟨j, rest, ?_, hrest.bufferManager ▸ hc⟩
      rw [hrest.head, (hplace _ (h.represents.head ▸ h.inv.root)).1, hj]
  · intro _ hsync q hq hlt _
    have hlt' : T.level p < T.level q := hlevel' ▸ hlt
    have hq' : T.live q := hlive' ▸ hq
    by_cases hqP : q = P
    · subst q
      exact h2.synced_self hr1 hP' hlt (hlinks.not_mem_self hP')
    · refine h2.synced_of_ne hpl1 hr1 hP' hq hlt hqP (fun _ => ?_) ?_
      · obtain ⟨j, -, hj, -⟩ := hsync P hP (by omega)
        rw [(hplace P hP).1, hj]
        omega
      · have hchild : ∀ c ∈ T.children q, T.live c := fun c hc => (h.inv.child q hq' c hc).1
        refine (h.represents.holds hq' hlt').synced_congr ?_ (hplace q hq').1
          (fun c hc => hplace c (hchild c hc)) (fun _ _ => by rw [hrest.bufferManager])
          (hsync q hq' hlt')
        rw [hother q hq' hqP]
        exact ⟨rfl, rfl, rfl, rfl, rfl⟩
  · intro _
    rw [hT']
    simp [Tree.link, hpr, hpar]
  · intro hfilled
    rw [hT']
    refine hfilled.of_grown (by rfl) ?_
    intro q hq _
    refine ⟨hq, rfl, ?_⟩
    change _ ≤ (Function.update T.entries P (A ++ e :: B) q).length
    by_cases hqP : q = P
    · rw [hqP, Function.update_self, hes, List.length_append, List.length_append, List.length_cons]
      omega
    · rw [Function.update_of_ne hqP]

end room

end BPlusIndexP
end Djondb
