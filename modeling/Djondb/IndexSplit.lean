import Djondb.IndexInsert

set_option autoImplicit false

/-!
# Splitting pages

Both splits cut a page in two, promote a separator and write the pages that have changed. What
they have in common is stated once, for the two halves that they make.
-/
namespace Djondb
namespace BPlusIndexP
open SearchPage SearchTree

theorem promote_spec {addElement : AddElement} {n : ℕ} (hrec : LinksUpTo addElement n)
    {s : BPlusIndexP} {T : PageTree} {p r : ℕ} {e : Index} (h : Promotable s T p r e)
    (hn : T.level T.root ≤ T.level p + n) :
    ∃ s' T', promote addElement s p e r = some s' ∧ Promoted s T p r e s' T' := by
  obtain ⟨hp, -, -, -⟩ := h.unlinked
  have hparent := h.represents.parent p hp
  obtain hnone | ⟨P, hP⟩ := Option.eq_none_or_eq_some (T.parent p)
  · refine ⟨_, _, ?_, createRoot_promoted h hnone⟩
    rw [promote, hparent, hnone]
  · have hlevel := (h.parent_live hP).2
    obtain ⟨s', T', hs', h'⟩ := hrec s T p r P e h hP (by omega)
    refine ⟨s', T', ?_, h'⟩
    rw [promote, hparent, hP]
    exact hs'

/-- The two halves of page `p`, before the new page is linked. -/
structure Halves (s : BPlusIndexP) (p : ℕ) (left right : IndexPage) (ps1 ps2 : List ℕ) : Prop where
  left_pointer : left.PointsTo ps1
  right_pointer : right.PointsTo ps2
  live1 : ∀ c ∈ ps1, c < s.pages.length ∧ c ≠ p
  live2 : ∀ c ∈ ps2, c < s.pages.length ∧ c ≠ p
  parentElement : left.parentElement = (s.page p).parentElement
  leftSibling : left.leftSibling = none
  rightSibling : left.rightSibling = none
  bufferIndex : left.bufferIndex = (s.page p).bufferIndex
  bufferPos : left.bufferPos = (s.page p).bufferPos
  isLoaded : left.isLoaded = (s.page p).isLoaded
  new_parentElement : right.parentElement = none
  new_leftSibling : right.leftSibling = none
  new_rightSibling : right.rightSibling = none
  new_bufferIndex : right.bufferIndex = -1

/-- Page `p` is replaced by `left`, and `right` is new. -/
def splitState (s : BPlusIndexP) (p : ℕ) (left right : IndexPage) : BPlusIndexP :=
  (((s.setPage p left).newPage right).refreshParentRelationship p).refreshParentRelationship
    s.pages.length

section splitState
variable {s : BPlusIndexP} {p : ℕ} {left right : IndexPage} {ps1 ps2 : List ℕ}

theorem Halves.pages (h : Halves s p left right ps1 ps2) (hp : p < s.pages.length) :
    (splitState s p left right).pages.length = s.pages.length + 1 ∧
    (splitState s p left right).head = s.head ∧
    (splitState s p left right).bufferManager = s.bufferManager ∧
    (splitState s p left right).keys = s.keys ∧
    (splitState s p left right).page p = left ∧
    (splitState s p left right).page s.pages.length = right ∧
    ∀ q < s.pages.length, q ≠ p → (splitState s p left right).page q =
      withParent (s.page q) (if q ∈ ps2 then some s.pages.length else if q ∈ ps1 then some p
        else (s.page q).parentElement) := by
  obtain ⟨s1, hs1⟩ : ∃ s1, s1 = (s.setPage p left).newPage right := ⟨_, rfl⟩
  have hN : s.pages.length = (s.setPage p left).pages.length := setPage_length.symm
  have hlen1 : s1.pages.length = s.pages.length + 1 := by
    rw [hs1, newPage_length, setPage_length]
  have hold : ∀ q < s.pages.length, s1.page q = if q = p then left else s.page q := by
    intro q hq
    rw [hs1, page_newPage_of_lt (hN ▸ hq)]
    split_ifs with hqp
    · rw [hqp, page_setPage_self hp]
    · exact page_setPage_of_ne hqp
  have hp1 : s1.page p = left := by rw [hold p hp, if_pos rfl]
  have hn1 : s1.page s.pages.length = right := by
    rw [hs1, hN]
    exact page_newPage_self
  obtain ⟨hrest2, hpage2⟩ := refreshSlots_spec s1 p (List.range (BUCKET_MAX_ELEMENTS + 1)) (by
    intro x c hc
    rw [hp1] at hc
    have hlt := (h.live1 c (h.left_pointer.mem x c hc)).1
    omega)
  obtain ⟨s2, hs2⟩ : ∃ s2, s2 = s1.refreshSlots p (List.range (BUCKET_MAX_ELEMENTS + 1)) := ⟨_, rfl⟩
  rw [← hs2] at hrest2 hpage2
  have hpage2' : ∀ q, s2.page q = if q ∈ ps1 then withParent (s1.page q) (some p) else s1.page q := by
    intro q
    rw [hpage2, hp1]
    simp only [h.left_pointer.mem_iff]
  have hn2 : s2.page s.pages.length = right := by
    rw [hpage2', if_neg (fun hc => lt_irrefl _ (h.live1 _ hc).1), hn1]
  obtain ⟨hrest3, hpage3⟩ := refreshSlots_spec s2 s.pages.length
    (List.range (BUCKET_MAX_ELEMENTS + 1)) (by
      intro x c hc
      rw [hn2] at hc
      have hlt := (h.live2 c (h.right_pointer.mem x c hc)).1
      rw [hrest2.length]
      omega)
  have heq : splitState s p left right =
      s2.refreshSlots s.pages.length (List.range (BUCKET_MAX_ELEMENTS + 1)) := by
    rw [hs2, hs1]
    rfl
  have hpage3' : ∀ q, (splitState s p left right).page q =
      if q ∈ ps2 then withParent (s2.page q) (some s.pages.length) else s2.page q := by
    intro q
    rw [heq, hpage3, hn2]
    simp only [h.right_pointer.mem_iff]
  have hp12 : p ∉ ps1 ∧ p ∉ ps2 := ⟨fun hc => (h.live1 p hc).2 rfl, fun hc => (h.live2 p hc).2 rfl⟩
  rw [heq]
  refine ⟨by rw [hrest3.length, hrest2.length, hlen1], hrest3.head.trans (hrest2.head.trans ?_),
    hrest3.bufferManager.trans (hrest2.bufferManager.trans ?_),
    hrest3.keys.trans (hrest2.keys.trans ?_), ?_, ?_, ?_⟩
  · rw [hs1]
    rfl
  · rw [hs1]
    rfl
  · rw [hs1]
    rfl
  · rw [← heq, hpage3', if_neg hp12.2, hpage2', if_neg hp12.1, hp1]
  · rw [← heq, hpage3', if_neg (fun hc => lt_irrefl _ (h.live2 _ hc).1), hn2]
  · intro q hq hqp
    rw [← heq, hpage3', hpage2', hold q hq, if_neg hqp]
    split_ifs <;> rfl

/-- `T` is in order, and the pages hold it but for page `p`, which is to be split, and the links
of its children. -/
structure Splittable (s : BPlusIndexP) (T : PageTree) (p : ℕ) : Prop where
  inv : T.Inv Index.rank none
  page : T.live p
  live : ∀ q, T.live q ↔ q < s.pages.length
  head : s.head = T.root
  height : T.level T.root < s.pages.length
  parent : ∀ q, T.live q → q ∉ T.children p → (s.page q).parentElement = T.parent q
  siblings : ∀ q, T.live q → (s.page q).leftSibling = none ∧ (s.page q).rightSibling = none
  shape : ∀ q, T.live q → T.level p ≤ T.level q → q ≠ p →
    (s.page q).Shape (T.entries q) (T.children q)
  placed : s.Placed
  loaded : ∀ q, T.live q → T.level p ≤ T.level q → (s.page q).isLoaded = true

variable {T : PageTree} {A B es2 : List Index} {m : Index}

/-- In the split tree the old pages differ by their parents only. -/
theorem Splittable.pages (h : Splittable s T p) (hh : Halves s p left right ps1 ps2)
    (hps : T.children p = ps1 ++ ps2) (X Y : List Index) {q : ℕ} (hq : T.live q) (hqp : q ≠ p) :
    (splitState s p left right).page q =
      withParent (s.page q) ((T.cut p s.pages.length X Y ps1 ps2).parent q) := by
  obtain ⟨-, -, -, -, -, -, hpage⟩ := hh.pages ((h.live p).1 h.page)
  have hqN : q ≠ s.pages.length := ((h.live q).1 hq).ne
  rw [hpage q ((h.live q).1 hq) hqp]
  simp only [Tree.cut, hqN, if_false]
  by_cases hq2 : q ∈ ps2
  · simp [hq2]
  by_cases hq1 : q ∈ ps1
  · have hpar := (h.inv.child p h.page q (by simp [hps, hq1])).2.1
    simp [hq2, hq1, hpar]
  · have hpar := h.parent q hq (by simp [hps, hq1, hq2])
    simp [hq2, hq1, hpar]

theorem Splittable.promotable (h : Splittable s T p) (hh : Halves s p left right ps1 ps2)
    (hes : T.entries p = A ++ m :: B) (hA : A ≠ []) (hc : T.CutAt p m B es2 A.length ps1 ps2) :
    Promotable (splitState s p left right) (T.cut p s.pages.length A es2 ps1 ps2) p
      s.pages.length m := by
  have hps := hc.children_eq h.inv.toLinks h.page
  have hp := (h.live p).1 h.page
  have hN : ¬ T.live s.pages.length := fun hN => lt_irrefl _ ((h.live _).1 hN)
  obtain ⟨hlen, hhead, hbuf, hkeys, hleft, hright, hpage⟩ := hh.pages hp
  have hne : ∀ {q}, T.live q → q ≠ s.pages.length := h.inv.live_ne hN
  have hlevel : ∀ {q}, T.live q → (T.cut p s.pages.length A es2 ps1 ps2).level q = T.level q :=
    fun hq => Function.update_of_ne (hne hq) _ _
  have hNps : s.pages.length ∉ ps2 := fun hN2 => lt_irrefl _ (hh.live2 _ hN2).1
  have hpps : p ∉ ps2 := fun hp2 => (hh.live2 _ hp2).2 rfl
  have hold : ∀ q, T.live q → q ≠ p → (splitState s p left right).page q =
      withParent (s.page q) ((T.cut p s.pages.length A es2 ps1 ps2).parent q) := fun q hq hqp =>
    h.pages hh hps _ _ hq hqp
  refine ⟨h.inv.cut h.page hN hes hA hc, ⟨?_, ?_, ?_, ?_, ?_, ?_⟩, ?_, ?_⟩
  · intro q
    rw [hlen]
    change T.live q ∨ q = _ ↔ _
    rw [h.live q]
    omega
  · rw [hhead, h.head]
    rfl
  · rw [hlen]
    change (T.cut p s.pages.length A es2 ps1 ps2).level T.root < _
    rw [hlevel h.inv.root]
    have hheight := h.height
    omega
  · rintro q (hq | rfl)
    · by_cases hqp : q = p
      · rw [hqp, hleft, hh.parentElement, h.parent p h.page (h.inv.not_mem_self h.page)]
        simp [Tree.cut, hpps, hne h.page]
      · rw [hold q hq hqp]
        rfl
    · rw [hright, hh.new_parentElement]
      simp [Tree.cut, hNps]
  · rintro q (hq | rfl)
    · by_cases hqp : q = p
      · rw [hqp, hleft]
        exact ⟨hh.leftSibling, hh.rightSibling⟩
      · rw [hold q hq hqp]
        exact h.siblings q hq
    · rw [hright]
      exact ⟨hh.new_leftSibling, hh.new_rightSibling⟩
  · rintro q (hq | rfl) hlt
    · rw [hlevel h.page, hlevel hq] at hlt
      have hqp : q ≠ p := fun heq => by
        rw [heq] at hlt
        omega
      rw [hold q hq hqp, withParent_shape]
      simpa [Tree.cut, hqp, hne hq] using h.shape q hq (by omega) hqp
    · rw [hlevel h.page] at hlt
      simp [Tree.cut] at hlt
  · refine h.placed.of_sameManager (fun q hq => ?_) hbuf hkeys
    rw [hlen] at hq
    obtain hlt | rfl := Nat.lt_succ_iff_lt_or_eq.1 hq
    · refine Or.inr ⟨hlt, ?_⟩
      by_cases hqp : q = p
      · rw [hqp, hleft]
        exact ⟨hh.bufferIndex, hh.bufferPos⟩
      · rw [hold q ((h.live q).2 hlt) hqp]
        exact ⟨rfl, rfl⟩
    · rw [hright]
      exact Or.inl hh.new_bufferIndex
  · rintro q (hq | rfl) hlt
    · rw [hlevel h.page, hlevel hq] at hlt
      have hqp : q ≠ p := fun heq => by
        rw [heq] at hlt
        omega
      rw [hold q hq hqp]
      exact h.loaded q hq hlt.le
    · rw [hlevel h.page] at hlt
      simp [Tree.cut] at hlt

end splitState

/-- Only the pages above `p` decide whether its split is torn apart. -/
theorem Apart.congr {T T' : PageTree} {split : Option (Split ℕ Rank)} (hl : T.Links split) {p : ℕ}
    (hp : T.live p) (hr : ∀ x, split = some x → T.level x.right < T.level p)
    (hpar : T'.parent p = T.parent p)
    (hup : ∀ q, T.live q → T.level p < T.level q →
      T'.entries q = T.entries q ∧ T'.children q = T.children q ∧ T'.parent q = T.parent q)
    (ha : Apart T' p) : Apart T p := by
  have hne : ∀ {q}, T.level p ≤ T.level q → ∀ x, split = some x → q ≠ x.right := by
    rintro q hle x hx rfl
    have hlt := hr x hx
    omega
  induction ha with
  | @here p P hP hfull hslot =>
    rw [hpar] at hP
    obtain ⟨hPl, -, hlevel⟩ := hl.parent_live hp (hne le_rfl) hP
    obtain ⟨he, hc, -⟩ := hup P hPl (by omega)
    exact .here hP (he ▸ hfull) (hc ▸ hslot)
  | @above p P hP hfull _ ih =>
    rw [hpar] at hP
    obtain ⟨hPl, -, hlevel⟩ := hl.parent_live hp (hne le_rfl) hP
    obtain ⟨he, -, hpp⟩ := hup P hPl (by omega)
    refine .above hP (he ▸ hfull) (ih hPl (fun x hx => ?_) hpp (fun q hq hlt => ?_) fun hle => ?_)
    · exact (hr x hx).trans (by omega)
    · exact hup q hq (by omega)
    · exact hne (by omega)

/-- What a split of page `p` has done, with `A` and `es2` for the entries of its halves. -/
structure SplitDone (s : BPlusIndexP) (T : PageTree) (p : ℕ) (A es2 : List Index) (m : Index)
    (ps2 : List ℕ) (s' : BPlusIndexP) (T' : PageTree) : Prop where
  inv : T'.Inv Index.rank none
  represents : Represents s' T' (T.level p)
  placed : s'.Placed
  keys : s'.keys = s.keys
  live : ∀ q, T.live q → T'.live q
  fresh : ∀ q, T'.live q → ¬ T.live q → q = s.pages.length ∨ T.level p < T'.level q
  new : T'.live s.pages.length ∧ T'.level s.pages.length = T.level p
  level : ∀ q, T.live q → T'.level q = T.level q
  left : T'.entries p = A
  right : T'.entries s.pages.length = es2
  below : ∀ q, T.live q → T.level q ≤ T.level p → q ≠ p →
    T'.entries q = T.entries q ∧ T'.children q = T.children q
  parent : ∀ q, T.live q → T.level q < T.level p →
    T'.parent q = if q ∈ ps2 then some s.pages.length else T.parent q
  above : ∀ q, T'.live q → T.level p < T'.level q → ∀ a ∈ T'.entries q,
    a = m ∨ ∃ q', T.live q' ∧ T.level p < T.level q' ∧ a ∈ T.entries q'
  same : ∀ q, T.live q → T.level q < T.level p → s'.page q = withParent (s.page q) (T'.parent q)
  content : ∀ q, T.live q → T.level q < T.level p → ∀ i : ℕ, (s.page q).bufferIndex = i →
    s'.bufferManager.content i = s.bufferManager.content i
  loaded : ∀ q, T'.live q → T.level p ≤ T'.level q → (s'.page q).isLoaded = true
  headSynced : HeadSynced s → HeadSynced s'
  synced : ¬ Apart T p → (∀ q, T.live q → T.level p ≤ T.level q → q ≠ p → Synced s q) →
    ∀ q, T'.live q → T.level p ≤ T'.level q → Synced s' q
  filled : FilledFrom T (T.level p + 1) → FilledFrom T' (T.level p + 1)

/-- Beside the two halves, the pages on the level of a split are the old ones. -/
theorem SplitDone.old {s s' : BPlusIndexP} {T T' : PageTree} {p q : ℕ} {A es2 : List Index}
    {m : Index} {ps2 : List ℕ} (hd : SplitDone s T p A es2 m ps2 s' T') (hq : T'.live q)
    (hl : T'.level q = T.level p) (hqp : q ≠ p) (hqN : q ≠ s.pages.length) :
    T.live q ∧ T.level q = T.level p ∧ T'.entries q = T.entries q := by
  have hql : T.live q := by
    by_contra hnl
    obtain heq | hlt := hd.fresh q hq hnl
    · exact hqN heq
    · omega
  have hlevel := hd.level q hql
  exact ⟨hql, by omega, (hd.below q hql (by omega) hqp).1⟩

/-- What becomes of the new page between its promotion and the writes. -/
structure Settles (f : IndexPage → IndexPage) (right : IndexPage) (es2 : List Index)
    (ps2 : List ℕ) : Prop where
  shape : ∀ parent, (f (withParent right parent)).Shape es2 ps2
  leftSibling : ∀ page, (f page).leftSibling = page.leftSibling
  rightSibling : ∀ page, (f page).rightSibling = page.rightSibling
  parentElement : ∀ page, (f page).parentElement = page.parentElement
  bufferIndex : ∀ page, (f page).bufferIndex = page.bufferIndex
  bufferPos : ∀ page, (f page).bufferPos = page.bufferPos
  isLoaded : ∀ page, (f page).isLoaded = page.isLoaded

/-- The pages between the promotion and the writes. -/
structure Settled (s : BPlusIndexP) (T T2 : PageTree) (p : ℕ) (left right : IndexPage)
    (s2 : BPlusIndexP) (T' : PageTree) (s3 : BPlusIndexP) : Prop where
  rest : SameRest s2 s3
  represents : Represents s3 T' (T.level p)
  placed : s3.Placed
  page_ne : ∀ q, q ≠ s.pages.length → s3.page q = s2.page q
  new : (s3.page s.pages.length).bufferIndex = (s2.page s.pages.length).bufferIndex ∧
    (s3.page s.pages.length).bufferPos = (s2.page s.pages.length).bufferPos
  left : s2.page p = withParent left (T'.parent p)
  old : ∀ q, T.live q → T.level q ≤ T.level p → q ≠ p →
    s2.page q = withParent (s.page q) (T'.parent q)

section settled
variable {s s1 s2 : BPlusIndexP} {T T2 T' : PageTree} {p : ℕ} {left right : IndexPage}
  {ps1 ps2 : List ℕ} {A B es2 : List Index} {m : Index} {f : IndexPage → IndexPage}

theorem Promoted.settled (h : Splittable s T p) (hh : Halves s p left right ps1 ps2)
    (hps : T.children p = ps1 ++ ps2) (hleft : left.Shape A ps1) (hf : Settles f right es2 ps2)
    (hT2 : T2 = T.cut p s.pages.length A es2 ps1 ps2)
    (h2 : Promoted (splitState s p left right) T2 p s.pages.length m s2 T') :
    Settled s T T2 p left right s2 T'
      (s2.setPage s.pages.length (f (s2.page s.pages.length))) := by
  have hp := (h.live p).1 h.page
  have hN : ¬ T.live s.pages.length := fun hN => lt_irrefl _ ((h.live _).1 hN)
  obtain ⟨hlen, -, -, -, hpageL, hpageR, -⟩ := hh.pages hp
  have hne : ∀ {q}, T.live q → q ≠ s.pages.length := h.inv.live_ne hN
  have hlevel2 : ∀ {q}, T.live q → T2.level q = T.level q := fun hq => hT2 ▸ Tree.cut_level (hne hq)
  have hlive2 : ∀ {q}, T.live q → T2.live q := fun hq => by
    rw [hT2]
    exact Or.inl hq
  have hnew2 : T2.live s.pages.length ∧ T2.level s.pages.length = T.level p := by
    rw [hT2]
    exact ⟨Or.inr rfl, Tree.cut_level_new⟩
  have hpl : T2.level p = T.level p := hlevel2 h.page
  have hNp : s.pages.length ≠ p := (hne h.page).symm
  have hN2 : s.pages.length < s2.pages.length :=
    (h2.represents.live _).1 (h2.live _ hnew2.1)
  have hpageR2 : s2.page s.pages.length = withParent right (T'.parent s.pages.length) := by
    rw [h2.same _ hnew2.1 (by rw [hnew2.2, hpl]), hpageR]
  have hpageL2 : s2.page p = withParent left (T'.parent p) := by
    rw [h2.same p (hlive2 h.page) le_rfl, hpageL]
  have hold2 : ∀ q, T.live q → T.level q ≤ T.level p → q ≠ p →
      s2.page q = withParent (s.page q) (T'.parent q) := by
    intro q hq hle hqp
    rw [h2.same q (hlive2 hq) (by rw [hlevel2 hq, hpl]; exact hle), h.pages hh hps A es2 hq
      hqp]
    rfl
  obtain ⟨s3, hs3⟩ : ∃ s3, s3 = s2.setPage s.pages.length (f (s2.page s.pages.length)) := ⟨_, rfl⟩
  have hrest : SameRest s2 s3 := hs3 ▸ sameRest_setPage _ _ _
  have hpage3 : ∀ q, q ≠ s.pages.length → s3.page q = s2.page q := fun q hq => by
    rw [hs3, page_setPage_of_ne hq]
  have hpageN3 : s3.page s.pages.length = f (s2.page s.pages.length) := by
    rw [hs3, page_setPage_self hN2]
  have hr2 := h2.represents
  rw [hpl] at hr2
  rw [← hs3]
  refine ⟨hrest, ⟨?_, ?_, ?_, ?_, ?_, ?_⟩, ?_, hpage3, ?_, hpageL2, hold2⟩
  · intro q
    rw [hrest.length, hr2.live q]
  · rw [hrest.head, hr2.head]
  · rw [hrest.length]
    exact hr2.height
  · intro q hq
    by_cases hqN : q = s.pages.length
    · rw [hqN, hpageN3, hf.parentElement, hr2.parent _ (hqN ▸ hq)]
    · rw [hpage3 q hqN, hr2.parent q hq]
  · intro q hq
    by_cases hqN : q = s.pages.length
    · rw [hqN, hpageN3, hf.leftSibling, hf.rightSibling]
      exact hr2.siblings _ (hqN ▸ hq)
    · rw [hpage3 q hqN]
      exact hr2.siblings q hq
  · intro q hq hle
    by_cases hqN : q = s.pages.length
    · obtain ⟨he, hc⟩ := h2.below _ hnew2.1 (by rw [hnew2.2, hpl])
      rw [hqN, hpageN3, hpageR2, he, hc, hT2, (Tree.cut_new hNp).1, (Tree.cut_new hNp).2]
      exact hf.shape _
    rw [hpage3 q hqN]
    by_cases hqp : q = p
    · obtain ⟨he, hc⟩ := h2.below p (hlive2 h.page) le_rfl
      rw [hqp, hpageL2, withParent_shape, he, hc, hT2, Tree.cut_page.1, Tree.cut_page.2]
      exact hleft
    obtain hlt | heq := Nat.lt_or_eq_of_le hle
    · exact hr2.shape q hq hlt
    · -- beside `p` there are old pages only
      have hql : T.live q := by
        by_contra hnl
        have hnl2 : ¬ T2.live q := by
          rw [hT2]
          rintro (hl | hl)
          · exact hnl hl
          · exact hqN hl
        have hlt := h2.fresh q hq hnl2
        omega
      have hlq : T.level q = T.level p := by
        rw [heq, h2.level q (hlive2 hql), hlevel2 hql]
      obtain ⟨he, hc⟩ := h2.below q (hlive2 hql) (by rw [hlevel2 hql, hpl, hlq])
      rw [hold2 q hql hlq.le hqp, withParent_shape, he, hc, hT2, (Tree.cut_other hqp hqN).1,
        (Tree.cut_other hqp hqN).2]
      exact h.shape q hql hlq.ge hqp
  · refine h2.placed.of_sameManager (fun q hq => Or.inr ?_) hrest.bufferManager hrest.keys
    rw [hrest.length] at hq
    by_cases hqN : q = s.pages.length
    · rw [hqN, hpageN3, hf.bufferIndex, hf.bufferPos]
      exact ⟨hN2, rfl, rfl⟩
    · rw [hpage3 q hqN]
      exact ⟨hq, rfl, rfl⟩
  · rw [hpageN3, hf.bufferIndex, hf.bufferPos]
    exact ⟨rfl, rfl⟩

end settled

section cut
variable {s : BPlusIndexP} {T : PageTree} {p q : ℕ} {left right : IndexPage} {ps1 ps2 : List ℕ}
  {A es2 : List Index}

/-- The halves have the places that the pages had. -/
theorem Splittable.splitState_place (h : Splittable s T p) (hh : Halves s p left right ps1 ps2)
    (hps : T.children p = ps1 ++ ps2) (hq : T.live q) :
    ((splitState s p left right).page q).bufferIndex = (s.page q).bufferIndex ∧
      ((splitState s p left right).page q).bufferPos = (s.page q).bufferPos := by
  by_cases hqp : q = p
  · obtain ⟨-, -, -, -, hpageL, -, -⟩ := hh.pages ((h.live p).1 h.page)
    rw [hqp, hpageL]
    exact ⟨hh.bufferIndex, hh.bufferPos⟩
  · rw [h.pages hh hps [] [] hq hqp]
    exact ⟨rfl, rfl⟩

theorem Splittable.splitState_synced (h : Splittable s T p) (hh : Halves s p left right ps1 ps2)
    (hps : T.children p = ps1 ++ ps2) (hq : T.live q) (hle : T.level p ≤ T.level q) (hqp : q ≠ p)
    (hsync : Synced s q) : Synced (splitState s p left right) q := by
  obtain ⟨-, -, hbuf, -, -, -, -⟩ := hh.pages ((h.live p).1 h.page)
  have hholds : Holds (s.page q) (T.entries q) (T.children q) :=
    ⟨h.shape q hq hle hqp, (h.siblings q hq).1, (h.siblings q hq).2⟩
  refine hholds.synced_congr ?_ (h.splitState_place hh hps hq).1
    (fun c hc => h.splitState_place hh hps (h.inv.child q hq c hc).1) (fun _ _ => by rw [hbuf])
    hsync
  rw [h.pages hh hps [] [] hq hqp]
  exact ⟨rfl, rfl, rfl, rfl, rfl⟩

/-- Cutting `p` changes nothing above it. -/
theorem Apart.of_cut (h : Splittable s T p) (hps : T.children p = ps1 ++ ps2)
    (ha : Apart (T.cut p s.pages.length A es2 ps1 ps2) p) : Apart T p := by
  have hN : ¬ T.live s.pages.length := fun hN => lt_irrefl _ ((h.live _).1 hN)
  have hpar : ∀ {q}, T.live q → T.level p ≤ T.level q →
      (T.cut p s.pages.length A es2 ps1 ps2).parent q = T.parent q := by
    intro q hq hle
    have hnot : q ∉ ps2 := by
      intro hq2
      have hl := (h.inv.child p h.page q (by simp [hps, hq2])).2.2
      omega
    rw [Tree.cut_parent (h.inv.live_ne hN hq), if_neg hnot]
  refine ha.congr h.inv.toLinks h.page (by simp) (hpar h.page le_rfl) fun q hq hlt => ?_
  have hqp : q ≠ p := fun heq => by
    rw [heq] at hlt
    omega
  obtain ⟨he, hc⟩ := Tree.cut_other hqp (h.inv.live_ne hN hq)
  exact ⟨he, hc, hpar hq hlt.le⟩

end cut

theorem split_spec {addElement : AddElement} {n : ℕ} (hrec : LinksUpTo addElement n)
    {s : BPlusIndexP} {T : PageTree} {p : ℕ} {left right : IndexPage} {ps1 ps2 : List ℕ}
    {A B es2 : List Index} {m : Index} {f : IndexPage → IndexPage} (h : Splittable s T p)
    (hh : Halves s p left right ps1 ps2) (hes : T.entries p = A ++ m :: B) (hA : A ≠ [])
    (hc : T.CutAt p m B es2 A.length ps1 ps2) (hleft : left.Shape A ps1)
    (hf : Settles f right es2 ps2) (hn : T.level T.root ≤ T.level p + n) :
    ∃ s2 s' T', promote addElement (splitState s p left right) p m s.pages.length = some s2 ∧
      (s2.setPage s.pages.length (f (s2.page s.pages.length))).finishSplit p s.pages.length =
        some s' ∧ SplitDone s T p A es2 m ps2 s' T' := by
  have hps := hc.children_eq h.inv.toLinks h.page
  have hp := (h.live p).1 h.page
  have hN : ¬ T.live s.pages.length := fun hN => lt_irrefl _ ((h.live _).1 hN)
  obtain ⟨hlen, hhead, hbuf, hkeys, hpageL, hpageR, -⟩ := hh.pages hp
  obtain ⟨T2, hT2⟩ : ∃ T2, T2 = T.cut p s.pages.length A es2 ps1 ps2 := ⟨_, rfl⟩
  have hprom : Promotable (splitState s p left right) T2 p s.pages.length m := by
    rw [hT2]
    exact h.promotable hh hes hA hc
  have hne : ∀ {q}, T.live q → q ≠ s.pages.length := h.inv.live_ne hN
  have hlevel2 : ∀ {q}, T.live q → T2.level q = T.level q := fun hq => hT2 ▸ Tree.cut_level (hne hq)
  have hpl : T2.level p = T.level p := hlevel2 h.page
  have hroot2 : T2.level T2.root = T.level T.root := by
    have heq : T2.root = T.root := by
      rw [hT2]
      rfl
    rw [heq, hlevel2 h.inv.root]
  obtain ⟨s2, T', hs2, h2⟩ := promote_spec hrec hprom (by rw [hroot2, hpl]; exact hn)
  have hset := h2.settled h hh hps hleft hf hT2
  obtain ⟨s3, hs3⟩ : ∃ s3, s3 = s2.setPage s.pages.length (f (s2.page s.pages.length)) := ⟨_, rfl⟩
  rw [← hs3] at hset
  have hlive2 : ∀ {q}, T.live q → T2.live q := fun hq => by
    rw [hT2]
    exact Or.inl hq
  have hold2 : ∀ {q}, T2.live q → q ≠ s.pages.length → T.live q := fun hq hqN => by
    rw [hT2] at hq
    exact hq.resolve_right hqN
  have hnew2 : T2.live s.pages.length ∧ T2.level s.pages.length = T.level p := by
    rw [hT2]
    exact ⟨Or.inr rfl, Tree.cut_level_new⟩
  have hNp : s.pages.length ≠ p := (hne h.page).symm
  have hlevel' : ∀ {q}, T.live q → T'.level q = T.level q := fun hq => by
    rw [h2.level _ (hlive2 hq), hlevel2 hq]
  have hp' : T'.live p := h2.live p (hlive2 h.page)
  have hN' : T'.live s.pages.length := h2.live _ hnew2.1
  have hNl : T'.level s.pages.length = T.level p := by rw [h2.level _ hnew2.1, hnew2.2]
  have hplevel : T'.level p = T.level p := hlevel' h.page
  have hother : ∀ {q}, T.live q → q ≠ p →
      T2.entries q = T.entries q ∧ T2.children q = T.children q := fun hq hqp => by
    rw [hT2]
    exact Tree.cut_other hqp (hne hq)
  -- neither half is the root now
  have hproot : p ≠ T'.root := fun heq =>
    hNp ((h2.inv.eq_root hN' (by rw [hNl, ← heq, hplevel])).trans heq.symm)
  have hNroot : s.pages.length ≠ T'.root := fun heq =>
    hNp (heq.trans (h2.inv.eq_root hp' (by rw [hplevel, ← heq, hNl])).symm)
  obtain ⟨s', hs', h3⟩ := finishSplit_spec h2.inv.toLinks hset.represents hset.placed hp' hN'
    hplevel.ge (hNl.trans hplevel.symm) hproot hNroot
  have hparent : ∀ {q}, T'.parent p = some q → T'.level q = T.level p + 1 := fun hq => by
    rw [← (h2.inv.parent_live hp' (by simp) hq).2.2, hplevel]
  have hbelow : ∀ {q}, T.live q → T.level q ≤ T.level p → T'.parent p ≠ some q := fun hq hle hx => by
    have hl := hparent hx
    rw [hlevel' hq] at hl
    omega
  have hplace : ∀ {q}, T.live q → T.level q ≤ T.level p →
      (s3.page q).bufferIndex = (s.page q).bufferIndex ∧
      (s3.page q).bufferPos = (s.page q).bufferPos := by
    intro q hq hle
    rw [hset.page_ne q (hne hq)]
    by_cases hqp : q = p
    · rw [hqp, hset.left]
      exact ⟨hh.bufferIndex, hh.bufferPos⟩
    · rw [hset.old q hq hle hqp]
      exact ⟨rfl, rfl⟩
  have hcontent : ∀ {q}, T.live q → T.level q ≤ T.level p → ∀ i : ℕ,
      (s.page q).bufferIndex = i → s3.bufferManager.content i = s.bufferManager.content i := by
    intro q hq hle i hi
    rw [hset.rest.bufferManager, h2.content q (hlive2 hq) (by rw [hlevel2 hq, hpl]; exact hle) i
      ((h.splitState_place hh hps hq).1.trans hi), hbuf]
  have hbeside : ∀ {q}, T'.live q → T'.level q = T.level p → q ≠ s.pages.length → T.live q := by
    intro q hq hl hqN
    by_contra hnl
    have hlt := h2.fresh q hq fun hq2 => hnl (hold2 hq2 hqN)
    omega
  refine ⟨s2, s', T', hs2, hs3 ▸ hs', ?_⟩
  refine
    { inv := h2.inv
      represents := h3.represents
      placed := h3.placed
      keys := h3.keys.trans (hset.rest.keys.trans (h2.keys.trans hkeys))
      live := fun q hq => h2.live q (hlive2 hq)
      fresh := ?_
      new := ⟨hN', hNl⟩
      level := fun q hq => hlevel' hq
      left := ?_
      right := ?_
      below := ?_
      parent := ?_
      above := ?_
      same := ?_
      content := ?_
      loaded := ?_
      headSynced := ?_
      synced := ?_
      filled := ?_ }
  · intro q hq hnl
    by_cases hqN : q = s.pages.length
    · exact Or.inl hqN
    · have hlt := h2.fresh q hq fun hq2 => hnl (hold2 hq2 hqN)
      exact Or.inr (hpl ▸ hlt)
  · rw [(h2.below p (hlive2 h.page) le_rfl).1, hT2, Tree.cut_page.1]
  · rw [(h2.below _ hnew2.1 (by rw [hnew2.2, hpl])).1, hT2, (Tree.cut_new hNp).1]
  · intro q hq hle hqp
    obtain ⟨he, hc'⟩ := h2.below q (hlive2 hq) (by rw [hlevel2 hq, hpl]; exact hle)
    obtain ⟨he2, hc2⟩ := hother hq hqp
    exact ⟨he.trans he2, hc'.trans hc2⟩
  · intro q hq hlt
    rw [h2.parent q (hlive2 hq) (by rw [hlevel2 hq, hpl]; exact hlt), hT2, Tree.cut_parent (hne hq)]
  · intro q hq hlt a ha
    obtain heq | ⟨q', hq', hlt', ha'⟩ := h2.above q hq (by rw [hpl]; exact hlt) a ha
    · exact Or.inl heq
    · rw [hpl] at hlt'
      have hqN : q' ≠ s.pages.length := fun heq => by
        rw [heq, hnew2.2] at hlt'
        omega
      have hql := hold2 hq' hqN
      rw [hlevel2 hql] at hlt'
      have hqp : q' ≠ p := fun heq => by
        rw [heq] at hlt'
        omega
      exact Or.inr ⟨q', hql, hlt', (hother hql hqp).1 ▸ ha'⟩
  · intro q hq hlt
    have hqp : q ≠ p := fun heq => by
      rw [heq] at hlt
      omega
    rw [h3.page_ne q hqp (hne hq) (hbelow hq hlt.le), hset.page_ne q (hne hq),
      hset.old q hq hlt.le hqp]
  · intro q hq hlt i hi
    have hqp : q ≠ p := fun heq => by
      rw [heq] at hlt
      omega
    rw [h3.content q (h2.live q (hlive2 hq)) hqp (hne hq) (hbelow hq hlt.le) i
      ((hplace hq hlt.le).1.trans hi), hcontent hq hlt.le i hi]
  · intro q hq hle
    refine h3.loaded q ?_
    by_cases hqp : q = p
    · exact Or.inl hqp
    by_cases hqN : q = s.pages.length
    · exact Or.inr (Or.inl hqN)
    by_cases hqP : T'.parent p = some q
    · exact Or.inr (Or.inr (Or.inl hqP))
    refine Or.inr (Or.inr (Or.inr ?_))
    rw [hset.page_ne q hqN]
    obtain hlt | heq := Nat.lt_or_eq_of_le hle
    · exact h2.loaded q hq (by rw [hpl]; exact hlt) fun hx => hqP hx.1
    · have hql := hbeside hq heq.symm hqN
      have hlq : T.level q = T.level p := by rw [← hlevel' hql, heq]
      rw [hset.old q hql hlq.le hqp]
      exact h.loaded q hql hlq.ge
  · intro hhs
    have hhead1 : HeadSynced (splitState s p left right) :=
      hhs.congr hhead (h.splitState_place hh hps (h.head ▸ h.inv.root)).1 (by rw [hbuf])
    refine h3.headSynced fun hx => ?_
    have hhead2 := h2.headSynced hhead1 hx
    refine hhead2.congr hset.rest.head ?_ (by rw [hset.rest.bufferManager])
    by_cases hqN : s2.head = s.pages.length
    · rw [hqN]
      exact hset.new.1
    · rw [hset.page_ne _ hqN]
  · intro hna hsync
    have hna2 : ¬ Apart T2 p := fun ha => hna (Apart.of_cut h hps (hT2 ▸ ha))
    have hsync1 : ∀ q, T2.live q → T2.level p < T2.level q →
        Synced (splitState s p left right) q := by
      intro q hq hlt
      have hqN : q ≠ s.pages.length := fun heq => by
        rw [heq, hnew2.2, hpl] at hlt
        omega
      have hql := hold2 hq hqN
      rw [hpl, hlevel2 hql] at hlt
      have hqp : q ≠ p := fun heq => by
        rw [heq] at hlt
        omega
      exact h.splitState_synced hh hps hql hlt.le hqp (hsync q hql hlt.le hqp)
    refine h3.synced (h2.together hna2) fun q hq hle hqp hqN hx => ?_
    obtain hlt | heq := Nat.lt_or_eq_of_le hle
    · have hholds := h2.represents.holds hq (by rw [hpl]; exact hlt)
      have hs := h2.synced hna2 hsync1 q hq (by rw [hpl]; exact hlt) hx
      refine hholds.synced_congr ?_ (by rw [hset.page_ne q hqN]) (fun c _ => ?_)
        (fun _ _ => by rw [hset.rest.bufferManager]) hs
      · rw [hset.page_ne q hqN]
        exact ⟨rfl, rfl, rfl, rfl, rfl⟩
      · by_cases hcN : c = s.pages.length
        · rw [hcN]
          exact hset.new
        · rw [hset.page_ne c hcN]
          exact ⟨rfl, rfl⟩
    · have hql := hbeside hq heq.symm hqN
      have hlq : T.level q = T.level p := by rw [← hlevel' hql, heq]
      have hholds : Holds (s.page q) (T.entries q) (T.children q) :=
        ⟨h.shape q hql hlq.ge hqp, (h.siblings q hql).1, (h.siblings q hql).2⟩
      refine hholds.synced_congr ?_ (hplace hql hlq.le).1 (fun c hc => ?_)
        (fun i hi => hcontent hql hlq.le i hi) (hsync q hql hlq.ge hqp)
      · rw [hset.page_ne q hqN, hset.old q hql hlq.le hqp]
        exact ⟨rfl, rfl, rfl, rfl, rfl⟩
      · obtain ⟨hcl, -, hcl'⟩ := h.inv.child q hql c hc
        exact hplace hcl (by omega)
  · intro hfilled
    rw [← hpl]
    apply h2.filled
    rw [hpl]
    refine hfilled.of_grown (by rw [hT2]; rfl) ?_
    intro q hq hlt
    have hqN : q ≠ s.pages.length := fun heq => by
      rw [heq, hnew2.2] at hlt
      omega
    have hql := hold2 hq hqN
    rw [hlevel2 hql] at hlt ⊢
    have hqp : q ≠ p := fun heq => by
      rw [heq] at hlt
      omega
    exact ⟨hql, rfl, (hother hql hqp).1 ▸ le_rfl⟩

/-! ## Splitting an inner page -/

theorem mem_drop_iff {Y : List ℕ} (hnd : Y.Nodup) {k c : ℕ} (hk : Y[k]? = some c) (n : ℕ) :
    c ∈ Y.drop n ↔ n ≤ k := by
  obtain ⟨hlt, rfl⟩ := List.getElem?_eq_some_iff.1 hk
  constructor
  · intro hc
    obtain ⟨j, hj, heq⟩ := List.mem_iff_getElem.1 hc
    rw [List.getElem_drop] at heq
    have hidx := (List.Nodup.getElem_inj_iff hnd).1 heq
    omega
  · intro hle
    refine List.mem_iff_getElem.2 ⟨k - n, by rw [List.length_drop]; omega, ?_⟩
    simp [hle]

/-- The six entries and seven children of an overfull page, cut for the two halves. -/
theorem exists_cut_overfull {X : List Index} (hX : X.length = BUCKET_MAX_ELEMENTS + 1) :
    ∃ X1 m X2, X = X1 ++ m :: X2 ∧ X1.length = 3 ∧ X2.length = 2 := by
  have h3 : 3 < X.length := by
    rw [hX]
    decide
  refine ⟨X.take 3, X[3], X.drop 4, ?_, ?_, ?_⟩
  · rw [← List.drop_eq_getElem_cons h3, List.take_append_drop]
  · rw [List.length_take, hX]
    rfl
  · rw [List.length_drop, hX]
    rfl

theorem settles_dropFirst {right : IndexPage} {m : Index} {X2 : List Index} {Y2 : List ℕ}
    (h : right.Unshifted m X2 Y2) : Settles IndexPage.dropFirst right X2 Y2 where
  shape parent := by
    have hraw : (withParent right parent).Unshifted m X2 Y2 :=
      ⟨h.elements, h.pointers, h.size, h.length, h.children⟩
    exact hraw.dropFirst
  leftSibling _ := rfl
  rightSibling _ := rfl
  parentElement _ := rfl
  bufferIndex _ := rfl
  bufferPos _ := rfl
  isLoaded _ := rfl

section inner
variable {s : BPlusIndexP} {T : PageTree} {p r P : ℕ} {e : Index}

/-- Linking the new page without regard to room leaves a page to be split. -/
theorem Promotable.splittable (h : Promotable s T p r e) (hpar : T.parent p = some P)
    {A B : List Index} {PA PB : List ℕ} (hes : T.entries P = A ++ B)
    (hps : T.children P = PA ++ p :: PB) (hPA : PA.length = A.length) :
    Splittable s (T.link ⟨p, r, e.rank⟩ P (A ++ e :: B) (PA ++ p :: r :: PB)) P := by
  obtain ⟨hp, hr, hpr, hlevel⟩ := h.unlinked
  obtain ⟨hP, hPl⟩ := h.parent_live hpar
  refine ⟨h.inv.link (e := e) hP rfl hes hps hPA, hP, h.represents.live, h.represents.head,
    h.represents.height, ?_, h.represents.siblings, ?_, h.placed, ?_⟩
  · intro q hq hqc
    have hqr : q ≠ r := fun heq => hqc (by simp [Tree.link, heq])
    rw [h.represents.parent q hq]
    simp [Tree.link, hqr]
  · intro q hq hle hqP
    have hold := h.represents.shape q hq (by rw [hPl]; exact hle)
    simpa [Tree.link, hqP] using hold
  · intro q hq hle
    have hle' : T.level P ≤ T.level q := hle
    exact h.loaded q hq (by omega)

/-- A link below `P` does not change what happens above `P`. -/
theorem Apart.of_link {T1 : PageTree} {es : List Index} {ps : List ℕ} (ha : Apart T1 P)
    (h : Promotable s T p r e) (hP : T.live P) (hPl : T.level p + 1 = T.level P)
    (hT1 : T1 = T.link ⟨p, r, e.rank⟩ P es ps) : Apart T P := by
  obtain ⟨-, -, -, hlevel⟩ := h.unlinked
  have hqr : ∀ {q}, T.level P ≤ T.level q → q ≠ r := by
    rintro q hle rfl
    omega
  have hpar : ∀ {q}, T.level P ≤ T.level q → T1.parent q = T.parent q := fun hle => by
    rw [hT1]
    exact Function.update_of_ne (hqr hle) _ _
  refine ha.congr h.inv.toLinks hP ?_ (hpar le_rfl) fun q _ hlt => ?_
  · rintro x ⟨⟩
    change T.level r < T.level P
    omega
  · have hqP : q ≠ P := fun heq => by
      rw [heq] at hlt
      exact lt_irrefl _ hlt
    rw [hpar hlt.le, hT1]
    exact ⟨Function.update_of_ne hqP _ _, Function.update_of_ne hqP _ _, rfl⟩

/-- A split of the parent links the new page too, and keeps it next to `p` unless `p` is the last
page of the left half. -/
theorem SplitDone.promoted (h : Promotable s T p r e) (hpar : T.parent p = some P)
    {A B X1 X2 : List Index} {PA PB Y2 : List ℕ} {m : Index} {s' : BPlusIndexP} {T1 T' : PageTree}
    (hes : T.entries P = A ++ B) (hps : T.children P = PA ++ p :: PB) (hPA : PA.length = A.length)
    (hfull : (T.entries P).length = BUCKET_MAX_ELEMENTS)
    (hT1 : T1 = T.link ⟨p, r, e.rank⟩ P (A ++ e :: B) (PA ++ p :: r :: PB))
    (hX : A ++ e :: B = X1 ++ m :: X2) (hX1 : 2 ≤ X1.length) (hX2 : 2 ≤ X2.length)
    (hY2 : Y2 = (PA ++ p :: r :: PB).drop 4) (hd : SplitDone s T1 P X1 X2 m Y2 s' T') : Promoted s T p r e s' T' := by
  obtain ⟨hp, hr, hpr, hlevel⟩ := h.unlinked
  obtain ⟨hP, hPl⟩ := h.parent_live hpar
  have hTl : T1.level = T.level := by
    rw [hT1]
    rfl
  have hlive1 : T1.live = T.live := by
    rw [hT1]
    rfl
  have hP1 : T1.live P := hlive1 ▸ hP
  have hother : ∀ {q}, q ≠ P → T1.entries q = T.entries q ∧ T1.children q = T.children q := by
    intro q hqP
    rw [hT1]
    exact ⟨Function.update_of_ne hqP _ _, Function.update_of_ne hqP _ _⟩
  have hparent1 : ∀ {q}, q ≠ r → T1.parent q = T.parent q := by
    intro q hqr
    rw [hT1]
    exact Function.update_of_ne hqr _ _
  have hlevel1 : ∀ q, T1.level q = T.level q := fun q => congrFun hTl q
  have hchildren1 : T1.children P = PA ++ p :: r :: PB := by
    rw [hT1]
    exact Function.update_self _ _ _
  have hlinks1 : T1.Links (none : Option (Split ℕ Rank)) := by
    rw [hT1]
    exact h.inv.toLinks.link _ hP hps
  have hlow : ∀ {q}, T.level q ≤ T.level p → T1.level q < T1.level P ∧ q ≠ P := by
    intro q hle
    rw [hlevel1, hlevel1]
    refine ⟨by omega, fun heq => ?_⟩
    rw [heq] at hle
    omega
  have hr := hd.represents
  rw [hlevel1, ← hPl] at hr
  have hmX : ∀ {a}, a ∈ X1 ∨ a = m ∨ a ∈ X2 → a = e ∨ a ∈ T.entries P := by
    intro a ha
    have hmem : a ∈ A ++ e :: B := by
      rw [hX]
      simp only [List.mem_append, List.mem_cons]
      exact ha
    rw [hes]
    simp only [List.mem_append, List.mem_cons] at hmem ⊢
    tauto
  refine
    { inv := hd.inv
      represents := hr
      placed := hd.placed
      keys := hd.keys
      live := fun q hq => hd.live q (hlive1 ▸ hq)
      fresh := ?_
      level := fun q hq => (hd.level q (hlive1 ▸ hq)).trans (hlevel1 q)
      below := ?_
      parent := ?_
      above := ?_
      same := fun q hq hle => hd.same q (hlive1 ▸ hq) (hlow hle).1
      content := fun q hq hle => hd.content q (hlive1 ▸ hq) (hlow hle).1
      loaded := fun q hq hlt _ => hd.loaded q hq (by rw [hlevel1]; omega)
      headSynced := fun hs _ => hd.headSynced hs
      synced := ?_
      together := ?_
      filled := ?_ }
  · intro q hq hnl
    obtain rfl | hlt := hd.fresh q hq (hlive1 ▸ hnl)
    · rw [hd.new.2, hlevel1]
      omega
    · rw [hlevel1] at hlt
      omega
  · intro q hq hle
    obtain ⟨he, hc⟩ := hd.below q (hlive1 ▸ hq) (hlow hle).1.le (hlow hle).2
    exact ⟨he.trans (hother (hlow hle).2).1, hc.trans (hother (hlow hle).2).2⟩
  · intro q hq hlt
    have hqr : q ≠ r := fun heq => by
      rw [heq, hlevel] at hlt
      omega
    have hq2 : q ∉ Y2 := by
      intro hq2
      have hmem : q ∈ T1.children P := by
        rw [hchildren1]
        rw [hY2] at hq2
        exact List.mem_of_mem_drop hq2
      have hl := (hlinks1.child P hP1 q hmem).2.2
      rw [hlevel1, hlevel1] at hl
      omega
    rw [hd.parent q (hlive1 ▸ hq) (hlow hlt.le).1, if_neg hq2, hparent1 hqr]
  · intro q hq hlt a ha
    have hP' : ∀ {b}, b ∈ X1 ∨ b = m ∨ b ∈ X2 → b = e ∨ ∃ q', T.live q' ∧
        T.level p < T.level q' ∧ b ∈ T.entries q' := fun hb =>
      (hmX hb).imp id fun hb' => ⟨P, hP, by omega, hb'⟩
    obtain hltP | hleP := Nat.lt_or_ge (T1.level P) (T'.level q)
    · obtain rfl | ⟨q', hq', hlt', ha'⟩ := hd.above q hq hltP a ha
      · exact hP' (Or.inr (Or.inl rfl))
      · have hq'P : q' ≠ P := fun heq => by
          rw [heq] at hlt'
          exact lt_irrefl _ hlt'
        rw [hlevel1, hlevel1] at hlt'
        exact Or.inr ⟨q', hlive1 ▸ hq', by omega, (hother hq'P).1 ▸ ha'⟩
    · rw [hlevel1] at hleP
      by_cases hqP : q = P
      · rw [hqP, hd.left] at ha
        exact hP' (Or.inl ha)
      by_cases hqN : q = s.pages.length
      · rw [hqN, hd.right] at ha
        exact hP' (Or.inr (Or.inr ha))
      · obtain ⟨hql, hl, he⟩ := hd.old hq (by rw [hlevel1]; omega) hqP hqN
        rw [hlevel1, hlevel1] at hl
        rw [he, (hother hqP).1] at ha
        exact Or.inr ⟨q, hlive1 ▸ hql, by omega, ha⟩
  · intro hna hsync
    have hna1 : ¬ Apart T1 P := fun ha => hna (.above hpar hfull (ha.of_link h hP hPl hT1))
    refine fun q hq hlt _ => hd.synced hna1 (fun q' hq' hle' _ => ?_) q hq (by rw [hlevel1]; omega)
    rw [hlevel1, hlevel1] at hle'
    exact hsync q' (hlive1 ▸ hq') (by omega)
  · intro hna
    have hk : PA.length ≠ 3 := fun hk => hna (.here hpar hfull (by
      rw [hps]
      simp [IndexPage.midPoint, BUCKET_MAX_ELEMENTS, hk]))
    have hnd : (PA ++ p :: r :: PB).Nodup := by
      rw [← hchildren1, hT1]
      exact (h.inv.link (e := e) hP rfl hes hps hPA).nodup_children hP
    have hp2 := mem_drop_iff hnd (k := PA.length) (c := p) (by simp) 4
    have hr2 := mem_drop_iff hnd (k := PA.length + 1) (c := r) (by
      rw [List.getElem?_append_right (by omega)]
      simp) 4
    have hiff : r ∈ Y2 ↔ p ∈ Y2 := by
      rw [hY2, hp2, hr2]
      omega
    have hrl : T.live r := h.unlinked.2.1
    rw [hd.parent r (hlive1 ▸ hrl) (hlow hlevel.le).1, hd.parent p (hlive1 ▸ hp) (hlow le_rfl).1]
    have hrpar : T1.parent r = T1.parent p := by
      rw [hparent1 hpr, hpar, hT1]
      exact Function.update_self _ _ _
    simp only [hiff, hrpar]
  · intro hfilled q hq hlt hne
    have hfilled1 : FilledFrom T1 (T1.level P + 1) := by
      intro q hq hle hne
      rw [hlevel1, hlevel1] at hle
      have hqP : q ≠ P := fun heq => by
        rw [heq] at hle
        omega
      rw [hlevel1, (hother hqP).1]
      exact hfilled q (hlive1 ▸ hq) (by omega) (fun heq => hne (by rw [heq, hT1]; rfl))
    obtain hltP | hleP := Nat.lt_or_ge (T1.level P) (T'.level q)
    · exact hd.filled hfilled1 q hq hltP hne
    have hleast : leastElements (T'.level q) = 2 := if_neg (by omega)
    rw [hleast]
    rw [hlevel1] at hleP
    by_cases hqP : q = P
    · rw [hqP, hd.left]
      exact hX1
    by_cases hqN : q = s.pages.length
    · rw [hqN, hd.right]
      exact hX2
    -- beside the two halves are old pages, below the root
    obtain ⟨hql, hl, he⟩ := hd.old hq (by rw [hlevel1]; omega) hqP hqN
    have hroot : q ≠ T.root := by
      have hne := hlinks1.ne_root hP1 hl hqP
      rwa [hT1] at hne
    rw [hlevel1, hlevel1] at hl
    have hleast' : leastElements (T.level q) = 2 := if_neg (by omega)
    rw [he, (hother hqP).1, ← hleast']
    exact hfilled q (hlive1 ▸ hql) (by omega) hroot

theorem splitAddInner_promoted {addElement : AddElement} {n : ℕ} (hrec : LinksUpTo addElement n)
    (h : Promotable s T p r e) (hpar : T.parent p = some P)
    (hfull : (T.entries P).length = BUCKET_MAX_ELEMENTS)
    (hn : T.level T.root < T.level P + (n + 1)) :
    ∃ s' T', splitAddInner addElement s P e (some r) = some s' ∧ Promoted s T p r e s' T' := by
  obtain ⟨hp, hr, hpr, hlevel⟩ := h.unlinked
  obtain ⟨hP, hPl⟩ := h.parent_live hpar
  obtain ⟨A, B, PA, PB, hes, hps, hPA, hA⟩ := h.inv.link_parts hP hpar
  have hshape : (s.page P).Shape (A ++ B) (PA ++ p :: PB) := by
    have hold := h.represents.shape P hP hPl.le
    rwa [hes, hps] at hold
  rw [hes] at hfull
  obtain ⟨T1, hT1⟩ : ∃ T1, T1 = T.link ⟨p, r, e.rank⟩ P (A ++ e :: B) (PA ++ p :: r :: PB) :=
    ⟨_, rfl⟩
  have hsp : Splittable s T1 P := hT1 ▸ h.splittable hpar hes hps hPA
  obtain ⟨X1, m, X2, hX, hX1, hX2⟩ := exists_cut_overfull (X := A ++ e :: B) (by
    rw [← hfull]
    simp
    omega)
  have hYlen : (PA ++ p :: r :: PB).length = 7 := by
    obtain hnil | hlen := hshape.children
    · simp at hnil
    · rw [hfull] at hlen
      simp only [List.length_append, List.length_cons, BUCKET_MAX_ELEMENTS] at hlen ⊢
      omega
  obtain ⟨Y1, Y2, hY, hY1, hY2⟩ : ∃ Y1 Y2, PA ++ p :: r :: PB = Y1 ++ Y2 ∧ Y1.length = 4 ∧
      Y2 = (PA ++ p :: r :: PB).drop 4 :=
    ⟨(PA ++ p :: r :: PB).take 4, _, (List.take_append_drop 4 _).symm, by
      rw [List.length_take, hYlen]
      rfl, rfl⟩
  have hY2len : Y2.length = 3 := by rw [hY2, List.length_drop, hYlen]
  have hTe : T1.entries P = X1 ++ m :: X2 := by rw [hT1, ← hX]; simp [Tree.link]
  have hTc : T1.children P = Y1 ++ Y2 := by rw [hT1, ← hY]; simp [Tree.link]
  have hTl : T1.level = T.level := by rw [hT1]; rfl
  have hlive1 : T1.live = T.live := by rw [hT1]; rfl
  have hother1 : ∀ {q}, q ≠ P → T1.entries q = T.entries q ∧ T1.children q = T.children q := by
    intro q hqP
    rw [hT1]
    exact ⟨Function.update_of_ne hqP _ _, Function.update_of_ne hqP _ _⟩
  obtain ⟨left, hleft⟩ : ∃ left, left = ((s.page P).keepElements
      ((X1 ++ m :: X2).map some)).keepPointers ((Y1 ++ Y2).map some) := ⟨_, rfl⟩
  obtain ⟨right, hright⟩ : ∃ right, right = (IndexPage.new.takeElements
      ((X1 ++ m :: X2).map some)).takePointers ((Y1 ++ Y2).map some) := ⟨_, rfl⟩
  obtain ⟨hclean, hkeep⟩ := hshape.keep_inner (B := m :: X2) (D := Y2) hX1 hY1
  rw [← hleft] at hclean hkeep
  have htake : right.Unshifted m X2 Y2 := hright ▸ IndexPage.take_inner hX1 hX2 hY1 hY2len
  have hmemY : ∀ c ∈ Y1 ++ Y2, c < s.pages.length ∧ c ≠ P := by
    intro c hc
    rw [← hTc] at hc
    obtain ⟨hcl, -, hcl'⟩ := hsp.inv.child P hsp.page c hc
    refine ⟨(hsp.live c).1 hcl, fun heq => ?_⟩
    rw [heq] at hcl'
    omega
  have hhalves : Halves s P left right Y1 Y2 := by
    rw [hleft, hright]
    refine ⟨hleft ▸ hkeep.pointsTo, hright ▸ htake.pointsTo, fun c hc => hmemY c (by simp [hc]),
      fun c hc => hmemY c (by simp [hc]), rfl, ?_, ?_, rfl, rfl, rfl, rfl, rfl, rfl, rfl⟩
    · exact (h.represents.siblings P hP).1
    · exact (h.represents.siblings P hP).2
  have hTl0 : T1.level P ≠ 0 := by
    rw [hTl]
    omega
  obtain ⟨s2, s', T', hs2, hs', h'⟩ := split_spec hrec hsp hhalves hTe
    (List.ne_nil_of_length_pos (by omega)) (Or.inr ⟨hTl0, rfl, hTc, by omega⟩) hkeep
    (settles_dropFirst htake) (by
      rw [hTl, show T1.root = T.root by rw [hT1]; rfl]
      omega)
  have helem : ((splitState s P left right).page s.pages.length).element 0 = some m := by
    obtain ⟨-, -, -, -, -, hpageR, -⟩ := hhalves.pages ((hsp.live P).1 hsp.page)
    rw [hpageR, IndexPage.element, htake.elements]
    rfl
  refine ⟨s', T', ?_, ?_⟩
  · have htmp : (s.page P).tmpelements e = (X1 ++ m :: X2).map some := by
      rw [hshape.tmpelements_eq hfull hA, hX]
    have htmp' : (s.page P).tmppointers e (some r) = (Y1 ++ Y2).map some := by
      rw [hshape.tmppointers_eq hPA hfull hA, hY]
    have hsplit : (((s.setPage P left).newPage right).refreshParentRelationship
        P).refreshParentRelationship s.pages.length = splitState s P left right := rfl
    simp only [splitAddInner, htmp, htmp', ← hleft, ← hright, hclean, hsplit, helem, hs2, hs',
      Option.bind_eq_bind, Option.bind_some]
  · exact h'.promoted h hpar hes hps hPA (hes ▸ hfull) hT1 hX (by omega) hX2.ge hY2

end inner

end BPlusIndexP
end Djondb
