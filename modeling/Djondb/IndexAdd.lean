import Djondb.IndexSearch

set_option autoImplicit false

/-!
# `BPlusIndexP::add`

Adding an entry with a new key keeps the tree in order, whatever pages split on the way up.
-/
namespace Djondb
namespace BPlusIndexP
open SearchPage SearchTree

/-- Linking works up to any number of levels: each level that splits passes its promoted entry to
the next. -/
theorem addElement_linksUpTo (n : ℕ) : LinksUpTo (addElement n) n := by
  induction n with
  | zero =>
    intro s T p r P e h hpar hn
    have hle := h.inv.level_le P (h.parent_live hpar).1
    omega
  | succ n ih =>
    intro s T p r P e h hpar hn
    obtain ⟨hP, hPl⟩ := h.parent_live hpar
    have hshape := h.represents.shape P hP hPl.le
    by_cases hfull : (T.entries P).length = BUCKET_MAX_ELEMENTS
    · obtain ⟨s', T', hs', h'⟩ := splitAddInner_promoted ih h hpar hfull hn
      refine ⟨s', T', ?_, h'⟩
      have hisFull : (s.page P).isFull = true := by
        rw [hshape.isFull_eq, hfull]
        decide
      have hleaf : (s.page P).isLeaf = false := by
        obtain ⟨-, -, PA, PB, -, hps, -, -⟩ := h.inv.link_parts hP hpar
        rw [hshape.isLeaf_eq, hps]
        simp
      rw [addElement, if_pos hisFull, splitAdd, hleaf]
      exact hs'
    · have hroom : (T.entries P).length < BUCKET_MAX_ELEMENTS := lt_of_le_of_ne hshape.le hfull
      obtain ⟨s', T', hs', h'⟩ := insertElement_promoted h hpar hroom
      refine ⟨s', T', ?_, h'⟩
      have hisFull : (s.page P).isFull = false := by
        rw [hshape.isFull_eq]
        exact decide_eq_false (by omega)
      rw [addElement, hisFull]
      exact hs'

/-- The index `s'` with tree `T'` is `s` with the entry `e` added at `leaf`. -/
structure Added (s : BPlusIndexP) (T : PageTree) (leaf : ℕ) (e : Index) (s' : BPlusIndexP)
    (T' : PageTree) : Prop where
  ready : Ready s' T'
  keys : s'.keys = s.keys
  leaves : ∀ a, T'.InLeaf a ↔ a = e ∨ T.InLeaf a
  entries : ∀ q, T'.live q → ∀ a ∈ T'.entries q, a = e ∨ ∃ q', T.live q' ∧ a ∈ T.entries q'
  headSynced : HeadSynced s → HeadSynced s'
  synced : ((T.entries leaf).length = BUCKET_MAX_ELEMENTS → ¬ Apart T leaf) →
    (∀ q, T.live q → Synced s q) → ∀ q, T'.live q → Synced s' q
  filled : FilledFrom T 0 → FilledFrom T' 0

section leaf
variable {s : BPlusIndexP} {T : PageTree} {leaf : ℕ} {e : Index} {A B : List Index}

/-- The new entry joins those of its leaf. -/
theorem inLeaf_setEntries (hleaf : T.live leaf) (h0 : T.level leaf = 0)
    (hes : T.entries leaf = A ++ B) (a : Index) :
    (T.setEntries leaf (A ++ e :: B)).InLeaf a ↔ a = e ∨ T.InLeaf a := by
  constructor
  · rintro ⟨q, hq, hq0, ha⟩
    by_cases hql : q = leaf
    · subst q
      simp only [Tree.setEntries, Function.update_self, List.mem_append, List.mem_cons] at ha
      obtain ha | rfl | ha := ha
      · exact Or.inr ⟨leaf, hleaf, h0, by simp [hes, ha]⟩
      · exact Or.inl rfl
      · exact Or.inr ⟨leaf, hleaf, h0, by simp [hes, ha]⟩
    · exact Or.inr ⟨q, hq, hq0, by simpa [Tree.setEntries, hql] using ha⟩
  · rintro (rfl | ⟨q, hq, hq0, ha⟩)
    · exact ⟨leaf, hleaf, h0, by simp [Tree.setEntries]⟩
    · refine ⟨q, hq, hq0, ?_⟩
      by_cases hql : q = leaf
      · subst q
        rw [hes] at ha
        simp only [Tree.setEntries, Function.update_self, List.mem_append, List.mem_cons] at ha ⊢
        tauto
      · simpa [Tree.setEntries, hql] using ha

theorem mem_setEntries (hleaf : T.live leaf) (hes : T.entries leaf = A ++ B) {q : ℕ}
    (hq : T.live q) {a : Index} (ha : a ∈ (T.setEntries leaf (A ++ e :: B)).entries q) :
    a = e ∨ ∃ q', T.live q' ∧ a ∈ T.entries q' := by
  by_cases hql : q = leaf
  · subst q
    simp only [Tree.setEntries, Function.update_self, List.mem_append, List.mem_cons] at ha
    obtain ha | rfl | ha := ha
    · exact Or.inr ⟨leaf, hleaf, by simp [hes, ha]⟩
    · exact Or.inl rfl
    · exact Or.inr ⟨leaf, hleaf, by simp [hes, ha]⟩
  · exact Or.inr ⟨q, hq, by simpa [Tree.setEntries, hql] using ha⟩

theorem insertLeaf_added (h : Ready s T) (hleaf : T.live leaf) (h0 : T.level leaf = 0)
    (ho : T.Owns leaf e.rank) (hcut : Cut Index.rank e.rank (T.entries leaf) A B)
    (hne : ∀ a ∈ T.entries leaf, a.rank ≠ e.rank)
    (hroom : (T.entries leaf).length < BUCKET_MAX_ELEMENTS) :
    ∃ s', (s.insertElement leaf e none).persistPage leaf = some s' ∧
      Added s T leaf e s' (T.setEntries leaf (A ++ e :: B)) := by
  have hlive := h.represents.live
  have hlt := (hlive leaf).1 hleaf
  have hshape : (s.page leaf).Shape (A ++ B) [] := by
    have hold := h.shape hleaf
    rwa [hcut.eq, h.inv.leaf hleaf h0] at hold
  obtain ⟨T', hT'⟩ : ∃ T', T' = T.setEntries leaf (A ++ e :: B) := ⟨_, rfl⟩
  have hinv : T'.Inv Index.rank none := hT' ▸ h.inv.setEntries hleaf h0 ho hcut hne
  have hpos : (s.page leaf).findInsertPosition e = A.length := by
    rw [hshape.findInsertPosition_eq, hcut.length, hcut.eq]
  obtain ⟨s1, hs1⟩ : ∃ s1, s1 = s.insertElement leaf e none := ⟨_, rfl⟩
  have hset : s1 = s.setPage leaf ((s.page leaf).insertAt A.length e none) := by
    rw [hs1, insertElement, hpos]
  have hpage : s1.page leaf = (s.page leaf).insertAt A.length e none := by
    rw [hset, page_setPage_self hlt]
  have hother : ∀ q, q ≠ leaf → s1.page q = s.page q := fun q hq => by
    rw [hset, page_setPage_of_ne hq]
  have hrest : SameRest s s1 := hset ▸ sameRest_setPage _ _ _
  have hplace : ∀ q, (s1.page q).bufferIndex = (s.page q).bufferIndex ∧
      (s1.page q).bufferPos = (s.page q).bufferPos := by
    intro q
    by_cases hq : q = leaf
    · rw [hq, hpage]
      exact ⟨rfl, rfl⟩
    · rw [hother q hq]
      exact ⟨rfl, rfl⟩
  have hlive' : T'.live = T.live := by
    rw [hT']
    rfl
  have hr1 : Represents s1 T' 0 := by
    rw [hT']
    refine ⟨fun q => ?_, ?_, ?_, fun q hq => ?_, fun q hq => ?_, fun q hq _ => ?_⟩
    · rw [hrest.length]
      exact hlive q
    · rw [hrest.head]
      exact h.represents.head
    · rw [hrest.length]
      exact h.represents.height
    · by_cases hql : q = leaf
      · rw [hql, hpage]
        exact h.represents.parent leaf hleaf
      · rw [hother q hql]
        exact h.represents.parent q hq
    · by_cases hql : q = leaf
      · rw [hql, hpage]
        exact h.represents.siblings leaf hleaf
      · rw [hother q hql]
        exact h.represents.siblings q hq
    · by_cases hql : q = leaf
      · have hins := hshape.insertAt_leaf (e := e) (hcut.eq ▸ hroom)
        have hnil := h.inv.leaf hleaf h0
        rw [hql, hpage]
        simpa [Tree.setEntries, hnil] using hins
      · rw [hother q hql]
        simpa [Tree.setEntries, hql] using h.shape hq
  have hpl1 : s1.Placed := by
    refine h.placed.of_sameManager (fun q hq => Or.inr ⟨?_, hplace q⟩) hrest.bufferManager
      hrest.keys
    rw [← hrest.length]
    exact hq
  obtain ⟨i, s', hs', h'⟩ := hpl1.persistPage (p := leaf) (by
    rw [hrest.length]
    exact hlt)
  have hleaf' : T'.live leaf := hlive' ▸ hleaf
  refine ⟨s', by rw [← hs1]; exact hs', ?_⟩
  rw [← hT']
  refine
    { ready := ⟨hinv, h'.represents hr1, h'.placed, fun q hq => h'.isLoaded ?_⟩
      keys := h'.keys.trans hrest.keys
      leaves := ?_
      entries := ?_
      headSynced := ?_
      synced := ?_
      filled := ?_ }
  · by_cases hql : q = leaf
    · exact Or.inl hql
    · rw [hother q hql]
      exact Or.inr (h.loaded q (hlive' ▸ hq))
  · rw [hT']
    exact inLeaf_setEntries hleaf h0 hcut.eq
  · rw [hT']
    exact fun q hq a ha => mem_setEntries hleaf hcut.eq hq ha
  · intro hs
    refine h'.headSynced ?_ fun _ => hs.congr hrest.head (hplace _).1 (by rw [hrest.bufferManager])
    rw [hr1.parent leaf hleaf', hr1.head]
    exact hinv.parent_eq_none_iff hleaf'
  · intro _ hsync q hq
    have hq' : T.live q := hlive' ▸ hq
    by_cases hql : q = leaf
    · subst q
      exact h'.synced_self hr1 hleaf' (Nat.zero_le _) (hinv.not_mem_self hleaf')
    · refine h'.synced_of_ne hpl1 hr1 hleaf' hq (Nat.zero_le _) hql (fun _ => ?_) ?_
      · obtain ⟨j, -, hj, -⟩ := hsync leaf hleaf
        rw [(hplace leaf).1, hj]
        omega
      · refine (h.represents.holds hq' (Nat.zero_le _)).synced_congr ?_ (hplace q).1
          (fun c _ => hplace c) (fun _ _ => by rw [hrest.bufferManager]) (hsync q hq')
        rw [hother q hql]
        exact ⟨rfl, rfl, rfl, rfl, rfl⟩
  · intro hfilled
    rw [hT']
    refine hfilled.of_grown (by rfl) ?_
    intro q hq _
    refine ⟨hq, rfl, ?_⟩
    change _ ≤ (Function.update T.entries leaf (A ++ e :: B) q).length
    by_cases hql : q = leaf
    · rw [hql, Function.update_self, hcut.eq, List.length_append, List.length_append,
        List.length_cons]
      omega
    · rw [Function.update_of_ne hql]

/-- A leaf that takes an entry without regard to room is a page to be split. -/
theorem Ready.splittable (h : Ready s T) (hleaf : T.live leaf) (h0 : T.level leaf = 0)
    (ho : T.Owns leaf e.rank) (hcut : Cut Index.rank e.rank (T.entries leaf) A B)
    (hne : ∀ a ∈ T.entries leaf, a.rank ≠ e.rank) :
    Splittable s (T.setEntries leaf (A ++ e :: B)) leaf := by
  refine ⟨h.inv.setEntries hleaf h0 ho hcut hne, hleaf, h.represents.live, h.represents.head,
    h.represents.height, fun q hq _ => h.represents.parent q hq, h.represents.siblings,
    fun q hq _ hql => ?_, h.placed, fun q hq _ => h.loaded q hq⟩
  simpa [Tree.setEntries, hql] using h.shape hq

/-- The pages of a split leaf hold the old entries and the new one, and a copy has moved up. -/
theorem SplitDone.added {T1 T' : PageTree} {X1 X2 : List Index} {m : Index} {s' : BPlusIndexP}
    (h : Ready s T) (hleaf : T.live leaf) (h0 : T.level leaf = 0) (hes : T.entries leaf = A ++ B)
    (hT1 : T1 = T.setEntries leaf (A ++ e :: B)) (hX : A ++ e :: B = X1 ++ m :: X2)
    (hX1 : 3 ≤ X1.length) (hX2 : 2 ≤ X2.length)
    (hfull : (T.entries leaf).length = BUCKET_MAX_ELEMENTS)
    (hd : SplitDone s T1 leaf X1 (m :: X2) m [] s' T') : Added s T leaf e s' T' := by
  have hlevel1 : T1.level = T.level := by
    rw [hT1]
    rfl
  have hlive1 : T1.live = T.live := by
    rw [hT1]
    rfl
  have hleaf1 : T1.live leaf := hlive1 ▸ hleaf
  have h01 : T1.level leaf = 0 := by rw [hlevel1, h0]
  have hT1e : T1.entries leaf = X1 ++ m :: X2 := by
    rw [hT1, ← hX]
    exact Function.update_self _ _ _
  have hr := hd.represents
  rw [h01] at hr
  -- beside the leaf and the new page, the leaves are the old ones
  have hold : ∀ q, T'.live q → T'.level q = 0 → q ≠ leaf → q ≠ s.pages.length →
      T1.live q ∧ T1.level q = T1.level leaf ∧ T'.entries q = T1.entries q := by
    intro q hq hq0 hql hqN
    exact hd.old hq (hq0.trans h01.symm) hql hqN
  have hleaves : ∀ a, T'.InLeaf a ↔ T1.InLeaf a := by
    intro a
    constructor
    · rintro ⟨q, hq, hq0, ha⟩
      by_cases hql : q = leaf
      · rw [hql, hd.left] at ha
        exact ⟨leaf, hleaf1, h01, by simp [hT1e, ha]⟩
      by_cases hqN : q = s.pages.length
      · rw [hqN, hd.right] at ha
        exact ⟨leaf, hleaf1, h01, by rw [hT1e]; exact List.mem_append_right _ ha⟩
      · obtain ⟨hq1, hq10, he⟩ := hold q hq hq0 hql hqN
        exact ⟨q, hq1, hq10.trans h01, he ▸ ha⟩
    · rintro ⟨q, hq, hq0, ha⟩
      by_cases hql : q = leaf
      · rw [hql, hT1e] at ha
        obtain ha | ha := List.mem_append.1 ha
        · exact ⟨leaf, hd.live leaf hleaf1, by rw [hd.level leaf hleaf1, h01], by
            rw [hd.left]
            exact ha⟩
        · exact ⟨_, hd.new.1, by rw [hd.new.2, h01], by
            rw [hd.right]
            exact ha⟩
      · refine ⟨q, hd.live q hq, by rw [hd.level q hq, hq0], ?_⟩
        rw [(hd.below q hq (by omega) hql).1]
        exact ha
  have hentries1 : ∀ q, T1.live q → ∀ a ∈ T1.entries q, a = e ∨ ∃ q', T.live q' ∧ a ∈ T.entries q' := by
    rw [hT1]
    exact fun q hq a ha => mem_setEntries hleaf hes hq ha
  refine ⟨⟨hd.inv, hr, hd.placed, fun q hq => hd.loaded q hq (by omega)⟩, hd.keys, ?_, ?_,
    hd.headSynced, ?_, ?_⟩
  · intro a
    rw [hleaves, hT1]
    exact inLeaf_setEntries hleaf h0 hes a
  · intro q hq a ha
    obtain hq0 | hq0 := Nat.eq_zero_or_pos (T'.level q)
    · obtain ⟨q', hq', -, ha'⟩ := (hleaves a).1 ⟨q, hq, hq0, ha⟩
      exact hentries1 q' hq' a ha'
    · obtain rfl | ⟨q', hq', -, ha'⟩ := hd.above q hq (by omega) a ha
      · exact hentries1 leaf hleaf1 a (by simp [hT1e])
      · exact hentries1 q' hq' a ha'
  · intro hna hsync q hq
    have hna1 : ¬ Apart T1 leaf := by
      intro ha
      refine hna hfull (ha.congr h.inv.toLinks hleaf (by simp) ?_ fun q hq hlt => ?_)
      · rw [hT1]
        rfl
      · have hql : q ≠ leaf := fun heq => by
          rw [heq] at hlt
          exact lt_irrefl _ hlt
        rw [hT1]
        exact ⟨Function.update_of_ne hql _ _, rfl, rfl⟩
    exact hd.synced hna1 (fun q' hq' _ _ => hsync q' (hlive1 ▸ hq')) q hq (by omega)
  · intro hfilled q hq _ hne
    have hroot1 : T1.root = T.root := by
      rw [hT1]
      rfl
    have hfilled1 : FilledFrom T1 (T1.level leaf + 1) := by
      intro q hq hlt hne
      have hql : q ≠ leaf := fun heq => by
        rw [heq] at hlt
        omega
      have hsame : T1.entries q = T.entries q := by
        rw [hT1]
        exact Function.update_of_ne hql _ _
      rw [hsame, hlevel1]
      exact hfilled q (hlive1 ▸ hq) (Nat.zero_le _) (hroot1 ▸ hne)
    obtain hq0 | hq0 := Nat.eq_zero_or_pos (T'.level q)
    · have hleast : leastElements (T'.level q) = 3 := if_pos hq0
      rw [hleast]
      by_cases hql : q = leaf
      · rw [hql, hd.left]
        exact hX1
      by_cases hqN : q = s.pages.length
      · rw [hqN, hd.right, List.length_cons]
        omega
      -- another leaf, so the tree was more than its root
      obtain ⟨hq1, hq10, he⟩ := hold q hq hq0 hql hqN
      have hsame : T1.entries q = T.entries q := by
        rw [hT1]
        exact Function.update_of_ne hql _ _
      rw [hlevel1] at hq10
      have hroot : q ≠ T.root := h.inv.toLinks.ne_root hleaf hq10 hql
      have hleast' : leastElements (T.level q) = 3 := if_pos (hq10.trans h0)
      rw [he, hsame, ← hleast']
      exact hfilled q (hlive1 ▸ hq1) (Nat.zero_le _) hroot
    · exact hd.filled hfilled1 q hq (by omega) hne

theorem settles_id {right : IndexPage} {es : List Index} (h : right.Shape es []) :
    Settles id right es [] :=
  ⟨fun _ => withParent_shape.2 h, fun _ => rfl, fun _ => rfl, fun _ => rfl, fun _ => rfl,
    fun _ => rfl, fun _ => rfl⟩

theorem splitAddLeaf_added {n : ℕ} (h : Ready s T) (hleaf : T.live leaf) (h0 : T.level leaf = 0)
    (ho : T.Owns leaf e.rank) (hcut : Cut Index.rank e.rank (T.entries leaf) A B)
    (hne : ∀ a ∈ T.entries leaf, a.rank ≠ e.rank)
    (hfull : (T.entries leaf).length = BUCKET_MAX_ELEMENTS) (hn : T.level T.root ≤ n) :
    ∃ s' T', splitAddLeaf (addElement n) s leaf e = some s' ∧ Added s T leaf e s' T' := by
  have hshape : (s.page leaf).Shape (A ++ B) [] := by
    have hold := h.shape hleaf
    rwa [hcut.eq, h.inv.leaf hleaf h0] at hold
  have hfull' : (A ++ B).length = BUCKET_MAX_ELEMENTS := hcut.eq ▸ hfull
  obtain ⟨T1, hT1⟩ : ∃ T1, T1 = T.setEntries leaf (A ++ e :: B) := ⟨_, rfl⟩
  have hsp : Splittable s T1 leaf := hT1 ▸ h.splittable hleaf h0 ho hcut hne
  obtain ⟨X1, m, X2, hX, hX1, hX2⟩ := exists_cut_overfull (X := A ++ e :: B) (by
    rw [← hfull']
    simp
    omega)
  have hTe : T1.entries leaf = X1 ++ m :: X2 := by
    rw [hT1, ← hX]
    exact Function.update_self _ _ _
  obtain ⟨left, hleft⟩ : ∃ left, left = (s.page leaf).keepElements ((X1 ++ m :: X2).map some) :=
    ⟨_, rfl⟩
  obtain ⟨right, hright⟩ : ∃ right, right = IndexPage.new.takeElements ((X1 ++ m :: X2).map some) :=
    ⟨_, rfl⟩
  obtain ⟨hclean, hkeep⟩ := hshape.keep_leaf (B := m :: X2) hX1
  rw [← hleft] at hclean hkeep
  have htake : right.Shape (m :: X2) [] := hright ▸ IndexPage.take_leaf hX1 (by simp [hX2])
  have hhalves : Halves s leaf left right [] [] := by
    rw [hleft, hright]
    refine ⟨hleft ▸ hkeep.pointsTo, hright ▸ htake.pointsTo, by simp, by simp, rfl, ?_, ?_, rfl,
      rfl, rfl, rfl, rfl, rfl, rfl⟩
    · exact (h.represents.siblings leaf hleaf).1
    · exact (h.represents.siblings leaf hleaf).2
  have hlevel1 : T1.level leaf = 0 ∧ T1.level T1.root = T.level T.root := by
    rw [hT1]
    exact ⟨h0, rfl⟩
  obtain ⟨s2, s', T', hs2, hs', h'⟩ := split_spec (addElement_linksUpTo n) hsp hhalves hTe
    (List.ne_nil_of_length_pos (by omega)) (Or.inl ⟨hlevel1.1, rfl, rfl, rfl⟩) hkeep
    (settles_id htake) (by omega)
  have helem : ((splitState s leaf left right).page s.pages.length).element 0 = some m := by
    obtain ⟨-, -, -, -, -, hpageR, -⟩ := hhalves.pages ((hsp.live leaf).1 hsp.page)
    rw [hpageR, htake.element_eq]
    rfl
  refine ⟨s', T', ?_, h'.added h hleaf h0 hcut.eq hT1 hX hX1.ge hX2.ge hfull⟩
  have htmp : (s.page leaf).tmpelements e = (X1 ++ m :: X2).map some := by
    rw [hshape.tmpelements_eq hfull' (by rw [hcut.length, hcut.eq]), hX]
  have hsplit : (((s.setPage leaf left).newPage right).refreshParentRelationship
      leaf).refreshParentRelationship s.pages.length = splitState s leaf left right := rfl
  rw [id, setPage_page_self] at hs'
  simp only [splitAddLeaf, htmp, ← hleft, ← hright, hclean, hsplit, helem, hs2, hs',
    Option.bind_eq_bind, Option.bind_some]

end leaf

/-- The step of every run of `add`: a new key goes to the leaf that owns it. -/
theorem Ready.add {s : BPlusIndexP} {T : PageTree} (h : Ready s T) (key documentId : CString)
    (filePos : ℤ) (hnew : ∀ a, T.InLeaf a → a.key ≠ key) :
    ∃ leaf s' T', BPlusIndexP.findIndexPage s.fuel s s.head key = some (s, leaf) ∧ T.live leaf ∧
      BPlusIndexP.add s key documentId filePos = some s' ∧
      Added s T leaf ⟨key, documentId, filePos, 0⟩ s' T' := by
  obtain ⟨leaf, hfind, hleaf, h0, ho⟩ := h.findIndexPage key s.fuel h.inv.root h.root_lt_fuel
    (h.inv.root_owns _)
  rw [← h.represents.head] at hfind
  obtain ⟨e, he⟩ : ∃ e : Index, e = ⟨key, documentId, filePos, 0⟩ := ⟨_, rfl⟩
  have hrank : e.rank = key.rank := by
    rw [he]
    rfl
  have hcut := exists_cut (k := e.rank) (h.inv.sorted leaf hleaf)
  have hne : ∀ a ∈ T.entries leaf, a.rank ≠ e.rank := by
    intro a ha heq
    exact hnew a ⟨leaf, hleaf, h0, ha⟩ (CString.rank_injective (heq.trans hrank))
  rw [← hrank] at ho
  obtain ⟨n, hn⟩ : ∃ n, s.fuel = n + 1 := ⟨s.fuel - 1, by have := h.root_lt_fuel; omega⟩
  have hroot := h.root_lt_fuel
  rw [hn] at hroot
  have hadd : BPlusIndexP.add s key documentId filePos = addElement (n + 1) s leaf e none := by
    rw [BPlusIndexP.add, insertIndexElement, hfind, he, ← hn]
    rfl
  rw [hadd, ← he]
  have hshape := h.shape hleaf
  by_cases hfull : (T.entries leaf).length = BUCKET_MAX_ELEMENTS
  · obtain ⟨s', T', hs', h'⟩ := splitAddLeaf_added (n := n) h hleaf h0 ho hcut hne hfull (by omega)
    refine ⟨leaf, s', T', hfind, hleaf, ?_, h'⟩
    have hisFull : (s.page leaf).isFull = true := by
      rw [hshape.isFull_eq, hfull]
      decide
    have hisLeaf : (s.page leaf).isLeaf = true := by
      rw [hshape.isLeaf_eq, h.inv.leaf hleaf h0]
      rfl
    rw [addElement, if_pos hisFull, splitAdd, if_pos hisLeaf, if_pos rfl]
    exact hs'
  · have hroom : (T.entries leaf).length < BUCKET_MAX_ELEMENTS := lt_of_le_of_ne hshape.le hfull
    obtain ⟨s', hs', h'⟩ := insertLeaf_added h hleaf h0 ho hcut hne hroom
    refine ⟨leaf, s', _, hfind, hleaf, ?_, h'⟩
    have hisFull : (s.page leaf).isFull = false := by
      rw [hshape.isFull_eq]
      exact decide_eq_false (by omega)
    rw [addElement, hisFull]
    exact hs'

end BPlusIndexP
end Djondb
