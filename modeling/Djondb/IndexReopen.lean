import Djondb.IndexImage
import Djondb.IndexRuns
import Mathlib.Data.Finset.Card
import Mathlib.Data.Finset.Range

set_option autoImplicit false

/-!
# Opening an index again

A reopened index reads its pages from the buffers when it first visits them. As long as the images
are in step with the pages that were in memory, every page it has read mirrors one of them.
-/
namespace Djondb
namespace BPlusIndexP
open Bytes SearchPage SearchTree

/-- Every image fits the range that its buffer maps. -/
def fits (s : BPlusIndexP) : Bool :=
  decide (s.bufferManager.buffersCount < 2 ^ 31) &&
    decide ((s.bufferManager.content 0).length ≤ pageSize) &&
    (List.range s.pages.length).all (fun p => (s.pageImage p).frame.length ≤ pageSize)

theorem fits_iff (s : BPlusIndexP) : s.fits = true ↔ s.bufferManager.buffers.length < 2 ^ 31 ∧
    (s.bufferManager.content 0).length ≤ pageSize ∧
    ∀ p < s.pages.length, (s.pageImage p).frame.length ≤ pageSize := by
  simp only [fits, Bool.and_eq_true, decide_eq_true_eq, List.all_eq_true, List.mem_range, and_assoc]
  rfl

/-- An index that can be opened again from its buffers. -/
structure Reloadable (s : BPlusIndexP) (T : PageTree) : Prop where
  ready : Ready s T
  written : Written s T
  fits : s.fits = true
  words : ∀ q, T.live q → ∀ e ∈ T.entries q, Word 8 e.posData ∧ Word 8 e.indexPos

section reloadable
variable {s : BPlusIndexP} {T : PageTree} (h : Reloadable s T)
include h

/-- The image of a page is still there when the buffers are mapped again. -/
theorem Reloadable.image {q : ℕ} (hq : T.live q) :
    ∃ (i : ℕ) (rest : List UInt8), (s.page q).bufferIndex = i ∧ (s.page q).bufferPos = 0 ∧
      i < s.bufferManager.buffers.length ∧
      s.bufferManager.reload.content i = (s.pageImage q).frame ++ rest := by
  obtain ⟨i, rest, hi, hc⟩ := h.written.pages q hq
  have hlt := (h.ready.represents.live q).1 hq
  have hfit := ((fits_iff s).1 h.fits).2.2 q hlt
  obtain hneg | ⟨j, hj, hpos, -, hjlt⟩ := h.ready.placed.place q hlt
  · omega
  obtain rfl : j = i := by omega
  refine ⟨j, rest.take (pageSize - (s.pageImage q).frame.length), hj, hpos, hjlt, ?_⟩
  rw [h.ready.placed.wf.content_reload, hc, List.take_append, List.take_of_length_le hfit]

/-- Two pages with the same buffer are one page. -/
theorem Reloadable.eq_of_bufferIndex {q q' : ℕ} (hq : T.live q) (hq' : T.live q')
    (heq : (s.page q).bufferIndex = (s.page q').bufferIndex) : q = q' := by
  obtain ⟨i, -, hi, -⟩ := h.image hq
  refine h.ready.placed.distinct q ((h.ready.represents.live q).1 hq) q'
    ((h.ready.represents.live q').1 hq') heq ?_
  omega

/-- The tree is not deeper than there are buffers. -/
theorem Reloadable.pages_le : s.pages.length ≤ s.bufferManager.buffers.length := by
  have hidx : ∀ q < s.pages.length, ∃ i : ℕ, (s.page q).bufferIndex = i ∧
      i < s.bufferManager.buffers.length := fun q hq => by
    obtain ⟨i, -, hi, -, hlt, -⟩ := h.image ((h.ready.represents.live q).2 hq)
    exact ⟨i, hi, hlt⟩
  have hinj : Set.InjOn (fun q => (s.page q).bufferIndex.toNat) (Finset.range s.pages.length) := by
    intro q hq q' hq' heq
    have hq := Finset.mem_range.1 (Finset.mem_coe.1 hq)
    have hq' := Finset.mem_range.1 (Finset.mem_coe.1 hq')
    obtain ⟨i, hi, -⟩ := hidx q hq
    obtain ⟨j, hj, -⟩ := hidx q' hq'
    refine h.eq_of_bufferIndex ((h.ready.represents.live q).2 hq)
      ((h.ready.represents.live q').2 hq') ?_
    simp only [hi, hj, Int.toNat_natCast] at heq
    rw [hi, hj, heq]
  have hmaps : Set.MapsTo (fun q => (s.page q).bufferIndex.toNat) (Finset.range s.pages.length)
      (Finset.range s.bufferManager.buffers.length) := by
    intro q hq
    obtain ⟨i, hi, hlt⟩ := hidx q (Finset.mem_range.1 (Finset.mem_coe.1 hq))
    simpa [hi] using hlt
  simpa using Finset.card_le_card_of_injOn _ hmaps hinj

theorem Reloadable.storable {q : ℕ} (hq : T.live q) : (s.pageImage q).Storable := by
  obtain ⟨hbuf, -, hfits⟩ := (fits_iff s).1 h.fits
  have hlt := (h.ready.represents.live q).1 hq
  have hshape := h.ready.shape hq
  have hframe : (s.pageImage q).frame.length = 8 + (s.pageImage q).write.length := by
    simp [PageImage.frame]
    omega
  have hlen : (s.pageImage q).write.length < 2 ^ 31 := by
    have hle := hfits q hlt
    rw [hframe, pageSize] at hle
    omega
  have hpointer : ∀ x p, s.place ((s.page q).pointer x) = some p → StorablePlace p := by
    intro x p hp
    rw [hshape.pointer_eq] at hp
    obtain hx | ⟨c, hx⟩ := Option.eq_none_or_eq_some (T.children q)[x]?
    · rw [hx] at hp
      cases hp
    · obtain ⟨i, -, hi, hpos, hil, -⟩ := h.image
        (h.ready.inv.child q hq c (List.mem_of_getElem? hx)).1
      rw [hx, place, Option.bind_some, if_pos (by omega), hi, hpos] at hp
      cases hp
      exact ⟨word_four_natCast (by omega), (by decide : Word 4 0)⟩
  have hsib := h.ready.represents.siblings q hq
  refine ⟨?_, by simp [pageImage], ?_, ?_, hpointer _, ?_, ?_⟩
  · change Word 4 ((s.page q).size : ℤ)
    have hle := hshape.le
    rw [hshape.size]
    exact word_four_natCast (hle.trans_lt (by decide))
  · intro slot hslot e he
    have hle := PageImage.length_le hslot he
    obtain ⟨x, -, rfl⟩ := List.mem_map.1 hslot
    change (s.page q).element x = some e at he
    rw [hshape.element_eq] at he
    obtain ⟨hw1, hw2⟩ := h.words q hq e (List.mem_of_getElem? he)
    exact ⟨by omega, by omega, hw1, hw2⟩
  · intro slot hslot p hp
    obtain ⟨x, -, rfl⟩ := List.mem_map.1 hslot
    exact hpointer x p hp
  · intro p hp
    change s.place (s.page q).leftSibling = some p at hp
    rw [hsib.1] at hp
    cases hp
  · intro p hp
    change s.place (s.page q).rightSibling = some p at hp
    rw [hsib.2] at hp
    cases hp

end reloadable

/-! ## Pages read from their images -/

/-- Page `c` of the reopened index `r` stands for page `q` of `s`. -/
structure StandsFor (s r : BPlusIndexP) (c q : ℕ) : Prop where
  lt : c < r.pages.length
  bufferIndex : (r.page c).bufferIndex = (s.page q).bufferIndex
  bufferPos : (r.page c).bufferPos = 0

/-- The pages of `r` stand for those of `s`, and the loaded ones hold the same entries. -/
structure Mirrors (s : BPlusIndexP) (T : PageTree) (r : BPlusIndexP) : Prop where
  bufferManager : r.bufferManager = s.bufferManager.reload
  keys : r.keys = s.keys
  head : StandsFor s r r.head s.head
  page : ∀ c < r.pages.length, ∃ q, T.live q ∧ StandsFor s r c q
  loaded : ∀ c q, T.live q → StandsFor s r c q → (r.page c).isLoaded = true →
    ∃ cs, (r.page c).Shape (T.entries q) cs ∧ List.Forall₂ (StandsFor s r) cs (T.children q)

theorem range_map_getElem? {α : Type} (xs : List α) (n : ℕ) (h : xs.length ≤ n) :
    (List.range n).map (fun x => xs[x]?) =
      xs.map some ++ List.replicate (n - xs.length) none := by
  refine List.ext_getElem (by simp; omega) fun i h1 h2 => ?_
  simp only [List.length_map, List.length_range] at h1
  by_cases hi : i < xs.length
  · simp [List.getElem_append_left, hi]
  · rw [List.getElem_append_right (by simpa using hi)]
    simp [Nat.le_of_not_lt hi]

/-- The pages that a list of places leads to. -/
def unloadedPages (parent : Option ℕ) (places : List (ℤ × ℤ)) : List IndexPage :=
  places.map (unloadedPage parent)

theorem newPointers_eq (s : BPlusIndexP) (parent : Option ℕ) (places : List (ℤ × ℤ)) (n : ℕ) :
    s.newPointers parent (places.map some ++ List.replicate n none) =
      ({ s with pages := s.pages ++ unloadedPages parent places },
        (List.range' s.pages.length places.length).map some ++ List.replicate n none) := by
  induction places generalizing s with
  | nil =>
    simp only [unloadedPages, List.map_nil, List.nil_append, List.append_nil]
    induction n with
    | zero => rfl
    | succ n ih =>
      simp only [List.replicate_succ, newPointers, newPointer, ih]
      rfl
  | cons place places ih =>
    simp only [List.map_cons, List.cons_append, newPointers, newPointer, ih]
    simp [newPage, unloadedPages, List.range'_succ]

/-- `loadPage` on an image without siblings. -/
theorem loadPage_of_image {r : BPlusIndexP} {c : ℕ} {b : Buffer} {data : List UInt8}
    {image : PageImage} {places : List (ℤ × ℤ)} {n : ℕ}
    (hget : r.bufferManager.getBuffer (r.page c).bufferIndex = some b)
    (hread : (b.seek (r.page c).bufferPos.toNat).read readFrame = some data)
    (hdata : retrievePage data = some (image, []))
    (hplaces : image.slots.map Prod.snd ++ [image.last] =
      places.map some ++ List.replicate n none)
    (hleft : image.left = none) (hright : image.right = none) : r.loadPage c =
      let r' := { r with pages := r.pages ++ unloadedPages (some c) places }
      some (r'.setPage c { r'.page c with
        size := image.size.toNat
        elements := image.slots.map Prod.fst
        pointers :=
          (List.range' r.pages.length places.length).map some ++ List.replicate n none
        leftSibling := none
        rightSibling := none
        isLoaded := true }) := by
  refine Option.bind_eq_some_iff.2 ⟨b, hget, Option.bind_eq_some_iff.2 ⟨data, hread, ?_⟩⟩
  refine Option.bind_eq_some_iff.2 ⟨(image, []), hdata, ?_⟩
  simp only [hplaces, newPointers_eq, hleft, hright, newPointer]

/-- A page once the image of `q` has been read into it; its children are new pages. -/
def loadedPage (T : PageTree) (page : IndexPage) (q first : ℕ) : IndexPage :=
  { page with
    size := (T.entries q).length
    elements := (T.entries q).map some ++
      List.replicate (BUCKET_MAX_ELEMENTS - (T.entries q).length) none
    pointers := (List.range' first (T.children q).length).map some ++
      List.replicate (BUCKET_MAX_ELEMENTS + 1 - (T.children q).length) none
    leftSibling := none
    rightSibling := none
    isLoaded := true }

/-- The places of the children of page `q`. -/
def childPlaces (s : BPlusIndexP) (T : PageTree) (q : ℕ) : List (ℤ × ℤ) :=
  (T.children q).map fun c => ((s.page c).bufferIndex, (s.page c).bufferPos)

theorem childPlaces_length (s : BPlusIndexP) (T : PageTree) (q : ℕ) :
    (childPlaces s T q).length = (T.children q).length := List.length_map _

/-- The index `r` once the image of page `q` of `s` has been read into page `c`. -/
def withLoaded (s : BPlusIndexP) (T : PageTree) (r : BPlusIndexP) (c q : ℕ) : BPlusIndexP :=
  { r with pages := r.pages ++ unloadedPages (some c) (childPlaces s T q) }.setPage c
    (loadedPage T (r.page c) q r.pages.length)

section mirrors
variable {s : BPlusIndexP} {T : PageTree} (h : Reloadable s T)
include h

/-- The pointers in the image of a page, up to the last slot. -/
theorem Reloadable.image_pointers {q : ℕ} (hq : T.live q) :
    (s.pageImage q).slots.map Prod.snd ++ [(s.pageImage q).last] =
      (childPlaces s T q).map some ++
        List.replicate (BUCKET_MAX_ELEMENTS + 1 - (T.children q).length) none := by
  have hshape := h.ready.shape hq
  have hplace : ∀ c ∈ T.children q,
      s.place (some c) = some ((s.page c).bufferIndex, (s.page c).bufferPos) := by
    intro c hc
    obtain ⟨i, -, hi, -⟩ := h.image (h.ready.inv.child q hq c hc).1
    rw [place, Option.bind_some, if_pos (by omega)]
  have hslots : (s.pageImage q).slots.map Prod.snd ++ [(s.pageImage q).last] =
      ((List.range (BUCKET_MAX_ELEMENTS + 1)).map fun x => (T.children q)[x]?).map s.place := by
    rw [List.range_succ]
    simp only [pageImage, hshape.pointer_eq, List.map_map, List.map_append, List.map_cons,
      List.map_nil]
    rfl
  have hle := hshape.children_le
  have hle' := hshape.le
  rw [hslots, range_map_getElem? _ _ (by omega), List.map_append, List.map_map, childPlaces,
    List.map_map, List.map_replicate]
  congr 1
  exact List.map_congr_left hplace

theorem Reloadable.image_elements {q : ℕ} (hq : T.live q) :
    (s.pageImage q).slots.map Prod.fst = (T.entries q).map some ++
      List.replicate (BUCKET_MAX_ELEMENTS - (T.entries q).length) none := by
  have hshape := h.ready.shape hq
  rw [← range_map_getElem? _ _ hshape.le]
  simp only [pageImage, List.map_map, hshape.element_eq]
  rfl

theorem Reloadable.loadPage_eq {r : BPlusIndexP} (hm : r.bufferManager = s.bufferManager.reload)
    {c q : ℕ} (hq : T.live q) (hc : StandsFor s r c q) :
    r.loadPage c = some (withLoaded s T r c q) := by
  obtain ⟨i, rest, hi, -, hlt, hcontent⟩ := h.image hq
  have hwf := h.ready.placed.wf.reload
  obtain ⟨b, hget, -, -, hbc⟩ := hwf.getBuffer (j := i) (by simpa using hlt)
  have hstorable := h.storable hq
  have hfit := ((fits_iff s).1 h.fits).2.2 q ((h.ready.represents.live q).1 hq)
  have hlen : (s.pageImage q).write.length < 2 ^ 31 := by
    rw [PageImage.frame, List.length_append, writeChars_length, pageSize] at hfit
    omega
  have hread : (b.seek (r.page c).bufferPos.toNat).read readFrame = some (s.pageImage q).write := by
    have hdrop : (b.seek (r.page c).bufferPos.toNat).content.drop
        (b.seek (r.page c).bufferPos.toNat).pos = (s.pageImage q).frame ++ rest := by
      rw [← hcontent, ← hbc, hc.bufferPos]
      rfl
    rw [Buffer.read, hdrop, frame_reads hlen rest]
    rfl
  have hsib := h.ready.represents.siblings q hq
  have hleft : (s.pageImage q).left = none := by
    change s.place (s.page q).leftSibling = none
    rw [hsib.1]
    rfl
  have hright : (s.pageImage q).right = none := by
    change s.place (s.page q).rightSibling = none
    rw [hsib.2]
    rfl
  have hsize : (s.pageImage q).size.toNat = (T.entries q).length := by
    rw [← (h.ready.shape hq).size]
    rfl
  have hpage : ({ r with pages := r.pages ++ unloadedPages (some c) (childPlaces s T q) } :
      BPlusIndexP).page c = r.page c := by
    simp [page, List.getElem?_append_left hc.lt]
  have hget' : r.bufferManager.getBuffer (r.page c).bufferIndex = some b := by
    rw [hm, hc.bufferIndex, hi, hget]
  rw [loadPage_of_image hget' hread hstorable.reads.at_end (h.image_pointers hq) hleft hright]
  simp only [hpage, hsize, h.image_elements hq, childPlaces_length, withLoaded, loadedPage]

/-- Loading a page adds its children to the pages that wait to be loaded. -/
theorem Mirrors.loadPage {r : BPlusIndexP} (hm : Mirrors s T r) {c q : ℕ} (hq : T.live q)
    (hc : StandsFor s r c q) :
    ∃ r', r.loadPage c = some r' ∧ Mirrors s T r' ∧ (r'.page c).isLoaded = true ∧
      StandsFor s r' c q ∧ r'.head = r.head := by
  obtain ⟨r', hr'⟩ : ∃ r', r' = withLoaded s T r c q := ⟨_, rfl⟩
  have hlen : r'.pages.length = r.pages.length + (T.children q).length := by
    rw [hr', withLoaded, setPage_length]
    simp [unloadedPages, childPlaces]
  have hself : r'.page c = loadedPage T (r.page c) q r.pages.length := by
    rw [hr', withLoaded, page_setPage_self]
    simpa using hc.lt.trans_le (Nat.le_add_right _ _)
  have hold : ∀ c' < r.pages.length, c' ≠ c → r'.page c' = r.page c' := by
    intro c' hlt hne
    rw [hr', withLoaded, page_setPage_of_ne hne]
    simp [BPlusIndexP.page, List.getElem?_append_left hlt]
  have hnew : ∀ i, ∀ hi : i < (T.children q).length, r'.page (r.pages.length + i) =
      unloadedPage (some c) ((s.page ((T.children q)[i])).bufferIndex,
        (s.page ((T.children q)[i])).bufferPos) := by
    intro i hi
    have hlt := hc.lt
    rw [hr', withLoaded, page_setPage_of_ne (by omega)]
    simp [BPlusIndexP.page, unloadedPages, childPlaces, hi]
  -- old pages keep their places, and new pages have those of the children
  have hkeep : ∀ c' < r.pages.length, (r'.page c').bufferIndex = (r.page c').bufferIndex ∧
      (r'.page c').bufferPos = (r.page c').bufferPos := by
    intro c' hlt
    by_cases hcc : c' = c
    · rw [hcc, hself]
      exact ⟨rfl, rfl⟩
    · rw [hold c' hlt hcc]
      exact ⟨rfl, rfl⟩
  have hmono : ∀ {c' q'}, StandsFor s r c' q' → StandsFor s r' c' q' := by
    intro c' q' h'
    obtain ⟨h1, h2⟩ := hkeep c' h'.lt
    exact ⟨by have := h'.lt; omega, h1.trans h'.bufferIndex, h2.trans h'.bufferPos⟩
  have hchild : ∀ i, ∀ hi : i < (T.children q).length,
      StandsFor s r' (r.pages.length + i) (T.children q)[i] := by
    intro i hi
    obtain ⟨-, -, -, hpos, -⟩ := h.image (h.ready.inv.child q hq _ (List.getElem_mem hi)).1
    refine ⟨by omega, ?_, ?_⟩
    · rw [hnew i hi]
      rfl
    · rw [hnew i hi]
      exact hpos
  refine ⟨r', hr' ▸ h.loadPage_eq hm.bufferManager hq hc, ?_, by rw [hself]; rfl, hmono hc, ?_⟩
  · refine ⟨?_, ?_, ?_, fun c' hlt => ?_, fun c' q' hq' h' hload => ?_⟩
    · rw [hr']
      exact hm.bufferManager
    · rw [hr']
      exact hm.keys
    · have hhead : r'.head = r.head := by
        rw [hr']
        rfl
      rw [hhead]
      exact hmono hm.head
    · by_cases hlt' : c' < r.pages.length
      · obtain ⟨q', hq', h'⟩ := hm.page c' hlt'
        exact ⟨q', hq', hmono h'⟩
      · obtain ⟨i, rfl⟩ := Nat.exists_eq_add_of_le (Nat.le_of_not_lt hlt')
        have hi : i < (T.children q).length := by omega
        exact ⟨_, (h.ready.inv.child q hq _ (List.getElem_mem hi)).1, hchild i hi⟩
    · by_cases hlt : c' < r.pages.length
      · obtain ⟨h1, h2⟩ := hkeep c' hlt
        have hold' : StandsFor s r c' q' :=
          ⟨hlt, h1.symm.trans h'.bufferIndex, h2.symm.trans h'.bufferPos⟩
        by_cases hcc : c' = c
        · subst c'
          obtain rfl := h.eq_of_bufferIndex hq hq' (hc.bufferIndex.symm.trans hold'.bufferIndex)
          refine ⟨List.range' r.pages.length (T.children q).length, ?_, ?_⟩
          · have hshape := h.ready.shape hq
            rw [hself]
            refine ⟨rfl, by rw [List.length_range']; rfl, rfl, hshape.le, ?_⟩
            rw [List.length_range']
            refine hshape.children.imp (fun hnil => ?_) id
            rw [hnil]
            rfl
          · refine List.forall₂_iff_get.2 ⟨List.length_range', fun i h1 h2 => ?_⟩
            simpa using hchild i h2
        · rw [hold c' hlt hcc] at hload
          obtain ⟨cs, hshape, hcs⟩ := hm.loaded c' q' hq' hold' hload
          exact ⟨cs, (hold c' hlt hcc).symm ▸ hshape, hcs.imp fun _ _ => hmono⟩
      · obtain ⟨i, rfl⟩ := Nat.exists_eq_add_of_le (Nat.le_of_not_lt hlt)
        have hlt' := h'.lt
        rw [hnew i (by omega)] at hload
        cases hload
  · rw [hr']
    rfl

/-- A visited page is in memory. -/
theorem Mirrors.visit {r : BPlusIndexP} (hm : Mirrors s T r) {c q : ℕ} (hq : T.live q)
    (hc : StandsFor s r c q) :
    ∃ r', r.visit c = some r' ∧ Mirrors s T r' ∧ r'.head = r.head ∧
      ∃ cs, (r'.page c).Shape (T.entries q) cs ∧ List.Forall₂ (StandsFor s r') cs (T.children q) := by
  by_cases hload : (r.page c).isLoaded = true
  · exact ⟨r, by rw [BPlusIndexP.visit, if_pos hload], hm, rfl, hm.loaded c q hq hc hload⟩
  · obtain ⟨r', hr', hm', hload', hc', hhead⟩ := hm.loadPage h hq hc
    exact ⟨r', by rw [BPlusIndexP.visit, if_neg hload, hr'], hm', hhead,
      hm'.loaded c q hq hc' hload'⟩

theorem Mirrors.findIndex (key : CString) (fuel : ℕ) {r : BPlusIndexP} (hm : Mirrors s T r)
    {c q : ℕ} (hq : T.live q) (hc : StandsFor s r c q) (hfuel : T.level q < fuel)
    (ho : T.Owns q key.rank) :
    ∃ r' location, BPlusIndexP.findIndex fuel r c key = some (r', location) ∧ Mirrors s T r' ∧
      FoundEntry T key (r'.entry location) := by
  induction fuel generalizing r c q with
  | zero => omega
  | succ fuel ih =>
    obtain ⟨r1, hr1, hm1, -, cs, hshape, hcs⟩ := hm.visit h hq hc
    obtain ⟨x, e, he, hek, hstep⟩ | ⟨hne, hstep⟩ :=
      findIndex_step key fuel hr1 hshape (h.ready.inv.sorted q hq)
    · refine ⟨r1, some (c, x), hstep, hm1, ?_⟩
      rw [entry, Option.bind_some, hshape.element_eq, he]
      exact ⟨hek, q, hq, List.mem_of_getElem? he⟩
    · by_cases hl : T.level q = 0
      · rw [h.ready.inv.leaf hq hl, List.forall₂_nil_right_iff] at hcs
        refine ⟨r1, none, ?_, hm1, fun a ha hak => ?_⟩
        · rw [hstep, hcs]
          rfl
        · have hrank : key.rank = a.rank := congrArg CString.rank hak.symm
          exact hne a (h.ready.inv.mem_owner hq hl (hrank ▸ ho) ha) hak
      · obtain ⟨q', hq'⟩ := h.ready.child_at hq hl key.rank
        obtain ⟨hql, hqlevel, hqo⟩ := h.ready.inv.child_owns hq ho hq'
        obtain ⟨hi, hq'⟩ := List.getElem?_eq_some_iff.1 hq'
        have hi' := hcs.length_eq ▸ hi
        have hchild := (List.forall₂_iff_get.1 hcs).2 _ hi' hi
        simp only [List.get_eq_getElem, hq'] at hchild
        obtain ⟨r', location, hr', hm', hfound⟩ := ih hm1 hql hchild (by omega) hqo
        refine ⟨r', location, ?_, hm', hfound⟩
        rw [hstep, List.getElem?_eq_getElem hi']
        exact hr'

theorem Mirrors.find {r : BPlusIndexP} (hm : Mirrors s T r) (key : CString) :
    ∃ r' e, r.find key = some (r', e) ∧ Mirrors s T r' ∧ FoundEntry T key e := by
  have hhead := h.ready.represents.head
  have hroot := h.ready.inv.root
  have hfuel : T.level T.root < r.fuel := by
    have h1 := h.ready.represents.height
    have h2 := h.pages_le
    have h3 : r.bufferManager.buffers.length = s.bufferManager.buffers.length := by
      rw [hm.bufferManager, BufferManager.reload_length]
    rw [fuel, BufferManager.buffersCount]
    omega
  obtain ⟨r', location, hr', hm', hfound⟩ := hm.findIndex h key r.fuel hroot (hhead ▸ hm.head)
    hfuel (h.ready.inv.root_owns _)
  refine ⟨r', r'.entry location, ?_, hm', hfound⟩
  rw [BPlusIndexP.find, hr']
  rfl

theorem Reloadable.reopen : ∃ r, s.reopen = some r ∧ Mirrors s T r := by
  obtain ⟨hbuf, hcontrol, -⟩ := (fits_iff s).1 h.fits
  obtain ⟨i, rest, hi, hc⟩ := h.written.head
  have hroot : T.live s.head := h.ready.represents.head ▸ h.ready.inv.root
  obtain ⟨j, -, hj, hpos, hlt, -⟩ := h.image hroot
  obtain rfl : j = i := by omega
  have hwf := h.ready.placed.wf
  have hcount : 0 < s.bufferManager.reload.buffersCount := by
    rw [BufferManager.buffersCount, BufferManager.reload_length]
    omega
  obtain ⟨b, hget, -, -, hbc⟩ := hwf.reload.getBuffer (j := 0) hcount
  -- the control buffer
  have hkeys := h.ready.placed.control
  rw [hc, ← headPosition_length j, List.drop_left] at hkeys
  have hrest : rest.length < 2 ^ 31 := by
    rw [hc, List.length_append, headPosition_length, pageSize] at hcontrol
    omega
  obtain ⟨rest', hread⟩ := readControl_eq hkeys hrest (hlt.trans hbuf)
  have hbcontent : b.content = headPosition j ++ rest := by
    rw [hbc, hwf.content_reload, List.take_of_length_le hcontrol, hc]
  obtain ⟨r0, hr0⟩ : ∃ r0 : BPlusIndexP, r0 =
      ⟨[unloadedPage none ((j : ℤ), 0)], 0, s.bufferManager.reload, s.keys⟩ := ⟨_, rfl⟩
  have hpage : r0.page 0 = unloadedPage none ((j : ℤ), 0) := by
    rw [hr0]
    rfl
  have hstands : StandsFor s r0 0 s.head := by
    refine ⟨?_, ?_, ?_⟩
    · rw [hr0]
      exact Nat.zero_lt_one
    · rw [hpage, hj]
      rfl
    · rw [hpage]
      rfl
  have hm0 : Mirrors s T r0 := by
    refine ⟨by rw [hr0], by rw [hr0], ?_, fun c hc0 => ?_, fun c q _ hcq hload => ?_⟩
    · rw [hr0] at hstands ⊢
      exact hstands
    · have hc0' : c < 1 := by
        rw [hr0] at hc0
        exact hc0
      obtain rfl : c = 0 := by omega
      exact ⟨s.head, hroot, hstands⟩
    · have hc0 : c < 1 := by
        have hlt0 := hcq.lt
        rw [hr0] at hlt0
        exact hlt0
      obtain rfl : c = 0 := by omega
      rw [hpage] at hload
      cases hload
  obtain ⟨r, hr, hm, -⟩ := hm0.loadPage h hroot hstands
  refine ⟨r, ?_, hm⟩
  have hdrop : (b.seek 0).content.drop (b.seek 0).pos = headPosition j ++ rest := by
    rw [← hbcontent]
    rfl
  rw [BPlusIndexP.reopen, initializeIndex, if_pos hcount]
  refine Option.bind_eq_some_iff.2 ⟨b, hget, Option.bind_eq_some_iff.2 ⟨((j : ℤ), 0, s.keys), ?_, ?_⟩⟩
  · rw [Buffer.read, hdrop, hread]
    rfl
  · rw [← hr, hr0]

end mirrors

end BPlusIndexP
end Djondb
