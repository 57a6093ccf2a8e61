import Djondb.IndexTree

set_option autoImplicit false

/-!
# Writing pages

`persistPage` gives a page a buffer of its own and leaves the other pages, their buffers and the
fields of the tree alone.
-/
namespace Djondb
namespace BPlusIndexP
open Bytes

/-- The bytes behind the head position: none, until `setKeys` writes the keys there. -/
def KeysImage (keys : List CString) (bs : List UInt8) : Prop :=
  (keys = [] ∧ bs = []) ∨ ∃ rest, bs = writeInt keys.length ++ (keys.flatMap writeString ++ rest)

/-- Pages that have a place have one buffer each; buffer 0 is kept for the head position. -/
structure Placed (s : BPlusIndexP) : Prop where
  wf : s.bufferManager.WF
  count : s.bufferManager.buffers = [] ∨ 2 ≤ s.bufferManager.buffers.length
  place : ∀ p < s.pages.length, (s.page p).bufferIndex = -1 ∨
    ∃ i : ℕ, (s.page p).bufferIndex = i ∧ (s.page p).bufferPos = 0 ∧ 0 < i ∧
      i < s.bufferManager.buffers.length
  distinct : ∀ p < s.pages.length, ∀ q < s.pages.length,
    (s.page p).bufferIndex = (s.page q).bufferIndex → (s.page p).bufferIndex ≠ -1 → p = q
  control : KeysImage s.keys ((s.bufferManager.content 0).drop 16)

/-- A page image as it is written to its buffer. -/
def PageImage.frame (i : PageImage) : List UInt8 :=
  writeInt i.write.length ++ writeChars i.write

def headPosition (index : ℕ) : List UInt8 := writeLong index ++ writeLong 0

theorem headPosition_length (index : ℕ) : (headPosition index).length = 16 := by
  simp [headPosition]

/-- What `persistPage` has done when page `p` is in buffer `i`. -/
structure Persisted (s : BPlusIndexP) (p : ℕ) (i : ℕ) (s' : BPlusIndexP) : Prop where
  length : s'.pages.length = s.pages.length
  head : s'.head = s.head
  keys : s'.keys = s.keys
  page_ne : ∀ q, q ≠ p → s'.page q = s.page q
  page : s'.page p = { s.page p with bufferIndex := i, bufferPos := 0, isLoaded := true }
  placed : s'.Placed
  pos : 0 < i
  lt : i < s'.bufferManager.buffers.length
  grows : s.bufferManager.buffers.length ≤ s'.bufferManager.buffers.length
  old : (s.page p).bufferIndex = i ∨
    (s.page p).bufferIndex = -1 ∧ s.bufferManager.buffers.length ≤ i
  content : ∃ rest, s'.bufferManager.content i = (s.pageImage p).frame ++ rest
  content_ne : ∀ j, j ≠ i → j ≠ 0 → s'.bufferManager.content j = s.bufferManager.content j
  content_zero : s'.bufferManager.content 0 =
    if (s.page p).parentElement = none then headPosition i ++ (s.bufferManager.content 0).drop 16
    else s.bufferManager.content 0

/-- What `placePage` has done: page `p` has buffer `i`, and nothing is written yet. -/
structure PlacedAt (s : BPlusIndexP) (p : ℕ) (i : ℕ) (s' : BPlusIndexP) : Prop where
  length : s'.pages.length = s.pages.length
  head : s'.head = s.head
  keys : s'.keys = s.keys
  page_ne : ∀ q, q ≠ p → s'.page q = s.page q
  page : s'.page p = { s.page p with bufferIndex := i, bufferPos := 0 }
  placed : s'.Placed
  pos : 0 < i
  lt : i < s'.bufferManager.buffers.length
  grows : s.bufferManager.buffers.length ≤ s'.bufferManager.buffers.length
  old : (s.page p).bufferIndex = i ∨
    (s.page p).bufferIndex = -1 ∧ s.bufferManager.buffers.length ≤ i
  content : ∀ j, s'.bufferManager.content j = s.bufferManager.content j

variable {s : BPlusIndexP} {p : ℕ}

/-- The two requests that `placePage` makes for a buffer. -/
theorem Placed.manager_grown (h : s.Placed) {size : ℕ} (hsize : 2 ≤ size) :
    ∃ (m : BufferManager) (i : ℕ) (b : Buffer),
      (if s.bufferManager.buffersCount > 1 then s.bufferManager.getCurrentBuffer size false
        else (s.bufferManager.getCurrentBuffer size true).getCurrentBuffer size true) = m ∧
      m.WF ∧ m.buffers.length = i + 1 ∧ 0 < i ∧ s.bufferManager.buffers.length ≤ i ∧
      (∀ j, m.content j = s.bufferManager.content j) ∧ m.buffers.getLast? = some b ∧
      m.buffers[i]? = some b ∧ b.bufferLength = 0 ∧ b.bufferIndex = i := by
  by_cases hcount : s.bufferManager.buffersCount > 1
  · have hg := h.wf.getCurrentBuffer hsize false
    obtain ⟨b, hlast, hget, hlen, hidx⟩ := hg.last
    rw [BufferManager.buffersCount] at hcount
    exact ⟨_, s.bufferManager.buffers.length, b, if_pos hcount, hg.wf, hg.length, by omega, le_rfl,
      hg.content, hlast, hget, hlen, hidx⟩
  · have hnil : s.bufferManager.buffers.length = 0 := by
      rw [BufferManager.buffersCount] at hcount
      obtain hnil | hcount' := h.count
      · simp [hnil]
      · omega
    have hg1 := h.wf.getCurrentBuffer hsize true
    have hg2 := hg1.wf.getCurrentBuffer hsize true
    obtain ⟨b, hlast, hget, hlen, hidx⟩ := hg2.last
    have hlen1 := hg1.length
    rw [hnil] at hlen1
    rw [hlen1] at hget hidx
    exact ⟨_, 1, b, if_neg hcount, hg2.wf, by rw [hg2.length, hlen1], by omega, by omega,
      fun j => (hg2.content j).trans (hg1.content j), hlast, hget, hlen, hidx⟩

theorem Placed.placePage (h : s.Placed) (hp : p < s.pages.length) {size : ℕ} (hsize : 2 ≤ size) :
    ∃ i s', s.placePage p size = some s' ∧ PlacedAt s p i s' := by
  obtain hneg | ⟨i, hi, hpos0, hpos, hlt⟩ := h.place p hp
  · obtain ⟨m, i, b, hm, hwf, hlen, hpos, hle, hcontent, hlast, hget, hblen, hbidx⟩ :=
      h.manager_grown hsize
    have hi : i < m.buffers.length := by omega
    obtain ⟨-, hmax⟩ := hwf.indexed i b hget
    refine ⟨i, (s.setPage p { s.page p with bufferIndex := i, bufferPos := 0 }).withManager
      (m.setBuffer i (b.seekEnd 0)), ?_, ?_⟩
    · rw [BPlusIndexP.placePage, if_neg (by omega), hm]
      simp [hlast, Buffer.seekEnd, hblen, hbidx]
    have hfresh : ∀ q < s.pages.length, (s.page q).bufferIndex ≠ i := by
      intro q hq heq
      obtain hq' | ⟨j, hj, -, -, hjlt⟩ := h.place q hq <;> omega
    have hseek : ∀ j, (m.setBuffer i (b.seekEnd 0)).content j = s.bufferManager.content j := by
      intro j
      rw [← hcontent j, BufferManager.content_setBuffer hi]
      split_ifs with hj
      · subst j
        simp [BufferManager.content, hget, Buffer.seekEnd]
      · rfl
    refine
      { length := setPage_length
        head := rfl
        keys := rfl
        page_ne := fun q hq => page_setPage_of_ne hq
        page := page_setPage_self hp
        placed := ?_
        pos := hpos
        lt := by simpa [withManager] using hi
        grows := by simp [withManager]; omega
        old := Or.inr ⟨hneg, hle⟩
        content := ?_ }
    · refine ⟨hwf.setBuffer hbidx hmax, Or.inr (by simp [withManager]; omega), ?_, ?_, ?_⟩
      · intro q hq
        by_cases hqp : q = p
        · rw [hqp, page_withManager, page_setPage_self hp]
          exact Or.inr ⟨i, rfl, rfl, hpos, by simpa [withManager] using hi⟩
        · rw [page_withManager, page_setPage_of_ne hqp]
          obtain hq' | ⟨j, hj, hj0, hjpos, hjlt⟩ := h.place q (by simpa [withManager] using hq)
          · exact Or.inl hq'
          · exact Or.inr ⟨j, hj, hj0, hjpos, by simp [withManager]; omega⟩
      · intro q hq r hr heq hne
        have hq' : q < s.pages.length := by simpa [withManager] using hq
        have hr' : r < s.pages.length := by simpa [withManager] using hr
        simp only [page_withManager] at heq hne
        by_cases hqp : q = p <;> by_cases hrp : r = p
        · rw [hqp, hrp]
        · rw [hqp, page_setPage_self hp, page_setPage_of_ne hrp] at heq
          exact absurd heq.symm (hfresh r hr')
        · rw [hrp, page_setPage_self hp, page_setPage_of_ne hqp] at heq
          exact absurd heq (hfresh q hq')
        · rw [page_setPage_of_ne hqp] at heq hne
          rw [page_setPage_of_ne hrp] at heq
          exact h.distinct q hq' r hr' heq hne
      · change KeysImage s.keys (((m.setBuffer i (b.seekEnd 0)).content 0).drop 16)
        rw [hseek 0]
        exact h.control
    · exact hseek
  · refine ⟨i, s, ?_, ⟨rfl, rfl, rfl, fun q _ => rfl, ?_, h, hpos, hlt, le_rfl, Or.inl hi,
      fun j => rfl⟩⟩
    · rw [BPlusIndexP.placePage, if_pos (by omega)]
    · rw [← hi, ← hpos0]

theorem PageImage.two_le_length (i : PageImage) : 2 ≤ i.write.length := by
  simp [PageImage.write]
  omega

/-- The two writes that put a page image at the start of its buffer. -/
theorem writeFrame_content (b : Buffer) (image : PageImage) :
    ((((b.seek 0).writeInt image.write.length).writeChars image.write).content) =
      image.frame ++ (b.content.drop 4).drop (4 + image.write.length) := by
  have h1 : overwrite b.content 0 (writeInt image.write.length) =
      writeInt image.write.length ++ b.content.drop 4 := by
    rw [overwrite_zero, writeInt_length]
  have h2 := overwrite_append (writeInt image.write.length) (b.content.drop 4)
    (writeChars image.write)
  rw [writeInt_length, writeChars_length] at h2
  change overwrite (overwrite b.content 0 (writeInt image.write.length))
    (0 + (writeInt image.write.length).length) (writeChars image.write) = _
  rw [h1, writeInt_length, Nat.zero_add, h2, PageImage.frame, List.append_assoc]

/-- The head position at the start of the control buffer. -/
theorem writeHead_content (b : Buffer) (i : ℕ) :
    (((b.seek 0).writeLong i).writeLong 0).content = headPosition i ++ b.content.drop 16 := by
  have h1 : overwrite b.content 0 (writeLong i) = writeLong i ++ b.content.drop 8 := by
    rw [overwrite_zero, writeLong_length]
  have h2 := overwrite_append (writeLong i) (b.content.drop 8) (writeLong 0)
  rw [writeLong_length, writeLong_length, List.drop_drop] at h2
  change overwrite (overwrite b.content 0 (writeLong i)) (0 + (writeLong i).length)
    (writeLong 0) = _
  rw [h1, writeLong_length, Nat.zero_add, h2, headPosition, List.append_assoc]

/-- A step that leaves the places of the pages alone keeps them well-formed; new pages have no
place yet. -/
theorem Placed.of_same {s s' : BPlusIndexP} (h : s.Placed)
    (hplace : ∀ q < s'.pages.length, (s'.page q).bufferIndex = -1 ∨ q < s.pages.length ∧
      (s'.page q).bufferIndex = (s.page q).bufferIndex ∧
      (s'.page q).bufferPos = (s.page q).bufferPos)
    (hwf : s'.bufferManager.WF)
    (hbuf : s'.bufferManager.buffers.length = s.bufferManager.buffers.length)
    (hcontrol : KeysImage s'.keys ((s'.bufferManager.content 0).drop 16)) : s'.Placed := by
  refine ⟨hwf, ?_, ?_, ?_, hcontrol⟩
  · exact h.count.imp (fun hnil => List.length_eq_zero_iff.1 (by rw [hbuf, hnil]; rfl))
      (fun hle => hbuf ▸ hle)
  · intro q hq
    obtain hneg | ⟨hlt, hidx, hpos⟩ := hplace q hq
    · exact Or.inl hneg
    · rw [hidx, hpos, hbuf]
      exact h.place q hlt
  · intro q hq r hr heq hne
    obtain hneg | ⟨hq', hqi, -⟩ := hplace q hq
    · exact absurd hneg hne
    obtain hneg | ⟨hr', hri, -⟩ := hplace r hr
    · exact absurd (heq.trans hneg) hne
    · exact h.distinct q hq' r hr' (by omega) (by omega)

theorem Placed.of_sameManager {s s' : BPlusIndexP} (h : s.Placed)
    (hplace : ∀ q < s'.pages.length, (s'.page q).bufferIndex = -1 ∨ q < s.pages.length ∧
      (s'.page q).bufferIndex = (s.page q).bufferIndex ∧
      (s'.page q).bufferPos = (s.page q).bufferPos)
    (hmanager : s'.bufferManager = s.bufferManager) (hkeys : s'.keys = s.keys) : s'.Placed :=
  h.of_same hplace (hmanager ▸ h.wf) (by rw [hmanager]) (by
    rw [hmanager, hkeys]
    exact h.control)

theorem recordHead_spec {m : BufferManager} (hwf : m.WF) (h0 : 0 < m.buffers.length)
    (page : IndexPage) (i : ℕ) (hi : page.bufferIndex = i) (hpos : page.bufferPos = 0) :
    ∃ m', recordHead m page = some m' ∧ m'.WF ∧ m'.buffers.length = m.buffers.length ∧
      ∀ j, m'.content j = if j = 0 ∧ page.parentElement = none then
        headPosition i ++ (m.content 0).drop 16 else m.content j := by
  by_cases hparent : page.parentElement = none
  · obtain ⟨b, hget, hbi, hbm, hbc⟩ := hwf.getBuffer h0
    have hget' : m.getBuffer 0 = some b := hget
    refine ⟨m.setBuffer 0 (((b.seek 0).writeLong i).writeLong 0), ?_,
      hwf.setBuffer (j := 0) hbi hbm, by rw [BufferManager.setBuffer_length], fun j => ?_⟩
    · simp [recordHead, hparent, hget', hi, hpos]
    · have hset := BufferManager.content_setBuffer h0 (((b.seek 0).writeLong i).writeLong 0) j
      rw [writeHead_content, hbc] at hset
      simpa [hparent] using hset
  · exact ⟨m, by simp [recordHead, hparent], hwf, rfl, fun j => by simp [hparent]⟩

theorem Placed.persistPage (h : s.Placed) (hp : p < s.pages.length) :
    ∃ i s', s.persistPage p = some s' ∧ Persisted s p i s' := by
  obtain ⟨i, s1, hs1, h1⟩ := h.placePage hp (PageImage.two_le_length (s.pageImage p))
  obtain ⟨b, hget, hbi, hbm, hbc⟩ := h1.placed.wf.getBuffer h1.lt
  have hp1 : p < s1.pages.length := by
    rw [h1.length]
    exact hp
  -- the page image goes to buffer `i`
  obtain ⟨m, hm⟩ : ∃ m, m = s1.bufferManager.setBuffer i
      (((b.seek 0).writeInt (s.pageImage p).write.length).writeChars (s.pageImage p).write) :=
    ⟨_, rfl⟩
  have hmwf : m.WF := hm ▸ h1.placed.wf.setBuffer hbi hbm
  have hmlen : m.buffers.length = s1.bufferManager.buffers.length := by
    rw [hm, BufferManager.setBuffer_length]
  have hmcontent : ∀ j, m.content j = if j = i then (s.pageImage p).frame ++
      (b.content.drop 4).drop (4 + (s.pageImage p).write.length) else
      s.bufferManager.content j := by
    intro j
    rw [hm, BufferManager.content_setBuffer h1.lt, writeFrame_content, h1.content]
  obtain ⟨m', hm', hm'wf, hm'len, hm'content⟩ := recordHead_spec hmwf (by
    have := h1.lt
    omega) (s1.page p) i (by rw [h1.page]) (by rw [h1.page])
  have hparent : (s1.page p).parentElement = (s.page p).parentElement := by rw [h1.page]
  have hpages : ∀ q, q ≠ p →
      ((s1.setPage p { s1.page p with isLoaded := true }).withManager m').page q = s1.page q :=
    fun q hq => page_setPage_of_ne hq
  have hcontrol : KeysImage s1.keys ((m'.content 0).drop 16) := by
    have hkeep : (m'.content 0).drop 16 = (s.bufferManager.content 0).drop 16 := by
      rw [hm'content 0, hmcontent 0, if_neg h1.pos.ne]
      split_ifs
      · rw [← headPosition_length i, List.drop_left, headPosition_length]
      · rfl
    rw [hkeep, h1.keys]
    exact h.control
  refine ⟨i, (s1.setPage p { s1.page p with isLoaded := true }).withManager m', ?_, ?_⟩
  · have hidx : (s1.page p).bufferIndex = i := by rw [h1.page]
    have hpos : (s1.page p).bufferPos = 0 := by rw [h1.page]
    simp only [BPlusIndexP.persistPage, hs1, Option.bind_eq_bind, Option.bind_some, hidx, hpos,
      hget, Int.toNat_zero, ← hm, hm']
  refine
    { length := setPage_length.trans h1.length
      head := h1.head
      keys := h1.keys
      page_ne := fun q hq => (hpages q hq).trans (h1.page_ne q hq)
      page := ?_
      placed := ?_
      pos := h1.pos
      lt := ?_
      grows := ?_
      old := h1.old
      content := ?_
      content_ne := ?_
      content_zero := ?_ }
  · rw [page_withManager, page_setPage_self hp1, h1.page]
  · refine h1.placed.of_same (fun q hq' => Or.inr ?_) hm'wf (hm'len.trans hmlen) hcontrol
    by_cases hq : q = p
    · rw [hq, page_withManager, page_setPage_self hp1]
      exact ⟨hp1, rfl, rfl⟩
    · rw [hpages q hq]
      exact ⟨by simpa [withManager] using hq', rfl, rfl⟩
  · exact h1.lt.trans_eq (hm'len.trans hmlen).symm
  · exact h1.grows.trans_eq (hm'len.trans hmlen).symm
  · refine ⟨(b.content.drop 4).drop (4 + (s.pageImage p).write.length), ?_⟩
    refine (hm'content i).trans ?_
    rw [if_neg (fun hi => h1.pos.ne' hi.1), hmcontent, if_pos rfl]
  · intro j hj hj0
    refine (hm'content j).trans ?_
    rw [if_neg (fun hi => hj0 hi.1), hmcontent, if_neg hj]
  · refine (hm'content 0).trans ?_
    rw [hparent, hmcontent, if_neg h1.pos.ne]
    simp

/-! ## Images in step with the pages -/

/-- The buffer of page `q` starts with its image. -/
def Synced (s : BPlusIndexP) (q : ℕ) : Prop :=
  ∃ (i : ℕ) (rest : List UInt8), (s.page q).bufferIndex = i ∧
    s.bufferManager.content i = (s.pageImage q).frame ++ rest

/-- Buffer 0 starts with the place of the head. -/
def HeadSynced (s : BPlusIndexP) : Prop :=
  ∃ (i : ℕ) (rest : List UInt8), (s.page s.head).bufferIndex = i ∧
    s.bufferManager.content 0 = headPosition i ++ rest

theorem HeadSynced.congr {s s' : BPlusIndexP} (h : HeadSynced s) (hhead : s'.head = s.head)
    (hidx : (s'.page s.head).bufferIndex = (s.page s.head).bufferIndex)
    (hcontent : s'.bufferManager.content 0 = s.bufferManager.content 0) : HeadSynced s' := by
  obtain ⟨i, rest, hi, hc⟩ := h
  exact ⟨i, rest, by rw [hhead, hidx, hi], hcontent.trans hc⟩

/-- Same slots and siblings. -/
structure SameSlots (a b : IndexPage) : Prop where
  elements : a.elements = b.elements
  pointers : a.pointers = b.pointers
  leftSibling : a.leftSibling = b.leftSibling
  rightSibling : a.rightSibling = b.rightSibling
  size : a.size = b.size

/-- The slots of a page hold `es` and `ps`, and it has no siblings. -/
structure Holds (page : IndexPage) (es : List Index) (ps : List ℕ) : Prop where
  shape : page.Shape es ps
  leftSibling : page.leftSibling = none
  rightSibling : page.rightSibling = none

theorem Represents.holds {s : BPlusIndexP} {T : PageTree} {n : ℕ} (h : Represents s T n) {q : ℕ}
    (hq : T.live q) (hn : n ≤ T.level q) : Holds (s.page q) (T.entries q) (T.children q) :=
  ⟨h.shape q hq hn, (h.siblings q hq).1, (h.siblings q hq).2⟩

section congr
variable {s s' : BPlusIndexP} {q : ℕ} {es : List Index} {ps : List ℕ}

/-- The image of a page is made of its slots and the places of its children. -/
theorem Holds.pageImage_congr (h : Holds (s.page q) es ps)
    (hslots : SameSlots (s'.page q) (s.page q))
    (hplace : ∀ c ∈ ps, (s'.page c).bufferIndex = (s.page c).bufferIndex ∧
      (s'.page c).bufferPos = (s.page c).bufferPos) : s'.pageImage q = s.pageImage q := by
  have hpointer : ∀ x, s'.place ((s'.page q).pointer x) = s.place ((s.page q).pointer x) := by
    intro x
    rw [IndexPage.pointer, hslots.pointers]
    change s'.place ((s.page q).pointer x) = _
    rw [h.shape.pointer_eq]
    obtain hx | ⟨c, hx⟩ := Option.eq_none_or_eq_some ps[x]?
    · rw [hx]
      rfl
    · obtain ⟨h1, h2⟩ := hplace c (List.mem_of_getElem? hx)
      rw [hx]
      simp [place, h1, h2]
  simp only [pageImage, hpointer, hslots.size, hslots.leftSibling, hslots.rightSibling,
    h.leftSibling, h.rightSibling]
  simp [IndexPage.element, hslots.elements, place]

/-- A step that leaves a page's slots, the places under it and its buffer alone. -/
theorem Holds.synced_congr (h : Holds (s.page q) es ps)
    (hslots : SameSlots (s'.page q) (s.page q))
    (hidx : (s'.page q).bufferIndex = (s.page q).bufferIndex)
    (hplace : ∀ c ∈ ps, (s'.page c).bufferIndex = (s.page c).bufferIndex ∧
      (s'.page c).bufferPos = (s.page c).bufferPos)
    (hcontent : ∀ i : ℕ, (s.page q).bufferIndex = i →
      s'.bufferManager.content i = s.bufferManager.content i)
    (hsync : Synced s q) : Synced s' q := by
  obtain ⟨i, rest, hi, hc⟩ := hsync
  refine ⟨i, rest, hidx.trans hi, ?_⟩
  rw [hcontent i hi, hc, h.pageImage_congr hslots hplace]

end congr

section persisted
variable {s s' : BPlusIndexP} {p q : ℕ} {i : ℕ} {T : PageTree} {n : ℕ}

theorem Persisted.sameSlots (h : Persisted s p i s') (q : ℕ) :
    SameSlots (s'.page q) (s.page q) := by
  by_cases hq : q = p
  · rw [hq, h.page]
    exact ⟨rfl, rfl, rfl, rfl, rfl⟩
  · rw [h.page_ne q hq]
    exact ⟨rfl, rfl, rfl, rfl, rfl⟩

theorem Persisted.parentElement (h : Persisted s p i s') (q : ℕ) :
    (s'.page q).parentElement = (s.page q).parentElement := by
  by_cases hq : q = p
  · rw [hq, h.page]
  · rw [h.page_ne q hq]

theorem IndexPage.Shape.of_sameSlots {a b : IndexPage} {es : List Index} {ps : List ℕ}
    (h : b.Shape es ps) (hs : SameSlots a b) : a.Shape es ps :=
  ⟨hs.elements.trans h.elements, hs.pointers.trans h.pointers, hs.size.trans h.size, h.le,
    h.children⟩

theorem Persisted.represents (h : Persisted s p i s') (hr : Represents s T n) :
    Represents s' T n where
  live q := by rw [h.length, hr.live q]
  head := h.head.trans hr.head
  height := by
    rw [h.length]
    exact hr.height
  parent q hq := (h.parentElement q).trans (hr.parent q hq)
  siblings q hq := by
    rw [(h.sameSlots q).leftSibling, (h.sameSlots q).rightSibling]
    exact hr.siblings q hq
  shape q hq hn := IndexPage.Shape.of_sameSlots (hr.shape q hq hn) (h.sameSlots q)

/-- Another page that has a place is not in the buffer of `p`. -/
theorem Persisted.ne_of_placed (h : Persisted s p i s') (hpl : s.Placed) (hp : p < s.pages.length)
    (hq : q < s.pages.length) (hne : q ≠ p) {j : ℕ} (hj : (s.page q).bufferIndex = j) :
    0 < j ∧ j ≠ i := by
  obtain hneg | ⟨k, hk, -, hk0, hklt⟩ := hpl.place q hq
  · omega
  refine ⟨by omega, fun hji => ?_⟩
  obtain hold | ⟨-, hold⟩ := h.old
  · exact hne (hpl.distinct q hq p hp (by omega) (by omega))
  · omega

/-- A page that had a place keeps it. -/
theorem Persisted.keeps_place (h : Persisted s p i s') (hpl : s.Placed) (hp : p < s.pages.length)
    (hplaced : (s.page p).bufferIndex ≠ -1) :
    (s'.page p).bufferIndex = (s.page p).bufferIndex ∧
      (s'.page p).bufferPos = (s.page p).bufferPos := by
  rw [h.page]
  obtain hold | ⟨hold, -⟩ := h.old
  · refine ⟨hold.symm, ?_⟩
    obtain hneg | ⟨-, -, hpos, -, -⟩ := hpl.place p hp
    · exact absurd hneg hplaced
    · exact hpos.symm
  · exact absurd hold hplaced

/-- Pages that do not list `p` keep their images; pages that do keep them if `p` had its place. -/
theorem Persisted.synced_of_ne (h : Persisted s p i s') (hpl : s.Placed) (hr : Represents s T n)
    (hp : T.live p) (hq : T.live q) (hn : n ≤ T.level q) (hne : q ≠ p)
    (hplaced : p ∈ T.children q → (s.page p).bufferIndex ≠ -1) (hsync : Synced s q) :
    Synced s' q := by
  obtain ⟨j, rest, hj, hc⟩ := hsync
  have hpl' := (hr.live p).1 hp
  obtain ⟨hj0, hji⟩ := h.ne_of_placed hpl hpl' ((hr.live q).1 hq) hne hj
  refine ⟨j, rest, by rw [h.page_ne q hne, hj], ?_⟩
  rw [h.content_ne j hji hj0.ne', hc]
  congr 2
  refine ((hr.holds hq hn).pageImage_congr (h.sameSlots q) fun c hcmem => ?_).symm
  by_cases hcp : c = p
  · subst c
    exact h.keeps_place hpl hpl' (hplaced hcmem)
  · rw [h.page_ne c hcp]
    exact ⟨rfl, rfl⟩

theorem Persisted.synced_self (h : Persisted s p i s') (hr : Represents s T n)
    (hp : T.live p) (hn : n ≤ T.level p) (hself : p ∉ T.children p) : Synced s' p := by
  obtain ⟨rest, hc⟩ := h.content
  refine ⟨i, rest, by rw [h.page], ?_⟩
  rw [hc]
  congr 2
  refine ((hr.holds hp hn).pageImage_congr (h.sameSlots p) fun c hcmem => ?_).symm
  rw [h.page_ne c fun hcp => hself (hcp ▸ hcmem)]
  exact ⟨rfl, rfl⟩

/-- Writing the head brings its place to buffer 0; writing another page leaves it there. -/
theorem Persisted.headSynced (h : Persisted s p i s')
    (hhead : (s.page p).parentElement = none ↔ p = s.head)
    (hsync : p ≠ s.head → HeadSynced s) : HeadSynced s' := by
  by_cases hp : p = s.head
  · refine ⟨i, (s.bufferManager.content 0).drop 16, by rw [h.head, ← hp, h.page], ?_⟩
    rw [h.content_zero, if_pos (hhead.2 hp)]
  · obtain ⟨j, rest, hj, hc⟩ := hsync hp
    refine ⟨j, rest, by rw [h.head, h.page_ne _ (Ne.symm hp), hj], ?_⟩
    rw [h.content_zero, if_neg (fun hpar => hp (hhead.1 hpar)), hc]

end persisted

end BPlusIndexP
end Djondb
