import Djondb.IndexRuns

set_option autoImplicit false

/-!
# Pages and the ends of their buffers

A page is written in place as it fills up. Its image grows with the keys and the document ids of
its entries, and nothing compares it with the buffer that the page was given. The levels of the
pages say which pages an addition writes.
-/
namespace Djondb

/-! ## Arrays and what is in them -/

section arrays
variable {α : Type} {c : α}

theorem mem_getD {a : List (Option α)} {x : ℕ} (h : a.getD x none = some c) : some c ∈ a := by
  rw [List.getD_eq_getElem?_getD] at h
  cases hx : a[x]? with
  | none =>
    rw [hx] at h
    cases h
  | some b =>
    rw [hx, Option.getD_some] at h
    exact h ▸ List.mem_of_getElem? hx

/-- Writing a slot adds what is written. -/
theorem mem_set {a : List (Option α)} {x : ℕ} {e : Option α} (h : some c ∈ a.set x e) :
    some c ∈ a ∨ e = some c := by
  rcases List.mem_or_eq_of_mem_set h with h | h
  · exact Or.inl h
  · exact Or.inr h.symm

theorem mem_set_none {a : List (Option α)} {x : ℕ} (h : some c ∈ a.set x none) : some c ∈ a :=
  (mem_set h).resolve_right fun h => nomatch h

theorem mem_set_getD {a : List (Option α)} {x y : ℕ} (h : some c ∈ a.set x (a.getD y none)) :
    some c ∈ a := by
  rcases mem_set h with h | h
  · exact h
  · exact mem_getD h

theorem mem_shiftRightLoop {start n : ℕ} {a : List (Option α)}
    (h : some c ∈ shiftRightLoop start n a) : some c ∈ a := by
  induction n generalizing a with
  | zero => exact h
  | succ n ih =>
    unfold shiftRightLoop at h
    split_ifs at h
    · exact mem_set_getD (mem_set_none (ih h))
    · exact h

theorem mem_shiftLeftLoop {x n : ℕ} {a : List (Option α)} (h : some c ∈ shiftLeftLoop x n a) :
    some c ∈ a := by
  induction n generalizing x a with
  | zero => exact h
  | succ n ih =>
    unfold shiftLeftLoop at h
    exact mem_set_getD (mem_set_none (ih h))

theorem mem_foldl_of_step {β : Type} {f : List (Option α) → β → List (Option α)}
    (hf : ∀ a x, some c ∈ f a x → some c ∈ a) {xs : List β} {a : List (Option α)}
    (h : some c ∈ xs.foldl f a) : some c ∈ a := by
  induction xs generalizing a with
  | nil => exact h
  | cons x xs ih => exact hf a x (ih h)

theorem mem_shiftRightArray {a : List (Option α)} {start count size : ℕ}
    (h : some c ∈ shiftRightArray a start count size) : some c ∈ a :=
  mem_foldl_of_step (fun _ _ => mem_shiftRightLoop) h

theorem mem_shiftLeftArray {a : List (Option α)} {start count size : ℕ}
    (h : some c ∈ shiftLeftArray a start count size) : some c ∈ a :=
  mem_foldl_of_step (fun _ _ => mem_shiftLeftLoop) h

theorem mem_initializeArray {a : List (Option α)} {size : ℕ}
    (h : some c ∈ initializeArray a size) : some c ∈ a :=
  mem_foldl_of_step (fun _ _ => mem_set_none) h

theorem mem_insertArray {a : List (Option α)} {e : Option α} {pos length : ℕ}
    (h : some c ∈ insertArray a e pos length) : some c ∈ a ∨ e = some c :=
  (mem_set h).imp_left mem_shiftRightArray

theorem mem_copyArray {source destination : List (Option α)} {first last offset : ℕ}
    (h : some c ∈ copyArray source destination first last offset) :
    some c ∈ destination ∨ some c ∈ source := by
  unfold copyArray at h
  generalize last + 1 - first = n at h
  induction n generalizing first offset destination with
  | zero => exact Or.inl h
  | succ n ih =>
    rcases ih h with h | h
    · rcases mem_set h with h | h
      · exact Or.inl h
      · exact Or.inr (mem_getD h)
    · exact Or.inr h

theorem not_mem_mallocArray (size : ℕ) : some c ∉ mallocArray size := by
  intro h
  exact nomatch List.eq_of_mem_replicate h

end arrays

/-! ## The pointers of changed pages -/

namespace IndexPage
variable {page : IndexPage} {c : ℕ}

theorem mem_pointers {x : ℕ} (h : page.pointer x = some c) : some c ∈ page.pointers := mem_getD h

theorem not_mem_new : some c ∉ new.pointers := fun h =>
  not_mem_mallocArray _ (mem_initializeArray h)

theorem mem_insertAt {pos : ℕ} {index : Index} {right : Option ℕ}
    (h : some c ∈ (page.insertAt pos index right).pointers) :
    some c ∈ page.pointers ∨ right = some c :=
  (mem_set h).imp_left mem_shiftRightArray

theorem mem_tmppointers {index : Index} {right : Option ℕ}
    (h : some c ∈ page.tmppointers index right) : some c ∈ page.pointers ∨ right = some c := by
  rcases mem_insertArray h with h | h
  · left
    rcases mem_copyArray h with h | h
    · exact absurd (mem_initializeArray h) (not_mem_mallocArray _)
    · exact h
  · exact Or.inr h

theorem mem_keepPointers {pointers : List (Option ℕ)}
    (h : some c ∈ (page.keepPointers pointers).pointers) :
    some c ∈ page.pointers ∨ some c ∈ pointers :=
  (mem_copyArray h).imp_left mem_initializeArray

theorem mem_takePointers {pointers : List (Option ℕ)}
    (h : some c ∈ (page.takePointers pointers).pointers) :
    some c ∈ page.pointers ∨ some c ∈ pointers := mem_copyArray h

theorem clean_place (page : IndexPage) :
    page.clean.bufferIndex = page.bufferIndex ∧ page.clean.bufferPos = page.bufferPos := ⟨rfl, rfl⟩

theorem clean_parentElement (page : IndexPage) : page.clean.parentElement = page.parentElement := rfl

theorem mem_clean (h : some c ∈ page.clean.pointers) : some c ∈ page.pointers :=
  mem_foldl_of_step (fun _ _ => mem_set_none) (mem_set_none h)

theorem mem_dropFirst (h : some c ∈ page.dropFirst.pointers) : some c ∈ page.pointers :=
  mem_shiftLeftArray h

theorem mem_root {element : Option Index} {left right : ℕ}
    (h : some c ∈ (root element left right).pointers) : c = left ∨ c = right := by
  rcases mem_set h with h | h
  · rcases mem_set h with h | h
    · exact absurd h not_mem_new
    · exact Or.inl (Option.some.inj h).symm
  · exact Or.inr (Option.some.inj h).symm

end IndexPage
namespace BPlusIndexP
open Bytes

/-! ## The length of an image -/

/-- What an entry adds to the image of an empty slot. -/
def slotLength : Option Index → ℕ
  | some e => 19 + (e.key.length + e.documentId.length)
  | none => 0

/-- What the entries of a page add to the image of an empty page. -/
def load (page : IndexPage) : ℕ :=
  ((List.range BUCKET_MAX_ELEMENTS).map fun x => slotLength (page.element x)).sum

/-- The bytes that an empty page takes, with its size in front. -/
def emptyLength : ℕ := 272

theorem persistIndexElement_length_eq (e : Option Index) :
    (persistIndexElement e).length = 32 + slotLength e := by
  cases e with
  | none => rfl
  | some e =>
    have hid : e.documentId.length = e.documentId.bytes.length := rfl
    have hkey : e.key.length = e.key.bytes.length := rfl
    have hname : (writeString idKey).length = 7 := rfl
    unfold persistIndexElement slotLength keyBSON writeBSON BSONObj.writeFields BSONContent.write
    rw [List.length_append, List.length_append, List.length_append, List.length_append,
      List.length_append, List.length_append, List.length_append, List.length_append, hname,
      writeInt_length, writeLong_length, writeLong_length, writeLong_length, writeLong_length,
      writeChars_length, writeChars_length]
    change 4 + ((8 + (7 + (8 + (4 + e.key.bytes.length + 0)))) +
      (4 + e.documentId.bytes.length + (8 + 8))) = 32 + (19 + (e.key.length + e.documentId.length))
    omega

theorem persistPointer_length (place : Option (ℤ × ℤ)) : (persistPointer place).length = 12 := by
  cases place with
  | none => rfl
  | some place =>
    unfold persistPointer
    rw [List.length_append, List.length_append, writeInt_length, writeInt_length, writeInt_length]

theorem persistSlots_length_eq (slots : List (Option Index × Option (ℤ × ℤ))) :
    (persistSlots slots).length =
      44 * slots.length + (slots.map fun slot => slotLength slot.1).sum := by
  induction slots with
  | nil => rfl
  | cons slot slots ih =>
    unfold persistSlots
    rw [List.length_append, List.length_append, persistIndexElement_length_eq,
      persistPointer_length, ih, List.map_cons, List.sum_cons, List.length_cons]
    omega

theorem frame_length (s : BPlusIndexP) (p : ℕ) :
    (s.pageImage p).frame.length = emptyLength + load (s.page p) := by
  have hload : ((s.pageImage p).slots.map fun slot => slotLength slot.1).sum = load (s.page p) := by
    unfold pageImage load
    rw [List.map_map]
    rfl
  have hslots : (s.pageImage p).slots.length = BUCKET_MAX_ELEMENTS := by
    unfold pageImage
    rw [List.length_map, List.length_range]
  unfold PageImage.frame PageImage.write
  rw [List.length_append, writeChars_length, List.length_append, List.length_append,
    List.length_append, List.length_append, List.length_append, persistSlots_length_eq, hload,
    hslots, persistPointer_length, persistPointer_length, persistPointer_length, writeInt_length,
    writeInt_length, writeInt_length, BUCKET_MAX_ELEMENTS, emptyLength]
  omega

/-! ## What a run keeps -/

/-- No write has gone behind the end of a buffer. The bytes of a buffer grow with the writes that go
behind the last one, and never shrink. -/
def Inside (s : BPlusIndexP) : Prop := ∀ j, (s.bufferManager.content j).length ≤ pageSize

/-- Page `q` is in memory, and its image has been written. -/
def Covered (s : BPlusIndexP) (q : ℕ) : Prop :=
  (s.page q).isLoaded = true ∧ ∃ i : ℕ, (s.page q).bufferIndex = i ∧
    emptyLength + load (s.page q) ≤ (s.bufferManager.content i).length

/-- Links lead from a level to another: pointers down, and parents up. -/
structure Layered (level : ℕ → ℕ) (s : BPlusIndexP) : Prop where
  wf : s.bufferManager.WF
  head : s.head < s.pages.length
  place : ∀ q, (s.page q).bufferIndex = -1 ∨ (s.page q).bufferPos = 0
  parent : ∀ q P, (s.page q).parentElement = some P → P < s.pages.length ∧ level q < level P
  pointer : ∀ q c, some c ∈ (s.page q).pointers → c < s.pages.length ∧ level c < level q

/-- Pages below level `n` are left alone, and what has been written are pages from level `n` on, as
they are now. -/
structure Moved (level level' : ℕ → ℕ) (n : ℕ) (s s' : BPlusIndexP) : Prop where
  layered : Layered level' s'
  pages_le : s.pages.length ≤ s'.pages.length
  level_eq : ∀ q < s.pages.length, level' q = level q
  new_level : ∀ q < s'.pages.length, s.pages.length ≤ q → n ≤ level' q
  below : ∀ q < s.pages.length, level q < n → (s'.page q).elements = (s.page q).elements ∧
    (s'.page q).bufferIndex = (s.page q).bufferIndex ∧
      (s'.page q).isLoaded = (s.page q).isLoaded
  grows : ∀ j, (s.bufferManager.content j).length ≤ (s'.bufferManager.content j).length
  written : ∀ j, (s'.bufferManager.content j).length ≤ (s.bufferManager.content j).length ∨
    (s'.bufferManager.content j).length ≤ 16 ∨ ∃ q < s'.pages.length, n ≤ level' q ∧
      (s'.bufferManager.content j).length ≤ emptyLength + load (s'.page q)

theorem load_congr {a b : IndexPage} (h : a.elements = b.elements) : load a = load b := by
  unfold load IndexPage.element
  rw [h]

section places
variable {s s' : BPlusIndexP} {level : ℕ → ℕ} {p : ℕ}

/-- A page that gets a buffer gets an empty one. -/
theorem Layered.manager_grown (h : Layered level s) {size : ℕ} (hsize : 2 ≤ size) :
    ∃ (m : BufferManager) (i : ℕ) (b : Buffer),
      (if s.bufferManager.buffersCount > 1 then s.bufferManager.getCurrentBuffer size false
        else (s.bufferManager.getCurrentBuffer size true).getCurrentBuffer size true) = m ∧
      m.WF ∧ (∀ j, m.content j = s.bufferManager.content j) ∧ m.buffers.getLast? = some b ∧
      m.buffers[i]? = some b ∧ b.bufferLength = 0 ∧ b.bufferIndex = i := by
  by_cases hcount : s.bufferManager.buffersCount > 1
  · have hg := h.wf.getCurrentBuffer hsize false
    rcases hg.last with ⟨b, hlast, hget, hlen, hidx⟩
    exact ⟨_, _, b, if_pos hcount, hg.wf, hg.content, hlast, hget, hlen, hidx⟩
  · have hg1 := h.wf.getCurrentBuffer hsize true
    have hg2 := hg1.wf.getCurrentBuffer hsize true
    rcases hg2.last with ⟨b, hlast, hget, hlen, hidx⟩
    exact ⟨_, _, b, if_neg hcount, hg2.wf, fun j => (hg2.content j).trans (hg1.content j), hlast,
      hget, hlen, hidx⟩

/-- `placePage` changes the place of one page, and writes nothing. -/
structure PlacedAnew (s : BPlusIndexP) (p : ℕ) (s' : BPlusIndexP) : Prop where
  wf : s'.bufferManager.WF
  length : s'.pages.length = s.pages.length
  head : s'.head = s.head
  page_ne : ∀ q, q ≠ p → s'.page q = s.page q
  page : ∃ i, s'.page p = { s.page p with bufferIndex := i, bufferPos := 0 } ∧ i > -1
  content : ∀ j, s'.bufferManager.content j = s.bufferManager.content j

theorem Layered.placePage (h : Layered level s) (hp : p < s.pages.length) {size : ℕ}
    (hsize : 2 ≤ size) (hs : s.placePage p size = some s') : PlacedAnew s p s' := by
  unfold BPlusIndexP.placePage at hs
  by_cases hplaced : (s.page p).bufferIndex > -1
  · rw [if_pos hplaced] at hs
    cases hs
    have hpos : (s.page p).bufferPos = 0 := (h.place p).resolve_left (by omega)
    refine ⟨h.wf, rfl, rfl, fun _ _ => rfl, ⟨(s.page p).bufferIndex, ?_, hplaced⟩, fun _ => rfl⟩
    rw [← hpos]
  · rcases h.manager_grown hsize with ⟨m, i, b, hm, hwf, hcontent, hlast, hget, hlen, hidx⟩
    rw [if_neg hplaced, hm] at hs
    dsimp only at hs
    rw [hlast] at hs
    cases hs
    have hi : i < m.buffers.length := (List.getElem?_eq_some_iff.1 hget).1
    rcases hwf.indexed i b hget with ⟨-, hmax⟩
    refine ⟨?_, setPage_length, rfl, fun q hq => page_setPage_of_ne hq,
      ⟨(i : ℤ), ?_, by omega⟩, fun j => ?_⟩
    · rw [hidx]
      exact hwf.setBuffer hidx hmax
    · rw [page_withManager, page_setPage_self hp, hidx]
      have hseek : (b.seekEnd 0).currentPos = 0 := by
        change b.bufferLength - 0 = 0
        rw [hlen]
      rw [hseek]
      rfl
    · change (m.setBuffer b.bufferIndex (b.seekEnd 0)).content j = _
      rw [hidx, BufferManager.content_setBuffer hi, ← hcontent j]
      split_ifs with hj
      · subst hj
        unfold BufferManager.content
        rw [hget]
        rfl
      · rfl

/-- What `persistPage` does to page `p` and to the buffers. -/
structure PageWritten (s : BPlusIndexP) (p : ℕ) (s' : BPlusIndexP) : Prop where
  wf : s'.bufferManager.WF
  length : s'.pages.length = s.pages.length
  head : s'.head = s.head
  page_ne : ∀ q, q ≠ p → s'.page q = s.page q
  page : ∃ i, s'.page p = { s.page p with bufferIndex := i, bufferPos := 0, isLoaded := true }
  covered : Covered s' p
  grows : ∀ j, (s.bufferManager.content j).length ≤ (s'.bufferManager.content j).length
  written : ∀ j, (s'.bufferManager.content j).length ≤ (s.bufferManager.content j).length ∨
    (s'.bufferManager.content j).length ≤ 16 ∨
      (s'.bufferManager.content j).length ≤ emptyLength + load (s.page p)

theorem getBuffer_some {m : BufferManager} {index : ℤ} {b : Buffer}
    (h : m.getBuffer index = some b) : ∃ i : ℕ, index = i ∧ i < m.buffers.length ∧
      m.buffers[i]? = some b := by
  unfold BufferManager.getBuffer BufferManager.buffersCount at h
  split_ifs at h with hout
  refine ⟨index.toNat, ?_, ?_, h⟩ <;> omega

theorem Layered.persistPage (h : Layered level s) (hp : p < s.pages.length)
    (hs : s.persistPage p = some s') : PageWritten s p s' := by
  rcases Option.bind_eq_some_iff.1 hs with ⟨s1, hs1, hs⟩
  rcases Option.bind_eq_some_iff.1 hs with ⟨b, hb, hs⟩
  rcases Option.bind_eq_some_iff.1 hs with ⟨m', hm', hs⟩
  cases hs
  have h1 := h.placePage hp (PageImage.two_le_length (s.pageImage p)) hs1
  rcases h1.page with ⟨index, hpage, -⟩
  rcases getBuffer_some hb with ⟨i, hi, hlt, hget⟩
  rcases h1.wf.indexed i b hget with ⟨hbi, hbm⟩
  have hp1 : p < s1.pages.length := by
    rw [h1.length]
    exact hp
  have hpos : (s1.page p).bufferPos.toNat = 0 := by
    rw [hpage]
    rfl
  rw [hpos, hi] at hm'
  -- the image goes to buffer `i`, and its place perhaps to the control buffer
  obtain ⟨m, hm⟩ : ∃ m, m = s1.bufferManager.setBuffer i
      (((b.seek 0).writeInt (s.pageImage p).write.length).writeChars (s.pageImage p).write) :=
    ⟨_, rfl⟩
  have hwf : m.WF := hm ▸ h1.wf.setBuffer hbi hbm
  have hmlen : m.buffers.length = s1.bufferManager.buffers.length := by
    rw [hm, BufferManager.setBuffer_length]
  have hbc : b.content = s.bufferManager.content i := by
    rw [← h1.content i]
    unfold BufferManager.content
    rw [hget]
    rfl
  have hframe := frame_length s p
  have hframe' : (s.pageImage p).frame.length = 8 + (s.pageImage p).write.length := by
    unfold PageImage.frame
    rw [List.length_append, writeInt_length, writeChars_length]
    omega
  have himage : ∀ j, (m.content j).length = if j = i then
      max (s.bufferManager.content i).length (emptyLength + load (s.page p))
      else (s.bufferManager.content j).length := by
    intro j
    rw [hm, BufferManager.content_setBuffer hlt, writeFrame_content, h1.content, hbc]
    split_ifs
    · rw [List.length_append, List.length_drop, List.length_drop, ← hframe]
      omega
    · rfl
  rcases recordHead_spec hwf (by omega) (s1.page p) i hi (by rw [hpage])
    with ⟨manager, hmanager, hwf', -, hcontent⟩
  rw [← hm, hmanager] at hm'
  cases hm'
  have hhead : ∀ j, (m'.content j).length = if j = 0 ∧ (s1.page p).parentElement = none then
      max (m.content j).length 16 else (m.content j).length := by
    intro j
    rw [hcontent]
    split_ifs with hj
    · rw [List.length_append, headPosition_length, List.length_drop, hj.1]
      omega
    · rfl
  have hlength : ∀ j, (s.bufferManager.content j).length ≤ (m'.content j).length ∧
      ((m'.content j).length ≤ (s.bufferManager.content j).length ∨
        (m'.content j).length ≤ 16 ∨ (m'.content j).length ≤ emptyLength + load (s.page p)) ∧
          (j = i → emptyLength + load (s.page p) ≤ (m'.content j).length) := by
    intro j
    rw [hhead, himage]
    by_cases hj : j = i
    · subst hj
      rw [if_pos rfl]
      split_ifs <;> omega
    · rw [if_neg hj]
      split_ifs <;> omega
  have hself : ((s1.setPage p { s1.page p with isLoaded := true }).withManager m').page p =
      { s.page p with bufferIndex := index, bufferPos := 0, isLoaded := true } := by
    rw [page_withManager, page_setPage_self hp1, hpage]
  refine ⟨hwf', setPage_length.trans h1.length, h1.head, fun q hq => ?_, ⟨index, hself⟩, ?_,
    fun j => (hlength j).1, fun j => (hlength j).2.1⟩
  · rw [page_withManager, page_setPage_of_ne hq, h1.page_ne q hq]
  · unfold Covered
    rw [hself]
    refine ⟨rfl, i, ?_, ?_⟩
    · rw [hpage] at hi
      exact hi
    · exact (hlength i).2.2 rfl

end places

/-! ## Steps that write nothing, and writes of one page -/

section steps
variable {s s' s1 : BPlusIndexP} {level level' level1 : ℕ → ℕ} {p q n m : ℕ}

theorem Covered.congr (h : Covered s q) (helements : (s'.page q).elements = (s.page q).elements)
    (hindex : (s'.page q).bufferIndex = (s.page q).bufferIndex)
    (hloaded : (s'.page q).isLoaded = (s.page q).isLoaded)
    (hgrows : ∀ j, (s.bufferManager.content j).length ≤ (s'.bufferManager.content j).length) :
    Covered s' q := by
  rcases h with ⟨hload, i, hi, hle⟩
  refine ⟨hloaded.trans hload, i, hindex.trans hi, ?_⟩
  rw [load_congr helements]
  exact hle.trans (hgrows i)

theorem Moved.covered (h : Moved level level' n s s') (hq : q < s.pages.length) (hn : level q < n)
    (hc : Covered s q) : Covered s' q := by
  rcases h.below q hq hn with ⟨helements, hindex, hloaded⟩
  exact hc.congr helements hindex hloaded h.grows

/-- What the first part has written, the second leaves as it is. -/
theorem Moved.trans (h1 : Moved level level1 m s s1) (h2 : Moved level1 level' n s1 s')
    (hnm : n ≤ m) (hkeep : (∀ j, s1.bufferManager.content j = s.bufferManager.content j) ∨
      ∀ q < s1.pages.length, m ≤ level1 q → (s'.page q).elements = (s1.page q).elements) :
    Moved level level' n s s' where
  layered := h2.layered
  pages_le := h1.pages_le.trans h2.pages_le
  level_eq q hq := (h2.level_eq q (hq.trans_le h1.pages_le)).trans (h1.level_eq q hq)
  new_level q hq hnew := by
    by_cases hq1 : q < s1.pages.length
    · rw [h2.level_eq q hq1]
      exact hnm.trans (h1.new_level q hq1 hnew)
    · exact h2.new_level q hq (Nat.le_of_not_lt hq1)
  below q hq hn := by
    have hlevel := h1.level_eq q hq
    rcases h1.below q hq (hn.trans_le hnm) with ⟨he1, hi1, hl1⟩
    rcases h2.below q (hq.trans_le h1.pages_le) (hlevel ▸ hn) with ⟨he2, hi2, hl2⟩
    exact ⟨he2.trans he1, hi2.trans hi1, hl2.trans hl1⟩
  grows j := (h1.grows j).trans (h2.grows j)
  written j := by
    rcases h2.written j with hold | h16 | hpage
    · rcases h1.written j with hold1 | h16 | ⟨q, hq, hqn, hle⟩
      · exact Or.inl (hold.trans hold1)
      · exact Or.inr (Or.inl (hold.trans h16))
      · rcases hkeep with hsame | hkeep
        · left
          rw [← hsame j]
          exact hold
        · refine Or.inr (Or.inr ⟨q, hq.trans_le h2.pages_le, ?_, ?_⟩)
          · rw [h2.level_eq q hq]
            exact hnm.trans hqn
          · rw [load_congr (hkeep q hq hqn)]
            exact hold.trans hle
    · exact Or.inr (Or.inl h16)
    · exact Or.inr (Or.inr hpage)

theorem PageWritten.elements (h : PageWritten s p s') (q : ℕ) :
    (s'.page q).elements = (s.page q).elements ∧ (s'.page q).pointers = (s.page q).pointers ∧
      (s'.page q).parentElement = (s.page q).parentElement := by
  by_cases hq : q = p
  · rcases h.page with ⟨i, hpage⟩
    rw [hq, hpage]
    exact ⟨rfl, rfl, rfl⟩
  · rw [h.page_ne q hq]
    exact ⟨rfl, rfl, rfl⟩

theorem PageWritten.moved (h : PageWritten s p s') (hl : Layered level s) (hp : p < s.pages.length)
    (hn : n ≤ level p) : Moved level level n s s' where
  layered :=
    { wf := h.wf
      head := by
        rw [h.head, h.length]
        exact hl.head
      place := fun q => by
        by_cases hq : q = p
        · rcases h.page with ⟨i, hpage⟩
          rw [hq, hpage]
          exact Or.inr rfl
        · rw [h.page_ne q hq]
          exact hl.place q
      parent := fun q P hP => by
        rw [(h.elements q).2.2] at hP
        rw [h.length]
        exact hl.parent q P hP
      pointer := fun q c hc => by
        rw [(h.elements q).2.1] at hc
        rw [h.length]
        exact hl.pointer q c hc }
  pages_le := h.length.ge
  level_eq _ _ := rfl
  new_level q hq hnew := by
    rw [h.length] at hq
    omega
  below q hq hlow := by
    have hne : q ≠ p := by
      intro hqp
      rw [hqp] at hlow
      omega
    rw [h.page_ne q hne]
    exact ⟨rfl, rfl, rfl⟩
  grows := h.grows
  written j := by
    rcases h.written j with hold | h16 | hle
    · exact Or.inl hold
    · exact Or.inr (Or.inl h16)
    · refine Or.inr (Or.inr ⟨p, h.length ▸ hp, hn, ?_⟩)
      rw [load_congr (h.elements p).1]
      exact hle

theorem PageWritten.keeps (h : PageWritten s p s') (hc : Covered s q) : Covered s' q := by
  by_cases hq : q = p
  · exact hq ▸ h.covered
  · have hpage := h.page_ne q hq
    exact hc.congr (by rw [hpage]) (by rw [hpage]) (by rw [hpage]) h.grows

end steps

/-! ## Links -/

section links
variable {s s' t : BPlusIndexP} {level level' : ℕ → ℕ} {p q n P : ℕ}

/-- Some pages that `P` points to have it as their parent now. -/
structure Relinked (P : ℕ) (s s' : BPlusIndexP) : Prop where
  length : s'.pages.length = s.pages.length
  head : s'.head = s.head
  bufferManager : s'.bufferManager = s.bufferManager
  page : ∀ q, s'.page q = s.page q ∨
    some q ∈ (s.page P).pointers ∧ s'.page q = withParent (s.page q) (some P)

theorem Relinked.links (h : Relinked P s s') (q : ℕ) :
    (s'.page q).pointers = (s.page q).pointers ∧ (s'.page q).elements = (s.page q).elements ∧
      (s'.page q).bufferIndex = (s.page q).bufferIndex ∧
        (s'.page q).bufferPos = (s.page q).bufferPos ∧
          (s'.page q).isLoaded = (s.page q).isLoaded := by
  rcases h.page q with hq | ⟨-, hq⟩
  · rw [hq]
    exact ⟨rfl, rfl, rfl, rfl, rfl⟩
  · rw [hq]
    exact ⟨rfl, rfl, rfl, rfl, rfl⟩

theorem page_setParent_cases (t : BPlusIndexP) (c : ℕ) (parent : Option ℕ) (q : ℕ) :
    (t.setParent c parent).page q = t.page q ∨
      q = c ∧ (t.setParent c parent).page q = withParent (t.page q) parent := by
  by_cases hc : c < t.pages.length
  · rw [page_setParent hc]
    split_ifs with hq
    · right
      exact ⟨hq, by rw [hq]⟩
    · exact Or.inl rfl
  · left
    rw [setParent, setPage, List.set_eq_of_length_le (Nat.le_of_not_lt hc)]

theorem Relinked.setParent (h : Relinked P s t) {c : ℕ} (hc : some c ∈ (s.page P).pointers) :
    Relinked P s (t.setParent c (some P)) where
  length := setPage_length.trans h.length
  head := h.head
  bufferManager := h.bufferManager
  page q := by
    rcases page_setParent_cases t c (some P) q with hq | ⟨hqc, hq⟩
    · rw [hq]
      exact h.page q
    · right
      rw [hq]
      refine ⟨hqc ▸ hc, ?_⟩
      rcases h.page q with hold | ⟨-, hold⟩
      · rw [hold]
      · rw [hold]
        rfl

theorem relinked_refresh (s : BPlusIndexP) (P : ℕ) :
    Relinked P s (s.refreshParentRelationship P) := by
  have hslots : ∀ (xs : List ℕ) (t : BPlusIndexP), Relinked P s t →
      Relinked P s (refreshSlots t P xs) := by
    intro xs
    induction xs with
    | nil => exact fun _ h => h
    | cons x xs ih =>
      intro t ht
      have hstep : Relinked P s (refreshSlots t P [x]) := by
        rw [refreshSlots, List.foldl_cons, List.foldl_nil]
        cases hx : (t.page P).pointer x with
        | none => exact ht
        | some c =>
          have hc := IndexPage.mem_pointers hx
          rw [(ht.links P).1] at hc
          exact ht.setParent hc
      exact ih _ hstep
  exact hslots _ s ⟨rfl, rfl, rfl, fun _ => Or.inl rfl⟩

/-- A step that only changes pages from level `n` on and links, and writes nothing. -/
theorem moved_silent (hl : Layered level' s') (hmanager : s'.bufferManager = s.bufferManager)
    (hlen : s.pages.length ≤ s'.pages.length) (hlevel : ∀ q < s.pages.length, level' q = level q)
    (hnew : ∀ q < s'.pages.length, s.pages.length ≤ q → n ≤ level' q)
    (hbelow : ∀ q < s.pages.length, level q < n → (s'.page q).elements = (s.page q).elements ∧
      (s'.page q).bufferIndex = (s.page q).bufferIndex ∧
        (s'.page q).isLoaded = (s.page q).isLoaded) : Moved level level' n s s' where
  layered := hl
  pages_le := hlen
  level_eq := hlevel
  new_level := hnew
  below := hbelow
  grows j := by rw [hmanager]
  written j := Or.inl (by rw [hmanager])

theorem Relinked.layered (h : Relinked P s s') (hl : Layered level s) (hP : P < s.pages.length) :
    Layered level s' where
  wf := h.bufferManager ▸ hl.wf
  head := by
    rw [h.head, h.length]
    exact hl.head
  place q := by
    rw [(h.links q).2.2.1, (h.links q).2.2.2.1]
    exact hl.place q
  parent q P' hP' := by
    rw [h.length]
    rcases h.page q with hq | ⟨hmem, hq⟩
    · rw [hq] at hP'
      exact hl.parent q P' hP'
    · rw [hq] at hP'
      cases hP'
      exact ⟨hP, (hl.pointer P q hmem).2⟩
  pointer q c hc := by
    rw [(h.links q).1] at hc
    rw [h.length]
    exact hl.pointer q c hc

theorem Relinked.moved (h : Relinked P s s') (hl : Layered level s) (hP : P < s.pages.length)
    (n : ℕ) : Moved level level n s s' := by
  apply moved_silent (h.layered hl hP) h.bufferManager h.length.ge (fun _ _ => rfl)
  · intro q hq hnew
    rw [h.length] at hq
    omega
  · intro q _ _
    exact ⟨(h.links q).2.1, (h.links q).2.2.1, (h.links q).2.2.2.2⟩

theorem Relinked.covered (h : Relinked P s s') (hc : Covered s q) : Covered s' q := by
  apply hc.congr (h.links q).2.1 (h.links q).2.2.1 (h.links q).2.2.2.2
  intro j
  rw [h.bufferManager]

/-- A page that is changed in place. -/
theorem Layered.setPage (hl : Layered level s) {pg : IndexPage}
    (hplace : pg.bufferIndex = (s.page p).bufferIndex ∧ pg.bufferPos = (s.page p).bufferPos)
    (hparent : pg.parentElement = (s.page p).parentElement)
    (hpointer : ∀ c, some c ∈ pg.pointers → c < s.pages.length ∧ level c < level p) :
    Layered level (s.setPage p pg) := by
  have hpage : ∀ q, (s.setPage p pg).page q = s.page q ∨ q = p ∧ (s.setPage p pg).page q = pg := by
    intro q
    by_cases hq : q = p
    · by_cases hp : p < s.pages.length
      · right
        rw [hq]
        exact ⟨rfl, page_setPage_self hp⟩
      · left
        rw [BPlusIndexP.setPage, List.set_eq_of_length_le (Nat.le_of_not_lt hp)]
    · exact Or.inl (page_setPage_of_ne hq)
  refine ⟨hl.wf, ?_, fun q => ?_, fun q P hP => ?_, fun q c hc => ?_⟩
  · rw [setPage_length]
    exact hl.head
  · rcases hpage q with hq | ⟨hqp, hq⟩
    · rw [hq]
      exact hl.place q
    · rw [hq, hplace.1, hplace.2]
      exact hl.place p
  · rw [setPage_length]
    rcases hpage q with hq | ⟨hqp, hq⟩
    · rw [hq] at hP
      exact hl.parent q P hP
    · rw [hq, hparent] at hP
      rw [hqp]
      exact hl.parent p P hP
  · rw [setPage_length]
    rcases hpage q with hq | ⟨hqp, hq⟩
    · rw [hq] at hc
      exact hl.pointer q c hc
    · rw [hq] at hc
      rw [hqp]
      exact hpointer c hc

theorem setPage_moved {pg : IndexPage} (hl : Layered level (s.setPage p pg)) (hn : n ≤ level p) :
    Moved level level n s (s.setPage p pg) := by
  apply moved_silent (s := s) hl rfl setPage_length.ge (fun _ _ => rfl)
  · intro q hq hnew
    rw [setPage_length] at hq
    omega
  · intro q _ hlow
    have hne : q ≠ p := by
      intro hqp
      rw [hqp] at hlow
      omega
    rw [page_setPage_of_ne hne]
    exact ⟨rfl, rfl, rfl⟩

theorem covered_setPage {pg : IndexPage} (hq : q ≠ p) (hc : Covered s q) :
    Covered (s.setPage p pg) q := by
  have hpage : (s.setPage p pg).page q = s.page q := page_setPage_of_ne hq
  exact hc.congr (by rw [hpage]) (by rw [hpage]) (by rw [hpage]) fun _ => le_refl _

theorem page_of_le (s : BPlusIndexP) {q : ℕ} (h : s.pages.length ≤ q) :
    s.page q = IndexPage.new := by
  unfold page
  rw [List.getD_eq_getElem?_getD, List.getElem?_eq_none h]
  rfl

theorem page_newPage_cases (s : BPlusIndexP) (pg : IndexPage) (q : ℕ) :
    (s.newPage pg).page q = s.page q ∨
      q = s.pages.length ∧ (s.newPage pg).page q = pg := by
  rcases Nat.lt_trichotomy q s.pages.length with hq | hq | hq
  · exact Or.inl (page_newPage_of_lt hq)
  · right
    rw [hq]
    exact ⟨rfl, page_newPage_self⟩
  · left
    rw [page_of_le _ hq.le, page_of_le]
    rw [newPage_length]
    exact hq

/-- The levels with that of a new page. -/
def levelWith (level : ℕ → ℕ) (q n : ℕ) : ℕ → ℕ := Function.update level q n

theorem levelWith_of_lt {q' : ℕ} (h : q' < q) : levelWith level q n q' = level q' :=
  Function.update_of_ne h.ne _ _

/-- A new page without a place and without a parent. -/
theorem Layered.newPage (hl : Layered level s) {pg : IndexPage} (hindex : pg.bufferIndex = -1)
    (hparent : pg.parentElement = none)
    (hpointer : ∀ c, some c ∈ pg.pointers → c < s.pages.length ∧ level c < n) :
    Layered (levelWith level s.pages.length n) (s.newPage pg) := by
  refine ⟨hl.wf, ?_, fun q => ?_, fun q P hP => ?_, fun q c hc => ?_⟩
  · rw [newPage_length]
    exact Nat.lt_succ_of_lt hl.head
  · rcases page_newPage_cases s pg q with hq | ⟨-, hq⟩
    · rw [hq]
      exact hl.place q
    · rw [hq]
      exact Or.inl hindex
  · rw [newPage_length]
    rcases page_newPage_cases s pg q with hq | ⟨-, hq⟩
    · rw [hq] at hP
      have hlt : q < s.pages.length := by
        by_contra hge
        rw [page_of_le s (Nat.le_of_not_lt hge)] at hP
        cases hP
      rcases hl.parent q P hP with ⟨hP', hlevel⟩
      rw [levelWith_of_lt hlt, levelWith_of_lt hP']
      exact ⟨Nat.lt_succ_of_lt hP', hlevel⟩
    · rw [hq, hparent] at hP
      cases hP
  · rw [newPage_length]
    rcases page_newPage_cases s pg q with hq | ⟨hqn, hq⟩
    · rw [hq] at hc
      have hlt : q < s.pages.length := by
        by_contra hge
        rw [page_of_le s (Nat.le_of_not_lt hge)] at hc
        exact IndexPage.not_mem_new hc
      rcases hl.pointer q c hc with ⟨hc', hlevel⟩
      rw [levelWith_of_lt hlt, levelWith_of_lt hc']
      exact ⟨Nat.lt_succ_of_lt hc', hlevel⟩
    · rw [hq] at hc
      rcases hpointer c hc with ⟨hc', hlevel⟩
      rw [levelWith_of_lt hc', hqn, levelWith, Function.update_self]
      exact ⟨Nat.lt_succ_of_lt hc', hlevel⟩

theorem newPage_moved {pg : IndexPage} {k : ℕ}
    (hl : Layered (levelWith level s.pages.length k) (s.newPage pg)) (hn : n ≤ k) :
    Moved level (levelWith level s.pages.length k) n s (s.newPage pg) := by
  apply moved_silent (s := s) hl rfl
  · rw [newPage_length]
    exact Nat.le_succ _
  · exact fun q hq => levelWith_of_lt hq
  · intro q hq hnew
    rw [newPage_length] at hq
    have hqn : q = s.pages.length := by omega
    rw [hqn, levelWith, Function.update_self]
    exact hn
  · intro q hq _
    rw [page_newPage_of_lt hq]
    exact ⟨rfl, rfl, rfl⟩

theorem covered_newPage {pg : IndexPage} (hq : q < s.pages.length) (hc : Covered s q) :
    Covered (s.newPage pg) q := by
  have hpage : (s.newPage pg).page q = s.page q := page_newPage_of_lt hq
  exact hc.congr (by rw [hpage]) (by rw [hpage]) (by rw [hpage]) fun _ => le_refl _

/-- A page gets a parent on a level above. -/
theorem Layered.setParent (hl : Layered level s) {c : ℕ} (hP : P < s.pages.length)
    (hlevel : level c < level P) : Layered level (s.setParent c (some P)) := by
  have hsame : ∀ q, ((s.setParent c (some P)).page q).pointers = (s.page q).pointers ∧
      ((s.setParent c (some P)).page q).bufferIndex = (s.page q).bufferIndex ∧
        ((s.setParent c (some P)).page q).bufferPos = (s.page q).bufferPos := by
    intro q
    rcases page_setParent_cases s c (some P) q with hq | ⟨-, hq⟩
    · rw [hq]
      exact ⟨rfl, rfl, rfl⟩
    · rw [hq]
      exact ⟨rfl, rfl, rfl⟩
  have hlen : (s.setParent c (some P)).pages.length = s.pages.length := setPage_length
  refine ⟨hl.wf, ?_, fun q => ?_, fun q P' hP' => ?_, fun q d hd => ?_⟩
  · rw [hlen]
    exact hl.head
  · rw [(hsame q).2.1, (hsame q).2.2]
    exact hl.place q
  · rw [hlen]
    rcases page_setParent_cases s c (some P) q with hq | ⟨hqc, hq⟩
    · rw [hq] at hP'
      exact hl.parent q P' hP'
    · rw [hq] at hP'
      cases hP'
      exact ⟨hP, hqc ▸ hlevel⟩
  · rw [(hsame q).1] at hd
    rw [hlen]
    exact hl.pointer q d hd

theorem setParent_moved {c : ℕ} {parent : Option ℕ} (hl : Layered level (s.setParent c parent))
    (n : ℕ) : Moved level level n s (s.setParent c parent) := by
  apply moved_silent (s := s) hl rfl setPage_length.ge (fun _ _ => rfl)
  · intro q hq hnew
    have hlen : (s.setParent c parent).pages.length = s.pages.length := setPage_length
    omega
  · intro q _ _
    rcases page_setParent_cases s c parent q with hq | ⟨-, hq⟩
    · rw [hq]
      exact ⟨rfl, rfl, rfl⟩
    · rw [hq]
      exact ⟨rfl, rfl, rfl⟩

theorem covered_setParent {c : ℕ} {parent : Option ℕ} (hc : Covered s q) :
    Covered (s.setParent c parent) q := by
  rcases page_setParent_cases s c parent q with hq | ⟨-, hq⟩
  · exact hc.congr (by rw [hq]) (by rw [hq]) (by rw [hq]) fun _ => le_refl _
  · exact hc.congr (by rw [hq]; rfl) (by rw [hq]; rfl) (by rw [hq]; rfl) fun _ => le_refl _

end links

/-! ## An addition -/

section adding
variable {s s' : BPlusIndexP} {level : ℕ → ℕ} {p right n : ℕ}

/-- Both pages have `q` as their parent, which is not written yet. -/
def AwaitsParent (s : BPlusIndexP) (p right q : ℕ) : Prop :=
  (s.page p).parentElement = some q ∧ (s.page right).parentElement = some q

theorem finishSplit_moved (hl : Layered level s) (hp : p < s.pages.length)
    (hright : right < s.pages.length) (hlevel : level right = level p)
    (hcov : ∀ q < s.pages.length, level p ≤ level q → q ≠ p → q ≠ right →
      Covered s q ∨ AwaitsParent s p right q) (hs : s.finishSplit p right = some s') :
    Moved level level (level p) s s' ∧ (∀ q < s'.pages.length, level p ≤ level q → Covered s' q) ∧
      ∀ q, (s'.page q).elements = (s.page q).elements := by
  rcases Option.bind_eq_some_iff.1 hs with ⟨s1, hs1, hrest1⟩
  rcases Option.bind_eq_some_iff.1 hrest1 with ⟨s2, hs2, hrest2⟩
  rcases Option.bind_eq_some_iff.1 hrest2 with ⟨s3, hs3, hrest3⟩
  -- the links of the right page's parent
  rcases Option.map_eq_some_iff.1 hs1 with ⟨P, hP, rfl⟩
  have hPlt := hl.parent right P hP
  have hrelinked := relinked_refresh s P
  have hl1 := hrelinked.layered hl hPlt.1
  have hm1 := hrelinked.moved hl hPlt.1 (level p)
  have hlen1 := hrelinked.length
  -- the three writes
  have hw2 := hl1.persistPage (by omega) hs2
  have hm2 := hw2.moved hl1 (by omega) (le_refl (level p))
  have hlen2 := hw2.length
  have hw3 := hm2.layered.persistPage (by omega) hs3
  have hm3 := hw3.moved hm2.layered (by omega) hlevel.ge
  have hlen3 := hw3.length
  rcases Option.bind_eq_some_iff.1 hrest3 with ⟨P', hP', hs4⟩
  have hP'lt := hm3.layered.parent p P' hP'
  have hw4 := hm3.layered.persistPage hP'lt.1 hs4
  have hm4 := hw4.moved hm3.layered hP'lt.1 hP'lt.2.le
  have hlen4 := hw4.length
  have helements : ∀ q, (s'.page q).elements = (s.page q).elements := by
    intro q
    rw [(hw4.elements q).1, (hw3.elements q).1, (hw2.elements q).1, (hrelinked.links q).2.1]
  have h12 := hm1.trans hm2 (le_refl _) (Or.inl fun j => by rw [hrelinked.bufferManager])
  have h13 := h12.trans hm3 (le_refl _) (Or.inr fun q _ _ => (hw3.elements q).1)
  have h14 := h13.trans hm4 (le_refl _) (Or.inr fun q _ _ => (hw4.elements q).1)
  refine ⟨h14, fun q hq hn => ?_, helements⟩
  by_cases hqp : q = p
  · rw [hqp]
    exact hw4.keeps (hw3.keeps hw2.covered)
  · by_cases hqr : q = right
    · rw [hqr]
      exact hw4.keeps hw3.covered
    · rcases hcov q (by omega) hn hqp hqr with hc | ⟨hpq, hrq⟩
      · exact hw4.keeps (hw3.keeps (hw2.keeps (hrelinked.covered hc)))
      · have hPq : P = q := Option.some.inj (hP.symm.trans hrq)
        have hparent : ((s.refreshParentRelationship P).page p).parentElement = some q := by
          rcases hrelinked.page p with hold | ⟨-, hnew⟩
          · rw [hold]
            exact hpq
          · rw [hnew, hPq]
            rfl
        rw [(hw3.elements p).2.2, (hw2.elements p).2.2, hparent] at hP'
        rw [Option.some.inj hP']
        exact hw4.covered

/-- `add` writes the pages that it changes, from the level of its page on. -/
def WritesUp (add : AddElement) : Prop :=
  ∀ (level : ℕ → ℕ) (s : BPlusIndexP) (p : ℕ) (e : Index) (right : Option ℕ) (s' : BPlusIndexP),
    Layered level s → p < s.pages.length →
      (∀ r, right = some r → r < s.pages.length ∧ level r < level p) →
        (∀ q < s.pages.length, level p ≤ level q → Covered s q) → add s p e right = some s' →
          ∃ level', Moved level level' (level p) s s' ∧
            ∀ q < s'.pages.length, level p ≤ level' q → Covered s' q

/-- A new root above both pages, which have it as their parent. -/
theorem createRoot_moved (hl : Layered level s) (hp : p < s.pages.length)
    (hright : right < s.pages.length) (hlevel : level right = level p) (e : Index) :
    Moved level (levelWith level s.pages.length (level p + 1)) (level p + 1) s
        (s.createRoot (some e) p right) ∧
      (s.createRoot (some e) p right).pages.length = s.pages.length + 1 ∧
        AwaitsParent (s.createRoot (some e) p right) p right s.pages.length ∧
          ∀ q < s.pages.length, Covered s q → Covered (s.createRoot (some e) p right) q := by
  obtain ⟨root, hroot⟩ : ∃ root, root = s.pages.length := ⟨_, rfl⟩
  obtain ⟨level', hlevel'⟩ : ∃ level', level' = levelWith level s.pages.length (level p + 1) :=
    ⟨_, rfl⟩
  obtain ⟨s1, hs1⟩ : ∃ s1, s1 = s.newPage (IndexPage.root (some e) p right) := ⟨_, rfl⟩
  have hlevelp : level' p = level p := by rw [hlevel', levelWith_of_lt hp]
  have hlevelr : level' right = level p := by rw [hlevel', levelWith_of_lt hright, hlevel]
  have hlevelroot : level' root = level p + 1 := by
    rw [hlevel', hroot, levelWith, Function.update_self]
  have hl1 : Layered level' s1 := by
    rw [hlevel', hs1]
    apply hl.newPage rfl rfl
    intro c hc
    rcases IndexPage.mem_root hc with rfl | rfl
    · exact ⟨hp, Nat.lt_succ_self _⟩
    · exact ⟨hright, hlevel ▸ Nat.lt_succ_self _⟩
  have hlen1 : s1.pages.length = s.pages.length + 1 := by rw [hs1, newPage_length]
  obtain ⟨s2, hs2⟩ : ∃ s2 : BPlusIndexP, s2 = { s1 with head := root } := ⟨_, rfl⟩
  have hl2 : Layered level' s2 := by
    rw [hs2]
    refine ⟨hl1.wf, ?_, hl1.place, hl1.parent, hl1.pointer⟩
    change root < s1.pages.length
    omega
  have hlen2 : s2.pages.length = s.pages.length + 1 := by
    rw [hs2]
    exact hlen1
  have hl3 := hl2.setParent (c := p) (P := root) (by omega) (by omega)
  have hlen3 : (s2.setParent p (some root)).pages.length = s.pages.length + 1 :=
    setPage_length.trans hlen2
  have hl4 := hl3.setParent (c := right) (P := root) (by omega) (by omega)
  have hlen4 : ((s2.setParent p (some root)).setParent right (some root)).pages.length =
      s.pages.length + 1 := setPage_length.trans hlen3
  have hmanager2 : s2.bufferManager = s.bufferManager := by
    rw [hs2, hs1]
    rfl
  have hm2 : Moved level level' (level p + 1) s s2 := by
    apply moved_silent hl2 hmanager2 (by omega)
    · intro q hq
      rw [hlevel', levelWith_of_lt hq]
    · intro q hq hnew
      have hqroot : q = root := by omega
      rw [hqroot, hlevelroot]
    · intro q hq _
      rw [hs2, hs1]
      change ((s.newPage _).page q).elements = _ ∧ ((s.newPage _).page q).bufferIndex = _ ∧
        ((s.newPage _).page q).isLoaded = _
      rw [page_newPage_of_lt hq]
      exact ⟨rfl, rfl, rfl⟩
  have hm3 := hm2.trans (setParent_moved hl3 (level p + 1)) (le_refl _)
    (Or.inl fun j => by rw [hmanager2])
  have hm4 := hm3.trans (setParent_moved hl4 (level p + 1)) (le_refl _)
    (Or.inl fun j => congrArg (fun m => BufferManager.content m j) hmanager2)
  have hstate : s.createRoot (some e) p right =
      (s2.setParent p (some root)).setParent right (some root) := by
    rw [hs2, hs1, hroot]
    rfl
  rw [hstate, ← hlevel', ← hroot]
  refine ⟨hm4, hlen4.trans (by rw [hroot]), ⟨?_, ?_⟩, fun q hq hc => ?_⟩
  · have hpage3 : (s2.setParent p (some root)).page p =
        { s2.page p with parentElement := some root } :=
      (page_setParent (by omega)).trans (if_pos rfl)
    rcases page_setParent_cases (s2.setParent p (some root)) right (some root) p with
      hold | ⟨-, hnew⟩
    · rw [hold, hpage3]
    · rw [hnew]
      rfl
  · have hpage4 : ((s2.setParent p (some root)).setParent right (some root)).page right =
        { (s2.setParent p (some root)).page right with parentElement := some root } :=
      (page_setParent (by omega)).trans (if_pos rfl)
    rw [hpage4]
  · have hc1 : Covered s1 q := by
      rw [hs1]
      exact covered_newPage (hroot ▸ hq) hc
    have hc2 : Covered s2 q := by
      rw [hs2]
      exact hc1
    exact covered_setParent (covered_setParent hc2)

theorem promote_moved {add : AddElement} (hadd : WritesUp add) (hl : Layered level s)
    (hp : p < s.pages.length) (hright : right < s.pages.length) (hlevel : level right = level p)
    (hcov : ∀ q < s.pages.length, level p < level q → Covered s q) {e : Index}
    (hs : promote add s p e right = some s') :
    ∃ level', Moved level level' (level p + 1) s s' ∧ ∀ q < s'.pages.length, level p < level' q →
      Covered s' q ∨ AwaitsParent s' p right q := by
  unfold promote at hs
  cases hparent : (s.page p).parentElement with
  | some P =>
    rw [hparent] at hs
    dsimp only at hs
    rcases hl.parent p P hparent with ⟨hPlt, hPlevel⟩
    have hr : ∀ r, some right = some r → r < s.pages.length ∧ level r < level P := by
      intro r hr
      cases hr
      exact ⟨hright, hlevel ▸ hPlevel⟩
    have hcovP : ∀ q < s.pages.length, level P ≤ level q → Covered s q :=
      fun q hq hle => hcov q hq (hPlevel.trans_le hle)
    rcases hadd level s P e (some right) s' hl hPlt hr hcovP hs with ⟨level', hm, hc⟩
    have hm' : Moved level level' (level p + 1) s s' :=
      { hm with
        new_level := fun q hq hnew => le_trans hPlevel (hm.new_level q hq hnew)
        below := fun q hq hlow => hm.below q hq (by omega)
        written := fun j => by
          rcases hm.written j with hold | h16 | ⟨q, hq, hqn, hle⟩
          · exact Or.inl hold
          · exact Or.inr (Or.inl h16)
          · exact Or.inr (Or.inr ⟨q, hq, le_trans hPlevel hqn, hle⟩) }
    refine ⟨level', hm', fun q hq hn => Or.inl ?_⟩
    by_cases hle : level P ≤ level' q
    · exact hc q hq hle
    · have hq' : q < s.pages.length := by
        by_contra hge
        exact hle (hm.new_level q hq (Nat.le_of_not_lt hge))
      have hlevelq := hm.level_eq q hq'
      exact hm.covered hq' (by omega) (hcov q hq' (by omega))
  | none =>
    rw [hparent] at hs
    dsimp only at hs
    cases hs
    rcases createRoot_moved hl hp hright hlevel e with ⟨hm, hlen, hawaits, hkeep⟩
    refine ⟨_, hm, fun q hq hn => ?_⟩
    by_cases hqroot : q = s.pages.length
    · rw [hqroot]
      exact Or.inr hawaits
    · left
      have hq' : q < s.pages.length := by omega
      rw [levelWith_of_lt hq'] at hn
      exact hkeep q hq' (hcov q hq' hn)

/-- The first half of a split: what page `p` keeps, and a new page with the rest. -/
theorem splitStart_moved (hl : Layered level s) (hp : p < s.pages.length) {left pg : IndexPage}
    (hplace : left.bufferIndex = (s.page p).bufferIndex ∧ left.bufferPos = (s.page p).bufferPos)
    (hparent : left.parentElement = (s.page p).parentElement)
    (hleft : ∀ c, some c ∈ left.pointers → c < s.pages.length ∧ level c < level p)
    (hindex : pg.bufferIndex = -1) (hnone : pg.parentElement = none)
    (hpg : ∀ c, some c ∈ pg.pointers → c < s.pages.length ∧ level c < level p)
    (hs : s' = (((s.setPage p left).newPage pg).refreshParentRelationship p).refreshParentRelationship
      s.pages.length) :
    Moved level (levelWith level s.pages.length (level p)) (level p) s s' ∧
      s'.bufferManager = s.bufferManager ∧ s'.pages.length = s.pages.length + 1 ∧
        ∀ q < s.pages.length, q ≠ p → Covered s q → Covered s' q := by
  have hl1 := hl.setPage hplace hparent hleft
  have hm1 := setPage_moved hl1 (le_refl (level p))
  have hlen1 : (s.setPage p left).pages.length = s.pages.length := setPage_length
  have hl2 := hl1.newPage (n := level p) hindex hnone (by
    intro c hc
    rw [hlen1]
    exact hpg c hc)
  have hm2 := newPage_moved hl2 (le_refl (level p))
  have hlen2 : ((s.setPage p left).newPage pg).pages.length = s.pages.length + 1 := by
    rw [newPage_length, hlen1]
  have hr3 := relinked_refresh ((s.setPage p left).newPage pg) p
  have hm3 := hr3.moved hl2 (by omega) (level p)
  have hr4 := relinked_refresh (((s.setPage p left).newPage pg).refreshParentRelationship p)
    s.pages.length
  have hm4 := hr4.moved hm3.layered (by rw [hr3.length]; omega) (level p)
  have hmanager3 : (((s.setPage p left).newPage pg).refreshParentRelationship p).bufferManager =
      s.bufferManager := hr3.bufferManager
  have h12 := hm1.trans hm2 (le_refl _) (Or.inl fun _ => rfl)
  have h13 := h12.trans hm3 (le_refl _) (Or.inl fun _ => rfl)
  have h14 := h13.trans hm4 (le_refl _) (Or.inl fun j => by rw [hmanager3])
  rw [hlen1] at h14
  rw [hs]
  refine ⟨h14, hr4.bufferManager.trans hmanager3, ?_, fun q hq hqp hc => ?_⟩
  · rw [hr4.length, hr3.length, hlen2]
  · exact hr4.covered (hr3.covered (covered_newPage (hlen1.symm ▸ hq) (covered_setPage hqp hc)))

/-- The second half of a split: promotion, and the writes. `f` is what happens to the new page in
between. -/
theorem splitEnd_moved {add : AddElement} (hadd : WritesUp add) {s1 s2 : BPlusIndexP}
    (h1 : Moved level (levelWith level s.pages.length (level p)) (level p) s s1)
    (hmanager : s1.bufferManager = s.bufferManager) (hlen : s1.pages.length = s.pages.length + 1)
    (hp : p < s.pages.length)
    (hcov : ∀ q < s.pages.length, q ≠ p → level p ≤ level q → Covered s1 q)
    {f : IndexPage → IndexPage} (hplace : ∀ page, (f page).bufferIndex = page.bufferIndex ∧
      (f page).bufferPos = page.bufferPos)
    (hparent : ∀ page, (f page).parentElement = page.parentElement)
    (hpointers : ∀ page c, some c ∈ (f page).pointers → some c ∈ page.pointers) {e : Index}
    (hs2 : promote add s1 p e s.pages.length = some s2)
    (hs : (s2.setPage s.pages.length (f (s2.page s.pages.length))).finishSplit p s.pages.length =
      some s') :
    ∃ level', Moved level level' (level p) s s' ∧
      ∀ q < s'.pages.length, level p ≤ level' q → Covered s' q := by
  obtain ⟨right, hright⟩ : ∃ right, right = s.pages.length := ⟨_, rfl⟩
  rw [← hright] at hs2 hs
  obtain ⟨level1, hlevel1⟩ : ∃ level1, level1 = levelWith level s.pages.length (level p) := ⟨_, rfl⟩
  rw [← hlevel1] at h1
  have hold : ∀ q < s.pages.length, level1 q = level q := fun q hq => by
    rw [hlevel1, levelWith_of_lt hq]
  have hlevelp := hold p hp
  have hlevelr : level1 right = level p := by
    rw [hlevel1, hright, levelWith, Function.update_self]
  -- promotion
  have hcov1 : ∀ q < s1.pages.length, level1 p < level1 q → Covered s1 q := by
    intro q hq hlt
    have hqr : q ≠ right := by
      intro hqr
      rw [hqr, hlevelr, hlevelp] at hlt
      exact lt_irrefl _ hlt
    have hq' : q < s.pages.length := by omega
    have hqp : q ≠ p := by
      intro hqp
      rw [hqp] at hlt
      exact lt_irrefl _ hlt
    rw [hlevelp, hold q hq'] at hlt
    exact hcov q hq' hqp hlt.le
  rcases promote_moved hadd h1.layered (by omega) (by omega) (by omega) hcov1 hs2
    with ⟨level2, hm2, hc2⟩
  have hlen2 := hm2.pages_le
  have hkeep2 : ∀ q < s1.pages.length, level2 q = level1 q := hm2.level_eq
  have hlevelp2 : level2 p = level p := by rw [hkeep2 p (by omega), hlevelp]
  have hlevelr2 : level2 right = level p := by rw [hkeep2 right (by omega), hlevelr]
  -- the new page changes once more
  have hl3 := hm2.layered.setPage (p := right) (hplace (s2.page right)) (hparent (s2.page right))
    fun c hc => hm2.layered.pointer right c (hpointers _ c hc)
  have hm3 := setPage_moved hl3 (le_refl (level2 right))
  have hlen3 : (s2.setPage right (f (s2.page right))).pages.length = s2.pages.length :=
    setPage_length
  have hcov3 : ∀ q < (s2.setPage right (f (s2.page right))).pages.length, level2 p ≤ level2 q →
      q ≠ p → q ≠ right → Covered (s2.setPage right (f (s2.page right))) q ∨
        AwaitsParent (s2.setPage right (f (s2.page right))) p right q := by
    intro q hq hn hqp hqr
    have hstep : Covered s2 q ∨ AwaitsParent s2 p right q := by
      by_cases hlt : level1 p < level2 q
      · exact hc2 q (by omega) hlt
      · have hq1 : q < s1.pages.length := by
          by_contra hge
          have hnew := hm2.new_level q (by omega) (Nat.le_of_not_lt hge)
          omega
        have hq' : q < s.pages.length := by omega
        have hlevelq := hkeep2 q hq1
        have hlevelq' := hold q hq'
        left
        exact hm2.covered hq1 (by omega) (hcov q hq' hqp (by omega))
    rcases hstep with hc | ⟨hpq, hrq⟩
    · exact Or.inl (covered_setPage hqr hc)
    · right
      have hne : p ≠ right := by omega
      refine ⟨?_, ?_⟩
      · rw [page_setPage_of_ne hne]
        exact hpq
      · rw [page_setPage_self (by omega), hparent]
        exact hrq
  rcases finishSplit_moved hl3 (by omega) (by omega) (by omega) hcov3 hs
    with ⟨hm4, hc4, helements⟩
  have h34 := hm3.trans (n := level p) (by rw [hlevelp2] at hm4; exact hm4) (by omega)
    (Or.inl fun _ => rfl)
  have h24 : Moved level1 level2 (level p) s1 s' := by
    apply hm2.trans h34 (by omega)
    right
    intro q hq hn
    have hqr : q ≠ right := by
      intro hqr
      rw [hqr] at hn
      omega
    rw [helements q, page_setPage_of_ne hqr]
  refine ⟨level2, h1.trans h24 (le_refl _) (Or.inl fun j => by rw [hmanager]), fun q hq hn => ?_⟩
  exact hc4 q hq (by omega)

theorem splitAddLeaf_moved {add : AddElement} (hadd : WritesUp add) (hl : Layered level s)
    (hp : p < s.pages.length) (hcov : ∀ q < s.pages.length, level p ≤ level q → Covered s q)
    {e : Index} (hs : splitAddLeaf add s p e = some s') :
    ∃ level', Moved level level' (level p) s s' ∧
      ∀ q < s'.pages.length, level p ≤ level' q → Covered s' q := by
  obtain ⟨left, hleft⟩ : ∃ left, left = ((s.page p).keepElements ((s.page p).tmpelements e)).clean :=
    ⟨_, rfl⟩
  obtain ⟨pg, hpg⟩ : ∃ pg, pg = IndexPage.new.takeElements ((s.page p).tmpelements e) := ⟨_, rfl⟩
  obtain ⟨s1, hs1⟩ : ∃ s1, s1 = (((s.setPage p left).newPage pg).refreshParentRelationship
    p).refreshParentRelationship s.pages.length := ⟨_, rfl⟩
  have heq : splitAddLeaf add s p e = ((s1.page s.pages.length).element 0).bind fun copy =>
      (promote add s1 p copy s.pages.length).bind fun s2 => s2.finishSplit p s.pages.length := by
    rw [hs1, hleft, hpg]
    rfl
  rw [heq] at hs
  rcases Option.bind_eq_some_iff.1 hs with ⟨copy, -, hrest⟩
  rcases Option.bind_eq_some_iff.1 hrest with ⟨s2, hs2, hfinish⟩
  have hplace : left.bufferIndex = (s.page p).bufferIndex ∧ left.bufferPos = (s.page p).bufferPos := by
    rw [hleft]
    exact IndexPage.clean_place _
  have hparent : left.parentElement = (s.page p).parentElement := by
    rw [hleft]
    exact IndexPage.clean_parentElement _
  have hpointers : ∀ c, some c ∈ left.pointers → c < s.pages.length ∧ level c < level p := by
    intro c hc
    rw [hleft] at hc
    have hkept : some c ∈ ((s.page p).keepElements ((s.page p).tmpelements e)).pointers :=
      IndexPage.mem_clean hc
    exact hl.pointer p c hkept
  have hnew : ∀ c, some c ∈ pg.pointers → c < s.pages.length ∧ level c < level p := by
    intro c hc
    rw [hpg] at hc
    exact absurd hc IndexPage.not_mem_new
  rcases splitStart_moved hl hp hplace hparent hpointers (hpg ▸ rfl) (hpg ▸ rfl) hnew hs1
    with ⟨h1, hmanager, hlen, hkeep⟩
  apply splitEnd_moved (f := id) hadd h1 hmanager hlen hp
    (fun q hq hqp hn => hkeep q hq hqp (hcov q hq hn)) (fun _ => ⟨rfl, rfl⟩) (fun _ => rfl)
    (fun _ _ hc => hc) hs2
  rw [id, setPage_page_self]
  exact hfinish

theorem splitAddInner_moved {add : AddElement} (hadd : WritesUp add) (hl : Layered level s)
    (hp : p < s.pages.length) {r : Option ℕ}
    (hr : ∀ c, r = some c → c < s.pages.length ∧ level c < level p)
    (hcov : ∀ q < s.pages.length, level p ≤ level q → Covered s q)
    {e : Index} (hs : splitAddInner add s p e r = some s') :
    ∃ level', Moved level level' (level p) s s' ∧
      ∀ q < s'.pages.length, level p ≤ level' q → Covered s' q := by
  obtain ⟨left, hleft⟩ : ∃ left, left = (((s.page p).keepElements
    ((s.page p).tmpelements e)).keepPointers ((s.page p).tmppointers e r)).clean := ⟨_, rfl⟩
  obtain ⟨pg, hpg⟩ : ∃ pg, pg = (IndexPage.new.takeElements
    ((s.page p).tmpelements e)).takePointers ((s.page p).tmppointers e r) := ⟨_, rfl⟩
  obtain ⟨s1, hs1⟩ : ∃ s1, s1 = (((s.setPage p left).newPage pg).refreshParentRelationship
    p).refreshParentRelationship s.pages.length := ⟨_, rfl⟩
  have heq : splitAddInner add s p e r = ((s1.page s.pages.length).element 0).bind fun element =>
      (promote add s1 p element s.pages.length).bind fun s2 =>
        (s2.setPage s.pages.length (s2.page s.pages.length).dropFirst).finishSplit p
          s.pages.length := by
    rw [hs1, hleft, hpg]
    rfl
  rw [heq] at hs
  rcases Option.bind_eq_some_iff.1 hs with ⟨element, -, hrest⟩
  rcases Option.bind_eq_some_iff.1 hrest with ⟨s2, hs2, hfinish⟩
  have hplace : left.bufferIndex = (s.page p).bufferIndex ∧ left.bufferPos = (s.page p).bufferPos := by
    rw [hleft]
    exact IndexPage.clean_place _
  have hparent : left.parentElement = (s.page p).parentElement := by
    rw [hleft]
    exact IndexPage.clean_parentElement _
  have htmp : ∀ c, some c ∈ (s.page p).tmppointers e r → c < s.pages.length ∧ level c < level p := by
    intro c hc
    rcases IndexPage.mem_tmppointers hc with hc | hc
    · exact hl.pointer p c hc
    · exact hr c hc
  have hpointers : ∀ c, some c ∈ left.pointers → c < s.pages.length ∧ level c < level p := by
    intro c hc
    rw [hleft] at hc
    rcases IndexPage.mem_keepPointers (IndexPage.mem_clean hc) with hc | hc
    · exact hl.pointer p c hc
    · exact htmp c hc
  have hnew : ∀ c, some c ∈ pg.pointers → c < s.pages.length ∧ level c < level p := by
    intro c hc
    rw [hpg] at hc
    rcases IndexPage.mem_takePointers hc with hc | hc
    · exact absurd hc IndexPage.not_mem_new
    · exact htmp c hc
  rcases splitStart_moved hl hp hplace hparent hpointers (hpg ▸ rfl) (hpg ▸ rfl) hnew hs1
    with ⟨h1, hmanager, hlen, hkeep⟩
  exact splitEnd_moved (f := IndexPage.dropFirst) hadd h1 hmanager hlen hp
    (fun q hq hqp hn => hkeep q hq hqp (hcov q hq hn)) (fun _ => ⟨rfl, rfl⟩) (fun _ => rfl)
    (fun _ _ hc => IndexPage.mem_dropFirst hc) hs2 hfinish

/-- A page with room is written by itself. -/
theorem insertElement_moved (hl : Layered level s) (hp : p < s.pages.length) {r : Option ℕ}
    (hr : ∀ c, r = some c → c < s.pages.length ∧ level c < level p)
    (hcov : ∀ q < s.pages.length, level p ≤ level q → Covered s q)
    {e : Index} (hs : (s.insertElement p e r).persistPage p = some s') :
    Moved level level (level p) s s' ∧
      ∀ q < s'.pages.length, level p ≤ level q → Covered s' q := by
  obtain ⟨pg, hpg⟩ : ∃ pg, pg = (s.page p).insertAt ((s.page p).findInsertPosition e) e r := ⟨_, rfl⟩
  have hl1 : Layered level (s.setPage p pg) := by
    apply hl.setPage
    · rw [hpg]
      exact ⟨rfl, rfl⟩
    · rw [hpg]
      rfl
    · intro c hc
      rw [hpg] at hc
      rcases IndexPage.mem_insertAt hc with hc | hc
      · exact hl.pointer p c hc
      · exact hr c hc
  have hlen1 : (s.setPage p pg).pages.length = s.pages.length := setPage_length
  have hm1 := setPage_moved hl1 (le_refl (level p))
  -- the links of the new child, and the write
  obtain ⟨s1, hs1⟩ : ∃ s1, s1 = s.insertElement p e r := ⟨_, rfl⟩
  have hstep : Moved level level (level p) s s1 ∧ s1.bufferManager = s.bufferManager ∧
      s1.pages.length = s.pages.length ∧ ∀ q, q ≠ p → Covered s q → Covered s1 q := by
    cases hr' : r with
    | none =>
      have heq : s1 = s.setPage p pg := by
        rw [hs1, hpg, hr']
        rfl
      rw [heq]
      exact ⟨hm1, rfl, hlen1, fun q hq hc => covered_setPage hq hc⟩
    | some c =>
      have heq : s1 = (s.setPage p pg).setParent c (some p) := by
        rw [hs1, hpg, hr']
        rfl
      have hl2 := hl1.setParent (c := c) (P := p) (by omega) (hr c hr').2
      rw [heq]
      refine ⟨hm1.trans (setParent_moved hl2 (level p)) (le_refl _) (Or.inl fun _ => rfl), rfl, ?_,
        fun q hq hc => covered_setParent (covered_setPage hq hc)⟩
      exact setPage_length.trans hlen1
  rcases hstep with ⟨hm, hmanager, hlen, hkeep⟩
  rw [← hs1] at hs
  have hw := hm.layered.persistPage (by omega) hs
  have hm2 := hw.moved hm.layered (by omega) (le_refl (level p))
  have hlen2 := hw.length
  refine ⟨hm.trans hm2 (le_refl _) (Or.inl fun j => by rw [hmanager]), fun q hq hn => ?_⟩
  by_cases hqp : q = p
  · rw [hqp]
    exact hw.covered
  · exact hw.keeps (hkeep q hqp (hcov q (by omega) hn))

theorem addElement_writesUp (fuel : ℕ) : WritesUp (addElement fuel) := by
  induction fuel with
  | zero =>
    intro level s p e r s' _ _ _ _ hs
    cases hs
  | succ fuel ih =>
    intro level s p e r s' hl hp hr hcov hs
    unfold addElement at hs
    split_ifs at hs
    · unfold splitAdd at hs
      split_ifs at hs
      · exact splitAddLeaf_moved ih hl hp hcov hs
      · exact splitAddInner_moved ih hl hp hr hcov hs
    · rcases insertElement_moved hl hp hr hcov hs with ⟨hm, hc⟩
      exact ⟨level, hm, hc⟩

end adding

/-! ## Runs of additions -/

section runs
variable {s s' t : BPlusIndexP} {level : ℕ → ℕ} {adds rest : List Addition} {x : Addition}

/-- Between two additions every page is in memory, and its image has been written. -/
def Kept (s : BPlusIndexP) : Prop :=
  ∃ level, Layered level s ∧ ∀ q < s.pages.length, Covered s q

/-- The images of all pages, as they are now, fit into a buffer each. -/
def PagesFit (s : BPlusIndexP) : Prop :=
  ∀ p < s.pages.length, emptyLength + load (s.page p) ≤ pageSize

/-- The way down to a page reads no page from the buffers. -/
theorem findIndexPage_kept (hl : Layered level s) (hcov : ∀ q < s.pages.length, Covered s q)
    {n start q : ℕ} {key : CString} (hstart : start < s.pages.length)
    (h : findIndexPage n s start key = some (t, q)) : t = s ∧ q < s.pages.length := by
  induction n generalizing start with
  | zero => cases h
  | succ n ih =>
    have hvisit : s.visit start = some s := if_pos (hcov start hstart).1
    unfold findIndexPage at h
    rw [hvisit, Option.bind_eq_bind, Option.bind_some] at h
    dsimp only at h
    split_ifs at h
    · cases h
      exact ⟨rfl, hstart⟩
    · rcases Option.bind_eq_some_iff.1 h with ⟨slot, -, hrest⟩
      cases hpointer : (s.page start).pointer slot with
      | none =>
        rw [hpointer] at hrest
        cases hrest
        exact ⟨rfl, hstart⟩
      | some child =>
        rw [hpointer] at hrest
        exact ih (hl.pointer start child (IndexPage.mem_pointers hpointer)).1 hrest

/-- One addition: what it writes are images of pages as they are after it. -/
theorem Kept.add (h : Kept s) (hs : s.add x.key x.documentId x.filePos.toInt = some s') :
    Kept s' ∧
      (∀ j, (s.bufferManager.content j).length ≤ (s'.bufferManager.content j).length) ∧
        ∀ j, (s'.bufferManager.content j).length ≤ (s.bufferManager.content j).length ∨
          (s'.bufferManager.content j).length ≤ 16 ∨ ∃ q < s'.pages.length,
            (s'.bufferManager.content j).length ≤ emptyLength + load (s'.page q) := by
  rcases h with ⟨level, hl, hcov⟩
  unfold BPlusIndexP.add insertIndexElement at hs
  rcases Option.bind_eq_some_iff.1 hs with ⟨⟨t, p⟩, hfind, hadd⟩
  rcases findIndexPage_kept hl hcov hl.head hfind with ⟨rfl, hp⟩
  have hnone : ∀ r, (none : Option ℕ) = some r → r < t.pages.length ∧ level r < level p :=
    fun r hr => nomatch hr
  rcases addElement_writesUp t.fuel level t p _ none s' hl hp hnone (fun q hq _ => hcov q hq) hadd
    with ⟨level', hm, hc⟩
  refine ⟨⟨level', hm.layered, fun q hq => ?_⟩, hm.grows, fun j => ?_⟩
  · by_cases hold : q < t.pages.length
    · by_cases hlow : level q < level p
      · exact hm.covered hold hlow (hcov q hold)
      · have hlevel := hm.level_eq q hold
        exact hc q hq (by omega)
    · exact hc q hq (hm.new_level q hq (Nat.le_of_not_lt hold))
  · rcases hm.written j with hold | h16 | ⟨q, hq, -, hle⟩
    · exact Or.inl hold
    · exact Or.inr (Or.inl h16)
    · exact Or.inr (Or.inr ⟨q, hq, hle⟩)

/-- What is in the buffers covers the pages. -/
theorem Kept.pagesFit (h : Kept s) (hinside : Inside s) : PagesFit s := by
  rcases h with ⟨level, -, hcov⟩
  intro p hp
  rcases hcov p hp with ⟨-, i, -, hle⟩
  exact hle.trans (hinside i)

theorem Kept.inside_add (h : Kept s) (hs : s.add x.key x.documentId x.filePos.toInt = some s') :
    Inside s' ↔ Inside s ∧ PagesFit s' := by
  rcases h.add hs with ⟨h', hgrows, hwritten⟩
  constructor
  · intro hinside
    exact ⟨fun j => (hgrows j).trans (hinside j), h'.pagesFit hinside⟩
  · rintro ⟨hinside, hfit⟩ j
    rcases hwritten j with hold | h16 | ⟨q, hq, hle⟩
    · exact hold.trans (hinside j)
    · exact h16.trans (by decide)
    · exact hle.trans (hfit q hq)

theorem addAll_cons {s1 : BPlusIndexP} (hs1 : s.add x.key x.documentId x.filePos.toInt = some s1) :
    s.addAll (x :: adds) = s1.addAll adds := by
  rw [addAll, hs1, Option.bind_eq_bind, Option.bind_some]

theorem Kept.inside_addAll (h : Kept s) (hs : s.addAll adds = some s') :
    Inside s' ↔ Inside s ∧ ∀ done rest t, adds = done ++ rest → s.addAll done = some t →
      done ≠ [] → PagesFit t := by
  induction adds generalizing s with
  | nil =>
    cases hs
    refine ⟨fun hinside => ⟨hinside, fun done rest t happ _ hne => ?_⟩, And.left⟩
    exact absurd (List.append_eq_nil_iff.1 happ.symm).1 hne
  | cons x adds ih =>
    rcases Option.bind_eq_some_iff.1 hs with ⟨s1, hs1, hrest⟩
    rw [ih (h.add hs1).1 hrest, h.inside_add hs1]
    constructor
    · rintro ⟨⟨hinside, hfit⟩, hall⟩
      refine ⟨hinside, fun done rest t happ ht hne => ?_⟩
      cases done with
      | nil => exact absurd rfl hne
      | cons y done =>
        rw [List.cons_append] at happ
        rcases List.cons.inj happ with ⟨rfl, happ'⟩
        rw [addAll_cons hs1] at ht
        cases done with
        | nil =>
          cases ht
          exact hfit
        | cons z done => exact hall (z :: done) rest t happ' ht (List.cons_ne_nil z done)
    · rintro ⟨hinside, hall⟩
      refine ⟨⟨hinside, hall [x] adds s1 rfl (addAll_cons hs1) (List.cons_ne_nil x [])⟩, ?_⟩
      intro done rest t happ ht _
      apply hall (x :: done) rest t (by rw [happ, List.cons_append])
      · rw [addAll_cons hs1]
        exact ht
      · exact List.cons_ne_nil x done

theorem blank_layered : Layered (fun _ => 0) blank where
  wf := blank_placed.wf
  head := Nat.zero_lt_one
  place q := by
    rw [blank_page]
    exact Or.inl rfl
  parent q P h := by
    rw [blank_page] at h
    cases h
  pointer q c h := by
    rw [blank_page] at h
    exact absurd h IndexPage.not_mem_new

theorem create_kept (hs : create = some s) : Kept s ∧ Inside s := by
  have hw := blank_layered.persistPage (p := 0) Nat.zero_lt_one hs
  have hm := hw.moved blank_layered Nat.zero_lt_one (le_refl 0)
  have hload : load (blank.page 0) = 0 := rfl
  refine ⟨⟨_, hm.layered, fun q hq => ?_⟩, fun j => ?_⟩
  · have hlen := hw.length
    change s.pages.length = 1 at hlen
    have hq0 : q = 0 := by omega
    rw [hq0]
    exact hw.covered
  · have hempty : (blank.bufferManager.content j).length = 0 := by
      unfold BufferManager.content
      rfl
    rcases hw.written j with hold | h16 | hle
    · rw [hempty] at hold
      exact hold.trans (Nat.zero_le _)
    · exact h16.trans (by decide)
    · rw [hload] at hle
      exact hle.trans (by decide)

end runs

/-- The images stay inside their buffers exactly in the runs where, after every addition, the
entries of each page take no more bytes than an empty page leaves. -/
theorem inside_iff {s0 s : BPlusIndexP} {adds : List Addition} (h0 : create = some s0)
    (hs : s0.addAll adds = some s) :
    Inside s ↔ ∀ done rest t, adds = done ++ rest → s0.addAll done = some t → PagesFit t := by
  rcases create_kept h0 with ⟨hkept, hinside⟩
  rw [hkept.inside_addAll hs]
  constructor
  · rintro ⟨-, hall⟩ done rest t happ ht
    cases done with
    | nil =>
      cases ht
      exact hkept.pagesFit hinside
    | cons x done => exact hall _ rest t happ ht (List.cons_ne_nil x done)
  · intro hall
    exact ⟨hinside, fun done rest t happ ht _ => hall done rest t happ ht⟩

/-- Seven additions with short keys stay inside. -/
theorem charAdditions_inside : ∃ s0 s, create = some s0 ∧
    s0.addAll ((List.range 7).map charAddition) = some s ∧
      (Inside s ↔ ∀ done rest t, (List.range 7).map charAddition = done ++ rest →
        s0.addAll done = some t → PagesFit t) := by
  rcases create_ready with ⟨s0, hs0, hready, -, -⟩
  have hnd : (([] ++ (List.range 7).map charAddition).map Addition.key).Nodup := by decide
  rcases (indexes_empty hready).addAll hnd with ⟨s, T, hs, -, -⟩
  exact ⟨s0, s, hs0, hs, inside_iff hs0 hs⟩

/-- A key as long as a page. -/
def longKey : CString where
  bytes := List.replicate pageSize 107
  noNul h := nomatch List.eq_of_mem_replicate h

def longAddition : Addition := ⟨longKey, longKey, 0⟩

/-- A single addition goes behind the end of its buffer. -/
theorem not_inside : ¬∀ (s0 s : BPlusIndexP) (adds : List Addition), create = some s0 →
    s0.addAll adds = some s → Inside s := by
  intro h
  have hrun : ((create.bind fun s0 => s0.addAll [longAddition]).map fun s =>
      decide ((s.bufferManager.content 1).length ≤ pageSize)) = some false := by
    decide +kernel
  rcases Option.map_eq_some_iff.1 hrun with ⟨s, hs, hlong⟩
  rcases Option.bind_eq_some_iff.1 hs with ⟨s0, hs0, hadds⟩
  exact of_decide_eq_false hlong (h s0 s _ hs0 hadds 1)

end BPlusIndexP
end Djondb
