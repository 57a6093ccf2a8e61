import Djondb.IndexPersist

set_option autoImplicit false

/-!
# Reading page images back

`retrievePage` inverts `PageImage.write` on images whose lengths and positions fit the words of
the format.
-/
namespace Djondb
namespace BPlusIndexP
open Bytes

/-- An entry whose lengths and positions the format can hold. -/
structure Storable (e : Index) : Prop where
  key : e.key.length < 2 ^ 31
  documentId : e.documentId.length < 2 ^ 31
  posData : Word 8 e.posData
  indexPos : Word 8 e.indexPos

/-- A place whose numbers the format can hold. -/
def StorablePlace (place : ℤ × ℤ) : Prop := Word 4 place.1 ∧ Word 4 place.2

theorem keyBSON_wf {key : CString} (h : key.length < 2 ^ 31) : (keyBSON key).wf = true := by
  have hid : idKey.length < 2 ^ 31 := by decide
  simp [keyBSON, BSONObj.wf, BSONObj.length, BSONObj.fieldsWf, BSONObj.keys, BSONContent.wf]
  omega

theorem readKey_reads {key : CString} (h : key.length < 2 ^ 31) :
    Reads readBSON (writeBSON (keyBSON key)) (keyBSON key) :=
  readBSON_reads ⟨keyBSON key, keyBSON_wf h⟩

theorem readEmpty_reads : Reads readBSON (writeBSON .empty) .empty := readBSON_reads ⟨.empty, rfl⟩

theorem retrieveIndexElement_reads (index : Option Index) (h : ∀ e, index = some e → Storable e) :
    Reads retrieveIndexElement (persistIndexElement index) index := by
  obtain _ | e := index
  · refine (readInt_reads (v := 0) (by decide)).bind ?_
    rw [if_neg (by decide)]
    have hid : Reads readChars (writeChars []) [] := readChars_reads (by decide)
    refine readEmpty_reads.bind (hid.bind ?_)
    refine (readLong_reads (v := 0) (by decide)).bind ?_
    have hlast := (readLong_reads (v := 0) (by decide)).bind
      (f := fun _ => (pure none : Reader (Option Index))) (Reads.pure none)
    rw [List.append_nil] at hlast
    exact hlast
  · obtain ⟨hkey, hid, hpos, hidx⟩ := h e rfl
    refine (readInt_reads (v := 1) (by decide)).bind ?_
    rw [if_pos rfl]
    refine (readKey_reads hkey).bind ((readChars_reads hid).bind ((readLong_reads hpos).bind ?_))
    have hcontent : (keyBSON e.key).getContent idKey = some (.string e.key) := if_pos rfl
    have hlast := (readLong_reads hidx).bind
      (f := fun indexPos => (pure (some ⟨e.key, CString.ofBytes e.documentId.bytes, e.posData,
        indexPos⟩) : Reader (Option Index))) (Reads.pure _)
    rw [List.append_nil, CString.ofBytes_bytes] at hlast
    simpa only [hcontent, CString.ofBytes_bytes] using hlast

theorem retrievePointer_reads (place : Option (ℤ × ℤ))
    (h : ∀ p, place = some p → StorablePlace p) :
    Reads retrievePointer (persistPointer place) place := by
  have hlast : ∀ (flag index pos : ℤ), Word 4 pos → Reads (do
      let bufferPos ← readInt
      pure (if flag = 1 then some (index, bufferPos) else none)) (writeInt pos)
      (if flag = 1 then some (index, pos) else none) := by
    intro flag index pos hpos
    have hread := (readInt_reads hpos).bind (f := fun bufferPos =>
      (pure (if flag = 1 then some (index, bufferPos) else none) : Reader (Option (ℤ × ℤ))))
      (Reads.pure _)
    rwa [List.append_nil] at hread
  obtain _ | ⟨index, pos⟩ := place
  · exact (readInt_reads (v := 0) (by decide)).bind ((readInt_reads (v := 0) (by decide)).bind
      (hlast 0 0 0 (by decide)))
  · obtain ⟨hindex, hpos⟩ := h _ rfl
    exact (readInt_reads (v := 1) (by decide)).bind ((readInt_reads hindex).bind
      (hlast 1 index pos hpos))

/-- Every entry and place of an image can be held by the format. -/
structure PageImage.Storable (i : PageImage) : Prop where
  size : Word 4 i.size
  length : i.slots.length = BUCKET_MAX_ELEMENTS
  elements : ∀ slot ∈ i.slots, ∀ e, slot.1 = some e → BPlusIndexP.Storable e
  pointers : ∀ slot ∈ i.slots, ∀ p, slot.2 = some p → StorablePlace p
  last : ∀ p, i.last = some p → StorablePlace p
  left : ∀ p, i.left = some p → StorablePlace p
  right : ∀ p, i.right = some p → StorablePlace p

theorem retrieveSlots_reads (slots : List (Option Index × Option (ℤ × ℤ)))
    (he : ∀ slot ∈ slots, ∀ e, slot.1 = some e → Storable e)
    (hp : ∀ slot ∈ slots, ∀ p, slot.2 = some p → StorablePlace p) :
    Reads (retrieveSlots slots.length) (persistSlots slots) slots := by
  induction slots with
  | nil => exact Reads.pure _
  | cons slot slots ih =>
    obtain ⟨index, place⟩ := slot
    have hrest := (ih (fun t ht => he t (by simp [ht])) (fun t ht => hp t (by simp [ht]))).bind
      (f := fun slots => (pure ((index, place) :: slots) :
        Reader (List (Option Index × Option (ℤ × ℤ))))) (Reads.pure _)
    rw [List.append_nil] at hrest
    rw [persistSlots, List.append_assoc]
    exact (retrieveIndexElement_reads index (he (index, place) (by simp))).bind
      ((retrievePointer_reads place (hp (index, place) (by simp))).bind hrest)

theorem PageImage.Storable.reads {i : PageImage} (h : i.Storable) :
    Reads retrievePage i.write i := by
  refine (readInt_reads (v := BUCKET_MAX_ELEMENTS) (by decide)).bind
    ((readInt_reads h.size).bind ?_)
  rw [← h.length]
  refine (retrieveSlots_reads i.slots h.elements h.pointers).bind
    ((retrievePointer_reads i.last h.last).bind ((retrievePointer_reads i.left h.left).bind ?_))
  have hlast := (retrievePointer_reads i.right h.right).bind
    (f := fun right => (pure ⟨i.size, i.slots, i.last, i.left, right⟩ : Reader PageImage))
    (Reads.pure _)
  rw [List.append_nil] at hlast
  exact hlast

theorem frame_reads {i : PageImage} (h : i.write.length < 2 ^ 31) :
    Reads readFrame i.frame i.write :=
  (readInt_reads (word_four_natCast h)).bind (readChars_reads h)

/-! ## The control buffer -/

theorem readKeys_reads (keys : List CString) (h : ∀ key ∈ keys, key.length < 2 ^ 31) :
    Reads (readKeys keys.length) (keys.flatMap writeString) keys := by
  induction keys with
  | nil => exact Reads.pure _
  | cons key keys ih =>
    have hrest := (ih fun k hk => h k (by simp [hk])).bind
      (f := fun keys => (pure (key :: keys) : Reader (List CString))) (Reads.pure _)
    rw [List.append_nil] at hrest
    rw [List.flatMap_cons]
    exact (readString_reads (h key (by simp))).bind hrest

theorem flatMap_writeString_length (keys : List CString) :
    keys.length ≤ (keys.flatMap writeString).length ∧
      ∀ key ∈ keys, key.length ≤ (keys.flatMap writeString).length := by
  induction keys with
  | nil => simp
  | cons key keys ih =>
    have hkey : (writeString key).length = 4 + key.length := writeChars_length _
    simp only [List.flatMap_cons, List.length_append, List.length_cons, List.mem_cons,
      forall_eq_or_imp, hkey]
    refine ⟨by omega, by omega, fun k hk => ?_⟩
    have hle := ih.2 k hk
    omega

/-- The keys are read back from the bytes behind the head position, also when nothing has been
written there yet. -/
theorem KeysImage.read {keys : List CString} {bs : List UInt8} (h : KeysImage keys bs)
    (hlen : bs.length < 2 ^ 31) : ∃ count rest rest', readInt bs = some (count, rest) ∧
      readKeys count.toNat rest = some (keys, rest') := by
  obtain ⟨rfl, rfl⟩ | ⟨rest, rfl⟩ := h
  · exact ⟨0, [], [], by decide, rfl⟩
  · obtain ⟨hcount, hkey⟩ := flatMap_writeString_length keys
    simp only [List.length_append] at hlen
    have hreads := readKeys_reads keys fun k hk => by
      have hle := hkey k hk
      omega
    refine ⟨keys.length, _, rest, readInt_reads (word_four_natCast (by omega)) _, ?_⟩
    rw [Int.toNat_natCast]
    exact hreads rest

theorem readControl_eq {keys : List CString} {bs : List UInt8} (h : KeysImage keys bs)
    (hlen : bs.length < 2 ^ 31) {i : ℕ} (hi : i < 2 ^ 31) :
    ∃ rest, readControl (headPosition i ++ bs) = some (((i : ℤ), 0, keys), rest) := by
  obtain ⟨count, rest, rest', hcount, hkeys⟩ := h.read hlen
  refine ⟨rest', ?_⟩
  rw [readControl, headPosition, List.append_assoc,
    (readLong_reads (word_eight_natCast hi)).bind_apply,
    (readLong_reads (v := 0) (by decide)).bind_apply]
  rw [bind_apply_of_eq hcount, bind_apply_of_eq hkeys]
  rfl

/-! ## Lengths -/

/-- The key document makes a written entry longer than its key and its document id. -/
theorem persistIndexElement_length (e : Index) : e.key.length + e.documentId.length ≤
    (persistIndexElement (some e)).length := by
  have hkey : e.key.length ≤ (writeBSON (keyBSON e.key)).length := by
    simp only [keyBSON, writeBSON, BSONObj.writeFields, BSONContent.write, List.length_append,
      writeChars_length, CString.length]
    omega
  have hid : e.documentId.length = e.documentId.bytes.length := rfl
  simp only [persistIndexElement, List.length_append, writeChars_length]
  omega

theorem persistSlots_length {slots : List (Option Index × Option (ℤ × ℤ))}
    {slot : Option Index × Option (ℤ × ℤ)} (h : slot ∈ slots) :
    (persistIndexElement slot.1).length ≤ (persistSlots slots).length := by
  induction slots with
  | nil => cases h
  | cons t slots ih =>
    rw [persistSlots]
    simp only [List.length_append]
    obtain rfl | h := List.mem_cons.1 h
    · omega
    · have hle := ih h
      omega

/-- An image that is short enough for its buffer has short keys and document ids. -/
theorem PageImage.length_le {i : PageImage} {slot : Option Index × Option (ℤ × ℤ)} {e : Index}
    (hslot : slot ∈ i.slots) (he : slot.1 = some e) :
    e.key.length + e.documentId.length ≤ i.write.length := by
  have h1 := persistIndexElement_length e
  have h2 := persistSlots_length hslot
  rw [he] at h2
  simp only [PageImage.write, List.length_append]
  omega

end BPlusIndexP
end Djondb
