import Djondb.IndexImage
import Djondb.IndexUpdate
import Djondb.IndexShape
import Djondb.IndexFactory

set_option autoImplicit false

/-!
# Two indexes of a namespace

The name of an index file is made of the database and the namespace; the keys are not in it. The
buffers of all indexes of a namespace map the same ranges of one file, and its control file lists
the buffers of all of them.
-/
namespace Djondb
open Bytes

/-! ## The file -/

/-- An index file with its control file: the offsets of the buffers in the order in which they were
registered, how many of them count, and the bytes that the buffers map. -/
structure IndexFile where
  records : List ℕ
  count : ℕ
  content : ℕ → List UInt8

namespace IndexFile

/-- The files do not exist yet. -/
def absent : IndexFile := ⟨[], 0, fun _ => []⟩

/-- `BufferManager::initialize`. -/
def manager (f : IndexFile) : BufferManager where
  buffersSize := pageSize
  buffers := (f.records.take f.count).mapIdx fun i offset =>
    { Buffer.new offset pageSize 1 ((f.content offset).take pageSize) with bufferIndex := i }

/-- What an open buffer holds now; the range that it maps may have been written by others. -/
def look (f : IndexFile) (b : Buffer) : Buffer :=
  { b with content := (f.content b.startOffset).take pageSize ++ b.content.drop pageSize }

def refresh (f : IndexFile) (m : BufferManager) : BufferManager :=
  { m with buffers := m.buffers.map f.look }

/-- The bytes of the mapped range reach the file. -/
def keep (f : IndexFile) (b : Buffer) : IndexFile where
  records := f.records
  count := f.count
  content := Function.update f.content b.startOffset
    (overwrite (f.content b.startOffset) 0 (b.content.take pageSize))

/-- `registerBufferControlFile` for the new buffers, and the bytes of all of them. -/
def store (f : IndexFile) (old m : BufferManager) : IndexFile :=
  let new := m.buffers.drop old.buffersCount
  { m.buffers.foldl keep f with
    records := f.records ++ new.map Buffer.startOffset
    count := if new = [] then f.count else m.buffersCount }

end IndexFile

abbrev IndexFiles := List UInt8 → IndexFile

/-- An index and the name of its file. -/
structure OpenIndex where
  fileName : List UInt8
  index : BPlusIndexP

namespace OpenIndex

/-- `new BPlusIndexP(fileName)`. -/
def load (files : IndexFiles) (fileName : List UInt8) : Option (IndexFiles × OpenIndex) := do
  let index ← BPlusIndexP.initializeIndex (files fileName).manager
  let file := (files fileName).store (files fileName).manager index.bufferManager
  some (Function.update files fileName file, ⟨fileName, index⟩)

/-- A call on an index sees the bytes that are in the file, and its writes are in the file after
it. -/
def call {α : Type} (o : OpenIndex) (files : IndexFiles)
    (op : BPlusIndexP → Option (BPlusIndexP × α)) : Option (IndexFiles × OpenIndex × α) := do
  let file := files o.fileName
  let manager := file.refresh o.index.bufferManager
  let (index, a) ← op (o.index.withManager manager)
  some (Function.update files o.fileName (file.store manager index.bufferManager),
    ⟨o.fileName, index⟩, a)

def setKeys (o : OpenIndex) (files : IndexFiles) (keys : KeySet) :
    Option (IndexFiles × OpenIndex) := do
  let (files, o, _) ← o.call files fun s => (s.setKeys keys.keys).map fun s => (s, ())
  some (files, o)

def add (o : OpenIndex) (files : IndexFiles) (x : BPlusIndexP.Addition) :
    Option (IndexFiles × OpenIndex) := do
  let (files, o, _) ← o.call files fun s =>
    (s.add x.key x.documentId x.filePos.toInt).map fun s => (s, ())
  some (files, o)

def find (o : OpenIndex) (files : IndexFiles) (key : CString) :
    Option (IndexFiles × OpenIndex × Option Index) := o.call files fun s => s.find key

/-- The index that `IndexFactory::index` makes for the record of the registry. -/
def make (files : IndexFiles) (alg : IndexAlgorithm) : Option (IndexFiles × OpenIndex) := do
  let (files, o) ← load files alg.fileName
  o.setKeys files alg.keys

end OpenIndex

/-! ## Two of them -/

inductive Which where
  | first | second
  deriving DecidableEq

def Which.other : Which → Which
  | first => second
  | second => first

/-- Two indexes and the files on disk. -/
structure TwoIndexes where
  files : IndexFiles
  index : Which → OpenIndex

/-! ## What is in the file -/

/-- What `setKeys` writes behind the head position. -/
def keysImage (keys : List CString) : List UInt8 :=
  writeInt keys.length ++ keys.flatMap writeString

/-- The image of a page without entries. -/
def emptyImage : BPlusIndexP.PageImage where
  size := 0
  slots := List.replicate BUCKET_MAX_ELEMENTS (none, none)
  last := none
  left := none
  right := none

/-- The control and the first page have their buffers, and no entry has been added. -/
structure IndexFile.Empty (f : IndexFile) : Prop where
  records : f.records = [0, pageSize]
  count : f.count = 2
  head : BPlusIndexP.headPosition 1 <+: f.content 0
  page : emptyImage.frame <+: f.content pageSize

/-- The keys in the control buffer. -/
def IndexFile.HasKeys (f : IndexFile) (keys : List CString) : Prop :=
  BPlusIndexP.headPosition 1 ++ keysImage keys <+: f.content 0

/-- The keys fit the range that the control buffer maps. -/
def FitsControl (keys : List CString) : Prop := 16 + (keysImage keys).length ≤ pageSize

/-- The index is on the file `fileName` and maps its first two ranges. -/
def OpenIndex.On (o : OpenIndex) (fileName : List UInt8) : Prop :=
  o.fileName = fileName ∧
    o.index.bufferManager.buffers.map Buffer.startOffset = [0, pageSize]

theorem emptyImage_frame_length : emptyImage.frame.length ≤ pageSize := by
  decide +kernel

theorem overwrite_take (file : List UInt8) (n : ℕ) : overwrite file 0 (file.take n) = file := by
  rw [overwrite_zero, List.length_take]
  rcases le_total n file.length with h | h
  · rw [min_eq_left h, List.take_append_drop]
  · rw [min_eq_right h, List.take_of_length_le h, List.drop_length, List.append_nil]

theorem prefix_take {front bs : List UInt8} {n : ℕ} (h : front <+: bs) (hn : front.length ≤ n) :
    front <+: bs.take n := List.prefix_take_iff.2 ⟨h, hn⟩

/-- What a buffer shows first reaches the file. -/
theorem prefix_overwrite {front bs : List UInt8} {n : ℕ} (h : front <+: bs)
    (hn : front.length ≤ n) (file : List UInt8) : front <+: overwrite file 0 (bs.take n) := by
  rw [overwrite_zero]
  exact (prefix_take h hn).trans (List.prefix_append _ _)

namespace IndexFile
variable {f : IndexFile}

theorem look_prefix {front : List UInt8} {b : Buffer} (h : front <+: f.content b.startOffset)
    (hn : front.length ≤ pageSize) : front <+: (f.look b).content :=
  (prefix_take h hn).trans (List.prefix_append _ _)

theorem keep_content (b : Buffer) : (f.keep b).content b.startOffset =
    overwrite (f.content b.startOffset) 0 (b.content.take pageSize) := Function.update_self ..

theorem keep_content_of_ne {b : Buffer} {offset : ℕ} (h : offset ≠ b.startOffset) :
    (f.keep b).content offset = f.content offset := Function.update_of_ne h ..

/-- Each of the two buffers reaches its own range. -/
theorem store_content {old m : BufferManager} {b0 b1 : Buffer} (hb : m.buffers = [b0, b1])
    (hb0 : b0.startOffset = 0) (hb1 : b1.startOffset = pageSize) :
    (f.store old m).content 0 = overwrite (f.content 0) 0 (b0.content.take pageSize) ∧
      (f.store old m).content pageSize =
        overwrite (f.content pageSize) 0 (b1.content.take pageSize) := by
  have hcontent : (f.store old m).content = ((f.keep b0).keep b1).content := by
    unfold store
    rw [hb]
    rfl
  have hne : 0 ≠ pageSize := by
    decide
  have hkeep0 := keep_content (f := f) b0
  have hkeep1 := keep_content (f := f.keep b0) b1
  rw [hb0] at hkeep0
  rw [hb1] at hkeep1
  have hkept : (f.keep b0).content pageSize = f.content pageSize := by
    apply keep_content_of_ne
    rw [hb0]
    exact hne.symm
  rw [hkept] at hkeep1
  rw [hcontent]
  refine ⟨?_, hkeep1⟩
  rw [keep_content_of_ne (by rwa [hb1]), hkeep0]

end IndexFile

/-! ## Opening the file -/

namespace BPlusIndexP

theorem newPointers_kept (s : BPlusIndexP) (parent : Option ℕ) (places : List (Option (ℤ × ℤ))) :
    (s.newPointers parent places).1.keys = s.keys ∧
      (s.newPointers parent places).1.bufferManager = s.bufferManager := by
  induction places generalizing s with
  | nil => exact ⟨rfl, rfl⟩
  | cons place places ih =>
    rcases ih (s.newPointer parent place).1 with ⟨hkeys, hmanager⟩
    cases place with
    | none => exact ⟨hkeys, hmanager⟩
    | some place => exact ⟨hkeys, hmanager⟩

theorem newPointer_kept (s : BPlusIndexP) (parent : Option ℕ) (place : Option (ℤ × ℤ)) :
    (s.newPointer parent place).1.keys = s.keys ∧
      (s.newPointer parent place).1.bufferManager = s.bufferManager := by
  cases place <;> exact ⟨rfl, rfl⟩

/-- Loading a page reads only. -/
theorem loadPage_kept {s s' : BPlusIndexP} {p : ℕ} (h : s.loadPage p = some s') :
    s'.keys = s.keys ∧ s'.bufferManager = s.bufferManager := by
  rcases Option.bind_eq_some_iff.1 h with ⟨buffer, -, h1⟩
  rcases Option.bind_eq_some_iff.1 h1 with ⟨data, -, h2⟩
  rcases Option.bind_eq_some_iff.1 h2 with ⟨⟨image, rest⟩, -, h3⟩
  cases h3
  have hlast := newPointers_kept s (some p) (image.slots.map Prod.snd ++ [image.last])
  have hleft := newPointer_kept (s.newPointers (some p)
    (image.slots.map Prod.snd ++ [image.last])).1 none image.left
  have hright := newPointer_kept ((s.newPointers (some p)
    (image.slots.map Prod.snd ++ [image.last])).1.newPointer none image.left).1 none image.right
  exact ⟨hright.1.trans (hleft.1.trans hlast.1), hright.2.trans (hleft.2.trans hlast.2)⟩

theorem loadIndex_kept {m : BufferManager} {s : BPlusIndexP} (h : loadIndex m = some s) :
    s.bufferManager = m := by
  rcases Option.bind_eq_some_iff.1 h with ⟨buffer, -, h1⟩
  rcases Option.bind_eq_some_iff.1 h1 with ⟨⟨index, pos, keys⟩, -, h2⟩
  exact (loadPage_kept h2).2

theorem loadPage_empty {s : BPlusIndexP} {p : ℕ} {b : Buffer}
    (hget : s.bufferManager.getBuffer (s.page p).bufferIndex = some b)
    (hpos : (s.page p).bufferPos = 0) (h : emptyImage.frame <+: b.content) :
    (s.loadPage p).isSome := by
  rcases h with ⟨rest, hrest⟩
  have hframe : (b.seek (s.page p).bufferPos.toNat).read readFrame = some emptyImage.write := by
    rw [hpos]
    change (readFrame b.content).map Prod.fst = _
    rw [← hrest, frame_reads (by decide +kernel) rest]
    rfl
  have himage : (retrievePage emptyImage.write).isSome := by
    decide +kernel
  rcases Option.isSome_iff_exists.1 himage with ⟨⟨image, rest'⟩, himage⟩
  unfold loadPage
  rw [hget, Option.bind_eq_bind, Option.bind_some, hframe, Option.bind_eq_bind, Option.bind_some,
    himage]
  rfl

/-- The keys of a loaded index are those in the control buffer. -/
theorem loadIndex_keys {m : BufferManager} {b0 b1 : Buffer} {keys : List CString}
    (hbuffers : m.buffers = [b0, b1]) (hhead : headPosition 1 ++ keysImage keys <+: b0.content)
    (hlen : b0.content.length ≤ pageSize) (hpage : emptyImage.frame <+: b1.content) :
    ∃ s, loadIndex m = some s ∧ s.keys = keys := by
  rcases hhead with ⟨rest, hrest⟩
  have himage : KeysImage keys (keysImage keys ++ rest) :=
    Or.inr ⟨rest, by rw [keysImage, List.append_assoc]⟩
  have hshort : (keysImage keys ++ rest).length < 2 ^ 31 := by
    rw [← hrest, List.append_assoc, List.length_append, pageSize] at hlen
    omega
  rcases readControl_eq himage hshort (i := 1) (by omega) with ⟨rest', hcontrol⟩
  have hget0 : m.getBuffer 0 = some b0 := by
    simp [BufferManager.getBuffer, BufferManager.buffersCount, hbuffers]
  have hget1 : m.getBuffer 1 = some b1 := by
    simp [BufferManager.getBuffer, BufferManager.buffersCount, hbuffers]
  have hread : (b0.seek 0).read readControl = some (((1 : ℕ) : ℤ), 0, keys) := by
    change (readControl b0.content).map Prod.fst = _
    rw [← hrest, List.append_assoc, hcontrol]
    rfl
  have hload := loadPage_empty (s := ⟨[unloadedPage none (1, 0)], 0, m, keys⟩) (p := 0) hget1 rfl
    hpage
  rcases Option.isSome_iff_exists.1 hload with ⟨s, hs⟩
  refine ⟨s, ?_, (loadPage_kept hs).1⟩
  unfold loadIndex
  rw [hget0, Option.bind_eq_bind, Option.bind_some, hread]
  exact hs

end BPlusIndexP

namespace OpenIndex
variable {files files' : IndexFiles} {fileName : List UInt8} {o o' : OpenIndex}

theorem manager_eq {f : IndexFile} (h : f.Empty) : f.manager.buffers =
    [{ Buffer.new 0 pageSize 1 ((f.content 0).take pageSize) with bufferIndex := 0 },
      { Buffer.new pageSize pageSize 1 ((f.content pageSize).take pageSize) with
        bufferIndex := 1 }] := by
  unfold IndexFile.manager
  rw [h.records, h.count]
  rfl

theorem store_manager {f : IndexFile} (h : f.Empty) : f.store f.manager f.manager = f := by
  have hnew : f.manager.buffers.drop f.manager.buffersCount = [] := List.drop_length
  have hkeep : ∀ offset i, f.keep { Buffer.new offset pageSize 1
      ((f.content offset).take pageSize) with bufferIndex := i } = f := by
    intro offset i
    change IndexFile.mk f.records f.count (Function.update f.content offset
      (overwrite (f.content offset) 0 (((f.content offset).take pageSize).take pageSize))) = f
    rw [List.take_take, min_self, overwrite_take, Function.update_eq_self]
  have hfold : f.manager.buffers.foldl IndexFile.keep f = f := by
    rw [manager_eq h]
    change (f.keep _).keep _ = f
    rw [hkeep, hkeep]
  unfold IndexFile.store
  rw [hnew, hfold]
  change IndexFile.mk (f.records ++ []) f.count f.content = f
  rw [List.append_nil]

theorem load_eq (h : (files fileName).Empty) {index : BPlusIndexP}
    (hindex : BPlusIndexP.loadIndex (files fileName).manager = some index) :
    load files fileName = some (files, ⟨fileName, index⟩) := by
  have hpos : (files fileName).manager.buffersCount > 0 := by
    unfold BufferManager.buffersCount
    rw [manager_eq h]
    exact Nat.zero_lt_two
  unfold load BPlusIndexP.initializeIndex
  rw [if_pos hpos, hindex, Option.bind_eq_bind, Option.bind_some,
    BPlusIndexP.loadIndex_kept hindex, store_manager h]
  change some (Function.update files fileName (files fileName), _) = _
  rw [Function.update_eq_self]

theorem on_of_loadIndex (h : (files fileName).Empty) {index : BPlusIndexP}
    (hindex : BPlusIndexP.loadIndex (files fileName).manager = some index) :
    On ⟨fileName, index⟩ fileName := by
  refine ⟨rfl, ?_⟩
  change index.bufferManager.buffers.map Buffer.startOffset = _
  rw [BPlusIndexP.loadIndex_kept hindex, manager_eq h]
  rfl

/-- Opening an index again reads the file only. -/
theorem load_kept (h : (files fileName).Empty) (hload : load files fileName = some (files', o)) :
    files' = files ∧ o.On fileName := by
  rcases Option.bind_eq_some_iff.1 hload with ⟨index, hindex, -⟩
  have hpos : (files fileName).manager.buffersCount > 0 := by
    unfold BufferManager.buffersCount
    rw [manager_eq h]
    exact Nat.zero_lt_two
  unfold BPlusIndexP.initializeIndex at hindex
  rw [if_pos hpos] at hindex
  rw [load_eq h hindex] at hload
  cases hload
  exact ⟨rfl, on_of_loadIndex h hindex⟩

/-- An index that is opened again has the keys that are in the file, whoever has set them. -/
theorem load_keys (h : (files fileName).Empty) {keys : List CString}
    (hkeys : (files fileName).HasKeys keys) (hfits : FitsControl keys) :
    ∃ o, load files fileName = some (files, o) ∧ o.index.keys = keys := by
  have hhead : (BPlusIndexP.headPosition 1 ++ keysImage keys).length ≤ pageSize := by
    rw [List.length_append, BPlusIndexP.headPosition_length]
    exact hfits
  rcases BPlusIndexP.loadIndex_keys (manager_eq h) (prefix_take hkeys hhead)
    (List.length_take_le ..) (prefix_take h.page emptyImage_frame_length) with ⟨index, hindex, hk⟩
  exact ⟨_, load_eq h hindex, hk⟩

/-- The first index on a file. -/
theorem load_absent (h : files fileName = .absent) :
    ∃ files' o, load files fileName = some (files', o) ∧ o.On fileName ∧
      (files' fileName).Empty := by
  have hcreate : (BPlusIndexP.create.map fun s => s.bufferManager.buffers.map fun b =>
      (b.startOffset, b.content)) =
        some [(0, BPlusIndexP.headPosition 1), (pageSize, emptyImage.frame)] := by
    decide +kernel
  rcases Option.map_eq_some_iff.1 hcreate with ⟨s, hs, hbuffers⟩
  rcases List.map_eq_cons_iff.1 hbuffers with ⟨b0, l, hb, hb0, hl⟩
  rcases List.map_eq_cons_iff.1 hl with ⟨b1, l', rfl, hb1, hnil⟩
  rcases List.map_eq_nil_iff.1 hnil with rfl
  have hstart0 : b0.startOffset = 0 := congrArg Prod.fst hb0
  have hcontent0 : b0.content = BPlusIndexP.headPosition 1 := congrArg Prod.snd hb0
  have hstart1 : b1.startOffset = pageSize := congrArg Prod.fst hb1
  have hcontent1 : b1.content = emptyImage.frame := congrArg Prod.snd hb1
  have hinit : BPlusIndexP.initializeIndex (files fileName).manager = some s := by
    rw [h]
    exact hs
  refine ⟨Function.update files fileName
    ((files fileName).store (files fileName).manager s.bufferManager), ⟨fileName, s⟩, ?_,
    ⟨rfl, ?_⟩, ?_⟩
  · unfold load
    rw [hinit]
    rfl
  · change s.bufferManager.buffers.map Buffer.startOffset = _
    rw [hb]
    exact congrArg₂ (fun x y => [x, y]) hstart0 hstart1
  · rw [Function.update_self, h]
    rcases @IndexFile.store_content .absent IndexFile.absent.manager _ _ _ hb hstart0 hstart1
      with ⟨h0, h1⟩
    refine ⟨?_, ?_, ?_, ?_⟩
    · unfold IndexFile.store
      rw [hb]
      exact congrArg₂ (fun x y => [x, y]) hstart0 hstart1
    · unfold IndexFile.store BufferManager.buffersCount
      rw [hb]
      rfl
    · rw [h0, hcontent0]
      exact prefix_overwrite (List.prefix_refl _) (by decide) _
    · rw [h1, hcontent1]
      exact prefix_overwrite (List.prefix_refl _) emptyImage_frame_length _

/-- What `setKeys` leaves in the control buffer. -/
theorem setKeys_content {b : Buffer} {front rest : List UInt8} (keys : List CString)
    (hb : b.content = front ++ rest) (hfront : front.length = 16) :
    ∃ rest', (keys.foldl Buffer.writeString ((b.seek 16).writeInt keys.length)).content =
      front ++ (keysImage keys ++ rest') := by
  have hpos : ((b.seek 16).writeInt keys.length).pos = 16 + (writeInt keys.length).length := rfl
  have hput : ((b.seek 16).writeInt keys.length).content =
      overwrite b.content 16 (writeInt keys.length) := rfl
  have hle : ((b.seek 16).writeInt keys.length).pos ≤
      ((b.seek 16).writeInt keys.length).content.length := by
    rw [hpos, hput, overwrite_length]
    exact le_max_right _ _
  rcases BPlusIndexP.foldl_writeString keys ((b.seek 16).writeInt keys.length) hle with
    ⟨hcontent, -, -⟩
  refine ⟨rest.drop (keysImage keys).length, ?_⟩
  rw [hcontent, hpos, hput, overwrite_overwrite, hb, ← hfront, overwrite_append]
  rfl

theorem foldl_writeString_startOffset (keys : List CString) (b : Buffer) :
    (keys.foldl Buffer.writeString b).startOffset = b.startOffset := by
  induction keys generalizing b with
  | nil => rfl
  | cons key keys ih => exact ih (b.writeString key)

/-- `setKeys` through any index on the file puts its keys in the file. -/
theorem setKeys_on (h : (files fileName).Empty) (ho : o.On fileName) (keys : KeySet) :
    ∃ files' o', o.setKeys files keys = some (files', o') ∧ o'.On fileName ∧
      (files' fileName).Empty ∧
      (FitsControl keys.keys → (files' fileName).HasKeys keys.keys) := by
  rcases o with ⟨name, index⟩
  rcases ho with ⟨rfl, hoffsets⟩
  rcases List.map_eq_cons_iff.1 hoffsets with ⟨b0, l, hb, hb0, hl⟩
  rcases List.map_eq_cons_iff.1 hl with ⟨b1, l', rfl, hb1, hnil⟩
  rcases List.map_eq_nil_iff.1 hnil with rfl
  obtain ⟨f, hf⟩ : ∃ f, f = files name := ⟨_, rfl⟩
  obtain ⟨c, hc⟩ : ∃ c, c = keys.keys.foldl Buffer.writeString
    (((f.look b0).seek 16).writeInt keys.keys.length) := ⟨_, rfl⟩
  rw [← hf] at h
  have hc0 : c.startOffset = 0 := by
    rw [hc, foldl_writeString_startOffset]
    exact hb0
  -- the buffers before and after the call
  have hrefresh : (f.refresh index.bufferManager).buffers = [f.look b0, f.look b1] := by
    unfold IndexFile.refresh
    rw [hb]
    rfl
  have hget : (f.refresh index.bufferManager).getBuffer 0 = some (f.look b0) := by
    simp [BufferManager.getBuffer, BufferManager.buffersCount, hrefresh]
  have hset : ((f.refresh index.bufferManager).setBuffer 0 c).buffers = [c, f.look b1] := by
    unfold BufferManager.setBuffer
    rw [hrefresh]
    rfl
  have hcall : (index.withManager (f.refresh index.bufferManager)).setKeys keys.keys =
      some (({ index with keys := keys.keys }).withManager
        ((f.refresh index.bufferManager).setBuffer 0 c)) := by
    unfold BPlusIndexP.setKeys
    change ((f.refresh index.bufferManager).getBuffer 0).bind _ = _
    rw [hget, Option.bind_some, ← hc]
    rfl
  have hnew : ((f.refresh index.bufferManager).setBuffer 0 c).buffers.drop
      (f.refresh index.bufferManager).buffersCount = [] := by
    unfold BufferManager.buffersCount
    rw [hset, hrefresh]
    rfl
  -- what is in the file now
  rcases h.head with ⟨rest, hrest⟩
  have hhead : BPlusIndexP.headPosition 1 <+: (f.look b0).content := by
    apply IndexFile.look_prefix
    · rw [hb0]
      exact h.head
    · decide
  rcases hhead with ⟨rest, hrest⟩
  rcases setKeys_content keys.keys hrest.symm (BPlusIndexP.headPosition_length 1) with
    ⟨rest', hcontent⟩
  rw [← hc] at hcontent
  rcases @IndexFile.store_content f (f.refresh index.bufferManager) _ _ _ hset hc0 hb1 with
    ⟨hzero, hpage⟩
  refine ⟨Function.update files name
      (f.store (f.refresh index.bufferManager) ((f.refresh index.bufferManager).setBuffer 0 c)),
    ⟨name, ({ index with keys := keys.keys }).withManager
      ((f.refresh index.bufferManager).setBuffer 0 c)⟩, ?_, ⟨rfl, ?_⟩, ?_, ?_⟩
  · unfold setKeys call
    change ((((index.withManager ((files name).refresh index.bufferManager)).setKeys
      keys.keys).map fun s => (s, ())).bind _).bind _ = _
    rw [← hf, hcall]
    rfl
  · change ((f.refresh index.bufferManager).setBuffer 0 c).buffers.map Buffer.startOffset = _
    rw [hset]
    exact congrArg₂ (fun x y => [x, y]) hc0 hb1
  · rw [Function.update_self]
    refine ⟨?_, ?_, ?_, ?_⟩
    · unfold IndexFile.store
      rw [hnew]
      change f.records ++ [] = _
      rw [List.append_nil, h.records]
    · unfold IndexFile.store
      rw [hnew]
      exact h.count
    · rw [hzero, hcontent]
      exact prefix_overwrite (List.prefix_append _ _) (by decide) _
    · rw [hpage]
      apply prefix_overwrite _ emptyImage_frame_length
      apply IndexFile.look_prefix _ emptyImage_frame_length
      rw [hb1]
      exact h.page
  · intro hfits
    unfold IndexFile.HasKeys
    rw [Function.update_self, hzero, hcontent, ← List.append_assoc]
    apply prefix_overwrite (List.prefix_append _ _)
    rw [List.length_append, BPlusIndexP.headPosition_length]
    exact hfits

theorem make_on {alg : IndexAlgorithm} (h : make files alg = some (files', o'))
    (hload : ∀ files1 o, load files alg.fileName = some (files1, o) →
      o.On alg.fileName ∧ (files1 alg.fileName).Empty) :
    o'.On alg.fileName ∧ (files' alg.fileName).Empty := by
  rcases Option.bind_eq_some_iff.1 h with ⟨⟨files1, o⟩, hopen, hset⟩
  rcases hload files1 o hopen with ⟨ho, hempty⟩
  rcases setKeys_on hempty ho alg.keys with ⟨files2, o2, hset2, ho2, hempty2, -⟩
  cases hset2.symm.trans hset
  exact ⟨ho2, hempty2⟩

end OpenIndex

namespace TwoIndexes

/-- `IndexFactory::index` for both key sets on a namespace without indexes. -/
def make (db ns : CString) (keys1 keys2 : KeySet) : Option TwoIndexes := do
  let (factory, alg1) := IndexFactory.empty.index db ns keys1
  let (files, o1) ← OpenIndex.make (fun _ => .absent) alg1
  let (_, alg2) := factory.index db ns keys2
  let (files, o2) ← OpenIndex.make files alg2
  some ⟨files, fun | .first => o1 | .second => o2⟩

inductive Call where
  | add (x : BPlusIndexP.Addition)
  | setKeys (keys : KeySet)
  | find (key : CString)

def Call.run (o : OpenIndex) (files : IndexFiles) : Call → Option (IndexFiles × OpenIndex)
  | .add x => o.add files x
  | .setKeys keys => o.setKeys files keys
  | .find key => (o.find files key).map fun r => (r.1, r.2.1)

def perform (w : TwoIndexes) (which : Which) (call : Call) : Option TwoIndexes := do
  let (files, o) ← call.run (w.index which) w.files
  some ⟨files, Function.update w.index which o⟩

def performAll (w : TwoIndexes) : List (Which × Call) → Option TwoIndexes
  | [] => some w
  | (which, call) :: calls => do
    let w ← w.perform which call
    w.performAll calls

/-- Both are opened again on their files. -/
def reopen (w : TwoIndexes) : Option TwoIndexes := do
  let (files, o1) ← OpenIndex.load w.files (w.index .first).fileName
  let (files, o2) ← OpenIndex.load files (w.index .second).fileName
  some ⟨files, fun | .first => o1 | .second => o2⟩

/-- What `find` returns for a key. -/
def answer (w : TwoIndexes) (which : Which) (key : CString) : Option (Option Index) :=
  ((w.index which).find w.files key).map fun r => r.2.2

/-- The index gives the same answers. -/
def SameAnswers (w w' : TwoIndexes) (which : Which) : Prop :=
  (w.index which).index.keys = (w'.index which).index.keys ∧
    ∀ key, w.answer which key = w'.answer which key

/-- `_id` and `key`. -/
def idKeys : KeySet := ⟨[BPlusIndexP.idKey], by decide⟩
def otherKeys : KeySet := ⟨[⟨[107, 101, 121], by decide⟩], by decide⟩

/-- A call that `add`s an entry to one index or sets its keys leaves the other one alone, now and
after both are opened again. -/
def Independent (w0 : TwoIndexes) : Prop :=
  ∀ calls w, w0.performAll calls = some w → ∀ which call w', (∀ key, call ≠ .find key) →
    w.perform which call = some w' → SameAnswers w w' which.other ∧
      ∀ r r', w.reopen = some r → w'.reopen = some r' → SameAnswers r r' which.other

/-! ## They share the file -/

/-- Both are on the file `fileName`. -/
structure Shares (w : TwoIndexes) (fileName : List UInt8) : Prop where
  file : (w.files fileName).Empty
  index : ∀ which, (w.index which).On fileName

variable {fileName : List UInt8}

/-- The registry has no index with the second key set yet. -/
theorem second_fileName (db ns : CString) {keys1 keys2 : KeySet} (hne : keys1 ≠ keys2) :
    ((IndexFactory.empty.index db ns keys1).1.index db ns keys2).2.fileName =
      IndexFactory.indexFileName db ns := by
  have halgs : (IndexFactory.empty.index db ns keys1).1.algorithms db ns =
      [⟨IndexFactory.indexFileName db ns, keys1⟩] := by
    rw [IndexFactory.algorithms_index, if_pos ⟨rfl, rfl, rfl⟩]
    rfl
  have hsame : ¬ IndexFactory.sameKeys keys2.keys keys1.keys = true := by
    intro hsame
    exact hne (KeySet.ext_keys ((IndexFactory.sameKeys_iff _ _).1 hsame).1).symm
  have hfind : IndexFactory.findIndex
      ((IndexFactory.empty.index db ns keys1).1.algorithms db ns) keys2 = none := by
    rw [halgs]
    unfold IndexFactory.findIndex
    rw [List.find?_cons, Bool.eq_false_iff.2 hsame, List.find?_nil]
  generalize (IndexFactory.empty.index db ns keys1).1 = factory at hfind
  unfold IndexFactory.index
  change IndexFactory.findIndex (factory.findAlgorithms db ns).2 keys2 = none at hfind
  dsimp only
  rw [hfind]

theorem make_eq (db ns : CString) (keys1 keys2 : KeySet) : make db ns keys1 keys2 =
    (OpenIndex.make (fun _ => .absent) (IndexFactory.empty.index db ns keys1).2).bind fun first =>
      (OpenIndex.make first.1
        ((IndexFactory.empty.index db ns keys1).1.index db ns keys2).2).bind fun second =>
          some ⟨second.1, fun | .first => first.2 | .second => second.2⟩ := rfl

theorem make_shares {db ns : CString} {keys1 keys2 : KeySet} {w : TwoIndexes}
    (hne : keys1 ≠ keys2) (h : make db ns keys1 keys2 = some w) :
    w.Shares (IndexFactory.indexFileName db ns) := by
  have hname := second_fileName db ns hne
  rw [make_eq] at h
  rcases Option.bind_eq_some_iff.1 h with ⟨⟨files1, o1⟩, h1, h'⟩
  rcases Option.bind_eq_some_iff.1 h' with ⟨⟨files2, o2⟩, h2, h3⟩
  cases h3
  -- the first index makes the file, the second one opens it
  have hfirst : o1.On (IndexFactory.indexFileName db ns) ∧
      (files1 (IndexFactory.indexFileName db ns)).Empty := by
    refine OpenIndex.make_on h1 ?_
    intro files o hload
    rcases @OpenIndex.load_absent (fun _ => .absent) (IndexFactory.indexFileName db ns) rfl with ⟨files', o', hload', hon⟩
    cases hload'.symm.trans hload
    exact hon
  have hsecond : o2.On (IndexFactory.indexFileName db ns) ∧
      (files2 (IndexFactory.indexFileName db ns)).Empty := by
    rw [← hname] at hfirst ⊢
    refine OpenIndex.make_on h2 ?_
    intro files o hload
    rcases OpenIndex.load_kept hfirst.2 hload with ⟨rfl, hon⟩
    exact ⟨hon, hfirst.2⟩
  refine ⟨hsecond.2, ?_⟩
  intro which
  cases which with
  | first => exact hfirst.1
  | second => exact hsecond.1

theorem Shares.setKeys {w : TwoIndexes} (h : w.Shares fileName) (which : Which) (keys : KeySet) :
    ∃ w', w.perform which (.setKeys keys) = some w' ∧ w'.Shares fileName ∧
      (FitsControl keys.keys → (w'.files fileName).HasKeys keys.keys) := by
  rcases OpenIndex.setKeys_on h.file (h.index which) keys with ⟨files, o, hcall, ho, hfile, hkeys⟩
  refine ⟨⟨files, Function.update w.index which o⟩, ?_, ⟨hfile, ?_⟩, hkeys⟩
  · unfold perform
    change ((w.index which).setKeys w.files keys).bind _ = _
    rw [hcall]
    rfl
  · intro other
    by_cases hwhich : other = which
    · subst hwhich
      change (Function.update w.index other o other).On fileName
      rwa [Function.update_self]
    · change (Function.update w.index which o other).On fileName
      rw [Function.update_of_ne hwhich]
      exact h.index other

/-- Opened again, both have the keys that were set last. -/
theorem Shares.reopen {w : TwoIndexes} (h : w.Shares fileName) {keys : List CString}
    (hkeys : (w.files fileName).HasKeys keys) (hfits : FitsControl keys) :
    ∃ r, w.reopen = some r ∧ ∀ which, (r.index which).index.keys = keys := by
  rcases OpenIndex.load_keys h.file hkeys hfits with ⟨o, hload, hk⟩
  refine ⟨⟨w.files, fun | .first => o | .second => o⟩, ?_, ?_⟩
  · unfold TwoIndexes.reopen
    rw [(h.index .first).1, (h.index .second).1, hload]
    change (OpenIndex.load w.files fileName).bind _ = _
    rw [hload]
    rfl
  · intro which
    cases which <;> exact hk

/-- No two indexes of a namespace are independent: the keys that one of them sets are the keys of
both when they are opened again. -/
theorem shared {db ns : CString} {keys1 keys2 : KeySet} {w0 : TwoIndexes} (hne : keys1 ≠ keys2)
    (h : make db ns keys1 keys2 = some w0) : ¬ w0.Independent := by
  intro hind
  have h0 := make_shares hne h
  rcases h0.setKeys .second idKeys with ⟨w, hw, hshares, hkeys⟩
  rcases hshares.setKeys .first otherKeys with ⟨w', hw', hshares', hkeys'⟩
  have hfits : FitsControl idKeys.keys := by
    unfold FitsControl
    decide
  have hfits' : FitsControl otherKeys.keys := by
    unfold FitsControl
    decide
  rcases hshares.reopen (hkeys hfits) hfits with ⟨r, hr, hrkeys⟩
  rcases hshares'.reopen (hkeys' hfits') hfits' with ⟨r', hr', hrkeys'⟩
  have hrun : w0.performAll [(.second, .setKeys idKeys)] = some w := by
    unfold performAll
    rw [hw]
    rfl
  have hsame := (hind _ _ hrun .first (.setKeys otherKeys) w' (fun key hcall => nomatch hcall)
    hw').2 r r' hr hr'
  have hdiff : idKeys.keys = otherKeys.keys := by
    rw [← hrkeys .second, ← hrkeys' .second]
    exact hsame.1
  exact absurd hdiff (by decide)

theorem shared_id : idKeys ≠ otherKeys ∧ ∃ w0,
    make IndexFactory.keyA IndexFactory.keyA idKeys otherKeys = some w0 ∧ ¬ w0.Independent := by
  have hmade : (make IndexFactory.keyA IndexFactory.keyA idKeys otherKeys).isSome := by
    decide +kernel
  rcases Option.isSome_iff_exists.1 hmade with ⟨w0, hw0⟩
  exact ⟨by decide, w0, hw0, shared (by decide) hw0⟩

/-- An entry is added to the first index and both are opened again; the second one is asked for it
before and after. -/
def answers : Option (Option (Option Index) × Option (Option Index)) := do
  let w ← make IndexFactory.keyA IndexFactory.keyA idKeys otherKeys
  let w' ← w.perform .first (.add (BPlusIndexP.charAddition 0))
  let r ← w.reopen
  let r' ← w'.reopen
  some (r.answer .second (BPlusIndexP.charKey 0), r'.answer .second (BPlusIndexP.charKey 0))

theorem Independent.answers_eq {w w' r r' : TwoIndexes} (h : w.Independent) {x : BPlusIndexP.Addition}
    (hw' : w.perform .first (.add x) = some w') (hr : w.reopen = some r)
    (hr' : w'.reopen = some r') (key : CString) : r.answer .second key = r'.answer .second key := by
  have hsame := h [] w rfl .first (.add x) w' (fun _ hcall => nomatch hcall) hw'
  exact (hsame.2 r r' hr hr').2 key

theorem not_independent : ¬ ∀ (db ns : CString) (keys1 keys2 : KeySet) (w0 : TwoIndexes),
    keys1 ≠ keys2 → make db ns keys1 keys2 = some w0 → w0.Independent := by
  intro h
  have hanswers : (answers.map fun r => decide (r.1 = r.2)) = some false := by
    decide +kernel
  rcases Option.map_eq_some_iff.1 hanswers with ⟨a, ha, hdiff⟩
  unfold answers at ha
  rcases Option.bind_eq_some_iff.1 ha with ⟨w, hw, h1⟩
  rcases Option.bind_eq_some_iff.1 h1 with ⟨w', hw', h2⟩
  rcases Option.bind_eq_some_iff.1 h2 with ⟨r, hr, h3⟩
  rcases Option.bind_eq_some_iff.1 h3 with ⟨r', hr', h4⟩
  cases h4
  have hind := h _ _ _ _ w (by decide) hw
  exact of_decide_eq_false hdiff (hind.answers_eq hw' hr hr' _)

end TwoIndexes
end Djondb
