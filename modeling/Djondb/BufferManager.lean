import Djondb.BsonStream

set_option autoImplicit false

/-!
# Buffers of an index file

A `Buffer` maps a range of a file. Its stream keeps a position of its own next to the buffer's
cursor. The ranges of one manager do not overlap, so each buffer has its bytes for itself; bytes
written behind the mapped range stay in memory and are gone after a reload.
-/
namespace Djondb
open Bytes

def pageSize : ℕ := 4096

structure Buffer where
  startOffset : ℕ
  bufferLength : ℕ
  maxLength : ℤ
  currentPos : ℕ
  bufferIndex : ℤ
  /-- The position of the mapped stream. -/
  pos : ℕ
  content : List UInt8
  deriving DecidableEq

namespace Buffer

/-- The constructor; `content` is what the mapped range of the file holds. -/
def new (offset bufferLen : ℕ) (maxLen : ℤ) (content : List UInt8) : Buffer where
  startOffset := offset
  bufferLength := bufferLen
  maxLength := maxLen
  currentPos := 0
  bufferIndex := 0
  pos := 0
  content := content

def spaceLeft (b : Buffer) : ℤ := b.maxLength - b.bufferLength

def seek (b : Buffer) (pos : ℕ) : Buffer := { b with pos := pos, currentPos := pos }

/-- `seek(pos, FROMEND_SEEK)`. -/
def seekEnd (b : Buffer) (pos : ℕ) : Buffer :=
  { b with pos := b.bufferLength - pos, currentPos := b.bufferLength - pos }

/-- What the mapped stream does when `bs` is written. -/
def put (b : Buffer) (bs : List UInt8) : Buffer :=
  { b with content := overwrite b.content b.pos bs, pos := b.pos + bs.length }

def writeInt (b : Buffer) (v : ℤ) : Buffer :=
  { b.put (Djondb.writeInt v) with
    bufferLength := b.bufferLength + 4, currentPos := b.currentPos + 4 }

def writeLong (b : Buffer) (v : ℤ) : Buffer :=
  { b.put (Djondb.writeLong v) with
    bufferLength := b.bufferLength + 8, currentPos := b.currentPos + 8 }

/-- The length and the cursor advance by the position the stream has reached. -/
def writeChars (b : Buffer) (text : List UInt8) : Buffer :=
  let b' := b.put (Djondb.writeChars text)
  { b' with bufferLength := b.bufferLength + b'.pos, currentPos := b.currentPos + b'.pos }

def writeString (b : Buffer) (text : CString) : Buffer := b.writeChars text.bytes

/-- Reads from the stream's position on. -/
def read {α : Type} (b : Buffer) (r : Reader α) : Option α :=
  (r (b.content.drop b.pos)).map Prod.fst

end Buffer

structure BufferManager where
  buffersSize : ℕ
  /-- `_vactiveBuffers`; nothing pops the buffers of an index. -/
  buffers : List Buffer
  deriving DecidableEq

namespace BufferManager

/-- A manager on a file that does not exist yet. -/
def new (pages : ℕ) : BufferManager where
  buffersSize := pageSize * pages
  buffers := []

def buffersCount (m : BufferManager) : ℕ := m.buffers.length

def getBuffer (m : BufferManager) (index : ℤ) : Option Buffer :=
  if index < 0 ∨ (m.buffersCount : ℤ) ≤ index then none else m.buffers[index.toNat]?

def setBuffer (m : BufferManager) (index : ℤ) (b : Buffer) : BufferManager :=
  { m with buffers := m.buffers.set index.toNat b }

def createNewBuffer (m : BufferManager) : Buffer :=
  Buffer.new (m.buffersCount * m.buffersSize) 0 (m.buffersSize / pageSize : ℕ) []

def addBuffer (m : BufferManager) (b : Buffer) : BufferManager :=
  { m with buffers := m.buffers ++ [{ b with bufferIndex := m.buffersCount }] }

/-- The buffer it returns is the last one of the manager. -/
def getCurrentBuffer (m : BufferManager) (minimumSize : ℕ) (forceNewBuffer : Bool) :
    BufferManager :=
  match m.buffers.getLast? with
  | none => m.addBuffer m.createNewBuffer
  | some b =>
    let m := m.setBuffer (m.buffersCount - 1 : ℕ) (b.seek b.currentPos)
    if forceNewBuffer ∨ b.spaceLeft < minimumSize then m.addBuffer m.createNewBuffer else m

/-- A new manager on the files that `m` has left behind. -/
def reload (m : BufferManager) : BufferManager where
  buffersSize := m.buffersSize
  buffers := m.buffers.mapIdx fun i b =>
    { Buffer.new b.startOffset m.buffersSize (m.buffersSize / pageSize : ℕ)
        (b.content.take m.buffersSize) with bufferIndex := i }

/-! ## Well-formed managers -/

/-- The bytes of buffer `j`. -/
def content (m : BufferManager) (j : ℕ) : List UInt8 := ((m.buffers[j]?).map Buffer.content).getD []

/-- Buffers know their place, and none has room for a second page. -/
structure WF (m : BufferManager) : Prop where
  buffersSize : m.buffersSize = pageSize
  indexed : ∀ (j : ℕ) (b : Buffer), m.buffers[j]? = some b →
    b.bufferIndex = j ∧ b.maxLength = 1

theorem new_wf : (new 1).WF := ⟨rfl, by simp [new]⟩

variable {m : BufferManager}

theorem WF.getBuffer (h : m.WF) {j : ℕ} (hj : j < m.buffers.length) :
    ∃ b, m.getBuffer j = some b ∧ b.bufferIndex = j ∧ b.maxLength = 1 ∧
      b.content = m.content j := by
  obtain ⟨hidx, hmax⟩ := h.indexed j _ (List.getElem?_eq_getElem hj)
  refine ⟨m.buffers[j], ?_, hidx, hmax, ?_⟩
  · have hlt : ¬ ((j : ℤ) < 0 ∨ (m.buffersCount : ℤ) ≤ j) := by
      simp only [buffersCount]
      omega
    rw [BufferManager.getBuffer, if_neg hlt, Int.toNat_natCast, List.getElem?_eq_getElem hj]
  · simp [content, hj]

@[simp] theorem setBuffer_length (j : ℤ) (b : Buffer) :
    (m.setBuffer j b).buffers.length = m.buffers.length := by
  simp [setBuffer]

theorem content_setBuffer {j : ℕ} (hj : j < m.buffers.length) (b : Buffer) (i : ℕ) :
    (m.setBuffer j b).content i = if i = j then b.content else m.content i := by
  by_cases h : i = j
  · subst i
    simp [content, setBuffer, hj]
  · simp [content, setBuffer, h, Ne.symm h]

theorem WF.setBuffer (h : m.WF) {j : ℕ} {b : Buffer} (hi : b.bufferIndex = j)
    (hl : b.maxLength = 1) : (m.setBuffer j b).WF := by
  refine ⟨h.buffersSize, fun i b' hb' => ?_⟩
  change (m.buffers.set j b)[i]? = some b' at hb'
  rw [List.getElem?_set] at hb'
  split_ifs at hb' with hij hlt
  · subst i
    cases hb'
    exact ⟨hi, hl⟩
  · exact h.indexed i b' hb'

theorem WF.addBuffer (h : m.WF) : (m.addBuffer m.createNewBuffer).WF := by
  refine ⟨h.buffersSize, fun i b hb => ?_⟩
  change (m.buffers ++ [_])[i]? = some b at hb
  obtain hi | hi | hi := lt_trichotomy i m.buffers.length
  · rw [List.getElem?_append_left hi] at hb
    exact h.indexed i b hb
  · subst i
    rw [List.getElem?_concat_length] at hb
    cases hb
    refine ⟨rfl, ?_⟩
    simp [createNewBuffer, Buffer.new, h.buffersSize, pageSize]
  · rw [List.getElem?_eq_none (by simp; omega)] at hb
    cases hb

/-- `m'` is `m` with one more buffer, which is empty. -/
structure Grown (m m' : BufferManager) : Prop where
  wf : m'.WF
  length : m'.buffers.length = m.buffers.length + 1
  content : ∀ j, m'.content j = m.content j
  last : ∃ b, m'.buffers.getLast? = some b ∧ m'.buffers[m.buffers.length]? = some b ∧
    b.bufferLength = 0 ∧ b.bufferIndex = (m.buffers.length : ℤ)

theorem WF.grown_addBuffer (h : m.WF) : Grown m (m.addBuffer m.createNewBuffer) where
  wf := h.addBuffer
  length := by simp [BufferManager.addBuffer]
  content j := by
    obtain hj | hj | hj := lt_trichotomy j m.buffers.length
    · simp [BufferManager.content, BufferManager.addBuffer, List.getElem?_append_left hj]
    · subst j
      simp [BufferManager.content, BufferManager.addBuffer, createNewBuffer, Buffer.new]
    · have h1 : m.buffers[j]? = none := List.getElem?_eq_none (by omega)
      have h2 : (m.addBuffer m.createNewBuffer).buffers[j]? = none :=
        List.getElem?_eq_none (by simp [BufferManager.addBuffer]; omega)
      rw [BufferManager.content, BufferManager.content, h1, h2]
  last := ⟨{ m.createNewBuffer with bufferIndex := m.buffersCount },
    by simp [BufferManager.addBuffer], by simp [BufferManager.addBuffer], rfl, rfl⟩

/-- A request for a page always gets a new buffer. -/
theorem WF.getCurrentBuffer (h : m.WF) {minimumSize : ℕ} (hsize : 2 ≤ minimumSize)
    (forceNewBuffer : Bool) : Grown m (m.getCurrentBuffer minimumSize forceNewBuffer) := by
  obtain hlast | ⟨b, hlast⟩ := Option.eq_none_or_eq_some m.buffers.getLast?
  · rw [BufferManager.getCurrentBuffer, hlast]
    exact h.grown_addBuffer
  · have hget : m.buffers[m.buffersCount - 1]? = some b := by
      rw [← hlast, List.getLast?_eq_getElem?]
      rfl
    have hlt : m.buffersCount - 1 < m.buffers.length := (List.getElem?_eq_some_iff.1 hget).1
    obtain ⟨hidx, hmax⟩ := h.indexed _ b hget
    have hspace : b.spaceLeft < minimumSize := by
      rw [Buffer.spaceLeft, hmax]
      omega
    have hset := h.setBuffer (b := b.seek b.currentPos) hidx hmax
    have hgrown := hset.grown_addBuffer
    rw [BufferManager.getCurrentBuffer, hlast]
    simp only [hspace, or_true, if_true]
    refine ⟨hgrown.wf, by simpa using hgrown.length, fun j => ?_, by simpa using hgrown.last⟩
    rw [hgrown.content j, content_setBuffer hlt]
    split_ifs with hj
    · subst j
      simp [content, hget, Buffer.seek]
    · rfl

@[simp] theorem reload_length : m.reload.buffers.length = m.buffers.length := by
  simp [reload]

theorem WF.reload (h : m.WF) : m.reload.WF := by
  refine ⟨h.buffersSize, fun j b hb => ?_⟩
  simp only [BufferManager.reload, List.getElem?_mapIdx, Option.map_eq_some_iff] at hb
  obtain ⟨b', -, rfl⟩ := hb
  refine ⟨rfl, ?_⟩
  simp [Buffer.new, h.buffersSize, pageSize]

/-- Only the mapped range is there after a reload. -/
theorem WF.content_reload (h : m.WF) (j : ℕ) :
    m.reload.content j = (m.content j).take pageSize := by
  simp only [content, BufferManager.reload, List.getElem?_mapIdx, h.buffersSize]
  cases m.buffers[j]? <;> simp [Buffer.new]

end BufferManager
end Djondb
