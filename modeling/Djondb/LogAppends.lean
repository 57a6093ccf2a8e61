import Djondb.LogContents

set_option autoImplicit false

/-!
# Appending to the transaction log

Where a record goes, and what the log holds after a commit and whatever is written later.
-/
namespace Djondb
open Bytes

namespace TxBufferManager

/-! ## Room for a record -/

/-- The size, the length prefix and the bytes of the record end within the buffer that
`getBuffer` returns. -/
def RecordInside (m : TxBufferManager) (op : TransactionOperation) (d : Disk) : Prop :=
  ∀ m' d' b, m.getBuffer (minimumSize op) false d = some (m', d') →
    m'.activeBuffers.getLast? = some b →
    b.acquireLock.streamPos + op.frame.length ≤ m.buffersSize

theorem minimumSize_eq {m : TxBufferManager} {op : TransactionOperation}
    (h : op.frame.length ≤ m.buffersSize) : minimumSize op = op.record.length + 8 := by
  have hlt := m.buffersSize_lt
  have hframe := op.frame_length
  unfold minimumSize
  exact Int.bmod_eq_of_le (by omega) (by omega)

theorem recordInside_of_exhausted {m : TxBufferManager} {op : TransactionOperation} {d : Disk}
    (hsize : op.frame.length ≤ m.buffersSize) (h : m.exhausted (minimumSize op) = true) :
    m.RecordInside op d := by
  intro m' d' b hget hlast
  rw [getBuffer_eq, Bool.false_or, if_pos h] at hget
  cases hcontrol : m.controlFile with
  | none =>
    rw [nextBuffer_of_closed d (m := m.seekBack) hcontrol] at hget
    cases hget
  | some i =>
    rcases nextBuffer_grown d (m := m.seekBack) hcontrol with ⟨b', m1, d1, hnext, hgrown⟩
    rw [hnext] at hget
    cases hget
    rw [hgrown.activeBuffers, List.getLast?_concat] at hlast
    cases hlast
    change b.currentPos + _ ≤ _
    rw [hgrown.empty.2, Nat.zero_add]
    exact hsize

theorem recordInside_of_room {m : TxBufferManager} {op : TransactionOperation} {d : Disk}
    {b : TxBuffer} (h : ¬ m.exhausted (minimumSize op) = true)
    (hb : m.activeBuffers.getLast? = some b) :
    m.RecordInside op d ↔ b.currentPos + op.frame.length ≤ m.buffersSize := by
  have hget := m.getBuffer_eq (minimumSize op) false d
  rw [Bool.false_or, if_neg h] at hget
  rcases List.eq_nil_or_concat' m.activeBuffers with hnil | ⟨front, b', hconcat⟩
  · exact absurd (exhausted_of_nil hnil) h
  rw [hconcat, List.getLast?_concat] at hb
  cases hb
  have hlast : m.seekBack.activeBuffers.getLast? = some (b.seek b.currentPos) := by
    rw [seekBack_of_concat hconcat, List.getLast?_concat]
  constructor
  · intro hinside
    exact hinside m.seekBack d (b.seek b.currentPos) hget hlast
  · intro hroom m' d' b' hget' hlast'
    rw [hget] at hget'
    cases hget'
    rw [hlast] at hlast'
    cases hlast'
    exact hroom

/-- A record stays inside of its buffer unless the room that is left is enough for the size that
`getBuffer` is asked for and not for the prefix that `writeChars` adds. -/
theorem recordInside_iff (m : TxBufferManager) (op : TransactionOperation) (d : Disk)
    (hsize : op.frame.length ≤ m.buffersSize) :
    m.RecordInside op d ↔ ∀ b, m.activeBuffers.getLast? = some b →
      (m.buffersSize : ℤ) - b.currentPos < op.record.length + 8 ∨
        (op.record.length : ℤ) + 12 ≤ m.buffersSize - b.currentPos := by
  have hmin := minimumSize_eq hsize
  have hframe := op.frame_length
  by_cases h : m.exhausted (minimumSize op) = true
  · refine iff_of_true (recordInside_of_exhausted hsize h) fun b hb => .inl ?_
    unfold exhausted at h
    rw [hb] at h
    have hroom := of_decide_eq_true h
    rwa [hmin] at hroom
  · cases hb : m.activeBuffers.getLast? with
    | none =>
      unfold exhausted at h
      rw [hb] at h
      exact absurd rfl h
    | some b =>
      have hroom := h
      unfold exhausted at hroom
      rw [hb] at hroom
      have hnot := of_decide_eq_false (Bool.eq_false_iff.2 hroom)
      rw [hmin] at hnot
      rw [recordInside_of_room h hb]
      constructor
      · intro hinside b' hb'
        cases hb'
        exact .inr (by omega)
      · intro hor
        rcases hor b rfl with hfull | hfits
        · exact absurd hfull hnot
        · omega

/-- An empty data directory. -/
def emptyDisk : Disk where
  inode _ := none
  memory _ _ := 0
  control _ := []
  fresh := 0
  named := by simp

/-- `"main"`. -/
def mainFile : CString := ⟨[109, 97, 105, 110], by decide⟩

/-- The removal of `key`, with names of one letter. -/
def removal (key : CString) : TransactionOperation where
  db := ⟨[100], noNul_d⟩
  ns := ⟨[110], noNul_n⟩
  operation := .remove key ⟨[114], noNul_r⟩

/-- A key of `n` letters. -/
def letters (n : ℕ) : CString := ⟨List.replicate n 97, by simp⟩

theorem length_letters (n : ℕ) : (letters n).length = n := List.length_replicate

theorem removal_frame_length (key : CString) : (removal key).frame.length = 54 + key.length := by
  rw [TransactionOperation.frame_length, TransactionOperation.record_length,
    TransactionOperation.body_length]
  simp only [removal, TransactionOperation.writeOperation, List.length_append, writeString,
    writeChars_length, CString.length, List.length_singleton]
  omega

theorem start_contents (file : CString) (mainLog : Bool) (i size : ℕ) (h : size < 2 ^ 31)
    (d : Disk) : (start file mainLog i size h).Contents d [] :=
  ⟨.nil, fun _ hb => absurd hb List.not_mem_nil⟩

/-- A first record that leaves `51` bytes of the buffer; the next one, of `55` bytes, is
written behind it and beyond the end. -/
theorem not_recordInside : ∃ m d m' d', new mainFile true emptyDisk = some (m, d) ∧
    m.writeOperationToRegister (removal (letters 81815)) d = some (m', d') ∧
    (removal (letters 1)).frame.length ≤ m'.buffersSize ∧
    ¬ m'.RecordInside (removal (letters 1)) d' := by
  obtain ⟨m, d, hnew⟩ : ∃ m d, new mainFile true emptyDisk = some (m, d) := ⟨_, _, rfl⟩
  have hm : m = start mainFile true 0 defaultBufferSize (by decide) := by
    cases hnew
    rfl
  have hfull : m.exhausted (minimumSize (removal (letters 81815))) = true :=
    exhausted_of_nil (by rw [hm]; rfl)
  have hcontents : m.Contents d [] := by
    rw [hm]
    exact start_contents _ _ _ _ _ _
  have hc : m.controlFile = some 0 := by
    rw [hm]
    rfl
  rcases hcontents.seekBack.nextBuffer hc with ⟨b, m1, d1, hnext, hgrown, h1⟩
  have hlength : b.length = 81920 := by
    rcases hgrown.window with ⟨p, rfl⟩
    rw [hm]
    rfl
  have hactive : m1.activeBuffers = [] ++ [b] := by
    rw [hgrown.activeBuffers, hm]
    rfl
  have hbig : (removal (letters 81815)).frame.length = 81869 := by
    rw [removal_frame_length, length_letters]
  have hsmall : (removal (letters 1)).frame.length = 55 := by
    rw [removal_frame_length, length_letters]
  have hfits : (removal (letters 81815)).Fits := by
    have hframe := TransactionOperation.frame_length (removal (letters 81815))
    unfold TransactionOperation.Fits
    omega
  have hroom : b.currentPos + (removal (letters 81815)).frame.length ≤ b.length := by
    rw [hgrown.empty.2]
    omega
  have h0 : m1.Contents d1 ([] ++ [[]]) := h1
  rcases h0.writeRecord (hgrown.same.controlFile_eq hc)
    hactive (hgrown.empty.2.trans hgrown.empty.1.symm) hroom hfits
    (fun a ha => absurd ha List.not_mem_nil) with ⟨m', d', hwrite, h', hend, hsame⟩
  have hsize : m'.buffersSize = 81920 := by
    rw [hsame.buffersSize, hgrown.same.buffersSize, hm]
    rfl
  obtain ⟨b', hb', hpos⟩ : ∃ b', m'.activeBuffers.getLast? = some b' ∧ b'.currentPos = 81869 := by
    rcases List.forall₂_cons_right_iff.1 h'.logs with ⟨b', rest, hlogs, hnil, hcons⟩
    rw [List.forall₂_nil_right_iff.1 hnil] at hcons
    have hlast : m'.activeBuffers.getLast? = some b' := by
      rw [hcons]
      rfl
    have hlog := hlogs.length_eq
    rw [List.nil_append, TxBuffer.log_cons, TxBuffer.log_nil, List.append_nil, hbig] at hlog
    exact ⟨b', hlast, (hend b' hlast).trans hlog⟩
  have hleft : ¬ m'.exhausted (minimumSize (removal (letters 1))) = true := by
    have hframe := TransactionOperation.frame_length (removal (letters 1))
    have hle : (removal (letters 1)).frame.length ≤ m'.buffersSize := by omega
    unfold exhausted
    rw [minimumSize_eq hle, hb']
    apply Bool.eq_false_iff.1
    apply decide_eq_false
    omega
  refine ⟨m, d, m', d', hnew, ?_, by omega, ?_⟩
  · apply Option.bind_eq_some_iff.2
    refine ⟨(m1, d1), ?_, hwrite⟩
    rw [getBuffer_eq, Bool.false_or, if_pos hfull, hnext]
  · rw [recordInside_of_room hleft hb']
    omega

/-- The first record of a fresh log. -/
theorem recordInside_fresh :
    (removal (letters 1)).frame.length ≤
        (start mainFile true 0 defaultBufferSize (by decide)).buffersSize ∧
      ((start mainFile true 0 defaultBufferSize (by decide)).RecordInside
          (removal (letters 1)) emptyDisk ↔
        ∀ b, (start mainFile true 0 defaultBufferSize (by decide)).activeBuffers.getLast? = some b →
          (defaultBufferSize : ℤ) - b.currentPos < (removal (letters 1)).record.length + 8 ∨
            ((removal (letters 1)).record.length : ℤ) + 12 ≤ defaultBufferSize - b.currentPos) :=
  ⟨by decide, recordInside_iff (start mainFile true 0 defaultBufferSize (by decide))
    (removal (letters 1)) emptyDisk (by decide)⟩

end TxBufferManager

end Djondb
