import Djondb.LogRecovery

set_option autoImplicit false

/-!
# Writes after a recovery

A buffer that is loaded has its length from the control file and its cursor at zero, and a write
begins at the cursor.
-/
namespace Djondb
open Bytes

namespace TxBufferManager

/-- The writes succeed, and each record goes to the end of the buffer that takes it. -/
def AppendsAll : List TransactionOperation → TxBufferManager → Disk → TxBufferManager → Disk → Prop
  | [], m, d, m', d' => m' = m ∧ d' = d
  | op :: ops, m, d, m', d' => ∃ m1 d1,
      (m.target op d).currentPos = (m.target op d).bufferLength ∧
      m.writeOperationToRegister op d = some (m1, d1) ∧ AppendsAll ops m1 d1 m' d'

/-- The operations of `m` stay as they are, in front of those that are written. -/
def KeepsAll (m : TxBufferManager) (d : Disk) (ops : List TransactionOperation) : Prop :=
  ∃ before m' d', m.pending d = some before ∧ AppendsAll ops m d m' d' ∧
    m'.pending d' = some (before ++ ops)

section load
variable {m : TxBufferManager} {d d' : Disk} {size : ℕ}

/-- The cursor of the buffer is at zero and its window is as long as those of all. -/
def Unread (size : ℕ) (b : TxBuffer) : Prop :=
  b.currentPos = 0 ∧ b.length = size / pageSize * pageSize

theorem loadBufferList_unread {rs : List ControlRecord} {buffers : List TxBuffer}
    (h : loadBufferList size rs d = some (buffers, d')) : ∀ b ∈ buffers, Unread size b := by
  induction rs generalizing d buffers with
  | nil =>
    cases h
    exact fun b hb => absurd hb List.not_mem_nil
  | cons r rs ih =>
    rcases Option.bind_eq_some_iff.1 h with ⟨⟨b, d1⟩, hload, h⟩
    rcases Option.bind_eq_some_iff.1 h with ⟨⟨rest, d2⟩, hrest, h⟩
    cases h
    intro a ha
    rcases List.mem_cons.1 ha with rfl | hmem
    · rcases loadBuffer_eq_some hload with ⟨hpos, hlen, -⟩
      exact ⟨hpos, hlen⟩
    · exact ih hrest a hmem

/-- Whatever the control file says, no buffer of a new manager has been read. -/
theorem new_unread {file : CString} {mainLog : Bool}
    (h : TxBufferManager.new file mainLog d = some (m, d')) :
    ∀ b ∈ m.activeBuffers ++ m.reusableBuffers, Unread m.buffersSize b := by
  cases hfile : d.inode (file.append controlSuffix) with
  | none =>
    rw [new_of_missing mainLog hfile] at h
    cases h
    exact fun b hb => absurd hb List.not_mem_nil
  | some i =>
    rcases new_eq_some hfile h with ⟨size, hsize, rs, h⟩
    rcases loadBuffers_eq_some h with ⟨reusable, active, d1, hreusable, hactive, hsame, -⟩
    intro b hb
    rw [hsame.buffersSize]
    rcases List.mem_append.1 hb with hmem | hmem
    · exact loadBufferList_unread hactive b hmem
    · exact loadBufferList_unread hreusable b hmem

end load

section write
variable {m m' : TxBufferManager} {d d' : Disk} {op : TransactionOperation}

theorem minimumSize_le (op : TransactionOperation) : minimumSize op ≤ op.record.length + 8 := by
  unfold minimumSize
  rw [Int.bmod_def]
  push_cast
  split_ifs <;> omega

theorem upcoming_length (hunread : ∀ b ∈ m.reusableBuffers, Unread m.buffersSize b) (d : Disk) :
    (m.upcoming d).length ≤ m.buffersSize := by
  have hle := Nat.div_mul_le_self m.buffersSize pageSize
  cases hr : m.reusableBuffers with
  | nil =>
    rw [upcoming_of_nil d hr]
    exact hle
  | cons b rest =>
    rw [upcoming_of_cons d hr]
    have hb := hunread b (by rw [hr]; exact List.mem_cons_self)
    change b.length ≤ m.buffersSize
    rw [hb.2]
    exact hle

/-- Where a record is too long for an empty buffer there is no place for it. -/
theorem write_eq_none (hsize : (m.buffersSize : ℤ) < minimumSize op)
    (hfull : m.exhausted (minimumSize op) = true)
    (hunread : ∀ b ∈ m.reusableBuffers, Unread m.buffersSize b) :
    m.writeOperationToRegister op d = none := by
  cases hwrite : m.writeOperationToRegister op d with
  | none => rfl
  | some r =>
    rcases Option.bind_eq_some_iff.1 hwrite with ⟨⟨m1, d1⟩, hget, hrecord⟩
    rw [getBuffer_eq, Bool.false_or, if_pos hfull] at hget
    rcases nextBuffer_eq_some d hget with ⟨b, hgrown⟩
    rcases Option.bind_eq_some_iff.1 hrecord with ⟨b', hlast, hrecord⟩
    rw [hgrown.activeBuffers, List.getLast?_concat] at hlast
    cases hlast
    rcases Option.bind_eq_some_iff.1 hrecord with ⟨⟨b1, d2⟩, hlong, hrecord⟩
    rcases Option.bind_eq_some_iff.1 hrecord with ⟨⟨b2, d3⟩, hchars, -⟩
    have hpos := hgrown.empty.2
    have hlength : b.length ≤ m.buffersSize := by
      have hupcoming := upcoming_length hunread d
      rcases hgrown.window with ⟨p, rfl⟩
      exact hupcoming
    rcases TxBuffer.writeLong_eq_some hlong with ⟨-, rfl, rfl⟩
    rcases TxBuffer.writeChars_eq_some hchars with ⟨hroom, -⟩
    change b.currentPos + 8 + (4 + op.record.length) ≤ b.length at hroom
    have hmin := minimumSize_le op
    omega

end write

/-- A recovered manager whose last buffer holds something keeps what it holds if nothing is
written, and only then. -/
theorem keepsAll_iff {file : CString} {mainLog : Bool} {d0 d : Disk} {m : TxBufferManager}
    {b : TxBuffer} {opss : List (List TransactionOperation)}
    (hnew : TxBufferManager.new file mainLog d0 = some (m, d))
    (hlast : m.activeBuffers.getLast? = some b) (hlength : 0 < b.bufferLength)
    (hcontents : m.Contents d opss) (ops : List TransactionOperation) :
    m.KeepsAll d ops ↔ ops = [] := by
  have hunread := new_unread hnew
  constructor
  · rintro ⟨before, m', d', -, hall, -⟩
    cases ops with
    | nil => rfl
    | cons op ops =>
      rcases hall with ⟨m1, d1, hend, hwrite, -⟩
      have hpos : b.currentPos = 0 :=
        (hunread b (List.mem_append_left _ (List.mem_of_getLast? hlast))).1
      by_cases hfull : m.exhausted (minimumSize op) = true
      · have hsize : (m.buffersSize : ℤ) < minimumSize op := by
          unfold exhausted at hfull
          rw [hlast] at hfull
          have hroom := of_decide_eq_true hfull
          rw [hpos] at hroom
          omega
        rw [write_eq_none hsize hfull fun b hb => hunread b (List.mem_append_right _ hb)] at hwrite
        cases hwrite
      · rw [target, if_neg hfull, hlast] at hend
        change b.currentPos = b.bufferLength at hend
        omega
  · rintro rfl
    refine ⟨opss.flatten, m, d, hcontents.pending, ⟨rfl, rfl⟩, ?_⟩
    rw [List.append_nil]
    exact hcontents.pending

/-- One write, a new manager on its files, and another write of the same length. -/
def writeRecovered : Option (List TransactionOperation × List TransactionOperation) := do
  let (m, d) ← TxBufferManager.new mainFile true emptyDisk
  let (_, d) ← m.writeOperationToRegister (removalOf 97 noNul_a) d
  let (m, d) ← TxBufferManager.new mainFile true d
  let before ← m.pending d
  let (m, d) ← m.writeOperationToRegister (removalOf 98 noNul_b) d
  let after ← m.pending d
  some (before, after)

/-- The second record has taken the place of the first. -/
theorem not_keepsAll : writeRecovered =
    some ([removalOf 97 (by decide)], [removalOf 98 (by decide)]) := by
  decide +kernel

/-- A recovered log of one record, before anything is written. -/
theorem keepsAll_removal : ∃ d0 m d, TxBufferManager.new mainFile true d0 = some (m, d) ∧
    (∃ b ∈ m.activeBuffers, 0 < b.bufferLength) ∧ m.KeepsAll d [] := by
  rcases start_synced true rfl (by decide) new_emptyDisk with ⟨hmain, h0, hcontents0, hend0⟩
  have hfull : (start mainFile true 0 defaultBufferSize (by decide)).exhausted
      (minimumSize (removal (letters 1))) = true := exhausted_of_nil rfl
  have hclear : (start mainFile true 0 defaultBufferSize (by decide)).Clear (removal (letters 1))
      (emptyDisk.createControl (mainFile.append controlSuffix)
        (writeLong defaultBufferSize ++ writeInt 0)).2 :=
    clear_of_exhausted rfl rfl hfull (by decide) (by decide)
      (fun a ha => absurd ha List.not_mem_nil)
  rcases hcontents0.writeNew h0.control hfull hclear with
    ⟨p, m1, d1, hwrite, -, hcontents1, -, hsame⟩
  have hcount : m1.buffersCount < 2 ^ 31 := by
    rw [m1.counted, hcontents1.logs.length_eq]
    decide
  have h1 := h0.write hend0 hclear (by decide) hwrite
  rcases h1.recover hcontents1 hcount true with ⟨m2, d2, hnew2, hcontents2, -⟩
  rcases List.forall₂_cons_right_iff.1 hcontents2.logs with ⟨b, rest, hb, hrest, hactive⟩
  rw [List.forall₂_nil_right_iff.1 hrest] at hactive
  have hlength : 0 < b.bufferLength := by
    have hframe := TransactionOperation.frame_length (removal (letters 1))
    rw [hb.length_eq, TxBuffer.log_cons, List.length_append]
    omega
  have hlast : m2.activeBuffers.getLast? = some b := by
    rw [hactive]
    rfl
  refine ⟨d1, m2, d2, ?_, ⟨b, ?_, hlength⟩, ?_⟩
  · rw [hsame.file] at hnew2
    exact hnew2
  · rw [hactive]
    exact List.mem_cons_self
  · exact (keepsAll_iff hnew2 hlast hlength hcontents2 []).2 rfl

end TxBufferManager

end Djondb
