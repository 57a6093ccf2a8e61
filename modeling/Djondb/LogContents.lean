import Djondb.StdTransaction
import Mathlib.Data.List.Forall2

set_option autoImplicit false

/-!
# The operations in a transaction log

A manager holds a list of operations in each of its active buffers. Every step of the manager is
a step on these lists: a write appends to the last of them, a commit brings the lists of another
manager and an empty one, and the monitor takes the first.
-/
namespace Djondb
open Bytes

namespace TxBuffer

/-- Logs that stay keep what a buffer holds. -/
theorem Logs.keeps {b : TxBuffer} {d d' : Disk} {ops : List TransactionOperation}
    (h : b.Logs d ops) (hd : d.Keeps d') : b.Logs d' ops where
  mapped := Nat.lt_of_lt_of_le h.mapped hd.fresh_le
  holds := by
    rw [hd.memory_eq b.inode h.mapped]
    exact h.holds
  length_eq := h.length_eq
  length_le := h.length_le
  fits := h.fits

/-- Only the window and the length matter, not the cursors. -/
theorem Logs.congr {b b' : TxBuffer} {d : Disk} {ops : List TransactionOperation}
    (h : b.Logs d ops) (hinode : b'.inode = b.inode) (hstart : b'.startOffset = b.startOffset)
    (hlength : b'.length = b.length) (hbuffer : b'.bufferLength = b.bufferLength) :
    b'.Logs d ops where
  mapped := by rw [hinode]; exact h.mapped
  holds := by rw [hinode, hstart]; exact h.holds
  length_eq := by rw [hbuffer]; exact h.length_eq
  length_le := by rw [hbuffer, hlength]; exact h.length_le
  fits := h.fits

theorem logs_nil {b : TxBuffer} {d : Disk} (hmapped : b.inode < d.fresh)
    (hlength : b.bufferLength = 0) : b.Logs d [] where
  mapped := hmapped
  holds := rfl
  length_eq := hlength
  length_le := by omega
  fits := fun _ h => absurd h List.not_mem_nil

/-- `n` bytes at `pos` of `b` are none of those that `a` uses. -/
def Apart (b : TxBuffer) (n : ℕ) (a : TxBuffer) : Prop :=
  a.inode = b.inode → b.startOffset + b.currentPos + n ≤ a.startOffset ∨
    a.startOffset + a.bufferLength ≤ b.startOffset + b.currentPos

instance (b : TxBuffer) (n : ℕ) (a : TxBuffer) : Decidable (b.Apart n a) :=
  inferInstanceAs (Decidable (_ → _))

theorem Logs.write_apart {a b : TxBuffer} {d : Disk} {ops : List TransactionOperation}
    {bs : List UInt8} (h : a.Logs d ops) (hapart : b.Apart bs.length a) :
    a.Logs (d.writeLog b.inode (b.startOffset + b.currentPos) bs) ops where
  mapped := h.mapped
  holds := by
    by_cases hi : a.inode = b.inode
    · have hlen := h.length_eq
      rw [hi, Disk.writeLog_memory_self]
      have hholds := h.holds
      rw [hi] at hholds
      apply hholds.write
      have hor := hapart hi
      omega
    · rw [Disk.writeLog_memory_of_ne _ _ _ hi]
      exact h.holds
  length_eq := h.length_eq
  length_le := h.length_le
  fits := h.fits

/-- The buffer once `n` bytes have been written at its cursor. -/
def filled (b : TxBuffer) (n : ℕ) : TxBuffer :=
  { b.seek (b.currentPos + n) with bufferLength := b.currentPos + n }

@[simp] theorem filled_startOffset (b : TxBuffer) (n : ℕ) :
    (b.filled n).startOffset = b.startOffset := rfl

@[simp] theorem filled_currentPos (b : TxBuffer) (n : ℕ) :
    (b.filled n).currentPos = b.currentPos + n := rfl

@[simp] theorem filled_bufferLength (b : TxBuffer) (n : ℕ) :
    (b.filled n).bufferLength = b.currentPos + n := rfl

/-- `writeLong` and `writeChars` put the whole frame at the cursor. -/
theorem write_frame {b : TxBuffer} {op : TransactionOperation} (d : Disk)
    (hpos : b.currentPos = b.bufferLength) (hroom : b.currentPos + op.frame.length ≤ b.length) :
    ∃ b1 d1, b.acquireLock.writeLong op.record.length d = some (b1, d1) ∧
      b1.writeChars op.record d1 = some
        ({ b.seek (b.currentPos + op.frame.length) with
            bufferLength := b.currentPos + op.frame.length },
          d.writeLog b.inode (b.startOffset + b.currentPos) op.frame) := by
  have hframe := op.frame_length
  have hlong : b.acquireLock.streamPos + 8 ≤ b.acquireLock.length := by
    change b.currentPos + 8 ≤ b.length
    omega
  refine ⟨_, _, if_pos hlong, ?_⟩
  have hchars : b.currentPos + 8 + (4 + op.record.length) ≤ b.length := by omega
  have hend : b.currentPos + 8 + (4 + op.record.length) = b.currentPos + op.frame.length := by
    omega
  refine (if_pos hchars).trans ?_
  have hdisk := d.writeLog_writeLog b.inode (b.startOffset + b.currentPos)
    (Djondb.writeLong op.record.length) (Djondb.writeChars op.record)
  rw [writeLong_length] at hdisk
  rw [← hend]
  exact congrArg (fun d' => some (_, d')) hdisk

/-- The buffer that has taken the record of `op` at its end. -/
theorem Logs.append {b : TxBuffer} {d : Disk} {ops : List TransactionOperation}
    {op : TransactionOperation} (h : b.Logs d ops) (hpos : b.currentPos = b.bufferLength)
    (hroom : b.currentPos + op.frame.length ≤ b.length) (hfits : op.Fits) :
    ({ b.seek (b.currentPos + op.frame.length) with
        bufferLength := b.currentPos + op.frame.length } : TxBuffer).Logs
      (d.writeLog b.inode (b.startOffset + b.currentPos) op.frame) (ops ++ [op]) where
  mapped := h.mapped
  holds := by
    have hlen := h.length_eq
    change ((d.writeLog b.inode _ _).memory b.inode).Holds b.startOffset _
    rw [Disk.writeLog_memory_self, log_append, log_cons, log_nil, List.append_nil,
      Memory.holds_append]
    constructor
    · apply h.holds.write
      omega
    · rw [← hlen, ← hpos]
      exact Memory.write_holds _ _ _
  length_eq := by
    change b.currentPos + op.frame.length = _
    rw [log_append, log_cons, log_nil, List.append_nil, List.length_append, ← h.length_eq, hpos]
  length_le := hroom
  fits := by
    intro op' hop'
    rcases List.mem_append.1 hop' with hold | hnew
    · exact h.fits op' hold
    · rw [List.mem_singleton.1 hnew]
      exact hfits

end TxBuffer

namespace TxBufferManager

/-! ## Steps of the manager -/

section register
variable {m : TxBufferManager} {i : ℕ}

theorem register_new (h : m.controlFile = some i) (n : ℕ) (b : TxBuffer) (d : Disk) :
    ∃ p byLog file, m.registerBufferControlFile n b true d =
      some ({ b with controlPosition := p }, { m with buffersByLog := byLog },
        d.setControl i file) := by
  unfold registerBufferControlFile
  rw [h]
  exact ⟨_, _, _, rfl⟩

theorem register_reused (h : m.controlFile = some i) (n : ℕ) (b : TxBuffer) (d : Disk) :
    ∃ byLog file, m.registerBufferControlFile n b false d =
      some (b.reset, { m with buffersByLog := byLog }, d.setControl i file) := by
  unfold registerBufferControlFile
  rw [h]
  exact ⟨_, _, rfl⟩

/-- A record is written only where the control file is open. -/
theorem register_eq_some {n : ℕ} {b : TxBuffer} {newBuffer : Bool} {d : Disk}
    {r : TxBuffer × TxBufferManager × Disk}
    (h : m.registerBufferControlFile n b newBuffer d = some r) : ∃ i, m.controlFile = some i := by
  rcases Option.bind_eq_some_iff.1 h with ⟨i, hi, -⟩
  exact ⟨i, hi⟩

end register

/-- What no step but the dropping of the control file changes. -/
structure SameLog (m m' : TxBufferManager) : Prop where
  file : m'.file = m.file
  mainLog : m'.mainLog = m.mainLog
  buffersSize : m'.buffersSize = m.buffersSize
  controlFile : m'.controlFile = m.controlFile

theorem SameLog.refl (m : TxBufferManager) : m.SameLog m := ⟨rfl, rfl, rfl, rfl⟩

theorem SameLog.trans {m1 m2 m3 : TxBufferManager} (h : m1.SameLog m2) (h' : m2.SameLog m3) :
    m1.SameLog m3 where
  file := h'.file.trans h.file
  mainLog := h'.mainLog.trans h.mainLog
  buffersSize := h'.buffersSize.trans h.buffersSize
  controlFile := h'.controlFile.trans h.controlFile

theorem SameLog.controlFile_eq {m m' : TxBufferManager} {i : ℕ} (h : m.SameLog m')
    (hc : m.controlFile = some i) : m'.controlFile = some i := h.controlFile.trans hc

theorem seekBack_same (m : TxBufferManager) : m.SameLog m.seekBack := ⟨rfl, rfl, rfl, rfl⟩

/-- The buffer that `nextBuffer` puts behind the active ones. -/
def upcoming (m : TxBufferManager) (d : Disk) : TxBuffer :=
  match m.reusableBuffers with
  | [] => (m.createNewBuffer d).1
  | buffer :: _ => buffer.reset

/-- `m'` is `m` with `b` behind its active buffers. -/
structure Grown (m : TxBufferManager) (d : Disk) (b : TxBuffer) (m' : TxBufferManager)
    (d' : Disk) : Prop where
  activeBuffers : m'.activeBuffers = m.activeBuffers ++ [b]
  reusableBuffers : m'.reusableBuffers = m.reusableBuffers.tail
  same : m.SameLog m'
  window : ∃ p, b = { m.upcoming d with controlPosition := p }
  mapped : m.reusableBuffers = [] → b.inode < d'.fresh
  keeps : d.Keeps d'

section next
variable {m : TxBufferManager} (d : Disk)

theorem nextBuffer_of_nil (hr : m.reusableBuffers = []) :
    m.nextBuffer d = (m.registerBufferControlFile (m.buffersCount + 1)
      ((m.createNewBuffer d).1.seek 0) true (m.createNewBuffer d).2).bind
        fun r => some (r.2.1.addBuffer r.1, r.2.2) := by
  unfold nextBuffer
  split
  · rfl
  · next heq => exact absurd (hr.symm.trans heq) (List.cons_ne_nil _ _).symm

theorem nextBuffer_of_cons {b : TxBuffer} {rest : List TxBuffer}
    (hr : m.reusableBuffers = b :: rest) :
    m.nextBuffer d = (registerBufferControlFile { m with reusableBuffers := rest }
      (m.buffersCount + 1) (b.reset.seek 0) false d).bind
        fun r => some (r.2.1.addBuffer r.1, r.2.2) := by
  unfold nextBuffer
  split
  · next heq => exact absurd (hr.symm.trans heq) (List.cons_ne_nil _ _)
  · next heq =>
    cases hr.symm.trans heq
    rfl

theorem nextBuffer_of_closed (h : m.controlFile = none) : m.nextBuffer d = none := by
  cases hr : m.reusableBuffers with
  | nil =>
    rw [nextBuffer_of_nil d hr, registerBufferControlFile, h]
    rfl
  | cons b rest =>
    rw [nextBuffer_of_cons d hr, registerBufferControlFile]
    change (Option.bind (m.controlFile >>= _) _) = none
    rw [h]
    rfl

theorem upcoming_of_nil (hr : m.reusableBuffers = []) :
    m.upcoming d = (m.createNewBuffer d).1.seek 0 := by
  unfold upcoming
  rw [hr]
  rfl

theorem upcoming_of_cons {b : TxBuffer} {rest : List TxBuffer}
    (hr : m.reusableBuffers = b :: rest) : m.upcoming d = b.reset := by
  unfold upcoming
  rw [hr]

theorem nextBuffer_grown {i : ℕ} (h : m.controlFile = some i) :
    ∃ b m' d', m.nextBuffer d = some (m', d') ∧ m.Grown d b m' d' := by
  cases hr : m.reusableBuffers with
  | nil =>
    rcases register_new h (m.buffersCount + 1) ((m.createNewBuffer d).1.seek 0)
      (m.createNewBuffer d).2 with ⟨p, byLog, file, hreg⟩
    rw [nextBuffer_of_nil d hr, hreg]
    refine ⟨_, _, _, rfl, rfl, ?_, ⟨rfl, rfl, rfl, rfl⟩, ⟨p, ?_⟩, fun _ => ?_, ?_⟩
    · exact hr.trans (congrArg List.tail hr).symm
    · rw [upcoming_of_nil d hr]
    · exact d.openLog_lt m.logFileName
    · exact (d.openLog_keeps m.logFileName).trans (Disk.setControl_keeps _ i file)
  | cons b rest =>
    rcases register_reused (m := { m with reusableBuffers := rest }) h (m.buffersCount + 1)
      (b.reset.seek 0) d with ⟨byLog, file, hreg⟩
    rw [nextBuffer_of_cons d hr, hreg]
    refine ⟨_, _, _, rfl, rfl, ?_, ⟨rfl, rfl, rfl, rfl⟩, ⟨b.controlPosition, ?_⟩, fun hnil => ?_,
      d.setControl_keeps i file⟩
    · exact (congrArg List.tail hr).symm
    · rw [upcoming_of_cons d hr]
      rfl
    · exact absurd (hr.symm.trans hnil) (List.cons_ne_nil _ _)

theorem nextBuffer_eq_some {m' : TxBufferManager} {d' : Disk}
    (h : m.nextBuffer d = some (m', d')) : ∃ b, m.Grown d b m' d' := by
  cases hc : m.controlFile with
  | none =>
    rw [nextBuffer_of_closed d hc] at h
    cases h
  | some i =>
    rcases nextBuffer_grown d hc with ⟨b, m1, d1, hnext, hgrown⟩
    cases h.symm.trans hnext
    exact ⟨b, hgrown⟩

end next

/-! ## What a manager holds -/

/-- One list of operations for each active buffer. -/
structure Contents (m : TxBufferManager) (d : Disk) (opss : List (List TransactionOperation)) :
    Prop where
  logs : List.Forall₂ (fun b ops => b.Logs d ops) m.activeBuffers opss
  reusable : ∀ b ∈ m.reusableBuffers, b.inode < d.fresh

theorem forall₂_mapBack {α β : Type} {R : α → β → Prop} {f : α → α}
    (hf : ∀ a b, R a b → R (f a) b) {l : List α} {l' : List β} (h : List.Forall₂ R l l') :
    List.Forall₂ R (mapBack f l) l' := by
  induction h with
  | nil => exact .nil
  | cons hab hrest ih =>
    cases hrest with
    | nil => exact .cons (hf _ _ hab) .nil
    | cons hcd hrest => exact .cons hab ih

theorem forall₂_keeps {d d' : Disk} (hd : d.Keeps d') {buffers : List TxBuffer}
    {opss : List (List TransactionOperation)}
    (h : List.Forall₂ (fun b ops => b.Logs d ops) buffers opss) :
    List.Forall₂ (fun b ops => b.Logs d' ops) buffers opss :=
  h.imp fun _ _ hlogs => hlogs.keeps hd

theorem forall₂_concat {α β : Type} {R : α → β → Prop} {l : List α} {l' : List β} {a : α} {b : β}
    (h : List.Forall₂ R (l ++ [a]) (l' ++ [b])) : List.Forall₂ R l l' ∧ R a b := by
  have hlen : l.length = l'.length := by
    have h1 := h.length_eq
    simpa using h1
  have htake := List.forall₂_take l.length h
  have hdrop := List.forall₂_drop l.length h
  rw [List.take_left, hlen, List.take_left] at htake
  rw [List.drop_left, hlen, List.drop_left] at hdrop
  cases hdrop with
  | cons hab _ => exact ⟨htake, hab⟩

section contents
variable {m : TxBufferManager} {d : Disk} {opss : List (List TransactionOperation)} {i : ℕ}

theorem upcoming_empty (m : TxBufferManager) (d : Disk) :
    (m.upcoming d).bufferLength = 0 ∧ (m.upcoming d).currentPos = 0 := by
  unfold upcoming
  cases m.reusableBuffers with
  | nil => exact ⟨rfl, rfl⟩
  | cons b rest => exact ⟨rfl, rfl⟩

theorem Grown.empty {b : TxBuffer} {m' : TxBufferManager} {d' : Disk} (h : m.Grown d b m' d') :
    b.bufferLength = 0 ∧ b.currentPos = 0 := by
  rcases h.window with ⟨p, rfl⟩
  exact m.upcoming_empty d

theorem Grown.inode_lt {b : TxBuffer} {m' : TxBufferManager} {d' : Disk} (h : m.Grown d b m' d')
    (hreusable : ∀ b ∈ m.reusableBuffers, b.inode < d.fresh) : b.inode < d'.fresh := by
  cases hr : m.reusableBuffers with
  | nil => exact h.mapped hr
  | cons b' rest =>
    rcases h.window with ⟨p, rfl⟩
    rw [upcoming_of_cons d hr]
    have hb' := hreusable b' (by rw [hr]; exact List.mem_cons_self)
    exact Nat.lt_of_lt_of_le hb' h.keeps.fresh_le

theorem Contents.nextBuffer (h : m.Contents d opss) (hc : m.controlFile = some i) :
    ∃ b m' d', m.nextBuffer d = some (m', d') ∧ m.Grown d b m' d' ∧
      m'.Contents d' (opss ++ [[]]) := by
  rcases nextBuffer_grown d hc with ⟨b, m', d', hnext, hgrown⟩
  refine ⟨b, m', d', hnext, hgrown, ?_, ?_⟩
  · rw [hgrown.activeBuffers]
    apply List.rel_append (forall₂_keeps hgrown.keeps h.logs)
    exact .cons (TxBuffer.logs_nil (hgrown.inode_lt h.reusable) hgrown.empty.1) .nil
  · intro b' hb'
    rw [hgrown.reusableBuffers] at hb'
    exact Nat.lt_of_lt_of_le (h.reusable b' (List.mem_of_mem_tail hb')) hgrown.keeps.fresh_le

/-- Moving the cursors of the last buffer changes no contents. -/
theorem Contents.setBack (h : m.Contents d opss) {f : TxBuffer → TxBuffer}
    (hf : ∀ b ops, b.Logs d ops → (f b).Logs d ops) : (m.setBack f).Contents d opss where
  logs := forall₂_mapBack hf h.logs
  reusable := h.reusable

/-- The buffers of another manager come behind, with control records of their own. -/
theorem Contents.addBufferList (h : m.Contents d opss) (hc : m.controlFile = some i)
    {buffers : List TxBuffer} {opss' : List (List TransactionOperation)}
    (hb : List.Forall₂ (fun b ops => b.Logs d ops) buffers opss') :
    ∃ m' d', addBufferList buffers m d = some (m', d') ∧ m'.Contents d' (opss ++ opss') ∧
      m.SameLog m' ∧ d.Keeps d' := by
  induction buffers generalizing m d opss opss' with
  | nil =>
    cases hb
    exact ⟨m, d, rfl, by rwa [List.append_nil], SameLog.refl m, Disk.Keeps.refl d⟩
  | cons b buffers ih =>
    rcases List.forall₂_cons_left_iff.1 hb with ⟨ops, opss'', hlogs, hrest, rfl⟩
    rcases register_new hc (m.buffersCount + 1) b d with ⟨p, byLog, file, hreg⟩
    have hkeeps := d.setControl_keeps i file
    have hcontents : (addBuffer { m with buffersByLog := byLog }
        { b with controlPosition := p }).Contents (d.setControl i file) (opss ++ [ops]) := by
      constructor
      · apply List.rel_append (forall₂_keeps hkeeps h.logs)
        exact .cons ((hlogs.keeps hkeeps).congr rfl rfl rfl rfl) .nil
      · exact h.reusable
    rcases ih hcontents hc (forall₂_keeps hkeeps hrest) with ⟨m', d', hadd, hm', hc', hd'⟩
    have hsame : m.SameLog (addBuffer { m with buffersByLog := byLog }
        { b with controlPosition := p }) := ⟨rfl, rfl, rfl, rfl⟩
    refine ⟨m', d', ?_, ?_, hsame.trans hc', hkeeps.trans hd'⟩
    · apply Option.bind_eq_some_iff.2
      exact ⟨_, hreg, hadd⟩
    · rwa [List.append_assoc] at hm'

/-! ### Taking buffers away -/

theorem pop_of_cons {b : TxBuffer} {rest : List TxBuffer} (h : m.activeBuffers = b :: rest) :
    ∃ m', m.pop = some (b, m') ∧ m'.activeBuffers = rest ∧
      m'.reusableBuffers = m.reusableBuffers ∧ m.SameLog m' := by
  unfold pop
  split
  · next heq => exact absurd (h.symm.trans heq) (List.cons_ne_nil _ _)
  · next heq =>
    cases h.symm.trans heq
    exact ⟨_, rfl, rfl, rfl, rfl, rfl, rfl, rfl⟩

theorem pop_eq_some {b : TxBuffer} {m' : TxBufferManager} (h : m.pop = some (b, m')) :
    m.activeBuffers = b :: m'.activeBuffers ∧ m'.reusableBuffers = m.reusableBuffers ∧
      m.SameLog m' := by
  cases hm : m.activeBuffers with
  | nil =>
    unfold pop at h
    split at h
    · cases h
    · next heq => exact absurd (hm.symm.trans heq) (List.cons_ne_nil _ _).symm
  | cons b1 rest =>
    rcases pop_of_cons hm with ⟨m1, hpop, hactive, hreusable, hsame⟩
    cases h.symm.trans hpop
    exact ⟨by rw [hactive], hreusable, hsame⟩

theorem popBuffers_eq {n : ℕ} (h : m.activeBuffers.length = n) :
    ∃ m', popBuffers n m = some (m.activeBuffers, m') ∧ m'.activeBuffers = [] ∧
      m'.reusableBuffers = m.reusableBuffers ∧ m.SameLog m' := by
  induction n generalizing m with
  | zero =>
    have hnil := List.length_eq_zero_iff.1 h
    exact ⟨m, by rw [hnil]; rfl, hnil, rfl, SameLog.refl m⟩
  | succ n ih =>
    cases hm : m.activeBuffers with
    | nil =>
      rw [hm] at h
      exact absurd h (Nat.succ_ne_zero n).symm
    | cons b rest =>
      rcases pop_of_cons hm with ⟨m1, hpop, hactive, hreusable, hsame⟩
      rw [hm, List.length_cons] at h
      have h1 : m1.activeBuffers.length = n := by
        rw [hactive]
        omega
      rcases ih h1 with ⟨m', hrest, hnil, hreusable', hsame'⟩
      rw [hactive] at hrest
      refine ⟨m', ?_, hnil, hreusable'.trans hreusable, hsame.trans hsame'⟩
      apply Option.bind_eq_some_iff.2
      refine ⟨_, hpop, ?_⟩
      apply Option.bind_eq_some_iff.2
      exact ⟨_, hrest, rfl⟩

theorem popAll_eq (m : TxBufferManager) :
    ∃ m', m.popAll = some (m.activeBuffers, m') ∧ m'.activeBuffers = [] ∧
      m'.reusableBuffers = m.reusableBuffers ∧ m.SameLog m' := popBuffers_eq m.counted.symm

/-! ### Writing -/

/-- The cursor of the last buffer stands at its end. -/
def AtEnd (m : TxBufferManager) : Prop :=
  ∀ b, m.activeBuffers.getLast? = some b → b.currentPos = b.bufferLength

theorem writeRecord_control {op : TransactionOperation} {r : TxBufferManager × Disk}
    (h : m.writeRecord op d = some r) : ∃ i, m.controlFile = some i := by
  rcases Option.bind_eq_some_iff.1 h with ⟨b, -, h⟩
  rcases Option.bind_eq_some_iff.1 h with ⟨r1, -, h⟩
  rcases Option.bind_eq_some_iff.1 h with ⟨r2, -, h⟩
  rcases Option.bind_eq_some_iff.1 h with ⟨i, hi, -⟩
  exact ⟨i, hi⟩

/-- The whole frame goes to the end of the last buffer, and the new length to its record. -/
theorem writeRecord_eq {front : List TxBuffer} {b : TxBuffer} {op : TransactionOperation}
    (d : Disk) (hc : m.controlFile = some i) (hactive : m.activeBuffers = front ++ [b])
    (hpos : b.currentPos = b.bufferLength)
    (hroom : b.currentPos + op.frame.length ≤ b.length) :
    m.writeRecord op d = some (m.setBack fun _ => b.filled op.frame.length,
      (d.writeLog b.inode (b.startOffset + b.currentPos) op.frame).setControl i
        (overwrite (d.control i) (b.controlPosition + 9)
          (writeLong (b.currentPos + op.frame.length : ℕ)))) := by
  rcases TxBuffer.write_frame d hpos hroom with ⟨b1, d1, hlong, hchars⟩
  apply Option.bind_eq_some_iff.2
  refine ⟨b, by rw [hactive, List.getLast?_concat], ?_⟩
  apply Option.bind_eq_some_iff.2
  refine ⟨_, hlong, ?_⟩
  apply Option.bind_eq_some_iff.2
  refine ⟨_, hchars, ?_⟩
  apply Option.bind_eq_some_iff.2
  exact ⟨i, hc, rfl⟩

/-- The record goes behind what the last buffer holds. -/
theorem Contents.writeRecord {front : List TxBuffer} {b : TxBuffer}
    {ops : List TransactionOperation} {op : TransactionOperation}
    (h : m.Contents d (opss ++ [ops])) (hc : m.controlFile = some i)
    (hactive : m.activeBuffers = front ++ [b]) (hpos : b.currentPos = b.bufferLength)
    (hroom : b.currentPos + op.frame.length ≤ b.length) (hfits : op.Fits)
    (hapart : ∀ a ∈ front, b.Apart op.frame.length a) :
    ∃ m' d', m.writeRecord op d = some (m', d') ∧ m'.Contents d' (opss ++ [ops ++ [op]]) ∧
      m'.AtEnd ∧ m.SameLog m' := by
  obtain ⟨b2, hb2⟩ : ∃ b2, b2 = b.filled op.frame.length := ⟨_, rfl⟩
  obtain ⟨d2, hd2⟩ : ∃ d2, d2 = d.writeLog b.inode (b.startOffset + b.currentPos) op.frame :=
    ⟨_, rfl⟩
  have hwrite := writeRecord_eq d hc hactive hpos hroom
  rw [← hb2, ← hd2] at hwrite
  have hlogs := h.logs
  rw [hactive] at hlogs
  rcases forall₂_concat hlogs with ⟨hfront, hback⟩
  have hback2 : b2.Logs d2 (ops ++ [op]) := by
    rw [hb2, hd2]
    exact hback.append hpos hroom hfits
  have hfront2 : List.Forall₂ (fun a ops => a.Logs d2 ops) front opss := by
    rw [hd2]
    exact ((List.forall₂_and_left front opss).2 ⟨hapart, hfront⟩).imp
      fun a ops ha => ha.2.write_apart ha.1
  have hset : (m.setBack fun _ => b2).activeBuffers = front ++ [b2] := by
    change mapBack _ m.activeBuffers = _
    rw [hactive, mapBack_concat]
  refine ⟨_, _, hwrite, ⟨?_, ?_⟩, ?_, rfl, rfl, rfl, rfl⟩
  · rw [hset]
    exact forall₂_keeps (d2.setControl_keeps i _) (List.rel_append hfront2 (.cons hback2 .nil))
  · intro b' hb'
    rw [hd2]
    exact h.reusable b' hb'
  · intro b' hb'
    rw [hset, List.getLast?_concat] at hb'
    cases hb'
    rw [hb2]
    rfl

/-- The buffer that takes the record of `op`. -/
def target (m : TxBufferManager) (op : TransactionOperation) (d : Disk) : TxBuffer :=
  if m.exhausted (minimumSize op) then m.upcoming d
  else (m.activeBuffers.getLast?).getD (m.upcoming d)

/-- The active buffers other than that one. -/
def others (m : TxBufferManager) (op : TransactionOperation) : List TxBuffer :=
  if m.exhausted (minimumSize op) then m.activeBuffers else m.activeBuffers.dropLast

/-- The record fits into the buffer that takes it, and where it goes no other active buffer
keeps anything. -/
structure Clear (m : TxBufferManager) (op : TransactionOperation) (d : Disk) : Prop where
  fits : op.Fits
  room : (m.target op d).currentPos + op.frame.length ≤ (m.target op d).length
  apart : ∀ a ∈ m.others op, (m.target op d).Apart op.frame.length a

theorem Contents.seekBack (h : m.Contents d opss) : m.seekBack.Contents d opss :=
  h.setBack fun _ _ hlogs => hlogs.congr rfl rfl rfl rfl

theorem mem_mapBack {α : Type} {f : α → α} {a : α} {l : List α} (h : a ∈ mapBack f l) :
    a ∈ l ∨ ∃ b ∈ l, a = f b := by
  induction l with
  | nil => exact absurd h List.not_mem_nil
  | cons b l ih =>
    cases l with
    | nil => exact .inr ⟨b, List.mem_singleton_self b, List.mem_singleton.1 h⟩
    | cons c l =>
      rcases List.mem_cons.1 h with rfl | hl
      · exact .inl List.mem_cons_self
      · rcases ih hl with hmem | ⟨b', hb', ha⟩
        · exact .inl (List.mem_cons_of_mem b hmem)
        · exact .inr ⟨b', List.mem_cons_of_mem b hb', ha⟩

theorem exhausted_of_concat {front : List TxBuffer} {b : TxBuffer} {k : ℤ}
    (h : m.activeBuffers = front ++ [b]) :
    m.exhausted k = decide ((m.buffersSize : ℤ) - b.currentPos < k) := by
  unfold exhausted
  rw [h, List.getLast?_concat]

theorem exhausted_of_nil {k : ℤ} (h : m.activeBuffers = []) : m.exhausted k = true := by
  unfold exhausted
  rw [h]
  rfl

theorem seekBack_of_concat {front : List TxBuffer} {b : TxBuffer}
    (h : m.activeBuffers = front ++ [b]) :
    m.seekBack.activeBuffers = front ++ [b.seek b.currentPos] := by
  change mapBack _ m.activeBuffers = _
  rw [h, mapBack_concat]

theorem seekBack_exhausted (m : TxBufferManager) (k : ℤ) :
    m.seekBack.exhausted k = m.exhausted k := by
  rcases List.eq_nil_or_concat' m.activeBuffers with hnil | ⟨front, b, hconcat⟩
  · have hback : m.seekBack.activeBuffers = [] := by
      change mapBack _ m.activeBuffers = []
      rw [hnil]
      rfl
    rw [exhausted_of_nil hback, exhausted_of_nil hnil]
  · rw [exhausted_of_concat (seekBack_of_concat hconcat), exhausted_of_concat hconcat]
    rfl

theorem getBuffer_eq (m : TxBufferManager) (k : ℤ) (force : Bool) (d : Disk) :
    m.getBuffer k force d =
      if force || m.exhausted k then m.seekBack.nextBuffer d else some (m.seekBack, d) := by
  rw [← m.seekBack_exhausted k]
  rfl

/-- `Apart` looks at windows and lengths only. -/
theorem apart_of_seekBack {b : TxBuffer} {n : ℕ} (h : ∀ a ∈ m.activeBuffers, b.Apart n a) :
    ∀ a ∈ m.seekBack.activeBuffers, b.Apart n a := by
  intro a ha
  rcases mem_mapBack ha with hmem | ⟨a', hmem, rfl⟩
  · exact h a hmem
  · exact h a' hmem

/-- A record for which the last buffer has no room goes to another one. -/
theorem Contents.writeNew {op : TransactionOperation} (h : m.Contents d opss)
    (hc : m.controlFile = some i) (hfull : m.exhausted (minimumSize op) = true)
    (hclear : m.Clear op d) :
    ∃ p m' d', m.writeOperationToRegister op d = some (m', d') ∧
      m'.activeBuffers = m.seekBack.activeBuffers ++
        [TxBuffer.filled { m.upcoming d with controlPosition := p } op.frame.length] ∧
      m'.Contents d' (opss ++ [[op]]) ∧ m'.AtEnd ∧ m.SameLog m' := by
  rcases hclear with ⟨hfits, hroom, hapart⟩
  rcases h.seekBack.nextBuffer hc with ⟨b, m1, d1, hnext, hgrown, h1⟩
  rw [target, if_pos hfull] at hroom hapart
  rw [others, if_pos hfull] at hapart
  have hempty := hgrown.empty
  have hwindow := hgrown.window
  change ∃ p, b = { m.upcoming d with controlPosition := p } at hwindow
  rcases hwindow with ⟨p, rfl⟩
  have hactive := hgrown.activeBuffers
  have hcontrol := hgrown.same.controlFile_eq hc
  have hpos := hempty.2.trans hempty.1.symm
  have heq := writeRecord_eq d1 hcontrol hactive hpos hroom
  rcases h1.writeRecord hcontrol hactive hpos hroom hfits (apart_of_seekBack hapart)
    with ⟨m', d', hwrite, h', hend', hsame⟩
  cases heq.symm.trans hwrite
  have hgrow : m.SameLog m1 := m.seekBack_same.trans hgrown.same
  refine ⟨p, _, _, ?_, ?_, h', hend', hgrow.trans hsame⟩
  · apply Option.bind_eq_some_iff.2
    refine ⟨(m1, d1), ?_, hwrite⟩
    rw [getBuffer_eq, Bool.false_or, if_pos hfull, hnext]
  · change mapBack _ m1.activeBuffers = _
    rw [hactive, mapBack_concat]

/-- A write that is clear appends its operation to what the manager holds. -/
theorem Contents.write {op : TransactionOperation} (h : m.Contents d opss)
    (hc : m.controlFile = some i) (hend : m.AtEnd) (hclear : m.Clear op d) :
    ∃ m' d' opss', m.writeOperationToRegister op d = some (m', d') ∧ m'.Contents d' opss' ∧
      opss'.flatten = opss.flatten ++ [op] ∧ m'.AtEnd ∧ m.SameLog m' := by
  by_cases hfull : m.exhausted (minimumSize op) = true
  · rcases h.writeNew hc hfull hclear with ⟨p, m', d', hwrite, -, h', hend', hsame⟩
    exact ⟨m', d', _, hwrite, h', by simp, hend', hsame⟩
  · rcases hclear with ⟨hfits, hroom, hapart⟩
    rcases List.eq_nil_or_concat' m.activeBuffers with hnil | ⟨front, b, hconcat⟩
    · exact absurd (exhausted_of_nil hnil) hfull
    rw [target, if_neg hfull, hconcat, List.getLast?_concat] at hroom hapart
    rw [others, if_neg hfull, hconcat, List.dropLast_concat] at hapart
    have hlogs := h.logs
    rw [hconcat] at hlogs
    rcases List.eq_nil_or_concat' opss with rfl | ⟨opss0, ops, rfl⟩
    · exact absurd hlogs.length_eq (by simp)
    have hpos := hend b (by rw [hconcat, List.getLast?_concat])
    rcases h.seekBack.writeRecord hc (seekBack_of_concat hconcat) hpos hroom hfits hapart
      with ⟨m', d', hwrite, h', hend', hsame⟩
    refine ⟨m', d', _, ?_, h', by simp, hend', m.seekBack_same.trans hsame⟩
    apply Option.bind_eq_some_iff.2
    refine ⟨(m.seekBack, d), ?_, hwrite⟩
    rw [getBuffer_eq, Bool.false_or, if_neg hfull]

/-! ### Reading -/

theorem readBuffers_eq {buffers : List TxBuffer} (db ns : Option CString)
    (h : List.Forall₂ (fun b ops => b.Logs d ops) buffers opss) :
    BaseTransaction.readBuffers d db ns buffers =
      some (opss.flatten.filterMap (TransactionOperation.select db ns),
        buffers.map fun b => b.seek b.bufferLength) := by
  induction h with
  | nil => rfl
  | cons hlogs _ ih =>
    apply Option.bind_eq_some_iff.2
    refine ⟨_, hlogs.operations db ns, ?_⟩
    apply Option.bind_eq_some_iff.2
    refine ⟨_, ih, ?_⟩
    rw [List.flatten_cons, List.filterMap_append]
    rfl

theorem forall₂_map_seek {buffers : List TxBuffer}
    (h : List.Forall₂ (fun b ops => b.Logs d ops) buffers opss) :
    List.Forall₂ (fun b ops => b.Logs d ops) (buffers.map fun b => b.seek b.bufferLength) opss := by
  induction h with
  | nil => exact .nil
  | cons hlogs _ ih => exact .cons (hlogs.congr rfl rfl rfl rfl) ih

/-- What is found are the operations with the names that are asked for; reading leaves the
contents alone and the cursors at the ends. -/
theorem Contents.findOperations (h : m.Contents d opss) (db ns : Option CString) :
    ∃ m', BaseTransaction.findOperations m d db ns =
        some (opss.flatten.filterMap (TransactionOperation.select db ns), m') ∧
      m'.Contents d opss ∧ m'.AtEnd ∧ m.SameLog m' := by
  obtain ⟨buffers, hbuffers⟩ : ∃ buffers, buffers =
    m.activeBuffers.map fun b => b.seek b.bufferLength := ⟨_, rfl⟩
  have hlogs := hbuffers ▸ forall₂_map_seek h.logs
  refine ⟨BaseTransaction.withBuffers m buffers, ?_, ⟨hlogs, h.reusable⟩, ?_, rfl, rfl, rfl, rfl⟩
  · apply Option.bind_eq_some_iff.2
    exact ⟨_, readBuffers_eq db ns h.logs, by rw [hbuffers]⟩
  · intro b hb
    change buffers.getLast? = some b at hb
    rw [hbuffers, List.getLast?_map] at hb
    rcases Option.map_eq_some_iff.1 hb with ⟨b', -, rfl⟩
    rfl

theorem select_all (op : TransactionOperation) : op.select none none = some op := rfl

theorem filterMap_select_all (ops : List TransactionOperation) :
    ops.filterMap (TransactionOperation.select none none) = ops := List.filterMap_some

/-! ### Committing and flushing -/

/-- The buffers of the transaction come behind those of the base, then an empty one. -/
theorem Contents.commit {t : TxBufferManager} {opss' : List (List TransactionOperation)}
    (h : m.Contents d opss) (hc : m.controlFile = some i) (ht : t.Contents d opss') :
    ∃ m' t' d', StdTransaction.commit m t d = some (m', t', d') ∧
      m'.Contents d' (opss ++ opss' ++ [[]]) ∧ m'.AtEnd ∧ m.SameLog m' ∧
      t'.activeBuffers = [] := by
  rcases t.popAll_eq with ⟨t1, hpop, hnil, -, -⟩
  rcases h.addBufferList hc ht.logs with ⟨m1, d1, hadd, h1, hsame, -⟩
  rcases h1.seekBack.nextBuffer (hsame.controlFile_eq hc) with ⟨b, m2, d2, hnext, hgrown, h2⟩
  have hget : m1.getBuffer 0 true d1 = some (m2, d2) := by
    rw [getBuffer_eq, Bool.true_or, if_pos rfl, hnext]
  have hkeeps := d2.removeFile_keeps t1.controlFileName
  refine ⟨m2, (t1.dropControlFile d2).1, (t1.dropControlFile d2).2, ?_,
    ⟨forall₂_keeps hkeeps h2.logs, h2.reusable⟩, ?_,
    hsame.trans (m1.seekBack_same.trans hgrown.same), hnil⟩
  · apply Option.bind_eq_some_iff.2
    refine ⟨_, hpop, ?_⟩
    apply Option.bind_eq_some_iff.2
    refine ⟨(m2, d2), ?_, rfl⟩
    apply Option.bind_eq_some_iff.2
    exact ⟨_, hadd, hget⟩
  · intro b' hb'
    rw [hgrown.activeBuffers, List.getLast?_concat] at hb'
    cases hb'
    rw [hgrown.empty.1, hgrown.empty.2]

theorem dropBuffer_active (m : TxBufferManager) (b : TxBuffer) (d : Disk) :
    (m.dropBuffer b d).1.activeBuffers = m.activeBuffers ∧
      (m.dropBuffer b d).1.reusableBuffers = m.reusableBuffers ∧
      m.SameLog (m.dropBuffer b d).1 ∧ d.Keeps (m.dropBuffer b d).2 := by
  unfold dropBuffer
  split
  · exact ⟨rfl, rfl, SameLog.refl m, Disk.Keeps.refl d⟩
  · split
    · exact ⟨rfl, rfl, SameLog.refl m, d.removeFile_keeps _⟩
    · split
      · exact ⟨rfl, rfl, ⟨rfl, rfl, rfl, rfl⟩, d.removeFile_keeps _⟩
      · exact ⟨rfl, rfl, SameLog.refl m, Disk.Keeps.refl d⟩

theorem recycle_of_main {b : TxBuffer} (hmain : b.mainLog = true) (m : TxBufferManager)
    (d : Disk) : m.recycle b d = ((m.addReusable b.reset).registerBufferControlFile
      m.buffersCount b.reset false d).bind fun r => some r.2 := by
  unfold recycle
  rw [if_pos hmain]
  rfl

theorem recycle_of_not_main {b : TxBuffer} (hmain : ¬ b.mainLog = true) (m : TxBufferManager)
    (d : Disk) : m.recycle b d = some (m.dropBuffer b d) := by
  unfold recycle
  rw [if_neg hmain]

/-- A buffer of the main log is kept for reuse. -/
theorem recycle_main (hc : m.controlFile = some i) {b : TxBuffer} (hmain : b.mainLog = true)
    (d : Disk) : ∃ m' d', m.recycle b d = some (m', d') ∧ m'.activeBuffers = m.activeBuffers ∧
      m'.reusableBuffers = m.reusableBuffers ++ [b.reset] ∧ m.SameLog m' ∧ d.Keeps d' := by
  rcases register_reused (m := m.addReusable b.reset) hc m.buffersCount b.reset d
    with ⟨byLog, file, hreg⟩
  rw [recycle_of_main hmain, hreg]
  exact ⟨_, _, rfl, rfl, rfl, ⟨rfl, rfl, rfl, rfl⟩, d.setControl_keeps i file⟩

/-- A buffer of another log is dropped. -/
theorem recycle_other {b : TxBuffer} (hmain : b.mainLog = false) (m : TxBufferManager) (d : Disk) :
    ∃ m' d', m.recycle b d = some (m', d') ∧ m'.activeBuffers = m.activeBuffers ∧
      m'.reusableBuffers = m.reusableBuffers ∧ m.SameLog m' ∧ d.Keeps d' := by
  obtain ⟨hactive, hreusable, hsame, hkeeps⟩ := m.dropBuffer_active b d
  exact ⟨_, _, recycle_of_not_main (by rw [hmain]; decide) m d, hactive, hreusable, hsame, hkeeps⟩

theorem recycle_eq (hc : m.controlFile = some i) (b : TxBuffer) (d : Disk) :
    ∃ m' d', m.recycle b d = some (m', d') ∧ m'.activeBuffers = m.activeBuffers ∧
      m.SameLog m' ∧ d.Keeps d' ∧
      ∀ r ∈ m'.reusableBuffers, r ∈ m.reusableBuffers ∨ r = b.reset := by
  cases hmain : b.mainLog with
  | true =>
    rcases recycle_main hc hmain d with ⟨m', d', hrecycle, hactive, hreusable, hsame, hkeeps⟩
    refine ⟨m', d', hrecycle, hactive, hsame, hkeeps, ?_⟩
    intro r hr
    rw [hreusable, List.mem_append, List.mem_singleton] at hr
    exact hr
  | false =>
    rcases recycle_other hmain m d with ⟨m', d', hrecycle, hactive, hreusable, hsame, hkeeps⟩
    exact ⟨m', d', hrecycle, hactive, hsame, hkeeps, fun r hr => .inl (hreusable ▸ hr)⟩

/-- The oldest of several buffers is taken with all its operations. -/
theorem Contents.flushFirst {ops : List TransactionOperation}
    (h : m.Contents d (ops :: opss)) (hc : m.controlFile = some i) (hend : m.AtEnd)
    (hne : opss ≠ []) :
    ∃ m' d', m.flushBuffer d = some (ops, m', d') ∧ m'.Contents d' opss ∧ m'.AtEnd ∧
      m.SameLog m' := by
  rcases List.forall₂_cons_right_iff.1 h.logs with ⟨b, rest, hb, hrest, hm⟩
  have hlength := hrest.length_eq
  have hpos := List.length_pos_of_ne_nil hne
  have hcount : 1 < m.buffersCount := by
    rw [m.counted, hm, List.length_cons]
    omega
  rcases pop_of_cons hm with ⟨m1, hpop, hactive, hreusable, hsame⟩
  rcases hb.drain with ⟨b', hdrain, hreset⟩
  rcases recycle_eq (hsame.controlFile_eq hc) b' d with
    ⟨m2, d2, hrecycle, hactive2, hsame2, hkeeps, hmem⟩
  have hflush := (flushBuffer_of_many hcount).2 ⟨b, m1, b', hpop, hdrain, hrecycle⟩
  refine ⟨m2, d2, hflush, ⟨?_, ?_⟩, ?_, hsame.trans hsame2⟩
  · rw [hactive2, hactive]
    exact forall₂_keeps hkeeps hrest
  · intro r hr
    apply Nat.lt_of_lt_of_le _ hkeeps.fresh_le
    rcases hmem r hr with hold | rfl
    · rw [hreusable] at hold
      exact h.reusable r hold
    · rw [hreset]
      exact hb.mapped
  · intro b1 hb1
    apply hend
    rw [hactive2, hactive] at hb1
    rw [hm]
    cases rest with
    | nil => exact absurd hb1 (by simp)
    | cons c rest => rw [List.getLast?_cons_cons, hb1]

/-- The monitor applies the operations of the oldest buffer and takes them out of the log. -/
theorem Contents.flush (h : m.Contents d opss) (hc : m.controlFile = some i) (hend : m.AtEnd) :
    ∃ ops m' d' opss', m.flushBuffer d = some (ops, m', d') ∧ m'.Contents d' opss' ∧
      ops ++ opss'.flatten = opss.flatten ∧ m'.AtEnd ∧ m.SameLog m' := by
  by_cases hcount : 1 < m.buffersCount
  · have hlength := h.logs.length_eq
    rw [m.counted] at hcount
    cases opss with
    | nil =>
      rw [List.length_nil] at hlength
      omega
    | cons ops opss =>
      have hne : opss ≠ [] := by
        rintro rfl
        rw [List.length_singleton] at hlength
        omega
      rcases h.flushFirst hc hend hne with ⟨m', d', hflush, h', hend', hsame⟩
      exact ⟨ops, m', d', opss, hflush, h', rfl, hend', hsame⟩
  · exact ⟨[], m, d, opss, flushBuffer_of_few hcount, h, rfl, hend, SameLog.refl m⟩

end contents

end TxBufferManager

end Djondb
