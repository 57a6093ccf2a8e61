import Djondb.LogCommit
import Mathlib.Data.List.Nodup

set_option autoImplicit false

/-!
# The regions of a log file

A new buffer starts at `_buffersCount * _buffersSize`. The count also counts the buffers of
other logs and goes down when a buffer is taken, so the offset may belong to another buffer.
-/
namespace Djondb

namespace TxBufferManager

/-- Where a buffer lies. -/
def region (b : TxBuffer) : CString × ℕ := (b.fileName, b.startOffset)

def regions (m : TxBufferManager) : List (CString × ℕ) :=
  m.activeBuffers.map region ++ m.reusableBuffers.map region

/-- No two buffers of one file share a byte. -/
def RegionsDisjoint (m : TxBufferManager) : Prop :=
  (m.activeBuffers ++ m.reusableBuffers).Pairwise fun a b => a.fileName = b.fileName →
    a.startOffset + m.buffersSize ≤ b.startOffset ∨ b.startOffset + m.buffersSize ≤ a.startOffset

instance (m : TxBufferManager) : Decidable m.RegionsDisjoint :=
  inferInstanceAs (Decidable (List.Pairwise _ _))

/-- The region that the next new buffer gets. -/
def newRegion (m : TxBufferManager) : CString × ℕ :=
  (m.logFileName, m.buffersCount * m.buffersSize)

/-- Regions start at multiples of the size and none is used twice. -/
structure Tiled (m : TxBufferManager) : Prop where
  nodup : m.regions.Nodup
  aligned : ∀ r ∈ m.regions, m.buffersSize ∣ r.2

/-- Offsets that are multiples of the size lie at least the size apart. -/
theorem Tiled.disjoint {m : TxBufferManager} (h : m.Tiled) : m.RegionsDisjoint := by
  have hnodup := h.nodup
  unfold regions List.Nodup at hnodup
  rw [← List.map_append, List.pairwise_map] at hnodup
  apply List.Pairwise.imp_of_mem _ hnodup
  intro a b ha hb hne hfile
  have hoffset : a.startOffset ≠ b.startOffset := fun heq => hne (Prod.ext hfile heq)
  have hmem : ∀ c ∈ m.activeBuffers ++ m.reusableBuffers, region c ∈ m.regions := by
    intro c hc
    unfold regions
    rw [← List.map_append]
    exact List.mem_map_of_mem hc
  rcases h.aligned _ (hmem a ha) with ⟨j, hj⟩
  rcases h.aligned _ (hmem b hb) with ⟨k, hk⟩
  change a.startOffset = _ at hj
  change b.startOffset = _ at hk
  rw [hj, hk] at hoffset ⊢
  rcases Nat.lt_trichotomy j k with hlt | heq | hgt
  · left
    calc m.buffersSize * j + m.buffersSize = m.buffersSize * (j + 1) := rfl
      _ ≤ m.buffersSize * k := Nat.mul_le_mul_left _ hlt
  · exact absurd (congrArg (m.buffersSize * ·) heq) hoffset
  · right
    calc m.buffersSize * k + m.buffersSize = m.buffersSize * (k + 1) := rfl
      _ ≤ m.buffersSize * j := Nat.mul_le_mul_left _ hgt

/-! ## Steps -/

section steps
variable {m m' : TxBufferManager} {d d' : Disk}

theorem Tiled.of_perm (h : m.Tiled) (hsize : m'.buffersSize = m.buffersSize)
    (hperm : m'.regions.Perm m.regions) : m'.Tiled where
  nodup := hperm.nodup_iff.2 h.nodup
  aligned r hr := by
    rw [hsize]
    exact h.aligned r (hperm.mem_iff.1 hr)

theorem Tiled.of_perm_cons (h : m.Tiled) (hsize : m'.buffersSize = m.buffersSize)
    {r : CString × ℕ} (hperm : m'.regions.Perm (r :: m.regions)) (hfree : r ∉ m.regions)
    (hdvd : m.buffersSize ∣ r.2) : m'.Tiled where
  nodup := hperm.nodup_iff.2 (List.nodup_cons.2 ⟨hfree, h.nodup⟩)
  aligned r' hr' := by
    rw [hsize]
    rcases List.mem_cons.1 (hperm.mem_iff.1 hr') with rfl | hold
    · exact hdvd
    · exact h.aligned r' hold

/-- What `f` leaves alone of the last buffer. -/
theorem setBack_map {α : Type} (g : TxBuffer → α) {f : TxBuffer → TxBuffer}
    (hf : ∀ b, m.activeBuffers.getLast? = some b → g (f b) = g b) :
    (m.setBack f).activeBuffers.map g = m.activeBuffers.map g := by
  change (mapBack f m.activeBuffers).map g = _
  rcases List.eq_nil_or_concat' m.activeBuffers with hnil | ⟨front, b, hconcat⟩
  · rw [hnil]
    rfl
  · rw [hconcat, List.getLast?_concat] at hf
    rw [hconcat, mapBack_concat, List.map_append, List.map_append, List.map_singleton,
      List.map_singleton, hf b rfl]

/-- Reading moves the cursors only. -/
theorem readBuffers_map {α : Type} {g : TxBuffer → α} (hg : ∀ b pos, g (TxBuffer.seek b pos) = g b)
    {db ns : Option CString} {buffers buffers' : List TxBuffer} {ops : List TransactionOperation}
    (h : BaseTransaction.readBuffers d db ns buffers = some (ops, buffers')) :
    buffers'.map g = buffers.map g := by
  induction buffers generalizing ops buffers' with
  | nil =>
    cases h
    rfl
  | cons b buffers ih =>
    rcases Option.bind_eq_some_iff.1 h with ⟨⟨ops1, b1⟩, h1, h⟩
    rcases Option.bind_eq_some_iff.1 h with ⟨⟨ops2, buffers2⟩, h2, h⟩
    cases h
    have hb : g b1 = g b := by
      rw [← hg b1 0, TxBuffer.operations_seek h1, hg]
    rw [List.map_cons, List.map_cons, hb, ih h2]

/-- A record changes the last buffer, but not where that lies or belongs to. -/
theorem writeRecord_back {op : TransactionOperation} (h : m.writeRecord op d = some (m', d')) :
    ∃ b b', m.activeBuffers.getLast? = some b ∧ m' = m.setBack (fun _ => b') ∧
      b'.fileName = b.fileName ∧ b'.startOffset = b.startOffset ∧ b'.mainLog = b.mainLog ∧
      d'.inode = d.inode := by
  rcases Option.bind_eq_some_iff.1 h with ⟨b, hb, h⟩
  rcases Option.bind_eq_some_iff.1 h with ⟨⟨b1, d1⟩, h1, h⟩
  rcases Option.bind_eq_some_iff.1 h with ⟨⟨b2, d2⟩, h2, h⟩
  rcases Option.bind_eq_some_iff.1 h with ⟨i, -, h⟩
  rcases TxBuffer.writeLong_eq_some h1 with ⟨-, rfl, rfl⟩
  rcases TxBuffer.writeChars_eq_some h2 with ⟨-, rfl, rfl⟩
  cases h
  exact ⟨b, _, hb, rfl, rfl, rfl, rfl, rfl⟩

theorem seekBack_regions (m : TxBufferManager) : m.seekBack.regions = m.regions :=
  congrArg (· ++ m.reusableBuffers.map region) (setBack_map region fun _ _ => rfl)

theorem Grown.region_of_nil {b : TxBuffer} (h : m.Grown d b m' d')
    (hr : m.reusableBuffers = []) : region b = m.newRegion := by
  rcases h.window with ⟨p, hb⟩
  rw [hb, upcoming_of_nil d hr]
  rfl

theorem Grown.region_of_cons {b b0 : TxBuffer} {rest : List TxBuffer} (h : m.Grown d b m' d')
    (hr : m.reusableBuffers = b0 :: rest) : region b = region b0 := by
  rcases h.window with ⟨p, hb⟩
  rw [hb, upcoming_of_cons d hr]
  rfl

/-- A buffer that is used again brings no region. -/
theorem nextBuffer_regions (h : m.nextBuffer d = some (m', d')) :
    m'.regions.Perm m.regions ∧ m.reusableBuffers ≠ [] ∨
      m'.regions.Perm (m.newRegion :: m.regions) ∧ m.reusableBuffers = [] := by
  rcases nextBuffer_eq_some d h with ⟨b, hgrown⟩
  have hregions : m'.regions =
      m.activeBuffers.map region ++ (region b :: m.reusableBuffers.tail.map region) := by
    unfold regions
    rw [hgrown.activeBuffers, hgrown.reusableBuffers, List.map_append, List.append_assoc]
    rfl
  have hold : m.regions = m.activeBuffers.map region ++ m.reusableBuffers.map region := rfl
  cases hr : m.reusableBuffers with
  | nil =>
    right
    rw [hr] at hold
    rw [hregions, hold, hgrown.region_of_nil hr, hr]
    exact ⟨List.perm_middle, rfl⟩
  | cons b0 rest =>
    left
    rw [hr] at hold
    rw [hregions, hold, hgrown.region_of_cons hr, hr]
    exact ⟨List.Perm.refl _, List.cons_ne_nil _ _⟩

theorem writeRecord_regions {op : TransactionOperation} (h : m.writeRecord op d = some (m', d')) :
    m'.activeBuffers.map region = m.activeBuffers.map region ∧
      m'.buffersCount = m.buffersCount ∧ m'.reusableBuffers = m.reusableBuffers ∧
      m.SameLog m' := by
  rcases writeRecord_back h with ⟨b, b1, hb, rfl, hname, hstart, -, -⟩
  refine ⟨setBack_map region fun b' hb' => ?_, rfl, rfl, rfl, rfl, rfl, rfl⟩
  cases hb.symm.trans hb'
  exact Prod.ext hname hstart

theorem addBufferList_regions {buffers : List TxBuffer}
    (h : addBufferList buffers m d = some (m', d')) :
    m'.regions.Perm (buffers.map region ++ m.regions) ∧ m.SameLog m' ∧
      m'.buffersCount = m.buffersCount + buffers.length ∧
      m'.reusableBuffers = m.reusableBuffers := by
  induction buffers generalizing m d with
  | nil =>
    cases h
    exact ⟨List.Perm.refl _, SameLog.refl _, rfl, rfl⟩
  | cons b buffers ih =>
    rcases Option.bind_eq_some_iff.1 h with ⟨⟨b1, m1, d1⟩, h1, h⟩
    rcases register_eq_some h1 with ⟨i, hi⟩
    rcases register_new hi (m.buffersCount + 1) b d with ⟨p, byLog, file, hreg⟩
    cases h1.symm.trans hreg
    rcases ih h with ⟨hperm, hsame, hcount, hreusable⟩
    have hadd : (addBuffer { m with buffersByLog := byLog }
        { b with controlPosition := p }).regions.Perm (region b :: m.regions) := by
      change ((m.activeBuffers ++ [_]).map region ++ m.reusableBuffers.map region).Perm _
      rw [List.map_append, List.append_assoc]
      exact List.perm_middle
    have hsame1 : m.SameLog (addBuffer { m with buffersByLog := byLog }
        { b with controlPosition := p }) := ⟨rfl, rfl, rfl, rfl⟩
    refine ⟨?_, hsame1.trans hsame, ?_, hreusable⟩
    · apply (hperm.trans (hadd.append_left _)).trans
      exact List.perm_middle
    · rw [hcount, List.length_cons]
      change m.buffersCount + 1 + _ = _
      omega

theorem recycle_regions {b : TxBuffer} (h : m.recycle b d = some (m', d')) :
    m.SameLog m' ∧
      (m'.regions = m.regions ∨ m'.regions.Perm (region b :: m.regions)) := by
  by_cases hmain : b.mainLog = true
  · rw [recycle_of_main hmain] at h
    rcases Option.bind_eq_some_iff.1 h with ⟨⟨b1, m1, d1⟩, h1, h⟩
    rcases register_eq_some h1 with ⟨i, hi⟩
    rcases register_reused hi m.buffersCount b.reset d with ⟨byLog, file, hreg⟩
    cases h1.symm.trans hreg
    cases h
    refine ⟨⟨rfl, rfl, rfl, rfl⟩, .inr ?_⟩
    change (m.activeBuffers.map region ++ (m.reusableBuffers ++ [b.reset]).map region).Perm _
    rw [List.map_append, ← List.append_assoc]
    exact List.perm_append_singleton _ _
  · rw [recycle_of_not_main hmain] at h
    rcases m.dropBuffer_active b d with ⟨hactive, hreusable, hsame, -⟩
    rw [Option.some.inj h] at hactive hreusable hsame
    refine ⟨hsame, .inl ?_⟩
    unfold regions
    rw [hactive, hreusable]

theorem findOperations_regions {db ns : Option CString} {ops : List TransactionOperation}
    (h : BaseTransaction.findOperations m d db ns = some (ops, m')) :
    m'.regions = m.regions ∧ m'.activeBuffers.map region = m.activeBuffers.map region ∧
      m'.buffersCount = m.buffersCount ∧ m'.reusableBuffers = m.reusableBuffers ∧
      m.SameLog m' := by
  rcases Option.bind_eq_some_iff.1 h with ⟨⟨ops1, buffers⟩, h1, h⟩
  cases h
  have hmap := readBuffers_map (g := region) (fun _ _ => rfl) h1
  have hcount : buffers.length = m.activeBuffers.length := by
    have hlength := congrArg List.length hmap
    rwa [List.length_map, List.length_map] at hlength
  exact ⟨congrArg (· ++ m.reusableBuffers.map region) hmap, hmap, hcount.trans m.counted.symm, rfl,
    rfl, rfl, rfl, rfl⟩

/-! ## Runs -/

/-- No live buffer lies where the next new buffer goes; a buffer that is used again needs no
new region. -/
def NewRegionFree (m : TxBufferManager) (count : ℕ) (live : List (CString × ℕ)) : Prop :=
  m.reusableBuffers = [] → (m.logFileName, count * m.buffersSize) ∉ live

theorem getBuffer_same {k : ℤ} {force : Bool} (hget : m.getBuffer k force d = some (m', d')) :
    m.SameLog m' := by
  rw [getBuffer_eq] at hget
  split at hget
  · rcases nextBuffer_eq_some d hget with ⟨b, hgrown⟩
    exact m.seekBack_same.trans hgrown.same
  · cases hget
    exact m.seekBack_same

theorem Tiled.getBuffer {k : ℤ} {force : Bool} (h : m.Tiled)
    (hget : m.getBuffer k force d = some (m', d'))
    (hfree : (force || m.exhausted k) = true → m.NewRegionFree m.buffersCount m.regions) :
    m'.Tiled := by
  rw [getBuffer_eq] at hget
  by_cases hnew : (force || m.exhausted k) = true
  · rw [if_pos hnew] at hget
    rcases nextBuffer_eq_some d hget with ⟨b, hgrown⟩
    have hsize : m'.buffersSize = m.buffersSize := hgrown.same.buffersSize
    rcases nextBuffer_regions hget with ⟨hperm, -⟩ | ⟨hperm, hnil⟩
    · rw [seekBack_regions] at hperm
      exact h.of_perm hsize hperm
    · rw [seekBack_regions] at hperm
      exact h.of_perm_cons hsize hperm (hfree hnew hnil) (Nat.dvd_mul_left _ _)
  · rw [if_neg hnew] at hget
    cases hget
    exact h.of_perm rfl (by rw [seekBack_regions])

theorem Tiled.write {op : TransactionOperation} (h : m.Tiled)
    (hwrite : m.writeOperationToRegister op d = some (m', d'))
    (hfree : m.exhausted (minimumSize op) = true → m.NewRegionFree m.buffersCount m.regions) :
    m'.Tiled := by
  rcases Option.bind_eq_some_iff.1 hwrite with ⟨⟨m1, d1⟩, hget, hrecord⟩
  rcases writeRecord_regions hrecord with ⟨hactive, -, hreusable, hsame⟩
  have h1 : m1.Tiled := h.getBuffer hget (by rwa [Bool.false_or])
  apply h1.of_perm hsame.buffersSize
  unfold regions
  rw [hactive, hreusable]

/-- The buffers of a transaction are tiled by themselves, and the main manager has none of its
file. -/
theorem Tiled.commit {t t' : TxBufferManager} (h : m.Tiled) (ht : t.Tiled)
    (hsize : t.buffersSize = m.buffersSize)
    (hown : ∀ r ∈ t.activeBuffers.map region, r ∉ m.regions)
    (hfree : m.NewRegionFree (m.buffersCount + t.buffersCount)
      (t.activeBuffers.map region ++ m.regions))
    (hcommit : StdTransaction.commit m t d = some (m', t', d')) : m'.Tiled := by
  rcases Option.bind_eq_some_iff.1 hcommit with ⟨⟨buffers, t1⟩, hpop, hcommit⟩
  rcases t.popAll_eq with ⟨t2, hpop2, -, -, -⟩
  cases hpop.symm.trans hpop2
  rcases Option.bind_eq_some_iff.1 hcommit with ⟨⟨m2, d2⟩, hadds, hcommit⟩
  cases hcommit
  rcases Option.bind_eq_some_iff.1 hadds with ⟨⟨m1, d1⟩, hadd, hget⟩
  rcases addBufferList_regions hadd with ⟨hperm, hsame, hcount, hreusable⟩
  have htiled : m1.Tiled := by
    constructor
    · have hnodup := ht.nodup
      unfold regions at hnodup
      apply hperm.nodup_iff.2
      apply List.nodup_append.2
      refine ⟨(List.nodup_append.1 hnodup).1, h.nodup, ?_⟩
      intro r hr r' hr' heq
      exact hown r hr (heq ▸ hr')
    · intro r hr
      rw [hsame.buffersSize]
      rcases List.mem_append.1 (hperm.mem_iff.1 hr) with hnew | hold
      · rw [← hsize]
        apply ht.aligned r
        exact List.mem_append_left _ hnew
      · exact h.aligned r hold
  apply htiled.getBuffer hget
  intro _ hnil
  rw [hreusable] at hnil
  have hfree1 := hfree hnil
  have hlog : m1.logFileName = m.logFileName := by
    unfold logFileName
    rw [hsame.file]
  rw [hlog, hsame.buffersSize, hcount, ← t.counted]
  exact fun hmem => hfree1 (hperm.mem_iff.1 hmem)

theorem Tiled.flush {ops : List TransactionOperation} (h : m.Tiled)
    (hflush : m.flushBuffer d = some (ops, m', d')) : m'.Tiled := by
  rcases flushBuffer_cases hflush with ⟨-, b, m1, b1, hpop, hdrain, hrecycle⟩ | ⟨-, rfl, -⟩
  · have hseek : region (b1.seek 0) = region (b.seek 0) :=
      congrArg region (TxBuffer.drain_seek hdrain)
    have hregion : region b1 = region b := hseek
    rcases pop_eq_some hpop with ⟨hactive, hreusable, hsame⟩
    have hpopped : m.regions = region b :: m1.regions := by
      unfold regions
      rw [hactive, hreusable]
      rfl
    rcases recycle_regions hrecycle with ⟨hrecycled, hdropped | hperm⟩
    · constructor
      · rw [hdropped]
        have hnodup := h.nodup
        rw [hpopped] at hnodup
        exact (List.nodup_cons.1 hnodup).2
      · intro r hr
        rw [hrecycled.buffersSize, hsame.buffersSize]
        apply h.aligned r
        rw [hdropped] at hr
        rw [hpopped]
        exact List.mem_cons_of_mem _ hr
    · apply h.of_perm (hrecycled.buffersSize.trans hsame.buffersSize)
      rwa [hpopped, ← hregion]
  · exact h

theorem commit_same {t t' : TxBufferManager}
    (hcommit : StdTransaction.commit m t d = some (m', t', d')) : m.SameLog m' := by
  rcases Option.bind_eq_some_iff.1 hcommit with ⟨⟨buffers, t1⟩, -, hcommit⟩
  rcases Option.bind_eq_some_iff.1 hcommit with ⟨⟨m2, d2⟩, hadds, hcommit⟩
  cases hcommit
  rcases Option.bind_eq_some_iff.1 hadds with ⟨⟨m1, d1⟩, hadd, hget⟩
  exact (addBufferList_regions hadd).2.1.trans (getBuffer_same hget)

theorem flush_same {ops : List TransactionOperation}
    (hflush : m.flushBuffer d = some (ops, m', d')) : m.SameLog m' := by
  rcases flushBuffer_cases hflush with ⟨-, b, m1, b1, hpop, -, hrecycle⟩ | ⟨-, rfl, -⟩
  · exact (pop_eq_some hpop).2.2.trans (recycle_regions hrecycle).1
  · exact SameLog.refl _

theorem Tiled.find {db ns : Option CString} {ops : List TransactionOperation} (h : m.Tiled)
    (hfind : BaseTransaction.findOperations m d db ns = some (ops, m')) : m'.Tiled := by
  rcases findOperations_regions hfind with ⟨hregions, -, -, -, hsame⟩
  exact h.of_perm hsame.buffersSize (by rw [hregions])

/-- The managers of transactions: they start empty, are written to and read. -/
inductive TransactionLog (file : CString) : TxBufferManager → Prop
  | start (i : ℕ) : TransactionLog file (start file false i defaultBufferSize (by decide))
  | write {t t' d d'} (op : TransactionOperation) : TransactionLog file t →
    t.writeOperationToRegister op d = some (t', d') → TransactionLog file t'
  | find {t t' d} (db ns : Option CString) (ops : List TransactionOperation) :
    TransactionLog file t → BaseTransaction.findOperations t d db ns = some (ops, t') →
    TransactionLog file t'

/-- A manager that has never been taken a buffer from has them one behind the other. -/
structure InOrder (file : CString) (t : TxBufferManager) : Prop where
  file_eq : t.file = file
  buffersSize : t.buffersSize = defaultBufferSize
  reusable : t.reusableBuffers = []
  active : t.activeBuffers.map region = (List.range t.buffersCount).map fun k =>
    (file.append logSuffix, k * defaultBufferSize)

theorem InOrder.getBuffer {file : CString} {k : ℤ} {force : Bool} (h : InOrder file m)
    (hget : m.getBuffer k force d = some (m', d')) : InOrder file m' := by
  rw [getBuffer_eq] at hget
  have hback : m.seekBack.activeBuffers.map region = m.activeBuffers.map region :=
    setBack_map region fun _ _ => rfl
  by_cases hnew : (force || m.exhausted k) = true
  · rw [if_pos hnew] at hget
    rcases nextBuffer_eq_some d hget with ⟨b, hgrown⟩
    have hr : m.seekBack.reusableBuffers = [] := h.reusable
    have hcount : m'.buffersCount = m.buffersCount + 1 := by
      rw [m'.counted, hgrown.activeBuffers, List.length_append, List.length_singleton]
      exact congrArg (· + 1) m.seekBack.counted.symm
    have hregion : region b = (file.append logSuffix, m.buffersCount * defaultBufferSize) := by
      rw [hgrown.region_of_nil hr]
      change (m.file.append logSuffix, m.buffersCount * m.buffersSize) = _
      rw [h.file_eq, h.buffersSize]
    refine ⟨hgrown.same.file.trans h.file_eq, hgrown.same.buffersSize.trans h.buffersSize, ?_, ?_⟩
    · rw [hgrown.reusableBuffers, hr]
      rfl
    · rw [hgrown.activeBuffers, List.map_append, hback, h.active, hcount, List.range_succ,
        List.map_append, List.map_singleton, List.map_singleton, hregion]
  · rw [if_neg hnew] at hget
    cases hget
    exact ⟨h.file_eq, h.buffersSize, h.reusable, hback.trans h.active⟩

theorem TransactionLog.inOrder {file : CString} {t : TxBufferManager} (h : TransactionLog file t) :
    InOrder file t := by
  induction h with
  | start i => exact ⟨rfl, rfl, rfl, rfl⟩
  | @write t t' d d' op _ hwrite ih =>
    rcases Option.bind_eq_some_iff.1 hwrite with ⟨⟨m1, d1⟩, hget, hrecord⟩
    rcases writeRecord_regions hrecord with ⟨hactive, hcount, hreusable, hsame⟩
    have h1 := ih.getBuffer hget
    refine ⟨hsame.file.trans h1.file_eq, hsame.buffersSize.trans h1.buffersSize,
      hreusable.trans h1.reusable, ?_⟩
    rw [hactive, hcount]
    exact h1.active
  | find db ns ops _ hfind ih =>
    rcases findOperations_regions hfind with ⟨-, hactive, hcount, hreusable, hsame⟩
    refine ⟨hsame.file.trans ih.file_eq, hsame.buffersSize.trans ih.buffersSize,
      hreusable.trans ih.reusable, ?_⟩
    rw [hactive, hcount]
    exact ih.active

theorem InOrder.tiled {file : CString} {t : TxBufferManager} (h : InOrder file t) : t.Tiled := by
  have hregions : t.regions = (List.range t.buffersCount).map fun k =>
      (file.append logSuffix, k * defaultBufferSize) := by
    rw [← h.active]
    unfold regions
    rw [h.reusable, List.map_nil, List.append_nil]
  constructor
  · rw [hregions]
    apply List.Nodup.map _ List.nodup_range
    intro j k hjk
    exact Nat.eq_of_mul_eq_mul_right (by decide) (Prod.mk.inj hjk).2
  · intro r hr
    rw [hregions] at hr
    rcases List.mem_map.1 hr with ⟨k, -, rfl⟩
    rw [h.buffersSize]
    exact Nat.dvd_mul_left _ _

end steps

/-- Runs of the main manager in which each new buffer goes where no live buffer is, and in which a
transaction commits only when no buffer of its file is left. -/
inductive MainRun : TxBufferManager → Prop
  | start (i : ℕ) : MainRun (start mainFile true i defaultBufferSize (by decide))
  | write {m m' d d'} (op : TransactionOperation) : MainRun m →
    (m.exhausted (minimumSize op) = true → m.NewRegionFree m.buffersCount m.regions) →
    m.writeOperationToRegister op d = some (m', d') → MainRun m'
  | force {m m' d d'} : MainRun m → m.NewRegionFree m.buffersCount m.regions →
    m.getBuffer 0 true d = some (m', d') → MainRun m'
  | commit {m m' t t' d d'} (file : CString) : MainRun m → TransactionLog file t →
    (∀ r ∈ m.regions, r.1 ≠ file.append logSuffix) →
    m.NewRegionFree (m.buffersCount + t.buffersCount)
      (t.activeBuffers.map region ++ m.regions) →
    StdTransaction.commit m t d = some (m', t', d') → MainRun m'
  | flush {m m' d d'} (ops : List TransactionOperation) : MainRun m →
    m.flushBuffer d = some (ops, m', d') → MainRun m'
  | find {m m' d} (db ns : Option CString) (ops : List TransactionOperation) : MainRun m →
    BaseTransaction.findOperations m d db ns = some (ops, m') → MainRun m'

theorem MainRun.tiled {m : TxBufferManager} (h : MainRun m) :
    m.Tiled ∧ m.buffersSize = defaultBufferSize := by
  induction h with
  | start i =>
    constructor
    · exact ⟨List.nodup_nil, fun r hr => absurd hr List.not_mem_nil⟩
    · rfl
  | write op _ hfree hwrite ih =>
    rcases Option.bind_eq_some_iff.1 hwrite with ⟨⟨m1, d1⟩, hget, hrecord⟩
    rcases writeRecord_regions hrecord with ⟨-, -, -, hsame⟩
    refine ⟨ih.1.write hwrite hfree, ?_⟩
    rw [hsame.buffersSize, (getBuffer_same hget).buffersSize, ih.2]
  | force _ hfree hget ih =>
    exact ⟨ih.1.getBuffer hget fun _ => hfree, (getBuffer_same hget).buffersSize.trans ih.2⟩
  | commit file _ ht hown hfree hcommit ih =>
    have horder := ht.inOrder
    refine ⟨ih.1.commit horder.tiled (horder.buffersSize.trans ih.2.symm) ?_ hfree hcommit, ?_⟩
    · intro r hr hmem
      rw [horder.active] at hr
      rcases List.mem_map.1 hr with ⟨k, -, rfl⟩
      exact hown _ hmem rfl
    · exact (commit_same hcommit).buffersSize.trans ih.2
  | flush ops _ hflush ih => exact ⟨ih.1.flush hflush, (flush_same hflush).buffersSize.trans ih.2⟩
  | find db ns ops _ hfind ih =>
    rcases findOperations_regions hfind with ⟨-, -, -, -, hsame⟩
    exact ⟨ih.1.find hfind, hsame.buffersSize.trans ih.2⟩

end TxBufferManager

end Djondb
