import Djondb.LogReferences

set_option autoImplicit false

/-!
# When the log of a transaction is removed

Runs of a server with its commands, the monitor's steps and restarts. The log of a transaction may
be removed only where no active buffer of any manager refers to it, and has to be gone once the
last such buffer is. The counters are missing after a restart, and each manager counts its own
buffers alone, so a run has to keep the buffers of one log in one manager.
-/
namespace Djondb
open RefCount

namespace TxBufferManager

/-- What a base manager may load: buffers of the main log are marked, and no other log has two. -/
structure Restorable (m : TxBufferManager) : Prop where
  flagged : ∀ b ∈ m.activeBuffers, b.mainLog = true ↔ b.fileName = m.logFileName
  reusable : ∀ b ∈ m.reusableBuffers, m.Owns b
  once : ∀ f ≠ m.logFileName, m.activeLogs.count f ≤ 1

/-- The base manager, with a usable counter for every log of a transaction. -/
structure BaseLog (m : TxBufferManager) : Prop where
  file : m.file = mainFile
  mainLog : m.mainLog = true
  flagged : ∀ b ∈ m.activeBuffers, b.mainLog = true ↔ b.fileName = m.logFileName
  reusable : ∀ b ∈ m.reusableBuffers, m.Owns b
  counted : ∀ f ≠ m.logFileName, Usable m.buffersByLog m.activeLogs f

/-- The manager of transaction `id`: its buffers are its own, and its counter is not too high. -/
structure OwnLog (id : CString) (t : TxBufferManager) : Prop where
  file : t.file = id
  mainLog : t.mainLog = false
  active : ∀ b ∈ t.activeBuffers, t.Owns b
  reusable : ∀ b ∈ t.reusableBuffers, t.Owns b
  counted : value t.buffersByLog t.logFileName ≤ t.activeLogs.count t.logFileName

section logs
variable {m m' t t' : TxBufferManager} {d d' : Disk} {id : CString} {os : List (CString × Bool)}

theorem OwnLog.logFileName (h : t.OwnLog id) : t.logFileName = id.append logSuffix := by
  unfold TxBufferManager.logFileName
  rw [h.file]

/-- The buffers of a transaction refer to its own log only. -/
theorem OwnLog.eq_of_mem (h : t.OwnLog id) {f : CString} (hf : f ∈ t.activeLogs) :
    f = id.append logSuffix := by
  rcases List.mem_map.1 hf with ⟨b, hb, rfl⟩
  rw [(h.active b hb).1, h.logFileName]

theorem OwnLog.takes {n : ℕ} (h : t.OwnLog id)
    (ht : t.Takes d (List.replicate n (t.logFileName, t.mainLog)) t' d') : t'.OwnLog id := by
  have hname : t'.logFileName = t.logFileName := by
    unfold TxBufferManager.logFileName
    rw [ht.same.file]
  constructor
  · rw [ht.same.file, h.file]
  · rw [ht.same.mainLog, h.mainLog]
  · intro b hb
    cases ht.origin_mem hb with
    | inl hold =>
      rcases hold with ⟨a, ha, horigin⟩
      exact (h.active a ha).of_origin horigin.symm ht.same
    | inr hnew =>
      have horigin := List.eq_of_mem_replicate hnew
      unfold Owns
      rw [hname, ht.same.mainLog]
      exact ⟨congrArg Prod.fst horigin, congrArg Prod.snd horigin⟩
  · intro b hb
    exact (h.reusable b (ht.reusable b hb)).of_origin rfl ht.same
  · have hcounted := h.counted
    rw [hname, ht.counters, ht.activeLogs, value_acquireAll, List.count_append]
    push_cast
    omega

/-- Buffers of the main log, and of logs that the base has no buffer of, may come in. -/
theorem BaseLog.takes (h : m.BaseLog) (ht : m.Takes d os m' d')
    (hos : ∀ o ∈ os, o = (m.logFileName, m.mainLog) ∨
      o.2 = false ∧ o.1 ≠ m.logFileName ∧ o.1 ∉ m.activeLogs) : m'.BaseLog := by
  have hname : m'.logFileName = m.logFileName := by
    unfold TxBufferManager.logFileName
    rw [ht.same.file]
  constructor
  · rw [ht.same.file, h.file]
  · rw [ht.same.mainLog, h.mainLog]
  · intro b hb
    rw [hname]
    cases ht.origin_mem hb with
    | inl hold =>
      rcases hold with ⟨a, ha, horigin⟩
      have hfile : a.fileName = b.fileName := congrArg Prod.fst horigin
      have hmain : a.mainLog = b.mainLog := congrArg Prod.snd horigin
      rw [← hfile, ← hmain]
      exact h.flagged a ha
    | inr hnew =>
      cases hos _ hnew with
      | inl horigin =>
        have hfile : b.fileName = m.logFileName := congrArg Prod.fst horigin
        have hmain : b.mainLog = m.mainLog := congrArg Prod.snd horigin
        rw [hfile, hmain, h.mainLog]
        exact ⟨fun _ => rfl, fun _ => rfl⟩
      | inr hother =>
        have hmain : b.mainLog = false := hother.1
        rw [hmain]
        exact ⟨fun hflag => absurd hflag (by decide), fun hfile => absurd hfile hother.2.1⟩
  · intro b hb
    exact (h.reusable b (ht.reusable b hb)).of_origin rfl ht.same
  · intro f hf
    rw [hname] at hf
    rw [ht.counters, ht.activeLogs]
    apply (h.counted f hf).acquireAll
    intro hmem
    rcases List.mem_map.1 hmem with ⟨o, ho, rfl⟩
    cases hos o ho with
    | inl horigin => exact absurd (congrArg Prod.fst horigin) hf
    | inr hother => exact List.count_eq_zero_of_not_mem hother.2.2

/-- The base manager that starts. -/
theorem new_baseLog (h : TxBufferManager.new mainFile true d = some (m, d'))
    (hm : m.Restorable) : m.BaseLog := by
  rcases new_counters h with ⟨hfile, hmain, hcounters, -⟩
  refine ⟨hfile, hmain, hm.flagged, hm.reusable, ?_⟩
  intro f hf
  exact usable_of_none (congrFun hcounters f) (hm.once f hf)

theorem new_ownLog (h : TxBufferManager.new id false d = some (t, d'))
    (ht : ∀ b ∈ t.activeBuffers ++ t.reusableBuffers, t.Owns b) : t.OwnLog id := by
  rcases new_counters h with ⟨hfile, hmain, hcounters, -⟩
  refine ⟨hfile, hmain, fun b hb => ht b (List.mem_append_left _ hb),
    fun b hb => ht b (List.mem_append_right _ hb), ?_⟩
  rw [hcounters]
  exact Int.natCast_nonneg _

/-- A transaction that rolls back has no buffers, and its log is gone if it had any. -/
theorem OwnLog.rollback (h : t.OwnLog id) (hrollback : StdTransaction.rollback t d = some (t', d')) :
    t'.OwnLog id ∧ t'.activeBuffers = [] ∧
      (t.activeBuffers ≠ [] → d'.inode (id.append logSuffix) = none) ∧
      ∀ other : CString, (t.activeBuffers = [] ∨ other ≠ id) →
        d'.inode (other.append logSuffix) = d.inode (other.append logSuffix) := by
  rcases Option.bind_eq_some_iff.1 hrollback with ⟨⟨t2, d2⟩, hdrop, hrollback⟩
  rcases Option.bind_eq_some_iff.1 hdrop with ⟨⟨buffers, t1⟩, hpop, hdrop⟩
  rcases popAll_counters hpop with ⟨hbuffers, hnil, hreusable, hsame, hcounters⟩
  have hvalue : value t1.buffersByLog t.logFileName ≤ 0 := by
    rw [hcounters]
    exact value_releaseAll h.counted
  have hown : ∀ b ∈ buffers, b.fileName = t.logFileName ∧ b.mainLog = false := by
    intro b hb
    rw [hbuffers] at hb
    have howns := h.active b hb
    exact ⟨howns.1, howns.2.trans h.mainLog⟩
  have hremoves := dropBufferList_removes (d := d) hown hvalue
  have hdisk := dropBufferList_disk buffers t1 d
  rw [Option.some.inj hdrop] at hremoves hdisk
  rcases hremoves with ⟨hvalue2, hgone, hkept, hall⟩
  rcases hdisk with ⟨hactive2, hreusable2, hsame2, -, -⟩
  cases hrollback
  have hsame3 : t.SameLog t2 := hsame.trans hsame2
  have hname : t2.logFileName = t.logFileName := by
    unfold TxBufferManager.logFileName
    rw [hsame3.file]
  have hcontrol : ∀ other : CString, (d2.removeFile t2.controlFileName).inode
      (other.append logSuffix) = d2.inode (other.append logSuffix) := by
    intro other
    apply Function.update_of_ne
    exact (controlName_ne_logName t2.file other).symm
  have hempty : t2.activeBuffers = [] := hactive2.trans hnil
  refine ⟨?_, hempty, ?_, ?_⟩
  · constructor
    · exact hsame3.file.trans h.file
    · exact hsame3.mainLog.trans h.mainLog
    · intro b hb
      change b ∈ t2.activeBuffers at hb
      rw [hempty] at hb
      exact absurd hb List.not_mem_nil
    · intro b hb
      change b ∈ t2.reusableBuffers at hb
      rw [hreusable2, hreusable] at hb
      have howns : t2.Owns b := (h.reusable b hb).of_origin rfl hsame3
      exact howns
    · change value t2.buffersByLog t2.logFileName ≤ _
      rw [hname]
      exact Int.le_trans hvalue2 (Int.natCast_nonneg _)
  · intro hne
    rw [hcontrol, ← h.logFileName]
    rw [← hbuffers] at hne
    exact hgone hne
  · intro other hother
    rw [hcontrol]
    cases hother with
    | inl hnone =>
      rw [← hbuffers] at hnone
      have hsame : d2 = d := hall hnone
      rw [hsame]
    | inr hne =>
      apply hkept
      rw [h.logFileName]
      exact fun heq => hne (append_suffix_inj heq)

/-- A step of the monitor removes the log of a transaction exactly where it takes the last buffer
of it. -/
theorem BaseLog.flush {ops : List TransactionOperation} (h : m.BaseLog)
    (hflush : m.flushBuffer d = some (ops, m', d')) :
    m'.BaseLog ∧ (∀ f ∈ m'.activeLogs, f ∈ m.activeLogs) ∧
      ∀ f ≠ m.logFileName,
        d'.inode f = d.inode f ∧ (f ∈ m.activeLogs → f ∈ m'.activeLogs) ∨
          d'.inode f = none ∧ f ∈ m.activeLogs ∧ f ∉ m'.activeLogs := by
  rcases flushBuffer_counters hflush with ⟨rfl, rfl⟩ | ⟨b, hactive, hsame, hcase⟩
  · exact ⟨h, fun _ hf => hf, fun _ _ => .inl ⟨rfl, id⟩⟩
  have hname : m'.logFileName = m.logFileName := by
    unfold TxBufferManager.logFileName
    rw [hsame.file]
  have hlogs : m.activeLogs = b.fileName :: m'.activeLogs := congrArg (List.map _) hactive
  have hsub : ∀ f ∈ m'.activeLogs, f ∈ m.activeLogs := by
    intro f hf
    rw [hlogs]
    exact List.mem_cons_of_mem _ hf
  have hflag := h.flagged b (by rw [hactive]; exact List.mem_cons_self)
  have hflagged : ∀ a ∈ m'.activeBuffers, a.mainLog = true ↔ a.fileName = m'.logFileName := by
    intro a ha
    rw [hname]
    exact h.flagged a (by rw [hactive]; exact List.mem_cons_of_mem b ha)
  have hfile := hsame.file.trans h.file
  have hmainLog := hsame.mainLog.trans h.mainLog
  have hreleased : ∀ f ≠ m'.logFileName,
      Usable (release m.buffersByLog b.fileName) m'.activeLogs f := by
    intro f hf
    rw [hname] at hf
    have hcounted := h.counted f hf
    rw [hlogs] at hcounted
    exact hcounted.release
  have hrest : ∀ f ∈ m.activeLogs, f ≠ b.fileName → f ∈ m'.activeLogs := by
    intro f hf hne
    rw [hlogs] at hf
    exact (List.mem_cons.1 hf).resolve_left hne
  rcases hcase with ⟨hmain, hreusable, hcounters, hinode⟩ | ⟨hmain, hreusable, hcase⟩
  · have hmainName := hflag.1 hmain
    refine ⟨⟨hfile, hmainLog, hflagged, ?_, ?_⟩, hsub, ?_⟩
    · intro a ha
      cases hreusable a ha with
      | inl hold => exact (h.reusable a hold).of_origin rfl hsame
      | inr hnew =>
        have hown : m.Owns b := ⟨hmainName, hmain.trans h.mainLog.symm⟩
        exact hown.of_origin hnew hsame
    · intro f hf
      have hne : f ≠ b.fileName := by
        rw [hmainName, ← hname]
        exact hf
      rw [hcounters]
      exact (hreleased f hf).congr (acquire_of_ne hne)
    · intro f hf
      left
      rw [hinode]
      exact ⟨rfl, fun hmem => hrest f hmem (by rw [hmainName]; exact hf)⟩
  · have hne : b.fileName ≠ m.logFileName := by
      intro heq
      rw [hflag.2 heq] at hmain
      cases hmain
    have hreuse : ∀ a ∈ m'.reusableBuffers, m'.Owns a := by
      intro a ha
      rw [hreusable] at ha
      exact (h.reusable a ha).of_origin rfl hsame
    have hexact : Exact (release m.buffersByLog b.fileName) m'.activeLogs b.fileName := by
      have hcounted := h.counted b.fileName hne
      rw [hlogs] at hcounted
      exact hcounted.release_self
    rcases hcase with ⟨hvalue, hcounters, hd⟩ | ⟨hvalue, hcounters, hd⟩
    · have hlast := hexact.nonpos_iff.1 hvalue
      refine ⟨⟨hfile, hmainLog, hflagged, hreuse, ?_⟩, hsub, ?_⟩
      · intro f hf
        rw [hcounters]
        exact (hreleased f hf).forget hlast
      · intro f _
        rw [hd]
        by_cases hf : f = b.fileName
        · right
          rw [hf, hlogs]
          exact ⟨d.removeFile_inode _, List.mem_cons_self, hlast⟩
        · left
          exact ⟨Function.update_of_ne hf _ _, fun hmem => hrest f hmem hf⟩
    · have hleft : b.fileName ∈ m'.activeLogs := by
        by_contra hnot
        have hnonpos := hexact.nonpos_iff.2 hnot
        omega
      refine ⟨⟨hfile, hmainLog, hflagged, hreuse, ?_⟩, hsub, ?_⟩
      · intro f hf
        rw [hcounters]
        exact hreleased f hf
      · intro f _
        left
        rw [hd]
        refine ⟨rfl, fun hmem => ?_⟩
        by_cases hf : f = b.fileName
        · rw [hf]
          exact hleft
        · exact hrest f hmem hf

end logs

end TxBufferManager

namespace TransactionManager
open TxBufferManager
variable {σ : Type}

/-- The server starts. -/
def restart (d : Disk) (store : σ) : Option (TransactionManager σ) := do
  let (wal, d) ← TxBufferManager.new mainFile true d
  some ⟨wal, fun _ => none, d, store⟩

/-- Commands, the monitor's step, and a restart with the store that the controller finds. -/
inductive Action (σ : Type) where
  | write (op : TransactionOperation) (target : Option CString)
  | read (r : Reading) (target : Option CString)
  | commit (id : CString)
  | rollback (id : CString)
  | flush
  | restart (store : σ)

def act (c : Controller σ) (parse : CString → Outcome (Option BaseExpression))
    (setting : CString) (s : TransactionManager σ) : Action σ → Option (TransactionManager σ)
  | .write op target => s.write op target
  | .read r target => (s.read c parse setting r target).map Prod.snd
  | .commit id => s.commit id
  | .rollback id => s.rollback id
  | .flush => (s.flush c).map Prod.snd
  | .restart store => TransactionManager.restart s.disk store

/-- An active buffer of some manager is a part of the file. -/
def Refers (s : TransactionManager σ) (f : CString) : Prop :=
  ∃ target t, s.managerOf target = some t ∧ f ∈ t.activeLogs

/-- A manager that is loaded for transaction `id` has buffers of its own log alone, and has no
active ones as long as the base has some of that log. -/
structure Loads (s : TransactionManager σ) (id : CString) : Prop where
  named : id ≠ mainFile
  owned : ∀ t d, s.cacheTransactions id = none → TxBufferManager.new id false s.disk = some (t, d) →
    (∀ b ∈ t.activeBuffers ++ t.reusableBuffers, t.Owns b) ∧
      (t.activeBuffers ≠ [] → id.append logSuffix ∉ s.wal.activeLogs)

/-- Nothing is written in a transaction while the base has buffers of a log of that name. -/
def Permits (s : TransactionManager σ) : Action σ → Prop
  | .write _ none => True
  | .write _ (some id) => s.Loads id ∧ id.append logSuffix ∉ s.wal.activeLogs
  | .read _ none => True
  | .read _ (some id) => s.Loads id
  | .commit id => s.Loads id
  | .rollback id => s.Loads id
  | .flush => True
  | .restart store => ∀ s', TransactionManager.restart s.disk store = some s' → s'.wal.Restorable

/-- The states of a server that starts on any data directory. -/
inductive Serves (c : Controller σ) (parse : CString → Outcome (Option BaseExpression))
    (setting : CString) : TransactionManager σ → Prop
  | start {s} (d : Disk) (store : σ) : TransactionManager.restart d store = some s →
    s.wal.Restorable → Serves c parse setting s
  | step {s s'} (a : Action σ) : Serves c parse setting s → s.Permits a →
    s.act c parse setting a = some s' → Serves c parse setting s'

/-- No file goes that is referred to. A file that is no longer referred to goes, unless all
managers ended with the server. -/
structure Removes (a : Action σ) (s s' : TransactionManager σ) (f : CString) : Prop where
  unreferenced : s.disk.inode f ≠ none → s'.disk.inode f = none → ¬ s'.Refers f
  removed : (∀ store, a ≠ .restart store) → s.Refers f → ¬ s'.Refers f → s'.disk.inode f = none

/-- The base counts its buffers, and no other manager has buffers of a log that the base has. -/
structure Tidy (s : TransactionManager σ) : Prop where
  base : s.wal.BaseLog
  own : ∀ id t, s.cacheTransactions id = some t → id ≠ mainFile ∧ t.OwnLog id
  apart : ∀ id t, s.cacheTransactions id = some t → t.activeBuffers ≠ [] →
    id.append logSuffix ∉ s.wal.activeLogs

section steps
variable {s s' : TransactionManager σ} {id : CString} {f : CString} {t wal : TxBufferManager}
variable {d : Disk} {target : Option CString} {a : Action σ}

theorem logName_ne_main (h : id ≠ mainFile) (hwal : wal.BaseLog) :
    id.append logSuffix ≠ wal.logFileName := by
  unfold TxBufferManager.logFileName
  rw [hwal.file]
  exact fun heq => h (append_suffix_inj heq)

theorem refers_put (target : Option CString) (d : Disk) (h : s.Refers f)
    (ht : ∀ t0, s.managerOf target = some t0 → f ∈ t0.activeLogs → f ∈ t.activeLogs) :
    (s.put target t d).Refers f := by
  rcases h with ⟨other, t0, hother, hf⟩
  by_cases hne : other = target
  · rw [hne] at hother
    exact ⟨target, t, managerOf_put_self, ht t0 hother hf⟩
  · exact ⟨other, t0, (managerOf_put_of_ne hne).trans hother, hf⟩

/-- Where no log goes and no reference ends there is nothing to show. -/
theorem removes_of_keeps (hfiles : s'.disk.inode f = none → s.disk.inode f = none)
    (hrefers : s.Refers f → s'.Refers f) : s.Removes a s' f :=
  ⟨fun hsome hnone => absurd (hfiles hnone) hsome, fun _ h hnot => absurd (hrefers h) hnot⟩

theorem Tidy.put_own (h : s.Tidy) (hid : id ≠ mainFile) (ht : t.OwnLog id)
    (hapart : t.activeBuffers ≠ [] → id.append logSuffix ∉ s.wal.activeLogs) :
    (s.put (some id) t d).Tidy := by
  have hput : ∀ other t', (s.put (some id) t d).cacheTransactions other = some t' →
      other = id ∧ t' = t ∨ s.cacheTransactions other = some t' := by
    intro other t' ht'
    change Function.update s.cacheTransactions id (some t) other = some t' at ht'
    by_cases hother : other = id
    · rw [hother, Function.update_self] at ht'
      exact .inl ⟨hother, (Option.some.inj ht').symm⟩
    · rw [Function.update_of_ne hother] at ht'
      exact .inr ht'
  constructor
  · exact h.base
  · intro other t' ht'
    rcases hput other t' ht' with ⟨rfl, rfl⟩ | hold
    · exact ⟨hid, ht⟩
    · exact h.own other t' hold
  · intro other t' ht'
    rcases hput other t' ht' with ⟨rfl, rfl⟩ | hold
    · exact hapart
    · exact h.apart other t' hold

/-- The base is replaced by one that has no more logs of other transactions. -/
theorem Tidy.put_base (h : s.Tidy) (hwal : wal.BaseLog)
    (hlogs : ∀ id ≠ mainFile, id.append logSuffix ∈ wal.activeLogs →
      id.append logSuffix ∈ s.wal.activeLogs) : (s.put none wal d).Tidy where
  base := hwal
  own := h.own
  apart id t ht hne hmem := h.apart id t ht hne (hlogs id (h.own id t ht).1 hmem)

/-- A transaction that is loaded is tidy, and nothing else changes. -/
theorem Tidy.getTransaction (h : s.Tidy) (hl : s.Loads id)
    (hget : s.getTransaction id = some (t, s')) :
    s'.Tidy ∧ s'.cacheTransactions id = some t ∧ s'.wal = s.wal ∧
      s.disk.KeepsFiles s'.disk ∧ ∀ f, s.Refers f → s'.Refers f := by
  cases hcache : s.cacheTransactions id with
  | some t0 =>
    rw [getTransaction_of_some hcache] at hget
    cases hget
    exact ⟨h, hcache, rfl, Disk.KeepsFiles.refl _, fun _ hf => hf⟩
  | none =>
    unfold TransactionManager.getTransaction at hget
    rw [hcache] at hget
    rcases Option.bind_eq_some_iff.1 hget with ⟨⟨t1, d1⟩, hnew, hget⟩
    rcases hl.owned t1 d1 hcache hnew with ⟨hown, hapart⟩
    cases hget
    refine ⟨h.put_own (d := d1) hl.named (new_ownLog hnew hown) hapart,
      Function.update_self _ _ _, rfl, (new_counters hnew).2.2.2, ?_⟩
    intro f hf
    apply refers_put (some id) d1 hf
    intro t0 ht0
    cases hcache.symm.trans ht0

/-! ## Steps that remove no log -/

variable {op : TransactionOperation}

theorem Tidy.write (h : s.Tidy) (hp : s.Permits (.write op target))
    (hwrite : s.write op target = some s') :
    s'.Tidy ∧ s.disk.KeepsFiles s'.disk ∧ ∀ f, s.Refers f → s'.Refers f := by
  rw [write_eq] at hwrite
  rcases Option.bind_eq_some_iff.1 hwrite with ⟨⟨m, s1⟩, hwriter, hwrite⟩
  rcases Option.bind_eq_some_iff.1 hwrite with ⟨⟨m', d'⟩, hrecord, hwrite⟩
  cases hwrite
  rw [put_disk]
  cases target with
  | none =>
    cases hwriter
    rcases write_takes h.base.reusable hrecord with ⟨n, htakes⟩
    have hwal : m'.BaseLog := h.base.takes htakes fun o ho => .inl (List.eq_of_mem_replicate ho)
    refine ⟨h.put_base hwal ?_, htakes.files, ?_⟩
    · intro id hid hmem
      rw [htakes.activeLogs, List.mem_append, List.map_replicate] at hmem
      cases hmem with
      | inl hold => exact hold
      | inr hnew => exact absurd (List.eq_of_mem_replicate hnew) (logName_ne_main hid h.base)
    · intro f hf
      apply refers_put _ _ hf
      intro t0 ht0 hmem
      cases ht0
      rw [htakes.activeLogs]
      exact List.mem_append_left _ hmem
  | some id =>
    rcases h.getTransaction hp.1 hwriter with ⟨h1, hcache, hwal, hfiles, hrefers⟩
    have hown := (h1.own id m hcache).2
    rcases write_takes hown.reusable hrecord with ⟨n, htakes⟩
    refine ⟨h1.put_own hp.1.named (hown.takes htakes) ?_, hfiles.trans htakes.files, ?_⟩
    · intro _
      rw [hwal]
      exact hp.2
    · intro f hf
      apply refers_put _ _ (hrefers f hf)
      intro t0 ht0 hmem
      cases hcache.symm.trans ht0
      rw [htakes.activeLogs]
      exact List.mem_append_left _ hmem

/-- Moving cursors. -/
theorem Tidy.put_base_same {wal : TxBufferManager} (h : s.Tidy)
    (htakes : s.wal.Takes s.disk [] wal s.disk) :
    (s.put none wal s.disk).Tidy ∧ ∀ f, s.Refers f → (s.put none wal s.disk).Refers f := by
  have hlogs : wal.activeLogs = s.wal.activeLogs := by
    rw [htakes.activeLogs]
    exact List.append_nil _
  have hwal : wal.BaseLog := h.base.takes htakes fun o ho => absurd ho List.not_mem_nil
  constructor
  · apply h.put_base hwal
    intro id _ hmem
    rwa [hlogs] at hmem
  · intro f hf
    apply refers_put _ _ hf
    intro t0 ht0 hmem
    cases ht0
    rwa [hlogs]

theorem Tidy.read {c : Controller σ} {parse : CString → Outcome (Option BaseExpression)}
    {setting : CString} {r : Reading} {reply : Reply} (h : s.Tidy)
    (hp : s.Permits (.read r target))
    (hread : s.read c parse setting r target = some (reply, s')) :
    s'.Tidy ∧ s.disk.KeepsFiles s'.disk ∧ ∀ f, s.Refers f → s'.Refers f := by
  cases target with
  | none =>
    rcases Option.bind_eq_some_iff.1 hread with ⟨⟨reply', wal⟩, hbase, hread⟩
    cases hread
    rcases h.put_base_same (read_takes hbase) with ⟨htidy, hrefers⟩
    exact ⟨htidy, Disk.KeepsFiles.refl _, hrefers⟩
  | some id =>
    rcases Option.bind_eq_some_iff.1 hread with ⟨⟨m, s1⟩, hget, hread⟩
    rcases Option.bind_eq_some_iff.1 hread with ⟨⟨reply', wal, m'⟩, hstd, hread⟩
    cases hread
    rcases h.getTransaction hp hget with ⟨h1, hcache, hwal, hfiles, hrefers⟩
    rcases stdRead_takes hstd with ⟨hbase, htakes⟩
    have hown := (h1.own id m hcache).2
    have hlogs : m'.activeLogs = m.activeLogs := by
      rw [htakes.activeLogs]
      exact List.append_nil _
    rcases h1.put_base_same hbase with ⟨htidy, hrefers1⟩
    have hown' : m'.OwnLog id := OwnLog.takes (n := 0) hown htakes
    refine ⟨htidy.put_own (d := s1.disk) hp.named hown' ?_, hfiles, ?_⟩
    · intro hne
      apply htidy.apart id m hcache
      intro hnil
      have hnil' : m'.activeLogs = [] := by
        rw [hlogs]
        exact congrArg (List.map _) hnil
      exact hne (List.map_eq_nil_iff.1 hnil')
    · intro f hf
      apply refers_put (some id) s1.disk (hrefers1 f (hrefers f hf))
      intro t0 ht0 hmem
      cases hcache.symm.trans ht0
      rwa [hlogs]

/-- A commit moves the references to the base, which counts them. -/
theorem Tidy.commit (h : s.Tidy) (hp : s.Permits (.commit id)) (hcommit : s.commit id = some s') :
    s'.Tidy ∧ (∀ other : CString, s'.disk.inode (other.append logSuffix) = none →
      s.disk.inode (other.append logSuffix) = none) ∧ ∀ f, s.Refers f → s'.Refers f := by
  rcases Option.bind_eq_some_iff.1 hcommit with ⟨⟨m, s1⟩, hget, hcommit⟩
  rcases Option.bind_eq_some_iff.1 hcommit with ⟨⟨wal, m', d'⟩, hstd, hcommit⟩
  cases hcommit
  rcases h.getTransaction hp hget with ⟨h1, hcache, hwal, hfiles, hrefers⟩
  have hown := (h1.own id m hcache).2
  rcases Option.bind_eq_some_iff.1 hstd with ⟨⟨buffers, m1⟩, hpop, hstd⟩
  rcases popAll_counters hpop with ⟨hbuffers, -, -, hsame, -⟩
  rcases Option.bind_eq_some_iff.1 hstd with ⟨⟨wal2, d2⟩, hadds, hstd⟩
  cases hstd
  rcases Option.bind_eq_some_iff.1 hadds with ⟨⟨wal1, d1⟩, hadd, hforce⟩
  have hadd := addBufferList_takes hadd
  rw [hbuffers] at hadd
  have hmoved : wal1.BaseLog := by
    apply h1.base.takes hadd
    intro o ho
    right
    rcases List.mem_map.1 ho with ⟨b, hb, rfl⟩
    have howns := hown.active b hb
    have hname : b.fileName = id.append logSuffix := howns.1.trans hown.logFileName
    refine ⟨howns.2.trans hown.mainLog, ?_, ?_⟩
    · change b.fileName ≠ _
      rw [hname]
      exact logName_ne_main hp.named h1.base
    · change b.fileName ∉ _
      rw [hname]
      exact h1.apart id m hcache (List.ne_nil_of_mem hb)
  rcases getBuffer_takes hmoved.reusable hforce with ⟨n, hforce⟩
  have hbase : wal.BaseLog := hmoved.takes hforce fun o ho => .inl (List.eq_of_mem_replicate ho)
  have hlogs : wal.activeLogs = s1.wal.activeLogs ++ m.activeLogs ++
      List.replicate n wal1.logFileName := by
    rw [hforce.activeLogs, hadd.activeLogs, List.map_replicate, activeLogs_eq m]
  have hkept : ∀ other t, Function.update s1.cacheTransactions id none other = some t →
      other ≠ id ∧ s1.cacheTransactions other = some t := by
    intro other t ht
    by_cases hother : other = id
    · rw [hother, Function.update_self] at ht
      cases ht
    · rw [Function.update_of_ne hother] at ht
      exact ⟨hother, ht⟩
  refine ⟨⟨hbase, ?_, ?_⟩, ?_, ?_⟩
  · intro other t ht
    exact h1.own other t (hkept other t ht).2
  · intro other t ht hne hmem
    rcases hkept other t ht with ⟨hother, ht1⟩
    change other.append logSuffix ∈ wal.activeLogs at hmem
    rw [hlogs, List.mem_append, List.mem_append] at hmem
    rcases hmem with (hold | hmoved1) | hmain
    · exact h1.apart other t ht1 hne hold
    · exact hother (append_suffix_inj (hown.eq_of_mem hmoved1))
    · exact logName_ne_main (h1.own other t ht1).1 hmoved (List.eq_of_mem_replicate hmain)
  · intro other hnone
    have hcontrol : other.append logSuffix ≠ m1.controlFileName :=
      (controlName_ne_logName m1.file other).symm
    change Function.update d2.inode _ _ _ = none at hnone
    rw [Function.update_of_ne hcontrol] at hnone
    exact hfiles _ (hadd.files _ (hforce.files _ hnone))
  · intro f hf
    rcases hrefers f hf with ⟨target, t, ht, hmem⟩
    have hbaseRefers : f ∈ s1.wal.activeLogs ++ m.activeLogs → f ∈ wal.activeLogs := by
      intro hf
      rw [hlogs]
      exact List.mem_append_left _ hf
    cases target with
    | none =>
      cases ht
      exact ⟨none, wal, rfl, hbaseRefers (List.mem_append_left _ hmem)⟩
    | some other =>
      by_cases hother : other = id
      · rw [hother] at ht
        cases hcache.symm.trans ht
        exact ⟨none, wal, rfl, hbaseRefers (List.mem_append_right _ hmem)⟩
      · exact ⟨some other, t, (Function.update_of_ne hother _ _).trans ht, hmem⟩

theorem Tidy.restart {d : Disk} {store : σ} (hrestart : TransactionManager.restart d store = some s)
    (hwal : s.wal.Restorable) : s.Tidy ∧ d.KeepsFiles s.disk := by
  rcases Option.bind_eq_some_iff.1 hrestart with ⟨⟨wal, d'⟩, hnew, hrestart⟩
  cases hrestart
  refine ⟨⟨new_baseLog hnew hwal, ?_, ?_⟩, (new_counters hnew).2.2.2⟩
  · intro id t ht
    cases ht
  · intro id t ht
    cases ht

/-! ## Steps that remove logs -/

theorem Tidy.rollback (h : s.Tidy) (hp : s.Permits (.rollback id))
    (hrollback : s.rollback id = some s') :
    s'.Tidy ∧ ∀ other : CString, s.Removes a s' (other.append logSuffix) := by
  rcases Option.bind_eq_some_iff.1 hrollback with ⟨⟨m, s1⟩, hget, hrollback⟩
  rcases Option.bind_eq_some_iff.1 hrollback with ⟨⟨m', d'⟩, hstd, hrollback⟩
  cases hrollback
  rcases h.getTransaction hp hget with ⟨h1, hcache, -, hfiles, hrefers⟩
  rcases (h1.own id m hcache).2.rollback hstd with ⟨hown, hnil, hgone, hkept⟩
  have hempty : m'.activeLogs = [] := congrArg (List.map _) hnil
  have hother : ∀ other, (∃ target t, target ≠ some id ∧ s1.managerOf target = some t ∧
      other ∈ t.activeLogs) → (s1.put (some id) m' d').Refers other := by
    rintro other ⟨target, t, hne, ht, hmem⟩
    exact ⟨target, t, (managerOf_put_of_ne hne).trans ht, hmem⟩
  refine ⟨h1.put_own (d := d') hp.named hown fun hne => absurd hnil hne, ?_⟩
  intro other
  constructor
  · intro hsome hnone
    -- Only the log of the transaction goes, and then the base has no buffer of it.
    have hchanged : ¬ (m.activeBuffers = [] ∨ other ≠ id) := by
      intro hor
      apply hsome
      apply hfiles
      exact (hkept other hor).symm.trans hnone
    rw [not_or, not_not] at hchanged
    rcases hchanged with ⟨hne, rfl⟩
    rintro ⟨target, t, ht, hmem⟩
    by_cases htarget : target = some other
    · have hself : (s1.put (some other) m' d').managerOf (some other) = some m' :=
        managerOf_put_self
      rw [htarget] at ht
      cases hself.symm.trans ht
      rw [hempty] at hmem
      cases hmem
    · have ht1 := (managerOf_put_of_ne htarget).symm.trans ht
      cases target with
      | none =>
        cases ht1
        exact h1.apart other m hcache hne hmem
      | some id' =>
        have heq := append_suffix_inj ((h1.own id' t ht1).2.eq_of_mem hmem)
        exact htarget (congrArg some heq.symm)
  · intro _ href hnot
    rcases hrefers _ href with ⟨target, t, ht, hmem⟩
    have htarget : target = some id := by
      by_contra hne
      exact hnot (hother _ ⟨target, t, hne, ht, hmem⟩)
    rw [htarget] at ht
    cases hcache.symm.trans ht
    have heq := append_suffix_inj ((h1.own id m hcache).2.eq_of_mem hmem)
    rw [heq]
    exact hgone fun hnone => List.ne_nil_of_mem hmem (congrArg (List.map _) hnone)

theorem Tidy.flush {c : Controller σ} {ops : List TransactionOperation} (h : s.Tidy)
    (hflush : s.flush c = some (ops, s')) :
    s'.Tidy ∧ ∀ id ≠ mainFile, s.Removes a s' (id.append logSuffix) := by
  rcases Option.bind_eq_some_iff.1 hflush with ⟨⟨ops', m', d'⟩, hbuffer, hflush⟩
  rcases Option.bind_eq_some_iff.1 hflush with ⟨store, -, hflush⟩
  cases hflush
  rcases h.base.flush hbuffer with ⟨hwal, hsub, hcase⟩
  have hrefers : ∀ f, s.Refers f → (f ∈ s.wal.activeLogs → f ∈ m'.activeLogs) →
      (s.put none m' d').Refers f := by
    intro f hf hkeep
    apply refers_put _ _ hf
    intro t0 ht0
    cases ht0
    exact hkeep
  refine ⟨⟨hwal, h.own, fun id t ht hne hmem => h.apart id t ht hne (hsub _ hmem)⟩, ?_⟩
  intro id hid
  rcases hcase _ (logName_ne_main hid h.base) with ⟨hinode, hkeep⟩ | ⟨hnone, hmem, hlast⟩
  · apply removes_of_keeps
    · exact hinode.symm.trans
    · exact fun hf => hrefers _ hf hkeep
  · refine ⟨fun _ _ => ?_, fun _ _ _ => hnone⟩
    rintro ⟨target, t, ht, hmem'⟩
    cases target with
    | none =>
      cases ht
      exact hlast hmem'
    | some id' =>
      have heq := (h.own id' t ht).2.eq_of_mem hmem'
      rw [append_suffix_inj heq] at hmem
      exact h.apart id' t ht (fun hnil => List.ne_nil_of_mem hmem' (congrArg (List.map _) hnil)) hmem

variable {c : Controller σ} {parse : CString → Outcome (Option BaseExpression)} {setting : CString}

/-- What one step does to the logs of transactions. -/
theorem Tidy.act (h : s.Tidy) (hp : s.Permits a) (hact : s.act c parse setting a = some s') :
    s'.Tidy ∧ ∀ id ≠ mainFile, s.Removes a s' (id.append logSuffix) := by
  cases a with
  | write op target =>
    rcases h.write hp hact with ⟨htidy, hfiles, hrefers⟩
    exact ⟨htidy, fun id _ => removes_of_keeps (hfiles _) (hrefers _)⟩
  | read r target =>
    rcases Option.map_eq_some_iff.1 hact with ⟨⟨reply, s1⟩, hread, rfl⟩
    rcases h.read hp hread with ⟨htidy, hfiles, hrefers⟩
    exact ⟨htidy, fun id _ => removes_of_keeps (hfiles _) (hrefers _)⟩
  | commit id =>
    rcases h.commit hp hact with ⟨htidy, hfiles, hrefers⟩
    exact ⟨htidy, fun other _ => removes_of_keeps (hfiles other) (hrefers _)⟩
  | rollback id =>
    rcases h.rollback hp hact with ⟨htidy, hremoves⟩
    exact ⟨htidy, fun other _ => hremoves other⟩
  | flush =>
    rcases Option.map_eq_some_iff.1 hact with ⟨⟨ops, s1⟩, hflush, rfl⟩
    exact h.flush hflush
  | restart store =>
    rcases Tidy.restart hact (hp s' hact) with ⟨htidy, hfiles⟩
    refine ⟨htidy, fun id _ => ⟨fun hsome hnone => absurd (hfiles _ hnone) hsome, ?_⟩⟩
    exact fun hnot => absurd rfl (hnot store)

theorem Serves.tidy (h : Serves c parse setting s) : s.Tidy := by
  induction h with
  | start d store hrestart hwal => exact (Tidy.restart hrestart hwal).1
  | step a _ hp hact ih => exact (ih.act hp hact).1

end steps

/-! ## Two buffers of one log -/

section small

/-- A server on an empty data directory. -/
def served (actions : List (Action ListStore)) : Option (TransactionManager ListStore) := do
  let s ← restart emptyDisk []
  actions.foldlM (act (ListStore.controller parseCounted) parseCounted emptyText) s

def writeSmall : Action ListStore := .write (removal (letters 1)) (some (letters 1))

end small

end TransactionManager

end Djondb
