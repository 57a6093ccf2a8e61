import Djondb.Isolation
import Djondb.LibRefCount
import Djondb.LogRegions

set_option autoImplicit false

/-!
# Who refers to a log file

The active buffers of a manager refer to log files, and `_buffersByLog` counts them. A step that
takes buffers in counts each of them once; a step that takes one out counts down, and a log whose
counter stands at zero then is removed.
-/
namespace Djondb
open RefCount

/-- The log that a buffer belongs to, and whether that is the main log. -/
def TxBuffer.origin (b : TxBuffer) : CString × Bool := (b.fileName, b.mainLog)

namespace Disk

/-- No file goes. -/
def KeepsFiles (d d' : Disk) : Prop := ∀ name, d'.inode name = none → d.inode name = none

variable {d d' : Disk}

theorem KeepsFiles.refl (d : Disk) : d.KeepsFiles d := fun _ h => h

theorem KeepsFiles.trans {d1 d2 d3 : Disk} (h : d1.KeepsFiles d2) (h' : d2.KeepsFiles d3) :
    d1.KeepsFiles d3 := fun name hname => h name (h' name hname)

theorem keepsFiles_of_inode (h : d'.inode = d.inode) : d.KeepsFiles d' := by
  intro name hname
  rwa [h] at hname

theorem update_keepsFiles {inode : CString → Option ℕ} {file name : CString} {i : ℕ}
    (h : Function.update inode file (some i) name = none) : inode name = none := by
  by_cases hname : name = file
  · rw [hname, Function.update_self] at h
    cases h
  · rwa [Function.update_of_ne hname] at h

theorem openLog_keepsFiles (d : Disk) (name : CString) : d.KeepsFiles (d.openLog name).2 := by
  unfold openLog
  cases d.inode name with
  | some i => exact KeepsFiles.refl d
  | none => exact fun _ h => update_keepsFiles h

theorem createControl_keepsFiles (d : Disk) (name : CString) (file : List UInt8) :
    d.KeepsFiles (d.createControl name file).2 := fun _ h => update_keepsFiles h

end Disk

namespace TxBufferManager

/-- The logs of the active buffers, one entry for each buffer. -/
def activeLogs (m : TxBufferManager) : List CString := m.activeBuffers.map TxBuffer.fileName

/-- The buffer is one that the manager itself would make. -/
def Owns (m : TxBufferManager) (b : TxBuffer) : Prop :=
  b.fileName = m.logFileName ∧ b.mainLog = m.mainLog

/-- Buffers with these origins come behind the active ones, each of them counted. -/
structure Takes (m : TxBufferManager) (d : Disk) (os : List (CString × Bool))
    (m' : TxBufferManager) (d' : Disk) : Prop where
  origins : m'.activeBuffers.map TxBuffer.origin = m.activeBuffers.map TxBuffer.origin ++ os
  counters : m'.buffersByLog = acquireAll m.buffersByLog (os.map Prod.fst)
  reusable : ∀ b ∈ m'.reusableBuffers, b ∈ m.reusableBuffers
  same : m.SameLog m'
  files : d.KeepsFiles d'

section takes
variable {m m1 m' : TxBufferManager} {d d1 d' : Disk} {os os' : List (CString × Bool)}
variable {op : TransactionOperation} {ops : List TransactionOperation} {b b' : TxBuffer}

theorem activeLogs_eq (m : TxBufferManager) :
    m.activeLogs = (m.activeBuffers.map TxBuffer.origin).map Prod.fst := by
  unfold activeLogs
  rw [List.map_map]
  rfl

theorem Takes.activeLogs (h : m.Takes d os m' d') :
    m'.activeLogs = m.activeLogs ++ os.map Prod.fst := by
  rw [activeLogs_eq, activeLogs_eq, h.origins, List.map_append]

theorem Takes.refl (m : TxBufferManager) (d : Disk) : m.Takes d [] m d where
  origins := (List.append_nil _).symm
  counters := rfl
  reusable _ h := h
  same := SameLog.refl m
  files := Disk.KeepsFiles.refl d

theorem Takes.trans (h : m.Takes d os m1 d1) (h' : m1.Takes d1 os' m' d') :
    m.Takes d (os ++ os') m' d' where
  origins := by rw [h'.origins, h.origins, List.append_assoc]
  counters := by
    rw [h'.counters, h.counters, List.map_append]
    exact List.foldl_append.symm
  reusable b hb := h.reusable b (h'.reusable b hb)
  same := h.same.trans h'.same
  files := h.files.trans h'.files

/-- An active buffer afterwards has been there before or is one that came. -/
theorem Takes.origin_mem (h : m.Takes d os m' d') (hb : b ∈ m'.activeBuffers) :
    (∃ a ∈ m.activeBuffers, a.origin = b.origin) ∨ b.origin ∈ os := by
  have hmem := List.mem_map_of_mem (f := TxBuffer.origin) hb
  rw [h.origins] at hmem
  cases List.mem_append.1 hmem with
  | inl hold => exact .inl (List.mem_map.1 hold)
  | inr hnew => exact .inr hnew

theorem Owns.of_origin (h : m.Owns b) (hb : b'.origin = b.origin) (hsame : m.SameLog m') :
    m'.Owns b' := by
  have hname : b'.fileName = b.fileName := congrArg Prod.fst hb
  have hmain : b'.mainLog = b.mainLog := congrArg Prod.snd hb
  unfold Owns logFileName
  rw [hname, hmain, hsame.file, hsame.mainLog]
  exact h

theorem origin_of_seek {p q : ℕ} (h : b'.seek p = b.seek q) : b'.origin = b.origin := by
  have horigin : (b'.seek p).origin = (b.seek q).origin := congrArg TxBuffer.origin h
  exact horigin

/-! ## Cursors -/

theorem setBack_takes {f : TxBuffer → TxBuffer} (hfiles : d.KeepsFiles d')
    (hf : ∀ b, m.activeBuffers.getLast? = some b → (f b).origin = b.origin) :
    m.Takes d [] (m.setBack f) d' where
  origins := (setBack_map TxBuffer.origin hf).trans (List.append_nil _).symm
  counters := rfl
  reusable _ h := h
  same := ⟨rfl, rfl, rfl, rfl⟩
  files := hfiles

theorem seekBack_takes (m : TxBufferManager) (d : Disk) : m.Takes d [] m.seekBack d :=
  setBack_takes (Disk.KeepsFiles.refl d) fun _ _ => rfl

theorem writeRecord_takes (h : m.writeRecord op d = some (m', d')) : m.Takes d [] m' d' := by
  rcases writeRecord_back h with ⟨b, b1, hb, rfl, hname, -, hmain, hinode⟩
  apply setBack_takes
  · exact Disk.keepsFiles_of_inode hinode
  · intro b' hb'
    cases hb.symm.trans hb'
    exact Prod.ext hname hmain

theorem findOperations_takes {db ns : Option CString}
    (h : BaseTransaction.findOperations m d db ns = some (ops, m')) : m.Takes d [] m' d := by
  rcases Option.bind_eq_some_iff.1 h with ⟨⟨ops1, buffers⟩, h1, h⟩
  cases h
  exact ⟨(readBuffers_map (g := TxBuffer.origin) (fun _ _ => rfl) h1).trans (List.append_nil _).symm, rfl, fun _ h => h,
    ⟨rfl, rfl, rfl, rfl⟩, Disk.KeepsFiles.refl d⟩

/-! ## Taking buffers in -/

/-- A record in the control file counts the buffer. -/
theorem register_counters {n : ℕ} {newBuffer : Bool}
    (h : m.registerBufferControlFile n b newBuffer d = some (b', m', d')) :
    b'.origin = b.origin ∧ m' = { m with buffersByLog := acquire m.buffersByLog b.fileName } ∧
      d'.inode = d.inode := by
  rcases Option.bind_eq_some_iff.1 h with ⟨i, -, h⟩
  cases newBuffer with
  | true =>
    cases h
    exact ⟨rfl, rfl, rfl⟩
  | false =>
    cases h
    exact ⟨rfl, rfl, rfl⟩

theorem nextBuffer_takes (hown : ∀ b ∈ m.reusableBuffers, m.Owns b)
    (h : m.nextBuffer d = some (m', d')) : m.Takes d [(m.logFileName, m.mainLog)] m' d' := by
  cases hr : m.reusableBuffers with
  | nil =>
    rw [nextBuffer_of_nil d hr] at h
    rcases Option.bind_eq_some_iff.1 h with ⟨⟨b1, m1, d1⟩, hreg, h⟩
    rcases register_counters hreg with ⟨horigin, hm1, hinode⟩
    cases h
    rw [hm1]
    constructor
    · change (m.activeBuffers ++ [b1]).map TxBuffer.origin = _
      rw [List.map_append, List.map_singleton, horigin]
      rfl
    · rfl
    · exact fun _ h => h
    · exact ⟨rfl, rfl, rfl, rfl⟩
    · exact (d.openLog_keepsFiles _).trans (Disk.keepsFiles_of_inode hinode)
  | cons b rest =>
    have hb := hown b (by rw [hr]; exact List.mem_cons_self)
    rw [nextBuffer_of_cons d hr] at h
    rcases Option.bind_eq_some_iff.1 h with ⟨⟨b1, m1, d1⟩, hreg, h⟩
    rcases register_counters hreg with ⟨horigin, hm1, hinode⟩
    have hname : (b.reset.seek 0).fileName = m.logFileName := hb.1
    have hown : (b.reset.seek 0).origin = (m.logFileName, m.mainLog) := Prod.ext hb.1 hb.2
    rw [hname] at hm1
    cases h
    rw [hm1]
    constructor
    · change (m.activeBuffers ++ [b1]).map TxBuffer.origin = _
      rw [List.map_append, List.map_singleton, horigin, hown]
    · rfl
    · intro a ha
      rw [hr]
      exact List.mem_cons_of_mem b ha
    · exact ⟨rfl, rfl, rfl, rfl⟩
    · exact Disk.keepsFiles_of_inode hinode

/-- A buffer that `getBuffer` puts behind the others is the manager's own. -/
theorem getBuffer_takes {k : ℤ} {force : Bool} (hown : ∀ b ∈ m.reusableBuffers, m.Owns b)
    (h : m.getBuffer k force d = some (m', d')) :
    ∃ n, m.Takes d (List.replicate n (m.logFileName, m.mainLog)) m' d' := by
  rw [getBuffer_eq] at h
  split at h
  · have hnext := nextBuffer_takes (m := m.seekBack) hown h
    exact ⟨1, (m.seekBack_takes d).trans hnext⟩
  · cases h
    exact ⟨0, m.seekBack_takes d⟩

theorem write_takes (hown : ∀ b ∈ m.reusableBuffers, m.Owns b)
    (h : m.writeOperationToRegister op d = some (m', d')) :
    ∃ n, m.Takes d (List.replicate n (m.logFileName, m.mainLog)) m' d' := by
  rcases Option.bind_eq_some_iff.1 h with ⟨⟨m1, d1⟩, hget, hrecord⟩
  rcases getBuffer_takes hown hget with ⟨n, htakes⟩
  refine ⟨n, ?_⟩
  have h' := htakes.trans (writeRecord_takes hrecord)
  rwa [List.append_nil] at h'

theorem addBufferList_takes {buffers : List TxBuffer}
    (h : addBufferList buffers m d = some (m', d')) :
    m.Takes d (buffers.map TxBuffer.origin) m' d' := by
  induction buffers generalizing m d with
  | nil =>
    cases h
    exact Takes.refl m' d'
  | cons b buffers ih =>
    rcases Option.bind_eq_some_iff.1 h with ⟨⟨b1, m1, d1⟩, hreg, h⟩
    rcases register_counters hreg with ⟨horigin, hm1, hinode⟩
    have hadd : m.Takes d [b.origin] (m1.addBuffer b1) d1 := by
      rw [hm1]
      constructor
      · change (m.activeBuffers ++ [b1]).map TxBuffer.origin = _
        rw [List.map_append, List.map_singleton, horigin]
      · rfl
      · exact fun _ h => h
      · exact ⟨rfl, rfl, rfl, rfl⟩
      · exact Disk.keepsFiles_of_inode hinode
    exact hadd.trans (ih h)

/-! ## Reading -/

variable {parse : CString → Outcome (Option BaseExpression)} {setting : CString} {a : Answers}
variable {r : Reading} {reply : Reply} {t t' : TxBufferManager}

theorem find_takes {controller : Finder} {args : FindArgs}
    {list : Outcome (List Document)}
    (h : BaseTransaction.find parse setting controller args m d = some (list, m')) :
    m.Takes d [] m' d := by
  rcases Option.bind_eq_some_iff.1 h with ⟨⟨ops, m1⟩, hops, h⟩
  cases h
  exact findOperations_takes hops

theorem dbs_takes {dbss names : List CString} (h : BaseTransaction.dbs dbss m d = some (names, m')) :
    m.Takes d [] m' d := by
  rcases Option.bind_eq_some_iff.1 h with ⟨⟨ops, m1⟩, hops, h⟩
  cases h
  exact findOperations_takes hops

theorem namespaces_takes {nss names : List CString} {db : CString}
    (h : BaseTransaction.namespaces nss db m d = some (names, m')) : m.Takes d [] m' d := by
  rcases Option.bind_eq_some_iff.1 h with ⟨⟨ops, m1⟩, hops, h⟩
  cases h
  exact findOperations_takes hops

theorem read_takes (h : BaseTransaction.read parse setting a m d r = some (reply, m')) :
    m.Takes d [] m' d := by
  cases r with
  | find args =>
    rcases Option.bind_eq_some_iff.1 h with ⟨⟨list, m1⟩, h1, h⟩
    cases h
    exact find_takes h1
  | dbs =>
    rcases Option.bind_eq_some_iff.1 h with ⟨⟨names, m1⟩, h1, h⟩
    cases h
    exact dbs_takes h1
  | namespaces db =>
    rcases Option.bind_eq_some_iff.1 h with ⟨⟨names, m1⟩, h1, h⟩
    cases h
    exact namespaces_takes h1

theorem stdRead_takes (h : StdTransaction.read parse setting a m t d r = some (reply, m', t')) :
    m.Takes d [] m' d ∧ t.Takes d [] t' d := by
  cases r with
  | find args =>
    rcases Option.bind_eq_some_iff.1 h with ⟨⟨list, m1, t1⟩, h1, h⟩
    rcases Option.bind_eq_some_iff.1 h1 with ⟨⟨ops, t2⟩, h2, h1⟩
    rcases Option.bind_eq_some_iff.1 h1 with ⟨⟨list', m3⟩, h3, h1⟩
    cases h
    cases h1
    exact ⟨find_takes h3, findOperations_takes h2⟩
  | dbs =>
    rcases Option.bind_eq_some_iff.1 h with ⟨⟨list, m1, t1⟩, h1, h⟩
    rcases Option.bind_eq_some_iff.1 h1 with ⟨⟨ops, t2⟩, h2, h1⟩
    rcases Option.bind_eq_some_iff.1 h1 with ⟨⟨list', m3⟩, h3, h1⟩
    cases h
    cases h1
    exact ⟨dbs_takes h3, findOperations_takes h2⟩
  | namespaces db =>
    rcases Option.bind_eq_some_iff.1 h with ⟨⟨list, m1, t1⟩, h1, h⟩
    rcases Option.bind_eq_some_iff.1 h1 with ⟨⟨ops, t2⟩, h2, h1⟩
    rcases Option.bind_eq_some_iff.1 h1 with ⟨⟨list', m3⟩, h3, h1⟩
    cases h
    cases h1
    exact ⟨namespaces_takes h3, findOperations_takes h2⟩

/-! ## Taking buffers out -/

theorem pop_counters (h : m.pop = some (b, m')) :
    m'.buffersByLog = release m.buffersByLog b.fileName := by
  unfold pop at h
  split at h
  · cases h
  · cases h
    rfl

theorem popBuffers_counters {n : ℕ} {buffers : List TxBuffer}
    (h : popBuffers n m = some (buffers, m')) :
    m'.buffersByLog = releaseAll m.buffersByLog (buffers.map TxBuffer.fileName) := by
  induction n generalizing m buffers with
  | zero =>
    cases h
    rfl
  | succ n ih =>
    rcases Option.bind_eq_some_iff.1 h with ⟨⟨b, m1⟩, hpop, h⟩
    rcases Option.bind_eq_some_iff.1 h with ⟨⟨rest, m2⟩, hrest, h⟩
    cases h
    rw [ih hrest, pop_counters hpop]
    rfl

/-- `popAll` takes every buffer, each of them counted down. -/
theorem popAll_counters {buffers : List TxBuffer} (h : m.popAll = some (buffers, m')) :
    buffers = m.activeBuffers ∧ m'.activeBuffers = [] ∧
      m'.reusableBuffers = m.reusableBuffers ∧ m.SameLog m' ∧
      m'.buffersByLog = releaseAll m.buffersByLog m.activeLogs := by
  rcases m.popAll_eq with ⟨m1, hpop, hnil, hreusable, hsame⟩
  have hcounters := popBuffers_counters h
  cases h.symm.trans hpop
  exact ⟨rfl, hnil, hreusable, hsame, hcounters⟩

/-- A log is removed where its counter is at zero. -/
theorem dropBuffer_nonpos (hmain : b.mainLog = false)
    (h : value m.buffersByLog b.fileName ≤ 0) : m.dropBuffer b d =
      ({ m with buffersByLog := forget m.buffersByLog b.fileName },
        d.removeFile b.fileName) := by
  unfold value at h
  unfold dropBuffer forget
  rw [if_neg (by rw [hmain]; decide)]
  cases hc : m.buffersByLog b.fileName with
  | none =>
    have hsame : Function.update m.buffersByLog b.fileName none = m.buffersByLog := by
      rw [← hc, Function.update_eq_self]
    rw [hsame]
  | some n =>
    rw [hc] at h
    exact if_pos h

theorem dropBuffer_pos (hmain : b.mainLog = false)
    (h : 0 < value m.buffersByLog b.fileName) : m.dropBuffer b d = (m, d) := by
  unfold value at h
  unfold dropBuffer
  rw [if_neg (by rw [hmain]; decide)]
  cases hc : m.buffersByLog b.fileName with
  | none =>
    rw [hc] at h
    exact absurd h (Int.lt_irrefl 0)
  | some n =>
    rw [hc] at h
    exact if_neg (Int.not_le.2 h)

/-- The buffers of one log go together with it, and no other file goes. -/
theorem dropBufferList_removes {f : CString} {buffers : List TxBuffer}
    (hbuffers : ∀ b ∈ buffers, b.fileName = f ∧ b.mainLog = false)
    (hvalue : value m.buffersByLog f ≤ 0) :
    value (dropBufferList buffers m d).1.buffersByLog f ≤ 0 ∧
      (buffers ≠ [] → (dropBufferList buffers m d).2.inode f = none) ∧
      (∀ name ≠ f, (dropBufferList buffers m d).2.inode name = d.inode name) ∧
      (buffers = [] → (dropBufferList buffers m d).2 = d) := by
  induction buffers generalizing m d with
  | nil => exact ⟨hvalue, fun h => absurd rfl h, fun _ _ => rfl, fun _ => rfl⟩
  | cons b buffers ih =>
    have hb := hbuffers b List.mem_cons_self
    have hdrop := dropBuffer_nonpos (d := d) hb.2 (by rw [hb.1]; exact hvalue)
    rw [hb.1] at hdrop
    obtain ⟨m1, hm1⟩ : ∃ m1 : TxBufferManager,
      m1 = { m with buffersByLog := forget m.buffersByLog f } := ⟨_, rfl⟩
    have hlist : dropBufferList (b :: buffers) m d =
        dropBufferList buffers m1 (d.removeFile f) := by
      rw [dropBufferList, hdrop, hm1]
    have hvalue1 : value m1.buffersByLog f ≤ 0 := by
      rw [hm1]
      exact Int.le_of_eq value_forget
    have hrest := ih (m := m1) (d := d.removeFile f)
      (fun a ha => hbuffers a (List.mem_cons_of_mem b ha)) hvalue1
    rw [hlist]
    refine ⟨hrest.1, ?_, ?_, fun h => absurd h (List.cons_ne_nil b buffers)⟩
    · intro _
      cases buffers with
      | nil => exact d.removeFile_inode f
      | cons a buffers => exact hrest.2.1 (List.cons_ne_nil a buffers)
    · intro name hname
      rw [hrest.2.2.1 name hname]
      exact Function.update_of_ne hname _ _

/-- A step of the monitor leaves everything alone, or it takes the oldest buffer. One of the main
log is kept; the log of any other is removed where the counter says that no buffer is left. -/
theorem flushBuffer_counters (h : m.flushBuffer d = some (ops, m', d')) :
    m' = m ∧ d' = d ∨ ∃ b, m.activeBuffers = b :: m'.activeBuffers ∧ m.SameLog m' ∧
      (b.mainLog = true ∧ (∀ a ∈ m'.reusableBuffers, a ∈ m.reusableBuffers ∨ a.origin = b.origin) ∧
          m'.buffersByLog = acquire (release m.buffersByLog b.fileName) b.fileName ∧
          d'.inode = d.inode ∨
        b.mainLog = false ∧ m'.reusableBuffers = m.reusableBuffers ∧
          (value (release m.buffersByLog b.fileName) b.fileName ≤ 0 ∧
              m'.buffersByLog = forget (release m.buffersByLog b.fileName) b.fileName ∧
              d' = d.removeFile b.fileName ∨
            0 < value (release m.buffersByLog b.fileName) b.fileName ∧
              m'.buffersByLog = release m.buffersByLog b.fileName ∧ d' = d)) := by
  rcases flushBuffer_cases h with ⟨-, b, m1, b1, hpop, hdrain, hrecycle⟩ | ⟨-, hm, hd⟩
  · right
    rcases pop_eq_some hpop with ⟨hactive, hreusable, hsame⟩
    have hcounters := pop_counters hpop
    have horigin : b1.origin = b.origin := origin_of_seek (TxBuffer.drain_seek hdrain)
    have hname : b1.fileName = b.fileName := congrArg Prod.fst horigin
    have hmain : b1.mainLog = b.mainLog := congrArg Prod.snd horigin
    refine ⟨b, ?_⟩
    cases hb : b1.mainLog with
    | true =>
      rw [recycle_of_main hb] at hrecycle
      rcases Option.bind_eq_some_iff.1 hrecycle with ⟨⟨b2, m3, d3⟩, hreg, hrecycle⟩
      rcases register_counters hreg with ⟨-, hm3, hinode⟩
      cases hrecycle
      rw [hm3]
      refine ⟨hactive, hsame.trans ⟨rfl, rfl, rfl, rfl⟩, .inl ⟨hmain ▸ hb, ?_, ?_, hinode⟩⟩
      · intro a ha
        change a ∈ m1.reusableBuffers ++ [b1.reset] at ha
        rw [hreusable, List.mem_append, List.mem_singleton] at ha
        cases ha with
        | inl ha => exact .inl ha
        | inr ha =>
          right
          rw [ha]
          exact horigin
      · rw [← hcounters, ← hname]
        rfl
    | false =>
      rw [recycle_of_not_main (by rw [hb]; decide)] at hrecycle
      rw [← hcounters, ← hname]
      by_cases hvalue : value m1.buffersByLog b1.fileName ≤ 0
      · rw [dropBuffer_nonpos hb hvalue] at hrecycle
        cases hrecycle
        exact ⟨hactive, hsame.trans ⟨rfl, rfl, rfl, rfl⟩,
          .inr ⟨hmain ▸ hb, hreusable, .inl ⟨hvalue, rfl, rfl⟩⟩⟩
      · rw [Int.not_le] at hvalue
        rw [dropBuffer_pos hb hvalue] at hrecycle
        cases hrecycle
        exact ⟨hactive, hsame, .inr ⟨hmain ▸ hb, hreusable, .inr ⟨hvalue, rfl, rfl⟩⟩⟩
  · exact .inl ⟨hm, hd⟩

/-! ## Starting -/

/-- The counters of a manager that starts are missing, whatever it loads. -/
theorem new_counters {file : CString} {mainLog : Bool}
    (h : TxBufferManager.new file mainLog d = some (m, d')) :
    m.file = file ∧ m.mainLog = mainLog ∧ (m.buffersByLog = fun _ => none) ∧
      d.KeepsFiles d' := by
  cases hfile : d.inode (file.append controlSuffix) with
  | none =>
    rw [new_of_missing mainLog hfile] at h
    cases h
    exact ⟨rfl, rfl, rfl, d.createControl_keepsFiles _ _⟩
  | some i =>
    rcases new_eq_some hfile h with ⟨size, hsize, rs, h⟩
    rcases loadBuffers_eq_some h with ⟨reusable, active, d1, hreusable, hactive, hsame, hcounters⟩
    have hopen : ∀ (x : Disk) name, d.KeepsFiles x → d.KeepsFiles (x.openLog name).2 :=
      fun x name hx => hx.trans (x.openLog_keepsFiles name)
    refine ⟨hsame.file, hsame.mainLog, hcounters, ?_⟩
    exact loadBufferList_opens hopen hactive
      (loadBufferList_opens hopen hreusable (Disk.KeepsFiles.refl d))

end takes

end TxBufferManager

end Djondb
