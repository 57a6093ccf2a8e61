import Djondb.FindDuringFlush

set_option autoImplicit false

/-!
# What the monitor delivers

Operations come to the store once each and in the order of the log, whatever happens between the
monitor's steps. The monitor by itself brings everything there but the last buffer; a commit puts
an empty buffer behind its operations, so that nothing waits after it.
-/
namespace Djondb
open Bytes

theorem Controller.performAll_split {σ : Type} (c : Controller σ) {store store' : σ}
    {ops ops' : List TransactionOperation} (h : c.performAll store (ops ++ ops') = some store') :
    ∃ store1, c.performAll store ops = some store1 ∧ c.performAll store1 ops' = some store' := by
  unfold Controller.performAll at h
  rw [List.foldlM_append] at h
  exact Option.bind_eq_some_iff.1 h

namespace Monitored
open TxBufferManager
variable {σ : Type}

/-- The steps of the monitor alone, with the operations that they apply. -/
inductive Flushes (c : Controller σ) : Monitored σ → List TransactionOperation → Monitored σ → Prop
  | stop {s} : Flushes c s [] s
  | pop {s s' ops b m2} : s.taken = none → 1 < s.manager.buffersCount →
    s.manager.pop = some (b, m2) →
    Flushes c { s with manager := m2, taken := some (b.acquireLock.seek 0) } ops s' →
    Flushes c s ops s'
  | apply {s s' ops b b2 store2} (op : TransactionOperation) : s.taken = some b →
    b.readOperationFromRegister s.disk none none = some (some op, b2) →
    c.perform s.store op = some store2 →
    Flushes c { s with store := store2, taken := some b2 } ops s' → Flushes c s (op :: ops) s'
  | recycle {s s' ops b b2 m2 d2} : s.taken = some b →
    b.readOperationFromRegister s.disk none none = some (none, b2) →
    s.manager.recycle b2 s.disk = some (m2, d2) →
    Flushes c { s with manager := m2, disk := d2, taken := none } ops s' → Flushes c s ops s'

section flushes
variable {c : Controller σ} {s s' s1 : Monitored σ}
variable {rest ops ops' : List TransactionOperation} {opss : List (List TransactionOperation)}

theorem Flushes.trans (h : Flushes c s ops s1) (h' : Flushes c s1 ops' s') :
    Flushes c s (ops ++ ops') s' := by
  induction h with
  | stop => exact h'
  | pop hidle hcount hpop _ ih => exact .pop hidle hcount hpop (ih h')
  | apply op htaken hread hperform _ ih => exact .apply op htaken hread hperform (ih h')
  | recycle htaken hread hrecycle _ ih => exact .recycle htaken hread hrecycle (ih h')

/-- They are steps among others. -/
theorem Flushes.run (h : Flushes c s ops s') {s0 : Monitored σ}
    {written applied : List TransactionOperation} (hrun : Run c s0 written applied s) :
    Run c s0 written (applied ++ ops) s' := by
  induction h generalizing applied with
  | stop =>
    rw [List.append_nil]
    exact hrun
  | pop hidle hcount hpop _ ih => exact ih (hrun.pop hidle hcount hpop)
  | @apply s1 s2 ops1 b b2 store2 op htaken hread hperform _ ih =>
    have h2 := ih (hrun.apply op htaken hread hperform)
    rw [List.append_assoc] at h2
    exact h2
  | recycle htaken hread hrecycle _ ih => exact ih (hrun.recycle htaken hread hrecycle)

/-- The buffer that has been taken is finished. -/
theorem Holds.finish {b : TxBuffer} {store' : σ} (h : s.Holds rest opss) (htaken : s.taken = some b)
    (hperform : c.performAll s.store rest = some store') :
    ∃ s', Flushes c s rest s' ∧ s'.Holds [] opss ∧ s'.taken = none ∧ s'.store = store' := by
  induction rest generalizing s b with
  | nil =>
    cases hperform
    have hb := h.taken
    rw [htaken] at hb
    have hread : b.readOperationFromRegister s.disk none none = some (none, b) := by
      rw [TxBuffer.readOperationFromRegister, if_pos (hb.ahead.eof.2 rfl)]
    rcases Option.isSome_iff_exists.1 h.control with ⟨i, hc⟩
    rcases recycle_eq hc b s.disk with ⟨m2, d2, hrecycle, -⟩
    exact ⟨_, .recycle htaken hread hrecycle .stop, (h.recycle htaken hread hrecycle).1, rfl, rfl⟩
  | cons op rest ih =>
    unfold Controller.performAll at hperform
    rw [List.foldlM_cons] at hperform
    rcases Option.bind_eq_some_iff.1 hperform with ⟨store1, hop, hrest⟩
    have hb := h.taken
    rw [htaken] at hb
    have hread := hb.ahead.read none none
    rw [select_all] at hread
    rcases h.apply htaken hread with ⟨rest2, h2, heq⟩
    cases heq
    rcases ih h2 rfl hrest with ⟨s', hflushes, hholds, hidle, hstore⟩
    exact ⟨s', .apply op htaken hread hop hflushes, hholds, hidle, hstore⟩

theorem Holds.popFirst {ops : List TransactionOperation} (h : s.Holds [] (ops :: opss))
    (hidle : s.taken = none) (hne : opss ≠ []) :
    ∃ b m2, 1 < s.manager.buffersCount ∧ s.manager.pop = some (b, m2) ∧
      Holds { s with manager := m2, taken := some (b.acquireLock.seek 0) } ops opss := by
  rcases List.forall₂_cons_right_iff.1 h.contents.logs with ⟨b, buffers, hb, hrest, hactive⟩
  rcases pop_of_cons hactive with ⟨m2, hpop, hactive2, -⟩
  rcases h.pop hidle hpop with ⟨_, _, h2, -⟩
  refine ⟨b, m2, ?_, hpop, ⟨?_, h2.contents.reusable⟩, h2.atEnd, h2.control, [],
    hb.congr rfl rfl rfl rfl, rfl⟩
  · have hlength := hrest.length_eq
    have hpos := List.length_pos_of_ne_nil hne
    rw [s.manager.counted, hactive, List.length_cons]
    omega
  · change List.Forall₂ _ m2.activeBuffers opss
    rw [hactive2]
    exact hrest

/-- All buffers but the last are emptied into the store, the oldest first. -/
theorem Holds.drain {last : List TransactionOperation} {store' : σ}
    (h : s.Holds [] (opss ++ [last])) (hidle : s.taken = none)
    (hperform : c.performAll s.store opss.flatten = some store') :
    ∃ s', Flushes c s opss.flatten s' ∧ s'.Holds [] [last] ∧ s'.taken = none ∧
      s'.store = store' := by
  induction opss generalizing s with
  | nil =>
    cases hperform
    exact ⟨s, .stop, h, hidle, rfl⟩
  | cons ops opss ih =>
    rcases c.performAll_split hperform with ⟨store1, hfirst, hrest⟩
    rcases h.popFirst hidle (List.append_ne_nil_of_right_ne_nil _ (List.cons_ne_nil _ _)) with
      ⟨b, m2, hcount, hpop, hpopped⟩
    rcases hpopped.finish rfl hfirst with ⟨s1, hflushes1, h1, hidle1, rfl⟩
    rcases ih h1 hidle1 hrest with ⟨s', hflushes, hholds, hidle', hstore⟩
    exact ⟨s', .pop hidle hcount hpop (hflushes1.trans hflushes), hholds, hidle', hstore⟩

theorem Holds.drainAll {last : List TransactionOperation} {store' : σ}
    (h : s.Holds rest (opss ++ [last]))
    (hperform : c.performAll s.store (rest ++ opss.flatten) = some store') :
    ∃ s', Flushes c s (rest ++ opss.flatten) s' ∧ s'.Holds [] [last] ∧ s'.taken = none ∧
      s'.store = store' := by
  rcases c.performAll_split hperform with ⟨store1, hrest, hopss⟩
  cases htaken : s.taken with
  | none =>
    have hnil := h.taken
    rw [htaken] at hnil
    cases hnil
    cases hrest
    exact h.drain htaken hopss
  | some b =>
    rcases h.finish htaken hrest with ⟨s1, hflushes1, h1, hidle1, rfl⟩
    rcases h1.drain hidle1 hopss with ⟨s', hflushes, hend⟩
    exact ⟨s', hflushes1.trans hflushes, hend⟩

end flushes

end Monitored
end Djondb
