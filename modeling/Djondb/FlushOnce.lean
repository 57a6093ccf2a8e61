import Djondb.LogAppends

set_option autoImplicit false

/-!
# One step of the monitor

`flushBuffer` on a manager with several active buffers: what it hands to the controller, and what
becomes of the other buffers and of the one that it has taken.
-/
namespace Djondb
namespace TxBufferManager

section flush
variable {m : TxBufferManager} {d : Disk} {i : ℕ}

/-- The oldest of several buffers is emptied into the controller, in the order in which its
operations were written; the others stay as they are. With fewer buffers nothing happens. -/
theorem flushBuffer_applies_once (hc : m.controlFile = some i) :
    (∀ b rest ops, m.activeBuffers = b :: rest → rest ≠ [] → b.Logs d ops →
      ∃ m' d', m.flushBuffer d = some (ops, m', d') ∧ m'.activeBuffers = rest ∧
        (∀ other ops', TxBuffer.Logs other d ops' → other.Logs d' ops') ∧
        (b.mainLog = true → m'.reusableBuffers = m.reusableBuffers ++ [b.reset] ∧
          b.reset.bufferLength = 0) ∧
        (b.mainLog = false → m'.reusableBuffers = m.reusableBuffers)) ∧
    (m.activeBuffers.length < 2 → m.flushBuffer d = some ([], m, d)) := by
  constructor
  · intro b rest ops hactive hne hlogs
    have hcount : 1 < m.buffersCount := by
      have hpos := List.length_pos_of_ne_nil hne
      rw [m.counted, hactive, List.length_cons]
      omega
    obtain ⟨m1, hpop, hactive1, hreusable1, hsame⟩ := pop_of_cons hactive
    obtain ⟨b', hdrain, hreset⟩ := hlogs.drain
    have hflush : ∀ m' d', m1.recycle b' d = some (m', d') →
        m.flushBuffer d = some (ops, m', d') := by
      intro m' d' hrecycle
      exact (flushBuffer_of_many hcount).2 ⟨b, m1, b', hpop, hdrain, hrecycle⟩
    have hmain : b'.mainLog = b.mainLog := by
      change b'.reset.mainLog = b.reset.mainLog
      rw [hreset]
    cases hb : b.mainLog with
    | true =>
      obtain ⟨m', d', hrecycle, hactive2, hreusable2, -, hkeeps⟩ :=
        recycle_main (hsame.controlFile_eq hc) (hmain.trans hb) d
      rw [hreusable1, hreset] at hreusable2
      refine ⟨m', d', hflush m' d' hrecycle, hactive2.trans hactive1,
        fun other ops' h => h.keeps hkeeps, fun _ => ⟨hreusable2, rfl⟩, ?_⟩
      intro hfalse
      cases hfalse
    | false =>
      obtain ⟨m', d', hrecycle, hactive2, hreusable2, -, hkeeps⟩ :=
        recycle_other (hmain.trans hb) m1 d
      refine ⟨m', d', hflush m' d' hrecycle, hactive2.trans hactive1,
        fun other ops' h => h.keeps hkeeps, ?_, fun _ => hreusable2.trans hreusable1⟩
      intro htrue
      cases htrue
  · intro hfew
    exact flushBuffer_of_few (by rw [m.counted]; omega)

/-- A main log with one operation and, after a commit, an empty buffer behind it. -/
theorem flushBuffer_applies_one : ∃ m d m' t' d' m'' d'',
    (start mainFile true 0 defaultBufferSize (by decide)).writeOperationToRegister
      (removal (letters 1)) emptyDisk = some (m, d) ∧
    StdTransaction.commit m (start (letters 1) false 1 defaultBufferSize (by decide)) d =
      some (m', t', d') ∧
    m'.flushBuffer d' = some ([removal (letters 1)], m'', d'') := by
  have hclear : (start mainFile true 0 defaultBufferSize (by decide)).Clear
      (removal (letters 1)) emptyDisk := ⟨by decide, by decide, by decide⟩
  obtain ⟨p, m, d, hwrite, -, hm, -, hsame⟩ := (start_contents mainFile true 0 defaultBufferSize
    (by decide) emptyDisk).writeNew rfl (exhausted_of_nil rfl) hclear
  obtain ⟨m', t', d', hcommit, hm', -, hsame', -⟩ := hm.commit (hsame.controlFile_eq rfl)
    (start_contents (letters 1) false 1 defaultBufferSize (by decide) d)
  obtain ⟨b, rest, hb, hrest, hactive⟩ := List.forall₂_cons_right_iff.1 hm'.logs
  have hne : rest ≠ [] := by
    rintro rfl
    exact absurd hrest.length_eq (by simp)
  obtain ⟨m'', d'', hflush, -⟩ := (flushBuffer_applies_once
    (hsame'.controlFile_eq (hsame.controlFile_eq rfl))).1 b rest _ hactive hne hb
  exact ⟨m, d, m', t', d', m'', d'', hwrite, hcommit, hflush⟩

end flush

end TxBufferManager
end Djondb
