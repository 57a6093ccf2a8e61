import Djondb.BufferTable

set_option autoImplicit false

/-!
# Which buffer is current

`getCurrentBuffer` asks for bytes. `spaceLeft` takes the length of a buffer in bytes off its length
in pages.
-/
namespace Djondb

/-- The bytes before its end that are unwritten, if the writes to the buffer have come to
`furthest`. -/
def TableBuffer.room (b : TableBuffer) (furthest : ℤ) : ℤ := b.maxLength * pageSize - furthest

namespace BufferTable
variable (t : BufferTable) (minimumSize furthest : ℤ)

/-- `getCurrentBuffer` returns the buffer that was current. -/
def Keeps : Prop := t.getCurrentBuffer minimumSize false = t.seekBack

/-- The buffer that is returned has the room, and another one is taken only if the current one has
not. A buffer that is taken is empty. -/
structure Selects : Prop where
  kept : t.Keeps minimumSize →
    ∃ b, t.current = some b ∧ minimumSize ≤ b.room furthest
  taken : ¬ t.Keeps minimumSize →
    ∃ b, (t.getCurrentBuffer minimumSize false).current = some b ∧ minimumSize ≤ b.room 0
  keeps : ∀ b, t.current = some b → minimumSize ≤ b.room furthest → t.Keeps minimumSize

theorem registerBufferControlFile_last (newBuffer : Bool) {bs : List TableBuffer} {b : TableBuffer}
    (h : t.activeBuffers = bs ++ [b]) :
    ∃ b', (t.registerBufferControlFile newBuffer).activeBuffers = bs ++ [b'] ∧
      b'.maxLength = b.maxLength := by
  unfold registerBufferControlFile
  rw [h, List.getLast?_concat]
  cases newBuffer with
  | true => exact ⟨_, (congrArg (mapBack _) h).trans (mapBack_concat _ _ _), rfl⟩
  | false => exact ⟨_, (congrArg (mapBack _) h).trans (mapBack_concat _ _ _), rfl⟩

/-- New or reused, the buffer that is taken comes last and has all its pages. -/
theorem nextBuffer_last : ∃ b, t.nextBuffer.activeBuffers = t.activeBuffers ++ [b] ∧
    b.maxLength = t.buffersSize.tdiv pageSize := by
  unfold nextBuffer
  split
  · exact registerBufferControlFile_last _ true (t.addBuffer_seek t.createNewBuffer)
  · next b rest heq =>
    have hlen := t.reusable_sized b (heq ▸ List.mem_cons_self)
    dsimp only
    rcases registerBufferControlFile_last _ false (addBuffer_seek _ b.reset) with ⟨b', hb', hmax⟩
    exact ⟨b', hb', hmax.trans hlen⟩

variable {t minimumSize furthest}

theorem current_seekBack : t.seekBack.current = t.current.map fun b => b.seek b.currentPos :=
  getLast?_mapBack _ _

theorem exhausted_seekBack : t.seekBack.exhausted minimumSize = t.exhausted minimumSize := by
  unfold exhausted
  rw [current_seekBack]
  cases t.current <;> rfl

theorem getCurrentBuffer_of_exhausted (h : t.exhausted minimumSize = true) :
    t.getCurrentBuffer minimumSize false = t.seekBack.nextBuffer := by
  unfold getCurrentBuffer
  dsimp only
  rw [exhausted_seekBack, h]
  rfl

theorem getCurrentBuffer_of_room (h : t.exhausted minimumSize = false) :
    t.getCurrentBuffer minimumSize false = t.seekBack := by
  unfold getCurrentBuffer
  dsimp only
  rw [exhausted_seekBack, h]
  rfl

theorem keeps_iff : t.Keeps minimumSize ↔ t.exhausted minimumSize = false := by
  constructor
  · intro hkeeps
    by_contra hne
    have hexhausted := Bool.eq_true_of_not_eq_false hne
    unfold Keeps at hkeeps
    rw [getCurrentBuffer_of_exhausted hexhausted] at hkeeps
    rcases t.seekBack.nextBuffer_last with ⟨b, hb, -⟩
    have hlen := congrArg List.length ((congrArg activeBuffers hkeeps).symm.trans hb)
    rw [List.length_append, List.length_singleton] at hlen
    omega
  · exact getCurrentBuffer_of_room

theorem keeps_iff_spaceLeft {b : TableBuffer} (h : t.current = some b) :
    t.Keeps minimumSize ↔ minimumSize ≤ b.spaceLeft := by
  rw [keeps_iff]
  unfold exhausted
  rw [h]
  exact decide_eq_false_iff_not.trans Int.not_lt

theorem selects_iff_spaceLeft (hsize : minimumSize ≤ t.buffersSize.tdiv pageSize * pageSize) :
    t.Selects minimumSize furthest ↔ ∀ b, t.current = some b →
      (minimumSize ≤ b.spaceLeft ↔ minimumSize ≤ b.room furthest) := by
  constructor
  · intro h b hb
    constructor
    · intro hspace
      rcases h.kept ((keeps_iff_spaceLeft hb).2 hspace) with ⟨b', hb', hroom⟩
      cases hb.symm.trans hb'
      exact hroom
    · intro hroom
      exact (keeps_iff_spaceLeft hb).1 (h.keeps b hb hroom)
  · intro h
    constructor
    · intro hkeeps
      cases hb : t.current with
      | none =>
        have hroom := keeps_iff.1 hkeeps
        unfold exhausted at hroom
        rw [hb] at hroom
        cases hroom
      | some b => exact ⟨b, rfl, (h b hb).1 ((keeps_iff_spaceLeft hb).1 hkeeps)⟩
    · intro htaken
      have hexhausted := Bool.eq_true_of_not_eq_false (mt keeps_iff.2 htaken)
      rw [getCurrentBuffer_of_exhausted hexhausted]
      rcases t.seekBack.nextBuffer_last with ⟨b, hb, hlen⟩
      refine ⟨b, ?_, ?_⟩
      · unfold current
        rw [hb]
        exact List.getLast?_concat
      · unfold TableBuffer.room
        rw [hlen]
        change minimumSize ≤ t.buffersSize.tdiv pageSize * pageSize - 0
        omega
    · intro b hb hroom
      exact (keeps_iff_spaceLeft hb).2 ((h b hb).2 hroom)

/-- The buffer is picked as it should be exactly if there is none yet, or what the pages of the
current one leave when its bytes are taken off is enough where its room is. -/
theorem selects_iff (t : BufferTable) {minimumSize furthest : ℤ}
    (hsize : minimumSize ≤ t.buffersSize.tdiv pageSize * pageSize) :
    t.Selects minimumSize furthest ↔ ∀ b, t.current = some b →
      (minimumSize ≤ (b.maxLength - b.bufferLength).bmod (2 ^ 32) ↔
        minimumSize ≤ b.maxLength * pageSize - furthest) :=
  selects_iff_spaceLeft hsize

/-- A manager of ten pages and its first buffer. -/
def tenPages : BufferTable :=
  (new ⟨[116, 101, 115, 116], by decide⟩ (by decide) 10).getCurrentBuffer 1000 false

/-- Where no more bytes are asked for than there are pages, an empty buffer is kept. -/
theorem small_selects : tenPages.Selects 8 0 := by
  apply (selects_iff tenPages (by decide)).2
  intro b hb
  cases hb
  decide

/-- An empty buffer of ten pages is left for a thousand bytes. -/
theorem not_selects : ¬ ∀ (t : BufferTable) (minimumSize furthest : ℤ),
    minimumSize ≤ t.buffersSize.tdiv pageSize * pageSize → t.Selects minimumSize furthest := by
  intro h
  have hsize : 1000 ≤ tenPages.buffersSize.tdiv pageSize * pageSize := by decide
  have hspace := (selects_iff_spaceLeft hsize).1 (h tenPages 1000 0 hsize) _ rfl
  exact absurd (hspace.2 (by decide)) (by decide)

end BufferTable
end Djondb
