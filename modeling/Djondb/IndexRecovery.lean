import Djondb.IndexReopen

set_option autoImplicit false

/-!
# What a reopened index finds

Images and pages stay in step as long as no split leaves a page and its new neighbour under
different parents. Otherwise a page is written before one of its children has a place.
-/
namespace Djondb
namespace BPlusIndexP
open Bytes SearchPage SearchTree

/-! ## Splits that tear a page from its neighbour -/

/-- Whether some page from `p` upwards is the last one that a full parent keeps when it splits. -/
def splitsApart : ℕ → BPlusIndexP → ℕ → Bool
  | 0, _, _ => false
  | n + 1, s, p =>
    match (s.page p).parentElement with
    | none => false
    | some parent => (s.page parent).isFull &&
        (decide ((s.page parent).pointer (IndexPage.midPoint + 1) = some p) ||
          splitsApart n s parent)

/-- Whether `add` splits a leaf and one of the splits tears a page from its new neighbour. -/
def tearsApart (s : BPlusIndexP) (key : CString) : Bool :=
  match findIndexPage s.fuel s s.head key with
  | some (s, leaf) => (s.page leaf).isFull && splitsApart s.fuel s leaf
  | none => false

theorem Ready.splitsApart_of_apart {s : BPlusIndexP} {T : PageTree} (h : Ready s T) {p : ℕ}
    (hp : T.live p) (ha : Apart T p) (n : ℕ) (hn : T.level T.root ≤ T.level p + n) :
    splitsApart n s p = true := by
  induction n generalizing p with
  | zero =>
    have hparent : ∀ {P}, T.parent p = some P → False := fun hP => by
      obtain ⟨hPl, -, hlevel⟩ := h.inv.parent_live hp (by simp) hP
      have hle := h.inv.level_le _ hPl
      omega
    cases ha with
    | here hP _ _ => exact (hparent hP).elim
    | above hP _ _ => exact (hparent hP).elim
  | succ n ih =>
    have hfull : ∀ {P}, T.live P → (T.entries P).length = BUCKET_MAX_ELEMENTS →
        (s.page P).isFull = true := fun hP hlen => by
      rw [(h.shape hP).isFull_eq, hlen]
      decide
    cases ha with
    | @here _ P hP hlen hslot =>
      obtain ⟨hPl, -, -⟩ := h.inv.parent_live hp (by simp) hP
      have hpar : (s.page p).parentElement = some P := (h.represents.parent p hp).trans hP
      simp [splitsApart, hpar, hfull hPl hlen, (h.shape hPl).pointer_eq, hslot]
    | @above _ P hP hlen ha =>
      obtain ⟨hPl, -, hlevel⟩ := h.inv.parent_live hp (by simp) hP
      have hpar : (s.page p).parentElement = some P := (h.represents.parent p hp).trans hP
      simp [splitsApart, hpar, hfull hPl hlen, ih hPl ha (by omega)]

/-! ## Runs that keep images and pages in step -/

/-- No step of the run tears pages apart, and all images fit their buffers. -/
def keepsImages (s : BPlusIndexP) : List Addition → Bool
  | [] => s.fits
  | a :: adds => s.fits && !s.tearsApart a.key &&
      (s.add a.key a.documentId a.filePos.toInt).any (fun s => s.keepsImages adds)

theorem Added.written {s s' : BPlusIndexP} {T T' : PageTree} {leaf : ℕ} {e : Index}
    (h : Ready s T) (hleaf : T.live leaf) (hw : Written s T) (ha : Added s T leaf e s' T')
    (hfind : BPlusIndexP.findIndexPage s.fuel s s.head e.key = some (s, leaf))
    (hsafe : s.tearsApart e.key = false) : Written s' T' := by
  refine ⟨ha.headSynced hw.head, ha.synced (fun hlen hapart => ?_) hw.pages⟩
  have hfull : (s.page leaf).isFull = true := by
    rw [(h.shape hleaf).isFull_eq, hlen]
    decide
  have hsplits := h.splitsApart_of_apart hleaf hapart s.fuel
    (h.root_lt_fuel.le.trans (Nat.le_add_left _ _))
  rw [tearsApart, hfind] at hsafe
  simp [hfull, hsplits] at hsafe

theorem Indexes.addAll_written {s : BPlusIndexP} {T : PageTree} {old adds : List Addition}
    (h : Indexes s T old) (hw : Written s T) (hnd : ((old ++ adds).map Addition.key).Nodup)
    (hsafe : s.keepsImages adds = true) :
    ∃ s' T', s.addAll adds = some s' ∧ Indexes s' T' (old ++ adds) ∧ Written s' T' ∧
      s'.fits = true := by
  induction adds generalizing s T old with
  | nil =>
    rw [List.append_nil]
    exact ⟨s, T, rfl, h, hw, hsafe⟩
  | cons x adds ih =>
    have hnew : ∀ y ∈ old, y.key ≠ x.key := by
      intro y hy
      rw [List.map_append, List.map_cons] at hnd
      exact (List.nodup_append.1 hnd).2.2 _ (List.mem_map_of_mem hy) _ List.mem_cons_self
    obtain ⟨leaf, s1, T1, hfind, hleaf, hs1, ha, h1⟩ := h.add x hnew
    rw [keepsImages, hs1, Bool.and_eq_true, Bool.and_eq_true, Bool.not_eq_true', Option.any_some]
      at hsafe
    obtain ⟨⟨-, htear⟩, hrest⟩ := hsafe
    have hw1 := Added.written h.ready hleaf hw ha hfind htear
    have happ : old ++ x :: adds = (old ++ [x]) ++ adds := by simp
    rw [happ] at hnd ⊢
    obtain ⟨s', T', hs', h'⟩ := ih h1 hw1 hnd hrest
    exact ⟨s', T', by rw [BPlusIndexP.addAll, hs1, Option.bind_eq_bind, Option.bind_some, hs'], h'⟩

theorem Indexes.reloadable {s : BPlusIndexP} {T : PageTree} {adds : List Addition}
    (h : Indexes s T adds) (hw : Written s T) (hfits : s.fits = true) : Reloadable s T := by
  refine ⟨h.ready, hw, hfits, fun q hq e he => ?_⟩
  obtain ⟨x, -, rfl⟩ := h.entries q hq e he
  exact ⟨⟨Int64.le_toInt _, Int64.toInt_lt _⟩, (by decide : Word 8 0)⟩

/-! ## Lookups -/

/-- A series of lookups; each one may load pages. -/
def findAll (s : BPlusIndexP) : List CString → Option BPlusIndexP
  | [] => some s
  | key :: keys => do
    let (s, _) ← s.find key
    s.findAll keys

theorem Mirrors.findAll {s : BPlusIndexP} {T : PageTree} (h : Reloadable s T) {r : BPlusIndexP}
    (hm : Mirrors s T r) (keys : List CString) : ∃ r', r.findAll keys = some r' ∧ Mirrors s T r' := by
  induction keys generalizing r with
  | nil => exact ⟨r, rfl, hm⟩
  | cons key keys ih =>
    obtain ⟨r1, e, hr1, hm1, -⟩ := hm.find h key
    obtain ⟨r', hr', hm'⟩ := ih hm1
    refine ⟨r', ?_, hm'⟩
    rw [BPlusIndexP.findAll, hr1]
    exact hr'

/-- Additions in ascending order, and three more: the last one splits a leaf whose parent is full
and keeps it as its last page. -/
def tornAdditions : List Addition :=
  ((List.range 18).map (4 * ·) ++ [25, 26, 27]).map charAddition

/-- What an index finds for `key` when it is opened again after `adds`. -/
def reopenedFind (adds : List Addition) (key : CString) : Option (Option Index) := do
  let s ← create
  let s ← s.addAll adds
  let r ← s.reopen
  let (_, e) ← r.find key
  some e

theorem reopenedFind_torn : reopenedFind tornAdditions (charKey 25) = some none := by
  decide +kernel

end BPlusIndexP
end Djondb
