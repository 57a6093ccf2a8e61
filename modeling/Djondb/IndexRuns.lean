import Djondb.IndexAdd

set_option autoImplicit false

/-!
# Runs of `BPlusIndexP::add`

The index that is created on a new file, and what any sequence of additions makes of it.
-/
namespace Djondb
namespace BPlusIndexP
open SearchPage SearchTree

/-! ## A new index -/

/-- The tree of a new index: one empty leaf. -/
def emptyTree : PageTree where
  live p := p = 0
  root := 0
  level _ := 0
  entries _ := []
  children _ := []
  parent _ := none
  lo _ := ⊥
  hi _ := ⊤

theorem emptyTree_inv : emptyTree.Inv Index.rank none where
  root := rfl
  root_parent := rfl
  level_le _ _ := le_rfl
  linked _ hp hne := absurd hp hne
  child _ _ _ hc := absurd hc List.not_mem_nil
  unlinked _ hx := by cases hx
  root_lo := rfl
  root_hi := rfl
  inner _ _ hl := absurd rfl hl
  sorted _ _ := List.Pairwise.nil
  within _ _ _ he := absurd he List.not_mem_nil
  separates _ hx := by cases hx

theorem emptyTree_filled : FilledFrom emptyTree 0 := fun _ hq _ hne => absurd hq hne

theorem emptyTree_no_entries (q : ℕ) (a : Index) : a ∉ emptyTree.entries q := List.not_mem_nil

/-- The index in memory before its first page is written. -/
def blank : BPlusIndexP := ⟨[IndexPage.new], 0, BufferManager.new 1, []⟩

theorem blank_page (q : ℕ) : blank.page q = IndexPage.new := by
  obtain _ | q := q <;> rfl

theorem blank_placed : blank.Placed where
  wf := BufferManager.new_wf
  count := Or.inl rfl
  place q _ := by
    rw [blank_page]
    exact Or.inl rfl
  distinct q _ r _ _ hne := by
    rw [blank_page] at hne
    exact absurd rfl hne
  control := Or.inl ⟨rfl, rfl⟩

theorem blank_represents : Represents blank emptyTree 0 where
  live p := by
    change p = 0 ↔ p < 1
    omega
  head := rfl
  height := Nat.zero_lt_one
  parent p _ := by
    rw [blank_page]
    rfl
  siblings p _ := by
    rw [blank_page]
    exact ⟨rfl, rfl⟩
  shape p _ _ := by
    rw [blank_page]
    exact IndexPage.new_shape

/-- Images of all pages and the place of the head are in the buffers. -/
structure Written (s : BPlusIndexP) (T : PageTree) : Prop where
  head : HeadSynced s
  pages : ∀ q, T.live q → Synced s q

theorem create_ready : ∃ s, create = some s ∧ Ready s emptyTree ∧ Written s emptyTree ∧
    s.keys = [] := by
  obtain ⟨i, s, hs, h⟩ := blank_placed.persistPage (p := 0) Nat.zero_lt_one
  have hr := h.represents blank_represents
  refine ⟨s, hs, ⟨emptyTree_inv, hr, h.placed, ?_⟩, ⟨?_, ?_⟩, h.keys⟩
  · rintro q rfl
    rw [h.page]
  · refine h.headSynced ?_ fun hne => absurd rfl hne
    rw [blank_page]
    exact iff_of_true rfl rfl
  · rintro q rfl
    exact h.synced_self blank_represents rfl (Nat.zero_le _) List.not_mem_nil

/-! ## Additions -/

/-- The arguments of one call of `add`. -/
structure Addition where
  key : CString
  documentId : CString
  filePos : Int64
  deriving DecidableEq

/-- The entry that `add` makes. -/
def Addition.index (a : Addition) : Index := ⟨a.key, a.documentId, a.filePos.toInt, 0⟩

def addAll (s : BPlusIndexP) : List Addition → Option BPlusIndexP
  | [] => some s
  | a :: adds => do
    let s ← s.add a.key a.documentId a.filePos.toInt
    s.addAll adds

/-- The leaves of the index hold the entries of `adds`, and no page holds any other. -/
structure Indexes (s : BPlusIndexP) (T : PageTree) (adds : List Addition) : Prop where
  ready : Ready s T
  leaves : ∀ a, T.InLeaf a ↔ ∃ x ∈ adds, a = x.index
  entries : ∀ q, T.live q → ∀ a ∈ T.entries q, ∃ x ∈ adds, a = x.index

section runs
variable {s : BPlusIndexP} {T : PageTree} {old adds : List Addition}

theorem indexes_empty (h : Ready s emptyTree) : Indexes s emptyTree [] where
  ready := h
  leaves a := by
    constructor
    · rintro ⟨q, -, -, ha⟩
      exact absurd ha (emptyTree_no_entries q a)
    · rintro ⟨x, hx, -⟩
      exact absurd hx List.not_mem_nil
  entries q _ a ha := absurd ha (emptyTree_no_entries q a)

/-- One step of a run. -/
theorem Indexes.add (h : Indexes s T old) (x : Addition) (hnew : ∀ y ∈ old, y.key ≠ x.key) :
    ∃ leaf s' T', BPlusIndexP.findIndexPage s.fuel s s.head x.key = some (s, leaf) ∧ T.live leaf ∧
      BPlusIndexP.add s x.key x.documentId x.filePos.toInt = some s' ∧ Added s T leaf x.index s' T' ∧
      Indexes s' T' (old ++ [x]) := by
  obtain ⟨leaf, s', T', hfind, hleaf, hs', h'⟩ :=
    h.ready.add x.key x.documentId x.filePos.toInt fun a ha => by
      obtain ⟨y, hy, rfl⟩ := (h.leaves a).1 ha
      exact hnew y hy
  refine ⟨leaf, s', T', hfind, hleaf, hs', h', h'.ready, fun a => ?_, fun q hq a ha => ?_⟩
  · rw [h'.leaves, h.leaves]
    constructor
    · rintro (rfl | ⟨y, hy, rfl⟩)
      · exact ⟨x, by simp, rfl⟩
      · exact ⟨y, by simp [hy], rfl⟩
    · rintro ⟨y, hy, rfl⟩
      obtain hy | hy := List.mem_append.1 hy
      · exact Or.inr ⟨y, hy, rfl⟩
      · rw [List.mem_singleton.1 hy]
        exact Or.inl rfl
  · obtain rfl | ⟨q', hq', ha'⟩ := h'.entries q hq a ha
    · exact ⟨x, by simp, rfl⟩
    · obtain ⟨y, hy, rfl⟩ := h.entries q' hq' a ha'
      exact ⟨y, by simp [hy], rfl⟩

theorem Indexes.addAll (h : Indexes s T old) (hnd : ((old ++ adds).map Addition.key).Nodup) :
    ∃ s' T', BPlusIndexP.addAll s adds = some s' ∧ Indexes s' T' (old ++ adds) ∧
      (FilledFrom T 0 → FilledFrom T' 0) := by
  induction adds generalizing s T old with
  | nil =>
    rw [List.append_nil]
    exact ⟨s, T, rfl, h, id⟩
  | cons x adds ih =>
    have hnew : ∀ y ∈ old, y.key ≠ x.key := by
      intro y hy
      rw [List.map_append, List.map_cons] at hnd
      exact (List.nodup_append.1 hnd).2.2 _ (List.mem_map_of_mem hy) _ List.mem_cons_self
    obtain ⟨leaf, s1, T1, -, -, hs1, hadded, h1⟩ := h.add x hnew
    have happ : old ++ x :: adds = (old ++ [x]) ++ adds := by simp
    rw [happ] at hnd ⊢
    obtain ⟨s', T', hs', h', hfilled⟩ := ih h1 hnd
    exact ⟨s', T', by rw [BPlusIndexP.addAll, hs1, Option.bind_eq_bind, Option.bind_some, hs'], h',
      fun hT => hfilled (hadded.filled hT)⟩

/-- Two additions with the same key are one. -/
theorem addition_eq_of_key (hnd : (adds.map Addition.key).Nodup) {x y : Addition} (hx : x ∈ adds)
    (hy : y ∈ adds) (hkey : x.key = y.key) : x = y :=
  List.inj_on_of_nodup_map hnd hx hy hkey

/-- What was found is the addition with the key, if there is one. -/
theorem Indexes.foundEntry (h : Indexes s T adds) (hnd : (adds.map Addition.key).Nodup)
    {key : CString} {r : Option Index} (hfound : FoundEntry T key r) :
    (∀ x ∈ adds, x.key = key → r = some x.index) ∧ ((∀ x ∈ adds, x.key ≠ key) → r = none) := by
  obtain _ | e := r
  · refine ⟨fun x hx hxk => ?_, fun _ => rfl⟩
    exact absurd hxk (hfound x.index ((h.leaves _).2 ⟨x, hx, rfl⟩))
  · obtain ⟨hek, p, hp, he⟩ := hfound
    obtain ⟨y, hy, rfl⟩ := h.entries p hp e he
    refine ⟨fun x hx hxk => ?_, fun hnone => absurd hek (hnone y hy)⟩
    rw [addition_eq_of_key hnd hy hx (hek.trans hxk.symm)]

end runs

/-- A key of one character. -/
def charKey (n : ℕ) : CString where
  bytes := [UInt8.ofNat (n % 255 + 1)]
  noNul h := by
    have h0 := congrArg UInt8.toNat (List.mem_singleton.1 h)
    simp at h0
    omega

def charAddition (n : ℕ) : Addition := ⟨charKey n, charKey n, Int64.ofNat n⟩

end BPlusIndexP
end Djondb
