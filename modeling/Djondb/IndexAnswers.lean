import Djondb.IndexRuns
import Djondb.IndexUpdate

set_option autoImplicit false

/-!
# Updates as `find` sees them

`update` changes the leaf entry of a key, and `find` returns the first entry on its way down. They
meet at one entry unless a split has put a copy of it on an inner page.
-/
namespace Djondb
namespace BPlusIndexP
open SearchPage SearchTree

/-- A call that changes the index. -/
inductive Call where
  | add (addition : Addition)
  | update (key : CString) (filePos : Int64)
  deriving DecidableEq

/-- The entry that each key has. -/
abbrev Expected := CString → Option Index

namespace Call

def after (f : Expected) : Call → Expected
  | add addition => Function.update f addition.key (some addition.index)
  | update key filePos =>
    Function.update f key ((f key).map fun e => { e with posData := filePos.toInt })

/-- What the call returns; `add` returns nothing. -/
def answer (f : Expected) : Call → Bool
  | add _ => true
  | update key _ => (f key).isSome

/-- An addition uses a key that has no entry yet. -/
def fresh (f : Expected) : Call → Bool
  | add addition => (f addition.key).isNone
  | update _ _ => true

def freshAll (f : Expected) : List Call → Bool
  | [] => true
  | c :: calls => c.fresh f && freshAll (c.after f) calls

end Call

def perform (s : BPlusIndexP) : Call → Option (BPlusIndexP × Bool)
  | .add addition =>
    (s.add addition.key addition.documentId addition.filePos.toInt).map fun s => (s, true)
  | .update key filePos => s.update key filePos.toInt

/-- Every search finds what is expected, in this state and after each of the calls, and each call
returns what it should. -/
def Visible (s : BPlusIndexP) (f : Expected) : List Call → Prop
  | [] => ∀ key, s.find key = some (s, f key)
  | c :: calls => (∀ key, s.find key = some (s, f key)) ∧
    ∃ s', s.perform c = some (s', c.answer f) ∧ Visible s' (c.after f) calls

/-- The copies of the entry with the key on inner pages. -/
def innerEntriesWith (s : BPlusIndexP) (key : CString) : List Index :=
  ((s.pages.filter fun page => !page.isLeaf).flatMap fun page =>
    page.elements.filterMap id).filter fun e => e.key = key

/-- No copy of the entry carries another position than the one it is given. -/
def carries (s : BPlusIndexP) : Call → Bool
  | .add _ => true
  | .update key filePos => (s.innerEntriesWith key).all fun e => e.posData = filePos.toInt

def carriesAll (s : BPlusIndexP) : List Call → Bool
  | [] => true
  | c :: calls => s.carries c && match s.perform c with
    | some (s', _) => s'.carriesAll calls
    | none => true

/-- The leaves hold what is expected, and no page holds anything else. -/
structure Answers (s : BPlusIndexP) (T : PageTree) (f : Expected) : Prop where
  ready : Ready s T
  keyed : ∀ key e, f key = some e → e.key = key
  leaves : ∀ a, T.InLeaf a ↔ f a.key = some a
  entries : ∀ q, T.live q → ∀ a ∈ T.entries q, f a.key = some a

section answers
variable {s : BPlusIndexP} {T : PageTree} {f : Expected}

theorem answers_empty (h : Ready s emptyTree) : Answers s emptyTree fun _ => none where
  ready := h
  keyed _ _ he := by cases he
  leaves a := by
    constructor
    · rintro ⟨q, -, -, ha⟩
      exact absurd ha (emptyTree_no_entries q a)
    · intro ha
      cases ha
  entries q _ a ha := absurd ha (emptyTree_no_entries q a)

theorem Answers.find (h : Answers s T f) (key : CString) : s.find key = some (s, f key) := by
  rcases h.ready.find key with ⟨r, hr, hfound⟩
  rw [hr]
  cases r with
  | none =>
    cases hf : f key with
    | none => rfl
    | some e =>
      have hek := h.keyed key e hf
      exact absurd hek (hfound e ((h.leaves e).2 (hek ▸ hf)))
  | some e =>
    rcases hfound with ⟨hek, p, hp, he⟩
    rw [← hek, h.entries p hp e he]

theorem Answers.add (h : Answers s T f) (x : Addition) (hnew : f x.key = none) :
    ∃ s' T', s.add x.key x.documentId x.filePos.toInt = some s' ∧
      Answers s' T' (Function.update f x.key (some x.index)) := by
  have habsent : ∀ a, T.InLeaf a → a.key ≠ x.key := by
    intro a ha hak
    have hfa := (h.leaves a).1 ha
    rw [hak, hnew] at hfa
    cases hfa
  rcases h.ready.add x.key x.documentId x.filePos.toInt habsent with
    ⟨leaf, s', T', -, -, hadd, hadded⟩
  refine ⟨s', T', hadd, hadded.ready, ?_, ?_, ?_⟩
  · intro key e he
    by_cases hkey : key = x.key
    · rw [hkey, Function.update_self] at he
      cases he
      exact hkey.symm
    · rw [Function.update_of_ne hkey] at he
      exact h.keyed key e he
  · intro a
    rw [hadded.leaves, h.leaves]
    by_cases hkey : a.key = x.key
    · rw [hkey, Function.update_self, hnew]
      constructor
      · rintro (rfl | ha)
        · rfl
        · cases ha
      · intro ha
        exact Or.inl (Option.some.inj ha).symm
    · rw [Function.update_of_ne hkey]
      constructor
      · rintro (rfl | ha)
        · exact absurd rfl hkey
        · exact ha
      · exact Or.inr
  · intro q hq a ha
    rcases hadded.entries q hq a ha with rfl | ⟨q', hq', ha'⟩
    · exact Function.update_self _ _ _
    · have hfa := h.entries q' hq' a ha'
      have hkey : a.key ≠ x.key := by
        intro hkey
        rw [hkey, hnew] at hfa
        cases hfa
      rw [Function.update_of_ne hkey]
      exact hfa

/-! ### Updates -/

theorem mem_innerEntriesWith (h : Ready s T) {key : CString} {e : Index} :
    e ∈ s.innerEntriesWith key ↔
      e.key = key ∧ ∃ q, T.live q ∧ T.level q ≠ 0 ∧ e ∈ T.entries q := by
  have hpage : ∀ q, T.live q → s.pages[q]? = some (s.page q) := by
    intro q hq
    have hlt := (h.represents.live q).1 hq
    rw [page, List.getD_eq_getElem?_getD, List.getElem?_eq_getElem hlt]
    rfl
  have hmem : ∀ q, T.live q → (e ∈ (s.page q).elements.filterMap id ↔ e ∈ T.entries q) := by
    intro q hq
    rw [(h.shape hq).elements, List.mem_filterMap]
    simp
  have hleaf : ∀ q, T.live q → ((s.page q).isLeaf = false ↔ T.level q ≠ 0) := by
    intro q hq
    rw [(h.shape hq).isLeaf_eq]
    constructor
    · intro hne h0
      rw [h.inv.leaf hq h0] at hne
      cases hne
    · intro hne
      rcases h.child_at hq hne e.rank with ⟨c, hc⟩
      exact List.isEmpty_eq_false_iff.2 (List.ne_nil_of_mem (List.mem_of_getElem? hc))
  unfold innerEntriesWith
  rw [List.mem_filter, List.mem_flatMap, decide_eq_true_eq, and_comm]
  refine and_congr_right fun _ => ?_
  constructor
  · rintro ⟨page, hpageMem, he⟩
    rw [List.mem_filter, Bool.not_eq_true'] at hpageMem
    rcases List.mem_iff_getElem?.1 hpageMem.1 with ⟨q, hq⟩
    have hlive : T.live q := (h.represents.live q).2 (List.getElem?_eq_some_iff.1 hq).1
    rw [hpage q hlive] at hq
    cases hq
    exact ⟨q, hlive, (hleaf q hlive).1 hpageMem.2, (hmem q hlive).1 he⟩
  · rintro ⟨q, hq, hlevel, he⟩
    refine ⟨s.page q, ?_, (hmem q hq).2 he⟩
    rw [List.mem_filter, Bool.not_eq_true']
    exact ⟨List.mem_of_getElem? (hpage q hq), (hleaf q hq).2 hlevel⟩

/-- On its way down `findIndex` meets the copy of an inner page before it comes to a leaf. -/
theorem findIndex_inner (h : Ready s T) {key : CString} {q : ℕ} {e : Index} (hq : T.live q)
    (hlevel : T.level q ≠ 0) (he : e ∈ T.entries q) (hek : e.key = key) (fuel : ℕ) {p : ℕ}
    (hp : T.live p) (hfuel : T.level p < fuel) (ho : T.Owns p key.rank)
    (hle : T.level q ≤ T.level p) :
    ∃ p' x e', findIndex fuel s p key = some (s, some (p', x)) ∧ T.live p' ∧ T.level p' ≠ 0 ∧
      (T.entries p')[x]? = some e' ∧ e'.key = key := by
  induction fuel generalizing p with
  | zero => omega
  | succ fuel ih =>
    rcases findIndex_step key fuel (h.visit hp) (h.shape hp) (h.inv.sorted p hp) with
      ⟨x, e', he', hek', hstep⟩ | ⟨hne, hstep⟩
    · exact ⟨p, x, e', hstep, hp, by omega, he', hek'⟩
    · have hoq : T.Owns q key.rank := by
        rw [← hek]
        exact h.inv.entry_owned hq he
      have hlt : T.level q < T.level p := by
        apply Nat.lt_of_le_of_ne hle
        intro heq
        rw [h.inv.owner_unique hq hp heq hoq ho] at he
        exact hne e he hek
      rcases h.child_at hp (by omega) key.rank with ⟨c, hc⟩
      rcases h.inv.child_owns hp ho hc with ⟨hcl, hclevel, hco⟩
      rcases ih hcl (by omega) hco (by omega) with ⟨p', x, e', hfind, hrest⟩
      refine ⟨p', x, e', ?_, hrest⟩
      rw [hstep, hc]
      exact hfind

theorem find_inner (h : Ready s T) {key : CString} {q : ℕ} {e : Index} (hq : T.live q)
    (hlevel : T.level q ≠ 0) (he : e ∈ T.entries q) (hek : e.key = key) :
    ∃ p e', s.find key = some (s, some e') ∧ T.live p ∧ T.level p ≠ 0 ∧ e' ∈ T.entries p := by
  rcases findIndex_inner h hq hlevel he hek s.fuel h.inv.root h.root_lt_fuel (h.inv.root_owns _)
    (h.inv.level_le q hq) with ⟨p, x, e', hfind, hp, hp0, he', -⟩
  rw [← h.represents.head] at hfind
  refine ⟨p, e', ?_, hp, hp0, List.mem_of_getElem? he'⟩
  have hentry : s.entry (some (p, x)) = some e' := by
    rw [entry, Option.bind_some, (h.shape hp).element_eq, he']
  unfold BPlusIndexP.find
  rw [hfind, Option.bind_eq_bind, Option.bind_some]
  exact congrArg (fun r => some (s, r)) hentry

theorem carries_update_iff (h : Ready s T) {key : CString} {filePos : Int64} :
    s.carries (.update key filePos) = true ↔
      ∀ q, T.live q → T.level q ≠ 0 → ∀ e ∈ T.entries q, e.key = key →
        e.posData = filePos.toInt := by
  unfold carries
  rw [List.all_eq_true]
  constructor
  · intro hall q hq hlevel e he hek
    exact of_decide_eq_true (hall e ((mem_innerEntriesWith h).2 ⟨hek, q, hq, hlevel, he⟩))
  · intro hall e he
    rcases (mem_innerEntriesWith h).1 he with ⟨hek, q, hq, hlevel, hmem⟩
    exact decide_eq_true (hall q hq hlevel e hmem hek)

/-- An update that all copies agree with is what every search finds. -/
theorem Answers.update (h : Answers s T f) {key : CString} {e : Index} (he : f key = some e)
    {filePos : Int64} (hcarries : s.carries (.update key filePos) = true) :
    ∃ s' T', s.update key filePos.toInt = some (s', true) ∧
      Answers s' T' (Function.update f key (some { e with posData := filePos.toInt })) := by
  have hek := h.keyed key e he
  subst hek
  obtain ⟨e', he'⟩ : ∃ e' : Index, e' = { e with posData := filePos.toInt } := ⟨_, rfl⟩
  have hkey : e'.key = e.key := by rw [he']
  rcases h.ready.update_leaf ((h.leaves e).2 he) filePos.toInt with
    ⟨leaf, x, s', hleaf, h0, hcall, hupdated⟩
  rw [← he'] at hupdated ⊢
  refine ⟨s', _, hcall, hupdated.ready, ?_, ?_, ?_⟩
  · intro key a ha
    by_cases hk : key = e.key
    · rw [hk, Function.update_self] at ha
      cases ha
      rw [hk, hkey]
    · rw [Function.update_of_ne hk] at ha
      exact h.keyed key a ha
  · intro a
    rw [hupdated.leaves, h.leaves, hkey]
    by_cases hk : a.key = e.key
    · rw [hk, Function.update_self]
      constructor
      · rintro (rfl | ⟨-, hne⟩)
        · rfl
        · exact absurd rfl hne
      · intro ha
        exact Or.inl (Option.some.inj ha).symm
    · rw [Function.update_of_ne hk]
      constructor
      · rintro (rfl | ⟨ha, -⟩)
        · exact absurd hkey hk
        · exact ha
      · intro ha
        exact Or.inr ⟨ha, hk⟩
  · intro q hq a ha
    by_cases hlevel : T.level q = 0
    · rcases (hupdated.leaves a).1 ⟨q, hq, hlevel, ha⟩ with rfl | ⟨hold, hne⟩
      · rw [hkey, Function.update_self]
      · rw [Function.update_of_ne (hkey ▸ hne)]
        exact (h.leaves a).1 hold
    · have hql : q ≠ leaf := by
        rintro rfl
        exact hlevel h0
      have hold : a ∈ T.entries q := by simpa [Tree.setEntries, hql] using ha
      have hfa := h.entries q hq a hold
      by_cases hk : a.key = e.key
      · have hpos := (carries_update_iff h.ready).1 hcarries q hq hlevel a hold hk
        rw [hk, he] at hfa
        cases hfa
        rw [Function.update_self, he', ← hpos]
      · rw [Function.update_of_ne hk]
        exact hfa

/-- A copy with another position is still what is found after the update. -/
theorem Answers.not_carries (h : Answers s T f) {key : CString} {e : Index} (he : f key = some e)
    {filePos : Int64} (hcarries : ¬ s.carries (.update key filePos) = true) :
    ∃ s', s.update key filePos.toInt = some (s', true) ∧
      ¬ s'.find key = some (s', some { e with posData := filePos.toInt }) := by
  have hek := h.keyed key e he
  subst hek
  rcases h.ready.update_leaf ((h.leaves e).2 he) filePos.toInt with
    ⟨leaf, x, s', hleaf, h0, hcall, hupdated⟩
  refine ⟨s', hcall, fun hfind => hcarries ?_⟩
  rw [carries_update_iff h.ready]
  intro q hq hlevel a ha hak
  have hinner : ∀ p, T.level p ≠ 0 →
      (T.setEntries leaf ((T.entries leaf).set x { e with posData := filePos.toInt })).entries p =
        T.entries p := by
    intro p hp0
    have hpl : p ≠ leaf := by
      rintro rfl
      exact hp0 h0
    simp [Tree.setEntries, hpl]
  have hsame : ∀ p, T.live p → ∀ b ∈ T.entries p, b.key = e.key → b = e := by
    intro p hp b hb hbk
    have hfb := h.entries p hp b hb
    rw [hbk, he] at hfb
    exact (Option.some.inj hfb).symm
  rcases find_inner hupdated.ready hq hlevel (by rw [hinner q hlevel]; exact ha) hak with
    ⟨p, e', hfind', hp, hp0, he'⟩
  rw [hinner p hp0] at he'
  rw [hfind] at hfind'
  cases hfind'
  rw [hsame q hq a ha hak, ← hsame p hp _ he' rfl]

theorem Answers.update_absent (h : Answers s T f) {key : CString} (he : f key = none)
    (filePos : Int64) : s.update key filePos.toInt = some (s, false) := by
  apply h.ready.update_absent
  intro a ha hak
  have hfa := (h.leaves a).1 ha
  rw [hak, he] at hfa
  cases hfa

/-- One call: it returns what it should, and what is found afterwards is as expected exactly when
the copies agree with it. -/
theorem Answers.step (h : Answers s T f) {c : Call} (hfresh : c.fresh f = true) :
    ∃ s', s.perform c = some (s', c.answer f) ∧
      (s.carries c = true → ∃ T', Answers s' T' (c.after f)) ∧
      (¬ s.carries c = true → ∃ key, ¬ s'.find key = some (s', c.after f key)) := by
  cases c with
  | add x =>
    have hnew : f x.key = none := Option.isNone_iff_eq_none.1 hfresh
    rcases h.add x hnew with ⟨s', T', hadd, h'⟩
    refine ⟨s', ?_, fun _ => ⟨T', h'⟩, fun hnot => absurd rfl hnot⟩
    change (s.add x.key x.documentId x.filePos.toInt).map (fun s => (s, true)) = _
    rw [hadd]
    rfl
  | update key filePos =>
    change ∃ s', s.update key filePos.toInt = some (s', (f key).isSome) ∧ _
    cases he : f key with
    | none =>
      have hafter : (Call.update key filePos).after f = f := by
        change Function.update f key ((f key).map _) = f
        rw [he, Option.map_none, ← he, Function.update_eq_self]
      have hcarries : s.carries (.update key filePos) = true := by
        rw [carries_update_iff h.ready]
        intro q hq _ e hmem hek
        have hfe := h.entries q hq e hmem
        rw [hek, he] at hfe
        cases hfe
      rw [hafter]
      exact ⟨s, h.update_absent he filePos, fun _ => ⟨T, h⟩, fun hnot => absurd hcarries hnot⟩
    | some e =>
      have hafter : (Call.update key filePos).after f =
          Function.update f key (some { e with posData := filePos.toInt }) := by
        change Function.update f key ((f key).map _) = _
        rw [he]
        rfl
      rw [hafter]
      by_cases hcarries : s.carries (.update key filePos) = true
      · rcases h.update he hcarries with ⟨s', T', hcall, h'⟩
        exact ⟨s', hcall, fun _ => ⟨T', h'⟩, fun hnot => absurd hcarries hnot⟩
      · rcases h.not_carries he hcarries with ⟨s', hcall, hnot⟩
        refine ⟨s', hcall, fun hyes => absurd hyes hcarries, fun _ => ⟨key, ?_⟩⟩
        rw [Function.update_self]
        exact hnot

theorem Visible.find {calls : List Call} (h : s.Visible f calls) (key : CString) :
    s.find key = some (s, f key) := by
  cases calls with
  | nil => exact h key
  | cons c calls => exact h.1 key

/-- From a state that answers as expected, the calls are visible while the copies agree with the
updates, and no longer. -/
theorem Answers.visible_iff (h : Answers s T f) {calls : List Call}
    (hfresh : Call.freshAll f calls = true) : s.Visible f calls ↔ s.carriesAll calls = true := by
  induction calls generalizing s T f with
  | nil => exact iff_of_true h.find rfl
  | cons c calls ih =>
    unfold Call.freshAll at hfresh
    rw [Bool.and_eq_true] at hfresh
    rcases h.step hfresh.1 with ⟨s', hperform, hgood, hbad⟩
    unfold Visible carriesAll
    rw [hperform, Bool.and_eq_true, and_iff_right h.find]
    by_cases hcarries : s.carries c = true
    · rcases hgood hcarries with ⟨T', h'⟩
      rw [and_iff_right hcarries]
      constructor
      · rintro ⟨s1, hs1, hvisible⟩
        cases hs1
        exact (ih h' hfresh.2).1 hvisible
      · intro hall
        exact ⟨s', rfl, (ih h' hfresh.2).2 hall⟩
    · rcases hbad hcarries with ⟨key, hnot⟩
      refine iff_of_false ?_ fun hall => hcarries hall.1
      rintro ⟨s1, hs1, hvisible⟩
      cases hs1
      exact hnot (hvisible.find key)

end answers

/-- Six additions split the leaf; the update is of a key that has not been promoted. -/
def updateLeafOnly : List Call :=
  (List.range 6).map (fun n => .add (charAddition n)) ++ [.update (charKey 0) 99]

/-- The same with the key that the split has promoted. -/
def updatePromoted : List Call :=
  (List.range 6).map (fun n => .add (charAddition n)) ++ [.update (charKey 2) 99]

def performAll (s : BPlusIndexP) : List Call → Option BPlusIndexP
  | [] => some s
  | c :: calls => do
    let (s, _) ← s.perform c
    s.performAll calls

theorem Visible.performAll {s : BPlusIndexP} {f : Expected} {calls : List Call}
    (h : s.Visible f calls) : ∃ s', s.performAll calls = some s' ∧
      ∀ key, s'.find key = some (s', calls.foldl Call.after f key) := by
  induction calls generalizing s f with
  | nil => exact ⟨s, rfl, h⟩
  | cons c calls ih =>
    rcases h with ⟨-, s1, hs1, hrest⟩
    rcases ih hrest with ⟨s', hs', hfind⟩
    refine ⟨s', ?_, hfind⟩
    apply Option.bind_eq_some_iff.2
    exact ⟨_, hs1, hs'⟩

/-- The search still stops at the copy with the old position. -/
theorem updatePromoted_find : (create.bind fun s => (s.performAll updatePromoted).bind fun s =>
    (s.find (charKey 2)).map fun r => r.2.map Index.posData) = some (some 2) := by decide +kernel

end BPlusIndexP
end Djondb
