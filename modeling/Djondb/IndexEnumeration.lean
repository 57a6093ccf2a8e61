import Djondb.IndexAnswers
import Djondb.FilterExpression

set_option autoImplicit false

/-!
# `BPlusIndexP::find` with a filter

The search goes over inner pages and leaves alike. An entry whose copy a split has put on an inner
page is found twice.
-/
namespace Djondb
open SearchPage SearchTree

/-- Whether the key document of an entry passes the filter. -/
def Index.isMatch (root : Option BaseExpression) (index : Index) : Outcome Bool := do
  let expresult ← evalFilter (BPlusIndexP.keyBSON index.key).filterDocument root
  let expresult ← deref expresult
  match expresult with
  | .boolean bres => .value bres
  | _ => .value false

namespace BPlusIndexP

/-! ## The search -/

/-- The entries of the first slots that match. -/
def matching (root : Option BaseExpression) : List (Option Index) → Outcome (List Index)
  | [] => .value []
  | none :: _ => .undefined
  | some index :: elements => do
    let isMatch ← index.isMatch root
    let rest ← matching root elements
    .value (if isMatch then index :: rest else rest)

/-- What `find` gives for each page comes in front of the result so far. -/
def collect (find : BPlusIndexP → ℕ → Option (BPlusIndexP × Outcome (List Index))) :
    List ℕ → BPlusIndexP → List Index → Option (BPlusIndexP × Outcome (List Index))
  | [], s, result => some (s, .value result)
  | innerPage :: pages, s, result => do
    let (s, inner) ← find s innerPage
    match inner with
    | .value inner => collect find pages s (inner ++ result)
    | .exception e => some (s, .exception e)
    | .undefined => some (s, .undefined)

/-- `IndexPage::find`. -/
def findPage (root : Option BaseExpression) :
    ℕ → BPlusIndexP → ℕ → Option (BPlusIndexP × Outcome (List Index))
  | 0, _, _ => none
  | fuel + 1, s, p => do
    let s ← s.visit p
    let page := s.page p
    match matching root (page.elements.take page.size) with
    | .value result =>
      collect (findPage root fuel) ((page.pointers.take (page.size + 1)).filterMap id) s result
    | .exception e => some (s, .exception e)
    | .undefined => some (s, .undefined)

/-- `BPlusIndexP::find` with the root expression of the parser. -/
def findFilter (s : BPlusIndexP) (root : Option BaseExpression) :
    Option (BPlusIndexP × Outcome (List Index)) := findPage root s.fuel s s.head

/-- The key passes the filter. -/
def satisfies (root : Option BaseExpression) (index : Index) : Bool :=
  index.isMatch root = .value true

/-- The filter has a result for every entry. -/
def Evaluates (root : Option BaseExpression) (index : Index) : Prop :=
  ∃ isMatch, index.isMatch root = .value isMatch

theorem Evaluates.isMatch_eq {root : Option BaseExpression} {index : Index}
    (h : Evaluates root index) : index.isMatch root = .value (satisfies root index) := by
  rcases h with ⟨b, hb⟩
  unfold satisfies
  rw [hb]
  cases b <;> rfl

section page
variable {root : Option BaseExpression}

theorem matching_eq {es : List Index} (h : ∀ e ∈ es, Evaluates root e) :
    matching root (es.map some) = .value (es.filter (satisfies root)) := by
  induction es with
  | nil => rfl
  | cons e es ih =>
    rcases List.forall_mem_cons.1 h with ⟨he, hes⟩
    change (Index.isMatch root e >>= fun isMatch => matching root (es.map some) >>= fun rest =>
      Outcome.value (if isMatch then e :: rest else rest)) = _
    rw [he.isMatch_eq, ih hes, Outcome.value_bind, Outcome.value_bind, List.filter_cons]

theorem evaluates_of_matching {es result : List Index}
    (h : matching root (es.map some) = .value result) : ∀ e ∈ es, Evaluates root e := by
  induction es generalizing result with
  | nil => exact fun e he => absurd he List.not_mem_nil
  | cons e es ih =>
    rcases Outcome.bind_eq_value.1 h with ⟨b, hb, hrest⟩
    rcases Outcome.bind_eq_value.1 hrest with ⟨rest, hes, -⟩
    exact List.forall_mem_cons.2 ⟨⟨b, hb⟩, ih hes⟩

/-- The slots of a page in order. -/
theorem elements_take {page : IndexPage} {es : List Index} {ps : List ℕ} (h : page.Shape es ps) :
    page.elements.take page.size = es.map some := by
  have hlen : page.size = (es.map some).length := by
    rw [h.size, List.length_map]
  rw [h.elements, hlen, List.take_left]

theorem pointers_take {page : IndexPage} {es : List Index} {ps : List ℕ} (h : page.Shape es ps) :
    (page.pointers.take (page.size + 1)).filterMap id = ps := by
  rw [h.pointers, h.size]
  rcases h.children with rfl | hlen
  · rw [List.map_nil, List.nil_append, List.take_replicate, List.filterMap_eq_nil_iff]
    intro a ha
    rw [List.eq_of_mem_replicate ha]
    rfl
  · have htake : es.length + 1 = (ps.map some).length := by rw [List.length_map, hlen]
    rw [htake, List.take_left, List.filterMap_map]
    exact List.filterMap_some

end page

/-! ## What is found -/

section search
variable {s : BPlusIndexP} {T : PageTree} {root : Option BaseExpression}

/-- The results of pages `cs`, the last one in front. -/
theorem collect_eq {find : BPlusIndexP → ℕ → Option (BPlusIndexP × Outcome (List Index))}
    {found : ℕ → List Index} {cs : List ℕ} (h : ∀ c ∈ cs, find s c = some (s, .value (found c)))
    (result : List Index) : collect find cs s result =
      some (s, .value (cs.reverse.flatMap found ++ result)) := by
  induction cs generalizing result with
  | nil => rfl
  | cons c cs ih =>
    rcases List.forall_mem_cons.1 h with ⟨hc, hcs⟩
    apply Option.bind_eq_some_iff.2
    refine ⟨_, hc, (ih hcs (found c ++ result)).trans ?_⟩
    rw [List.reverse_cons, List.flatMap_append, List.flatMap_singleton, List.append_assoc]

/-- The entries found below a page, on pages up to level `n`. -/
def found (root : Option BaseExpression) (T : PageTree) : ℕ → ℕ → List Index
  | 0, p => (T.entries p).filter (satisfies root)
  | n + 1, p => (T.children p).reverse.flatMap (found root T n) ++
      (T.entries p).filter (satisfies root)

theorem Ready.findPage (h : Ready s T)
    (heval : ∀ q, T.live q → ∀ e ∈ T.entries q, Evaluates root e) (fuel : ℕ) {p n : ℕ}
    (hp : T.live p) (hn : T.level p = n) (hfuel : n < fuel) :
    BPlusIndexP.findPage root fuel s p = some (s, .value (found root T n p)) := by
  induction fuel generalizing p n with
  | zero => omega
  | succ fuel ih =>
    have hmatch : matching root ((s.page p).elements.take (s.page p).size) =
        .value ((T.entries p).filter (satisfies root)) := by
      rw [elements_take (h.shape hp)]
      exact matching_eq (heval p hp)
    apply Option.bind_eq_some_iff.2
    refine ⟨s, h.visit hp, ?_⟩
    dsimp only
    rw [hmatch, pointers_take (h.shape hp)]
    cases n with
    | zero =>
      rw [h.inv.leaf hp hn]
      rfl
    | succ n =>
      have hchildren : ∀ c ∈ T.children p,
          BPlusIndexP.findPage root fuel s c = some (s, .value (found root T n c)) := by
        intro c hc
        rcases h.inv.child p hp c hc with ⟨hlive, -, hlevel⟩
        exact ih hlive (by omega) (by omega)
      exact collect_eq hchildren _

theorem collect_eq_value {find : BPlusIndexP → ℕ → Option (BPlusIndexP × Outcome (List Index))}
    {P : ℕ → Prop} {cs : List ℕ} {s' : BPlusIndexP} {result L : List Index}
    (hfind : ∀ c ∈ cs, ∀ s' L, find s c = some (s', .value L) → s' = s ∧ P c)
    (h : collect find cs s result = some (s', .value L)) : s' = s ∧ ∀ c ∈ cs, P c := by
  induction cs generalizing result with
  | nil =>
    cases h
    exact ⟨rfl, fun c hc => absurd hc List.not_mem_nil⟩
  | cons c cs ih =>
    rcases List.forall_mem_cons.1 hfind with ⟨hc, hcs⟩
    rcases Option.bind_eq_some_iff.1 h with ⟨⟨s1, inner⟩, hs1, hrest⟩
    cases inner with
    | value inner =>
      rcases hc s1 inner hs1 with ⟨rfl, hP⟩
      rcases ih hcs hrest with ⟨hs', hall⟩
      exact ⟨hs', List.forall_mem_cons.2 ⟨hP, hall⟩⟩
    | exception e => cases hrest
    | undefined => cases hrest

/-- A search that has a result has evaluated the filter on every entry. -/
theorem Ready.findPage_value (h : Ready s T) (fuel : ℕ) {p : ℕ} (hp : T.live p)
    {s' : BPlusIndexP} {L : List Index}
    (hfind : BPlusIndexP.findPage root fuel s p = some (s', .value L)) :
    s' = s ∧ ∀ q, T.live q → T.level q ≤ T.level p → ∀ e ∈ T.entries q, T.Owns p e.rank →
      Evaluates root e := by
  induction fuel generalizing p s' L with
  | zero => cases hfind
  | succ fuel ih =>
    rcases Option.bind_eq_some_iff.1 hfind with ⟨s1, hs1, hmatch⟩
    rw [h.visit hp] at hs1
    cases hs1
    dsimp only at hmatch
    rw [elements_take (h.shape hp), pointers_take (h.shape hp)] at hmatch
    cases hown : matching root ((T.entries p).map some) with
    | exception e =>
      rw [hown] at hmatch
      cases hmatch
    | undefined =>
      rw [hown] at hmatch
      cases hmatch
    | value own =>
      rw [hown] at hmatch
      have hchildren := collect_eq_value (P := fun c => ∀ q, T.live q → T.level q ≤ T.level c →
        ∀ e ∈ T.entries q, T.Owns c e.rank → Evaluates root e)
        (fun c hc s' L hfind => ih (h.inv.child p hp c hc).1 hfind) hmatch
      refine ⟨hchildren.1, fun q hq hle e he ho => ?_⟩
      by_cases hlevel : T.level q = T.level p
      · have hqp := h.inv.owner_unique hq hp hlevel (h.inv.entry_owned hq he) ho
        rw [hqp] at he
        exact evaluates_of_matching hown e he
      · rcases h.child_at hp (by omega) e.rank with ⟨c, hc⟩
        rcases h.inv.child_owns hp ho hc with ⟨-, hclevel, hco⟩
        exact hchildren.2 c (List.mem_of_getElem? hc) q hq (by omega) e he hco

/-! ### How often an entry is found -/

theorem found_spec (h : Ready s T) {n p : ℕ} (hp : T.live p) (hn : T.level p = n) (a : Index) :
    a ∈ found root T n p ↔ satisfies root a = true ∧ T.Owns p a.rank ∧
      ∃ q, T.live q ∧ T.level q ≤ n ∧ a ∈ T.entries q := by
  induction n generalizing p with
  | zero =>
    unfold found
    rw [List.mem_filter]
    constructor
    · rintro ⟨ha, hsat⟩
      exact ⟨hsat, h.inv.entry_owned hp ha, p, hp, by omega, ha⟩
    · rintro ⟨hsat, ho, q, hq, hlevel, ha⟩
      have hqp := h.inv.owner_unique hq hp (by omega) (h.inv.entry_owned hq ha) ho
      exact ⟨hqp ▸ ha, hsat⟩
  | succ n ih =>
    unfold found
    rw [List.mem_append, List.mem_flatMap, List.mem_filter]
    constructor
    · rintro (⟨c, hc, ha⟩ | ⟨ha, hsat⟩)
      · rw [List.mem_reverse] at hc
        rcases h.inv.child p hp c hc with ⟨hcl, -, hclevel⟩
        rcases (ih hcl (by omega)).1 ha with ⟨hsat, ho, q, hq, hlevel, hmem⟩
        exact ⟨hsat, h.inv.parent_owns hp hc ho, q, hq, by omega, hmem⟩
      · exact ⟨hsat, h.inv.entry_owned hp ha, p, hp, by omega, ha⟩
    · rintro ⟨hsat, ho, q, hq, hlevel, ha⟩
      by_cases heq : T.level q = n + 1
      · have hqp := h.inv.owner_unique hq hp (by omega) (h.inv.entry_owned hq ha) ho
        exact Or.inr ⟨hqp ▸ ha, hsat⟩
      · rcases h.child_at hp (by omega) a.rank with ⟨c, hc⟩
        rcases h.inv.child_owns hp ho hc with ⟨hcl, hclevel, hco⟩
        refine Or.inl ⟨c, List.mem_reverse.2 (List.mem_of_getElem? hc), ?_⟩
        exact (ih hcl (by omega)).2 ⟨hsat, hco, q, hq, by omega, ha⟩

/-- Entries with different keys. -/
def DistinctKeys (es : List Index) : Prop := es.Pairwise fun a b => a.key ≠ b.key

/-- Without matches on inner pages no key is found twice. -/
theorem found_distinct (h : Ready s T) {n p : ℕ} (hp : T.live p) (hn : T.level p = n)
    (hinner : ∀ q, T.live q → T.level q ≠ 0 → ∀ e ∈ T.entries q, ¬ satisfies root e = true) :
    DistinctKeys (found root T n p) := by
  induction n generalizing p with
  | zero =>
    unfold found DistinctKeys
    apply List.Pairwise.filter
    apply (h.inv.sorted p hp).imp
    intro a b hlt hkey
    exact hlt.ne' (congrArg CString.rank hkey)
  | succ n ih =>
    have hown : (T.entries p).filter (satisfies root) = [] :=
      List.filter_eq_nil_iff.2 (hinner p hp (by omega))
    unfold found DistinctKeys
    rw [hown, List.append_nil, List.pairwise_flatMap]
    constructor
    · intro c hc
      rcases h.inv.child p hp c (List.mem_reverse.1 hc) with ⟨hcl, -, hclevel⟩
      exact ih hcl (by omega)
    · rw [List.pairwise_reverse]
      have hnodup : (T.children p).Pairwise (fun a b => a ≠ b) := h.inv.nodup_children hp
      apply hnodup.imp_of_mem
      intro c c' hc hc' hne a ha b hb hkey
      rcases h.inv.child p hp c hc with ⟨hcl, -, hclevel⟩
      rcases h.inv.child p hp c' hc' with ⟨hcl', -, hclevel'⟩
      have hoc := ((found_spec h hcl' (by omega) a).1 ha).2.1
      have hoc' := ((found_spec h hcl (by omega) b).1 hb).2.1
      have hrank : a.rank = b.rank := congrArg CString.rank hkey
      exact hne (h.inv.child_unique hp hc hc' hoc' (hrank ▸ hoc))

theorem isMatch_congr {a b : Index} (h : a.key = b.key) : a.isMatch root = b.isMatch root := by
  unfold Index.isMatch
  rw [h]

theorem satisfies_congr {a b : Index} (h : a.key = b.key) :
    satisfies root a = satisfies root b := by
  unfold satisfies
  rw [isMatch_congr h]

/-- A match on an inner page is found there and again in its leaf. -/
theorem found_not_distinct (h : Ready s T)
    (hleaf : ∀ q, T.live q → ∀ e ∈ T.entries q, ∃ a, T.InLeaf a ∧ a.key = e.key) {n p q : ℕ}
    (hp : T.live p) (hn : T.level p = n) (hq : T.live q) (hle : T.level q ≤ n)
    (hlevel : T.level q ≠ 0) {e : Index} (he : e ∈ T.entries q) (ho : T.Owns p e.rank)
    (hsat : satisfies root e = true) : ¬ DistinctKeys (found root T n p) := by
  induction n generalizing p with
  | zero => omega
  | succ n ih =>
    intro hdistinct
    unfold found DistinctKeys at hdistinct
    rw [List.pairwise_append] at hdistinct
    rcases h.child_at hp (by omega) e.rank with ⟨c, hc⟩
    rcases h.inv.child_owns hp ho hc with ⟨hcl, hclevel, hco⟩
    have hmem := List.mem_of_getElem? hc
    by_cases heq : T.level q = n + 1
    · have hqp := h.inv.owner_unique hq hp (by omega) (h.inv.entry_owned hq he) ho
      have hown : e ∈ (T.entries p).filter (satisfies root) := List.mem_filter.2 ⟨hqp ▸ he, hsat⟩
      rcases hleaf q hq e he with ⟨a, ⟨l, hl, hl0, ha⟩, hkey⟩
      have hrank : a.rank = e.rank := congrArg CString.rank hkey
      have hbelow : a ∈ found root T n c := by
        apply (found_spec h hcl (by omega) a).2
        refine ⟨(satisfies_congr hkey).trans hsat, hrank ▸ hco, l, hl, by omega, ha⟩
      exact hdistinct.2.2 a (List.mem_flatMap.2 ⟨c, List.mem_reverse.2 hmem, hbelow⟩) e hown hkey
    · apply ih hcl (by omega) (by omega) hco
      exact (List.pairwise_flatMap.1 hdistinct.1).1 c (List.mem_reverse.2 hmem)

end search

/-! ## Every matching entry, once -/

/-- The search returns the entries of `adds` whose keys pass the filter, each of them once. -/
def Enumerates (s : BPlusIndexP) (root : Option BaseExpression) (adds : List Addition) : Prop :=
  ∃ s' result, s.findFilter root = some (s', .value result) ∧
    result.Perm ((adds.map Addition.index).filter (satisfies root))

/-- The entries on inner pages. -/
def innerEntries (s : BPlusIndexP) : List Index :=
  (s.pages.filter fun page => !page.isLeaf).flatMap fun page => page.elements.filterMap id

theorem mem_innerEntries {s : BPlusIndexP} {T : PageTree} (h : Ready s T) {e : Index} :
    e ∈ s.innerEntries ↔ ∃ q, T.live q ∧ T.level q ≠ 0 ∧ e ∈ T.entries q := by
  have hmem := @mem_innerEntriesWith _ _ h e.key e
  unfold innerEntriesWith at hmem
  rw [List.mem_filter, decide_eq_true_eq, and_iff_left rfl, and_iff_right rfl] at hmem
  exact hmem

theorem Indexes.enumerates_iff {s : BPlusIndexP} {T : PageTree} {adds : List Addition}
    (h : Indexes s T adds) (hnd : (adds.map Addition.key).Nodup) (root : Option BaseExpression) :
    s.Enumerates root adds ↔ (∀ x ∈ adds, Evaluates root x.index) ∧
      ∀ e ∈ s.innerEntries, ¬ satisfies root e = true := by
  have hroot := h.ready.represents.head
  have hlevel := h.ready.root_lt_fuel
  have hlive := h.ready.inv.root
  have hentries : ∀ a, (∃ q, T.live q ∧ T.level q ≤ T.level T.root ∧ a ∈ T.entries q) ↔
      a ∈ adds.map Addition.index := by
    intro a
    rw [List.mem_map]
    constructor
    · rintro ⟨q, hq, -, ha⟩
      rcases h.entries q hq a ha with ⟨x, hx, rfl⟩
      exact ⟨x, hx, rfl⟩
    · rintro ⟨x, hx, rfl⟩
      rcases (h.leaves _).2 ⟨x, hx, rfl⟩ with ⟨q, hq, -, ha⟩
      exact ⟨q, hq, h.ready.inv.level_le q hq, ha⟩
  have hfound : (∀ x ∈ adds, Evaluates root x.index) →
      s.findFilter root = some (s, .value (found root T (T.level T.root) T.root)) := by
    intro heval
    unfold findFilter
    rw [hroot]
    apply h.ready.findPage _ _ hlive rfl hlevel
    intro q hq e he
    rcases h.entries q hq e he with ⟨x, hx, rfl⟩
    exact heval x hx
  have hmem : ∀ a, a ∈ found root T (T.level T.root) T.root ↔
      a ∈ (adds.map Addition.index).filter (satisfies root) := by
    intro a
    rw [found_spec h.ready hlive rfl, hentries, List.mem_filter, and_comm,
      and_iff_right (h.ready.inv.root_owns _)]
  have hdistinctAdds : DistinctKeys ((adds.map Addition.index).filter (satisfies root)) := by
    apply List.Pairwise.filter
    rw [List.pairwise_map]
    exact List.pairwise_map.1 hnd
  constructor
  · rintro ⟨s', result, hresult, hperm⟩
    have heval : ∀ x ∈ adds, Evaluates root x.index := by
      intro x hx
      unfold findFilter at hresult
      rw [hroot] at hresult
      rcases (h.leaves _).2 ⟨x, hx, rfl⟩ with ⟨q, hq, -, ha⟩
      exact (h.ready.findPage_value _ hlive hresult).2 q hq (h.ready.inv.level_le q hq) _ ha
        (h.ready.inv.root_owns _)
    refine ⟨heval, fun e he hsat => ?_⟩
    rw [hfound heval] at hresult
    cases hresult
    rcases (mem_innerEntries h.ready).1 he with ⟨q, hq, hq0, hmemq⟩
    apply found_not_distinct h.ready ?_ hlive rfl hq (h.ready.inv.level_le q hq) hq0 hmemq
      (h.ready.inv.root_owns _) hsat
    · exact (hperm.pairwise_iff fun hne => Ne.symm hne).2 hdistinctAdds
    · intro q hq e he
      rcases h.entries q hq e he with ⟨x, hx, rfl⟩
      exact ⟨x.index, (h.leaves _).2 ⟨x, hx, rfl⟩, rfl⟩
  · rintro ⟨heval, hinner⟩
    refine ⟨s, _, hfound heval, ?_⟩
    have hdistinct : DistinctKeys (found root T (T.level T.root) T.root) :=
      found_distinct h.ready hlive rfl fun q hq hq0 e he =>
        hinner e ((mem_innerEntries h.ready).2 ⟨q, hq, hq0, he⟩)
    have hnodup : ∀ {es : List Index}, DistinctKeys es → es.Nodup := fun hd =>
      hd.imp fun hne heq => hne (congrArg Index.key heq)
    exact (List.perm_ext_iff_of_nodup (hnodup hdistinct) (hnodup hdistinctAdds)).2 hmem

/-- `$"_id" == key`. -/
def idEquals (key : CString) : BaseExpression :=
  .binary .FO_EQUALS (.simple idKey) (.constant (.ptrchar key.bytes))

/-- The split leaves the promoted entry in the leaf as well; it is found on both pages. -/
theorem findFilter_promoted : (create.bind fun s => (s.addAll ((List.range 6).map charAddition)).bind
    fun s => (s.findFilter (some (idEquals (charKey 2)))).map fun r => r.2) =
      some (.value [(charAddition 2).index, (charAddition 2).index]) := by decide +kernel

end BPlusIndexP
end Djondb
