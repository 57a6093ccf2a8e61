import Mathlib.Algebra.Order.Ring.Int
import Mathlib.Data.List.AList
import Mathlib.Data.Int.Notation
import Mathlib.Tactic.Common

set_option autoImplicit false

/-!
# `PriorityCache`

A map of at most `top` keys, and a list that has the key of the last use in front. What the cache
should do is told by the operations so far, the last one first.
-/
namespace Djondb

structure PriorityCache (K V : Type) where
  elements : AList fun _ : K => V
  priority : List K
  top : Int32
  keyComparator : Option (K → K → Bool)

inductive CacheOp (K V : Type) where
  | add (key : K) (val : V)
  | get (key : K)
  | erase (key : K)

namespace PriorityCache
variable {K V : Type}

def new (top : Int32) (keyComparator : Option (K → K → Bool)) : PriorityCache K V where
  elements := ∅
  priority := []
  top := top
  keyComparator := keyComparator

def size (c : PriorityCache K V) : ℕ := c.elements.keys.length

/-- `_priority.size() == _top`, where `_top` becomes a `size_t`. -/
def full (c : PriorityCache K V) : Bool := (c.priority.length : ℤ) = c.top.toInt % 2 ^ 64

variable [DecidableEq K]

/-- The place in the list, its length if there is none. -/
def findPriority (key : K) (c : PriorityCache K V) : ℕ :=
  c.priority.findIdx fun k =>
    match c.keyComparator with
    | some keyComparator => keyComparator key k
    | none => key = k

def erasePriority (key : K) (c : PriorityCache K V) : PriorityCache K V :=
  match c.keyComparator with
  | none => { c with priority := c.priority.filter (· ≠ key) }
  | some _ =>
    let itPriority := c.findPriority key
    if itPriority ≠ c.priority.length then { c with priority := c.priority.eraseIdx itPriority }
    else c

def erase (key : K) (c : PriorityCache K V) : PriorityCache K V :=
  { c with elements := c.elements.erase key }.erasePriority key

/-- The first test of `add`. `back` of an empty list is undefined. -/
def makeRoom (c : PriorityCache K V) : Option (PriorityCache K V) :=
  if c.full then c.priority.getLast?.map fun keyPriority => c.erase keyPriority else some c

def add (key : K) (val : V) (c : PriorityCache K V) : Option (PriorityCache K V) := do
  let c ← c.makeRoom
  let c := c.erase key
  let elements := if key ∈ c.elements then c.elements.erase key else c.elements
  some { c with elements := elements.insert key val, priority := key :: c.priority }

/-- The value is what the iterator shows; there is none at the end of the map. -/
def get (key : K) (c : PriorityCache K V) : Option V × PriorityCache K V :=
  match c.elements.lookup key with
  | none => (none, c)
  | some val =>
    let c := c.erasePriority key
    (some val, { c with priority := key :: c.priority })

end PriorityCache

namespace CacheOp
variable {K V : Type} [DecidableEq K]

def run : CacheOp K V → PriorityCache K V → Option (Option V × PriorityCache K V)
  | add key val, c => (c.add key val).map fun c => (none, c)
  | get key, c => some (c.get key)
  | erase key, c => some (none, c.erase key)

/-- The operation adds or reads the key. -/
def uses (k : K) : CacheOp K V → Bool
  | add key _ => key = k
  | get key => key = k
  | erase _ => false

def addedTo (k : K) : CacheOp K V → Option V
  | add key val => if key = k then some val else none
  | _ => none

end CacheOp

/-! ## What the cache should do -/

section law
variable {K V : Type} [DecidableEq K]

/-- How many operations were made since the key was added or read. -/
def age (hist : List (CacheOp K V)) (k : K) : ℕ := hist.findIdx (·.uses k)

/-- The last value that was added for the key. -/
def lastAdded (hist : List (CacheOp K V)) (k : K) : Option V := hist.findSome? (·.addedTo k)

/-- Of the keys in the cache this one was not added or read for the longest time. -/
def Oldest (hist : List (CacheOp K V)) (c : PriorityCache K V) (k : K) : Prop :=
  k ∈ c.elements ∧ ∀ k' ∈ c.elements, age hist k' ≤ age hist k

/-- The operation is one of an LRU cache with the history `hist`. -/
structure Lru (hist : List (CacheOp K V)) (c : PriorityCache K V) (op : CacheOp K V)
    (result : Option V) (c' : PriorityCache K V) : Prop where
  nodup : c'.priority.Nodup
  same : ∀ k, k ∈ c'.priority ↔ k ∈ c'.elements
  top_eq : c'.top = c.top
  size_le : (c'.size : ℤ) ≤ c.top.toInt
  got : ∀ key, op = .get key → result = if key ∈ c.elements then lastAdded hist key else none
  added : ∀ key val, op = .add key val → key ∈ c'.elements
  erased : ∀ key, op = .erase key → key ∉ c'.elements
  enters : ∀ k ∈ c'.elements, k ∈ c.elements ∨ ∃ val, op = .add k val
  leaves : ∀ k ∈ c.elements, k ∉ c'.elements → op = .erase k ∨
    ∃ key val, op = .add key val ∧ key ∉ c.elements ∧ (c.size : ℤ) = c.top.toInt ∧ Oldest hist c k

/-- Every operation of the run is one of an LRU cache. -/
def IsLru : List (CacheOp K V) → List (CacheOp K V) → PriorityCache K V → Prop
  | [], _, _ => True
  | op :: ops, hist, c => ∃ result c', op.run c = some (result, c') ∧ Lru hist c op result c' ∧
    IsLru ops (op :: hist) c'

/-- A key that is added to a full cache is not there yet, or it is the oldest one. -/
def CacheOp.Clear (hist : List (CacheOp K V)) (c : PriorityCache K V) : CacheOp K V → Prop
  | add key _ => key ∈ c.elements → (c.size : ℤ) = c.top.toInt → Oldest hist c key
  | _ => True

def ClearRun : List (CacheOp K V) → List (CacheOp K V) → PriorityCache K V → Prop
  | [], _, _ => True
  | op :: ops, hist, c => op.Clear hist c ∧ ∀ result c', op.run c = some (result, c') →
    ClearRun ops (op :: hist) c'

end law

/-! ## Histories -/

section history
variable {K V : Type} [DecidableEq K] {op : CacheOp K V} {hist : List (CacheOp K V)} {k key : K}
variable {l : List K}

theorem age_of_uses (h : op.uses k = true) : age (op :: hist) k = 0 := by
  unfold age
  rw [List.findIdx_cons, h]
  rfl

theorem age_of_not_uses (h : op.uses k = false) : age (op :: hist) k = age hist k + 1 := by
  unfold age
  rw [List.findIdx_cons, h]
  rfl

theorem lastAdded_of_not_uses (h : op.uses k = false) :
    lastAdded (op :: hist) k = lastAdded hist k := by
  have hnone : op.addedTo k = none := by
    cases op with
    | add key val => exact if_neg (of_decide_eq_false h)
    | get key => rfl
    | erase key => rfl
  unfold lastAdded
  rw [List.findSome?_cons, hnone]

theorem lastAdded_add (val : V) : lastAdded (.add key val :: hist) key = some val := by
  have hsome : (CacheOp.add key val).addedTo key = some val := if_pos rfl
  unfold lastAdded
  rw [List.findSome?_cons, hsome]

theorem pairwise_older (h : l.Pairwise fun k k' => age hist k < age hist k')
    (hnot : ∀ k ∈ l, op.uses k = false) :
    l.Pairwise fun k k' => age (op :: hist) k < age (op :: hist) k' := by
  refine h.imp_of_mem fun hk hk' hlt => ?_
  rw [age_of_not_uses (hnot _ hk), age_of_not_uses (hnot _ hk')]
  exact Nat.succ_lt_succ hlt

/-- The key that an operation uses comes in front of the others. -/
theorem pairwise_newest (h : l.Pairwise fun k k' => age hist k < age hist k')
    (huses : op.uses key = true) (hnot : ∀ k ∈ l, op.uses k = false) :
    (key :: l).Pairwise fun k k' => age (op :: hist) k < age (op :: hist) k' := by
  refine .cons (fun k hk => ?_) (pairwise_older h hnot)
  rw [age_of_uses huses, age_of_not_uses (hnot k hk)]
  exact Nat.succ_pos _

end history

/-! ## The invariant -/

namespace PriorityCache
variable {K V : Type} [DecidableEq K] {hist : List (CacheOp K V)} {c : PriorityCache K V}

/-- The list has the keys of the map by the time of their last use, and the map the last values. -/
structure Inv (hist : List (CacheOp K V)) (c : PriorityCache K V) : Prop where
  positive : 1 ≤ c.top.toInt
  compares : ∀ f, c.keyComparator = some f → ∀ a b, f a b = true ↔ a = b
  nodup : c.priority.Nodup
  same : ∀ k, k ∈ c.priority ↔ k ∈ c.elements
  size_le : (c.size : ℤ) ≤ c.top.toInt
  recent : c.priority.Pairwise fun k k' => age hist k < age hist k'
  value : ∀ k ∈ c.elements, c.elements.lookup k = lastAdded hist k

theorem findPriority_eq {f : K → K → Bool} (hf : c.keyComparator = some f)
    (heq : ∀ a b, f a b = true ↔ a = b) (key : K) : c.findPriority key = c.priority.idxOf key := by
  unfold findPriority List.idxOf
  rw [hf]
  congr 1
  funext k
  rw [Bool.eq_iff_iff, heq, beq_iff_eq, eq_comm]

/-- With and without a comparator the key is taken out of the list. -/
theorem erasePriority_eq (hc : ∀ f, c.keyComparator = some f → ∀ a b, f a b = true ↔ a = b)
    (hnodup : c.priority.Nodup) (key : K) :
    c.erasePriority key = { c with priority := c.priority.erase key } := by
  unfold erasePriority
  split
  · have hfilter : c.priority.filter (· ≠ key) = c.priority.filter (· != key) :=
      List.filter_congr fun k _ => by simp only [ne_eq, decide_not, bne, beq_eq_decide]
    rw [hnodup.erase_eq_filter, hfilter]
  · next f hf =>
    have hplace := findPriority_eq hf (hc f hf) key
    dsimp only
    rw [hplace]
    split_ifs with hend
    · rw [← List.erase_eq_eraseIdx_of_idxOf rfl]
    · rw [List.erase_of_not_mem (List.idxOf_eq_length_iff.1 (not_not.1 hend))]

theorem Inv.size_eq (h : Inv hist c) : c.size = c.priority.length := by
  have hperm : c.elements.keys.Perm c.priority := by
    rw [List.perm_ext_iff_of_nodup c.elements.keys_nodup h.nodup]
    intro k
    rw [h.same]
    exact AList.mem_keys.symm
  exact hperm.length_eq

/-- The test on the list is one on the number of keys. -/
theorem Inv.full_iff (h : Inv hist c) : c.full = true ↔ (c.size : ℤ) = c.top.toInt := by
  have hpos := h.positive
  have hlt := c.top.toInt_lt
  have hmod : c.top.toInt % 2 ^ 64 = c.top.toInt := Int.emod_eq_of_lt (by omega) (by omega)
  unfold full
  rw [decide_eq_true_iff, hmod, h.size_eq]

theorem Inv.erase_eq (h : Inv hist c) (key : K) : c.erase key =
    { c with elements := c.elements.erase key, priority := c.priority.erase key } := by
  unfold erase
  rw [erasePriority_eq]
  · exact h.compares
  · exact h.nodup

theorem Inv.erase (h : Inv hist c) (key : K) : Inv hist (c.erase key) := by
  rw [h.erase_eq]
  exact
    { positive := h.positive
      compares := h.compares
      nodup := h.nodup.erase key
      same := fun k => by rw [h.nodup.mem_erase_iff, h.same, AList.mem_erase]
      size_le := by
        have hle : (c.elements.erase key).keys.length ≤ c.elements.keys.length := by
          rw [AList.keys_erase]
          exact List.length_erase_le
        have hsize := h.size_le
        unfold size at hsize
        change ((c.elements.erase key).keys.length : ℤ) ≤ c.top.toInt
        omega
      recent := h.recent.erase key
      value := fun k hk => by
        rcases AList.mem_erase.1 hk with ⟨hne, hk⟩
        rw [← h.value k hk]
        exact AList.lookup_erase_ne hne }

/-- An operation that uses none of the keys makes all of them older. -/
theorem Inv.older (h : Inv hist c) {op : CacheOp K V}
    (hnot : ∀ k ∈ c.elements, op.uses k = false) : Inv (op :: hist) c where
  positive := h.positive
  compares := h.compares
  nodup := h.nodup
  same := h.same
  size_le := h.size_le
  recent := pairwise_older h.recent fun k hk => hnot k ((h.same k).1 hk)
  value k hk := by rw [lastAdded_of_not_uses (hnot k hk), h.value k hk]

/-- A new key comes to the front of the list. -/
theorem Inv.push (h : Inv hist c) {key : K} (hnew : key ∉ c.elements)
    (hroom : (c.size : ℤ) < c.top.toInt) (val : V) :
    Inv (.add key val :: hist) { c with
      elements := c.elements.insert key val, priority := key :: c.priority } := by
  have hnot : ∀ k ∈ c.elements, (CacheOp.add key val).uses k = false := by
    intro k hk
    exact decide_eq_false fun heq => hnew (heq ▸ hk)
  have huses : (CacheOp.add key val).uses key = true := decide_eq_true rfl
  exact
    { positive := h.positive
      compares := h.compares
      nodup := .cons (fun hk => hnew ((h.same key).1 hk)) h.nodup
      same := fun k => by rw [List.mem_cons, h.same, AList.mem_insert]
      size_le := by
        have hkeys := congrArg List.length (AList.keys_insert (b := val) (a := key) c.elements)
        rw [List.length_cons, List.erase_of_not_mem (mt AList.mem_keys.2 hnew)] at hkeys
        unfold size at hroom
        change ((c.elements.insert key val).keys.length : ℤ) ≤ c.top.toInt
        omega
      recent := pairwise_newest h.recent huses fun k hk => hnot k ((h.same k).1 hk)
      value := fun k hk => by
        rcases (AList.mem_insert _).1 hk with rfl | hk
        · rw [AList.lookup_insert, lastAdded_add]
        · have hne : k ≠ key := fun heq => hnew (heq ▸ hk)
          rw [AList.lookup_insert_ne hne, lastAdded_of_not_uses (hnot k hk), h.value k hk] }

/-- A key that is read comes to the front of the list. -/
theorem Inv.touch (h : Inv hist c) {key : K} (hkey : key ∈ c.elements) :
    Inv (.get key :: hist) { c with priority := key :: c.priority.erase key } := by
  have hnot : ∀ k ∈ c.priority.erase key, (CacheOp.get (V := V) key).uses k = false := by
    intro k hk
    exact decide_eq_false fun heq => (h.nodup.mem_erase_iff.1 hk).1 heq.symm
  have huses : (CacheOp.get (V := V) key).uses key = true := decide_eq_true rfl
  exact
    { positive := h.positive
      compares := h.compares
      nodup := .cons h.nodup.not_mem_erase (h.nodup.erase key)
      same := fun k => by
        rw [List.mem_cons, h.nodup.mem_erase_iff, h.same]
        constructor
        · rintro (rfl | ⟨-, hk⟩)
          · exact hkey
          · exact hk
        · intro hk
          by_cases hk' : k = key
          · exact .inl hk'
          · exact .inr ⟨hk', hk⟩
      size_le := h.size_le
      recent := pairwise_newest (h.recent.erase key) huses hnot
      value := fun k hk => h.value k hk }

/-- The last key of the list is the oldest one, and the only one. -/
theorem Inv.oldest_iff (h : Inv hist c) {front : List K} {last : K}
    (hlast : c.priority = front ++ [last]) (k : K) : Oldest hist c k ↔ k = last := by
  have hrecent := h.recent
  rw [hlast, List.pairwise_append] at hrecent
  have hmem : last ∈ c.elements := by
    rw [← h.same, hlast]
    exact List.mem_append_right _ (List.mem_singleton_self last)
  have hbehind : ∀ k' ∈ c.elements, k' = last ∨ age hist k' < age hist last := by
    intro k' hk'
    rw [← h.same, hlast] at hk'
    rcases List.mem_append.1 hk' with hfront | hend
    · exact .inr (hrecent.2.2 k' hfront last (List.mem_singleton_self last))
    · exact .inl (List.mem_singleton.1 hend)
  constructor
  · rintro ⟨hk, hold⟩
    rcases hbehind k hk with heq | hlt
    · exact heq
    · exact absurd (hold last hmem) (not_le.2 hlt)
  · rintro rfl
    refine ⟨hmem, fun k' hk' => ?_⟩
    rcases hbehind k' hk' with rfl | hlt
    · exact le_rfl
    · exact Nat.le_of_lt hlt

theorem Inv.exists_oldest (h : Inv hist c) {key : K} (hkey : key ∈ c.elements) :
    ∃ k, Oldest hist c k := by
  have hne : c.priority ≠ [] := List.ne_nil_of_mem ((h.same key).2 hkey)
  obtain ⟨front, last, hlast⟩ := (List.eq_nil_or_concat' c.priority).resolve_left hne
  exact ⟨last, (h.oldest_iff hlast last).2 rfl⟩

theorem Inv.oldest_unique (h : Inv hist c) {k k' : K} (hk : Oldest hist c k)
    (hk' : Oldest hist c k') : k = k' := by
  have hne : c.priority ≠ [] := List.ne_nil_of_mem ((h.same k).2 hk.1)
  obtain ⟨front, last, hlast⟩ := (List.eq_nil_or_concat' c.priority).resolve_left hne
  rw [(h.oldest_iff hlast k).1 hk, (h.oldest_iff hlast k').1 hk']

theorem Inv.erase_mem (h : Inv hist c) (key k : K) :
    k ∈ (c.erase key).elements ↔ k ≠ key ∧ k ∈ c.elements := by
  rw [h.erase_eq]
  exact AList.mem_erase

theorem Inv.size_erase_le (h : Inv hist c) (key : K) : (c.erase key).size ≤ c.size := by
  rw [(h.erase key).size_eq, h.size_eq, h.erase_eq]
  exact List.length_erase_le

/-- A full cache loses its oldest key. -/
theorem Inv.makeRoom (h : Inv hist c) : ∃ c1, c.makeRoom = some c1 ∧ Inv hist c1 ∧ c1.top = c.top ∧
    (c1.size : ℤ) < c.top.toInt ∧ ∀ k, k ∈ c1.elements ↔
      k ∈ c.elements ∧ ¬ ((c.size : ℤ) = c.top.toInt ∧ Oldest hist c k) := by
  unfold PriorityCache.makeRoom
  by_cases hfull : c.full = true
  · have hsize := h.full_iff.1 hfull
    have hpos := h.positive
    have hlength := h.size_eq
    have hne : c.priority ≠ [] := by
      intro hnil
      rw [hnil, List.length_nil] at hlength
      omega
    obtain ⟨front, last, hlast⟩ := (List.eq_nil_or_concat' c.priority).resolve_left hne
    have hmem : last ∈ c.priority := by
      rw [hlast]
      exact List.mem_append_right _ (List.mem_singleton_self last)
    have hroom : (c.erase last).size = c.priority.length - 1 := by
      rw [(h.erase last).size_eq, h.erase_eq]
      exact List.length_erase_of_mem hmem
    refine ⟨c.erase last, ?_, h.erase last, ?_, ?_, fun k => ?_⟩
    · rw [if_pos hfull, hlast, List.getLast?_concat]
      rfl
    · rw [h.erase_eq]
    · omega
    · rw [h.erase_mem, h.oldest_iff hlast]
      constructor
      · rintro ⟨hk, hmem⟩
        exact ⟨hmem, fun hold => hk hold.2⟩
      · rintro ⟨hmem, hnot⟩
        exact ⟨fun heq => hnot ⟨hsize, heq⟩, hmem⟩
  · have hsize := mt h.full_iff.2 hfull
    have hle := h.size_le
    refine ⟨c, if_neg hfull, h, rfl, ?_, fun k => ?_⟩
    · omega
    · exact (and_iff_left fun hold => hsize hold.1).symm

/-- Adding a key makes room first, whether the key is there or not. -/
theorem Inv.add (h : Inv hist c) (key : K) (val : V) : ∃ c', c.add key val = some c' ∧
    Inv (.add key val :: hist) c' ∧ c'.top = c.top ∧
    ∀ k, k ∈ c'.elements ↔
      k = key ∨ k ∈ c.elements ∧ ¬ ((c.size : ℤ) = c.top.toInt ∧ Oldest hist c k) := by
  rcases h.makeRoom with ⟨c1, hc1, h1, htop, hroom, hmem⟩
  have h2 := h1.erase key
  have htop2 : (c1.erase key).top = c.top := by
    rw [h1.erase_eq]
    exact htop
  have hnew : key ∉ (c1.erase key).elements := fun hk => ((h1.erase_mem key key).1 hk).1 rfl
  have hroom2 : ((c1.erase key).size : ℤ) < (c1.erase key).top.toInt := by
    have hle := h1.size_erase_le key
    rw [htop2]
    omega
  refine ⟨_, ?_, h2.push hnew hroom2 val, htop2, fun k => ?_⟩
  · unfold PriorityCache.add
    rw [hc1, Option.bind_eq_bind, Option.bind_some]
    dsimp only
    rw [if_neg hnew]
  · rw [AList.mem_insert, h1.erase_mem, hmem]
    constructor
    · rintro (heq | ⟨-, hk⟩)
      · exact .inl heq
      · exact .inr hk
    · rintro (heq | hk)
      · exact .inl heq
      · by_cases heq : k = key
        · exact .inl heq
        · exact .inr ⟨heq, hk⟩

theorem Inv.get (h : Inv hist c) (key : K) : Inv (.get key :: hist) (c.get key).2 ∧
    (c.get key).1 = (if key ∈ c.elements then lastAdded hist key else none) ∧
    (c.get key).2.top = c.top ∧ (c.get key).2.elements = c.elements := by
  unfold PriorityCache.get
  cases hval : c.elements.lookup key with
  | none =>
    have hnot := AList.lookup_eq_none.1 hval
    have hold : Inv (.get key :: hist) c :=
      h.older fun k hk => decide_eq_false fun heq => hnot (heq ▸ hk)
    exact ⟨hold, (if_neg hnot).symm, rfl, rfl⟩
  | some val =>
    have hkey : key ∈ c.elements := AList.lookup_isSome.1 (by rw [hval]; rfl)
    dsimp only
    rw [erasePriority_eq h.compares h.nodup, if_pos hkey, ← h.value key hkey, hval]
    exact ⟨h.touch hkey, rfl, rfl, rfl⟩

end PriorityCache

/-! ## Runs -/

section runs
variable {K V : Type} [DecidableEq K] {hist : List (CacheOp K V)} {c c' : PriorityCache K V}
variable {op : CacheOp K V} {result : Option V}

open PriorityCache

/-- What every operation does. -/
theorem Lru.of_inv (h : Inv (op :: hist) c') (htop : c'.top = c.top)
    (hgot : ∀ key, op = .get key → result = if key ∈ c.elements then lastAdded hist key else none)
    (hadded : ∀ key val, op = .add key val → key ∈ c'.elements)
    (herased : ∀ key, op = .erase key → key ∉ c'.elements)
    (henters : ∀ k ∈ c'.elements, k ∈ c.elements ∨ ∃ val, op = .add k val)
    (hleaves : ∀ k ∈ c.elements, k ∉ c'.elements → op = .erase k ∨ ∃ key val,
      op = .add key val ∧ key ∉ c.elements ∧ (c.size : ℤ) = c.top.toInt ∧ Oldest hist c k) :
    Lru hist c op result c' :=
  ⟨h.nodup, h.same, htop, htop ▸ h.size_le, hgot, hadded, herased, henters, hleaves⟩

/-- An added key that was there and is not the oldest one would cost the cache its oldest key. -/
theorem PriorityCache.Inv.add_isLru_iff (h : Inv hist c) {key : K} {val : V}
    (hinv : Inv (.add key val :: hist) c') (htop : c'.top = c.top)
    (hmem : ∀ k, k ∈ c'.elements ↔
      k = key ∨ k ∈ c.elements ∧ ¬ ((c.size : ℤ) = c.top.toInt ∧ Oldest hist c k)) :
    Lru hist c (.add key val) none c' ↔ (CacheOp.add key val).Clear hist c := by
  constructor
  · intro hlru hkey hfull
    obtain ⟨old, hold⟩ := h.exists_oldest hkey
    by_cases heq : old = key
    · exact heq ▸ hold
    -- the oldest key left although the added one was there
    · have hleft : old ∉ c'.elements := by
        intro hk
        rcases (hmem old).1 hk with hkey' | ⟨-, hstay⟩
        · exact heq hkey'
        · exact hstay ⟨hfull, hold⟩
      rcases hlru.leaves old hold.1 hleft with herase | ⟨_, _, hadd, hnew, -⟩
      · cases herase
      · cases hadd
        exact absurd hkey hnew
  · intro hclear
    apply Lru.of_inv hinv htop
    · rintro key' ⟨⟩
    · rintro _ _ ⟨⟩
      exact (hmem key).2 (.inl rfl)
    · rintro key' ⟨⟩
    · intro k hk
      rcases (hmem k).1 hk with rfl | ⟨hk, -⟩
      · exact .inr ⟨val, rfl⟩
      · exact .inl hk
    · intro k hk hleft
      have hne : k ≠ key := fun heq => hleft ((hmem k).2 (.inl heq))
      have hout : (c.size : ℤ) = c.top.toInt ∧ Oldest hist c k := by
        by_contra hstay
        exact hleft ((hmem k).2 (.inr ⟨hk, hstay⟩))
      refine .inr ⟨key, val, rfl, fun hkey => hne ?_, hout⟩
      exact h.oldest_unique hout.2 (hclear hkey hout.1)

theorem PriorityCache.Inv.get_isLru (h : Inv hist c) (key : K) :
    Lru hist c (.get key) (c.get key).1 (c.get key).2 := by
  rcases h.get key with ⟨hinv, hgot, htop, helements⟩
  apply Lru.of_inv hinv htop
  · rintro key' ⟨⟩
    exact hgot
  · rintro key' val ⟨⟩
  · rintro key' ⟨⟩
  · intro k hk
    rw [helements] at hk
    exact .inl hk
  · intro k hk hnot
    rw [helements] at hnot
    exact absurd hk hnot

theorem PriorityCache.Inv.erased (h : Inv hist c) (key : K) :
    Inv (.erase key :: hist) (c.erase key) := (h.erase key).older fun _ _ => rfl

theorem PriorityCache.Inv.erase_isLru (h : Inv hist c) (key : K) :
    Lru hist c (.erase key) none (c.erase key) := by
  have hmem := h.erase_mem key
  apply Lru.of_inv (h.erased key)
  · rw [h.erase_eq]
  · rintro key' ⟨⟩
  · rintro key' val ⟨⟩
  · rintro key' ⟨⟩ hk
    exact ((hmem key).1 hk).1 rfl
  · intro k hk
    exact .inl ((hmem k).1 hk).2
  · intro k hk hnot
    left
    by_contra hne
    exact hnot ((hmem k).2 ⟨fun heq => hne (heq ▸ rfl), hk⟩)

/-- Each operation keeps the invariant, and is one of an LRU cache if it meets its condition. -/
theorem PriorityCache.Inv.step (h : Inv hist c) (op : CacheOp K V) : ∃ result c',
    op.run c = some (result, c') ∧ Inv (op :: hist) c' ∧
      (Lru hist c op result c' ↔ op.Clear hist c) := by
  cases op with
  | add key val =>
    rcases h.add key val with ⟨c', hadd, hinv, htop, hmem⟩
    have hrun : (CacheOp.add key val).run c = some (none, c') := congrArg (Option.map _) hadd
    exact ⟨none, c', hrun, hinv, h.add_isLru_iff hinv htop hmem⟩
  | get key => exact ⟨_, _, rfl, (h.get key).1, iff_of_true (h.get_isLru key) trivial⟩
  | erase key => exact ⟨none, _, rfl, h.erased key, iff_of_true (h.erase_isLru key) trivial⟩

/-- A run is one of an LRU cache exactly if all of its operations meet their conditions. -/
theorem PriorityCache.Inv.run_isLru (h : Inv hist c) (ops : List (CacheOp K V)) :
    IsLru ops hist c ↔ ClearRun ops hist c := by
  induction ops generalizing hist c with
  | nil => exact Iff.rfl
  | cons op ops ih =>
    rcases h.step op with ⟨result, c', hrun, hinv, hstep⟩
    constructor
    · rintro ⟨result', c'', hrun', hlru, htail⟩
      cases hrun.symm.trans hrun'
      refine ⟨hstep.1 hlru, fun result' c'' hrun' => ?_⟩
      cases hrun.symm.trans hrun'
      exact (ih hinv).1 htail
    · rintro ⟨hclear, htail⟩
      exact ⟨result, c', hrun, hstep.2 hclear, (ih hinv).2 (htail result c' hrun)⟩

theorem PriorityCache.Inv.new {top : Int32} (htop : 1 ≤ top.toInt)
    {keyComparator : Option (K → K → Bool)}
    (hcmp : ∀ f, keyComparator = some f → ∀ a b, f a b = true ↔ a = b) :
    Inv [] (PriorityCache.new (V := V) top keyComparator) where
  positive := htop
  compares := hcmp
  nodup := .nil
  same _ := iff_of_false List.not_mem_nil (AList.notMem_empty _)
  size_le := show (0 : ℤ) ≤ top.toInt by omega
  recent := .nil
  value k hk := absurd hk (AList.notMem_empty k)

/-- `PriorityCache` is an LRU cache exactly as long as every key that is added again to the full
cache is the oldest one. -/
theorem PriorityCache.new_isLru_iff (top : Int32) (htop : 1 ≤ top.toInt)
    (keyComparator : Option (K → K → Bool))
    (hcmp : ∀ f, keyComparator = some f → ∀ a b, f a b = true ↔ a = b)
    (ops : List (CacheOp K V)) :
    IsLru ops [] (.new top keyComparator) ↔ ClearRun ops [] (.new top keyComparator) :=
  (Inv.new htop hcmp).run_isLru ops

end runs

/-- A cache of two keys in which the third one takes the place of the second. -/
theorem PriorityCache.three_isLru : IsLru [.add 1 10, .add 2 20, .get 1, .add 3 30] []
    (PriorityCache.new 2 none : PriorityCache ℕ ℕ) := by
  refine (new_isLru_iff 2 (by decide) none nofun _).2 ?_
  refine ⟨fun hkey => absurd hkey (by decide), fun _ _ hrun => ?_⟩
  cases hrun
  refine ⟨fun hkey => absurd hkey (by decide), fun _ _ hrun => ?_⟩
  cases hrun
  refine ⟨trivial, fun _ _ hrun => ?_⟩
  cases hrun
  exact ⟨fun hkey => absurd hkey (by decide), fun _ _ _ => trivial⟩

/-- In a full cache of two keys the second one is added again, and the first one is gone. -/
theorem PriorityCache.not_isLru : ¬ ∀ ops : List (CacheOp ℕ ℕ),
    IsLru ops [] (PriorityCache.new 2 none) := by
  intro h
  rcases h [.add 1 10, .add 2 20, .add 2 21] with ⟨_, _, hrun, -, htail⟩
  cases hrun
  rcases htail with ⟨_, _, hrun, -, htail⟩
  cases hrun
  rcases htail with ⟨_, _, hrun, hlru, -⟩
  cases hrun
  rcases hlru.leaves 1 (by decide) (by decide) with herase | ⟨_, _, hadd, hnew, -⟩
  · nomatch herase
  · cases hadd
    exact hnew (by decide)

end Djondb
