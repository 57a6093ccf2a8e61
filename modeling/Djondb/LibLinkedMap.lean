import Mathlib.Data.List.Nodup
import Mathlib.Tactic.Common
import Mathlib.Tactic.SplitIfs

set_option autoImplicit false

/-!
# Maps that keep the order of insertion

A key that is added again moves to the end.
-/

structure LinkedMap (K V : Type) where
  entries : List (K × V)
  nodup : (entries.map Prod.fst).Nodup

namespace LinkedMap
variable {K V W : Type}

theorem ext_entries {l l' : LinkedMap K V} (h : l.entries = l'.entries) : l = l' := by
  cases l
  cases l'
  congr

def empty : LinkedMap K V := ⟨[], List.nodup_nil⟩

def values (l : LinkedMap K V) : List V := l.entries.map Prod.snd

def mapValues (f : V → W) (l : LinkedMap K V) : LinkedMap K W where
  entries := l.entries.map fun e => (e.1, f e.2)
  nodup := by simpa [Function.comp_def] using l.nodup

@[simp] theorem mapValues_empty (f : V → W) : mapValues f (empty : LinkedMap K V) = empty := rfl

@[simp] theorem values_length (l : LinkedMap K V) : l.values.length = l.entries.length :=
  List.length_map _

section operations
variable [DecidableEq K]

def erase (key : K) (l : LinkedMap K V) : LinkedMap K V where
  entries := l.entries.filter (·.1 ≠ key)
  nodup := l.nodup.sublist (List.filter_sublist.map _)

def add (key : K) (val : V) (l : LinkedMap K V) : LinkedMap K V where
  entries := (l.erase key).entries ++ [(key, val)]
  nodup := by
    rw [List.map_append]
    apply (l.erase key).nodup.append (List.nodup_singleton key)
    simp [List.disjoint_singleton, erase]

def get (key : K) (l : LinkedMap K V) : Option V :=
  (l.entries.find? (·.1 = key)).map Prod.snd

theorem get_eq_some {key : K} {val : V} {l : LinkedMap K V} :
    l.get key = some val ↔ (key, val) ∈ l.entries := by
  unfold get
  constructor
  · intro h
    rcases Option.map_eq_some_iff.1 h with ⟨e, he, rfl⟩
    have hkey : e.1 = key := by simpa using List.find?_some he
    rw [← hkey]
    exact List.mem_of_find?_eq_some he
  · intro h
    cases hfind : l.entries.find? (·.1 = key) with
    | none => simpa using List.find?_eq_none.1 hfind _ h
    | some e =>
      have hkey : e.1 = key := by simpa using List.find?_some hfind
      have he := List.inj_on_of_nodup_map l.nodup (List.mem_of_find?_eq_some hfind) h hkey
      rw [he]
      rfl

@[simp] theorem get_empty (key : K) : (empty : LinkedMap K V).get key = none := rfl

/-- Two maps with the same entries under a key have the same value there. -/
theorem get_congr {key key' : K} {l : LinkedMap K V} {l' : LinkedMap K W} {f : V → W}
    (h : ∀ val', (key', val') ∈ l'.entries ↔ ∃ val, (key, val) ∈ l.entries ∧ f val = val') :
    l'.get key' = (l.get key).map f := by
  apply Option.ext
  intro val'
  rw [get_eq_some, h]
  simp [get_eq_some]

theorem get_erase (key other : K) (l : LinkedMap K V) :
    (l.erase key).get other = if other = key then none else l.get other := by
  apply Option.ext
  intro val
  split_ifs with h
  · simp [get_eq_some, erase, h]
  · simp [get_eq_some, erase, h]

theorem get_add (key other : K) (val : V) (l : LinkedMap K V) :
    (l.add key val).get other = if other = key then some val else l.get other := by
  apply Option.ext
  intro val'
  split_ifs with h
  · simpa [get_eq_some, add, erase, h] using eq_comm
  · simp [get_eq_some, add, erase, h]

theorem mem_values {val : V} {l : LinkedMap K V} :
    val ∈ l.values ↔ ∃ key, l.get key = some val := by
  simp [values, get_eq_some]

/-! ## Values -/

theorem mapValues_erase (f : V → W) (key : K) (l : LinkedMap K V) :
    (l.erase key).mapValues f = (l.mapValues f).erase key := by
  apply ext_entries
  simp [mapValues, erase, List.filter_map, Function.comp_def]

theorem mapValues_add (f : V → W) (key : K) (val : V) (l : LinkedMap K V) :
    (l.add key val).mapValues f = (l.mapValues f).add key (f val) := by
  apply ext_entries
  simp [mapValues, add, erase, List.filter_map, Function.comp_def]

theorem get_mapValues (f : V → W) (key : K) (l : LinkedMap K V) :
    (l.mapValues f).get key = (l.get key).map f := by
  apply get_congr
  intro val'
  simp [mapValues]

/-! ## Sizes -/

theorem length_erase_le (key : K) (l : LinkedMap K V) :
    (l.erase key).entries.length ≤ l.entries.length :=
  List.length_filter_le _ _

theorem length_add_le (key : K) (val : V) (l : LinkedMap K V) :
    (l.add key val).entries.length ≤ l.entries.length + 1 := by
  have h := length_erase_le key l
  simp only [add, List.length_append, List.length_singleton]
  omega

/-! ## Adding a list -/

def addList : List (K × V) → LinkedMap K V → LinkedMap K V
  | [], l => l
  | e :: es, l => addList es (l.add e.1 e.2)

theorem add_entries_of_new {key : K} (val : V) {l : LinkedMap K V}
    (h : key ∉ l.entries.map Prod.fst) : (l.add key val).entries = l.entries ++ [(key, val)] := by
  have hall : l.entries.filter (·.1 ≠ key) = l.entries := by
    apply List.filter_eq_self.2
    intro e he
    simpa using fun heq : e.1 = key => h (heq ▸ List.mem_map_of_mem he)
  simp only [add, erase, hall]

theorem addList_entries {es : List (K × V)} {l : LinkedMap K V}
    (h : ((l.entries ++ es).map Prod.fst).Nodup) : (addList es l).entries = l.entries ++ es := by
  induction es generalizing l with
  | nil => exact (List.append_nil _).symm
  | cons e es ih =>
    have hnew : e.1 ∉ l.entries.map Prod.fst := by
      rw [List.map_append, List.map_cons] at h
      intro hmem
      exact (List.nodup_append.1 h).2.2 _ hmem _ List.mem_cons_self rfl
    have hentries := add_entries_of_new e.2 hnew
    have happend : (l.add e.1 e.2).entries ++ es = l.entries ++ e :: es := by
      rw [hentries, List.append_assoc]
      rfl
    have hrest := ih (l := l.add e.1 e.2) (by rw [happend]; exact h)
    rw [addList, hrest, happend]

/-- A map is rebuilt from its entries. -/
theorem addList_empty (l : LinkedMap K V) : addList l.entries empty = l :=
  ext_entries (addList_entries l.nodup)

end operations

end LinkedMap

/-! ## Sequences of operations -/

inductive LinkedMapOp (K V : Type) where
  | add (key : K) (val : V)
  | erase (key : K)
  | clear

section runs
variable {K V : Type} [DecidableEq K]

namespace LinkedMapOp

def run : LinkedMapOp K V → LinkedMap K V → LinkedMap K V
  | add key val, l => l.add key val
  | erase key, l => l.erase key
  | clear, _ => .empty

/-- After the operation nothing is left of an earlier entry for the key. -/
def removes (k : K) : LinkedMapOp K V → Bool
  | add key _ => k = key
  | erase key => k = key
  | clear => true

def runAll : List (LinkedMapOp K V) → LinkedMap K V → LinkedMap K V
  | [], l => l
  | op :: ops, l => runAll ops (op.run l)

/-- The entries that are added and that no later operation removes, in their order. -/
def lastAdds : List (LinkedMapOp K V) → List (K × V)
  | [] => []
  | add key val :: ops =>
    if ops.any (·.removes key) then lastAdds ops else (key, val) :: lastAdds ops
  | _ :: ops => lastAdds ops

theorem run_entries (op : LinkedMapOp K V) (l : LinkedMap K V) :
    (op.run l).entries = l.entries.filter (!op.removes ·.1) ++ lastAdds [op] := by
  have herase : ∀ key, (l.erase key).entries = l.entries.filter fun e => !decide (e.1 = key) :=
    fun key => List.filter_congr fun _ _ => decide_not
  cases op with
  | add key val => exact congrArg (· ++ [(key, val)]) (herase key)
  | erase key => exact (herase key).trans (List.append_nil _).symm
  | clear =>
    have hnone : l.entries.filter (!(clear (V := V)).removes ·.1) = [] :=
      List.filter_eq_nil_iff.2 fun _ _ => nofun
    rw [hnone]
    rfl

theorem lastAdds_cons (op : LinkedMapOp K V) (ops : List (LinkedMapOp K V)) :
    lastAdds (op :: ops) =
      (lastAdds [op]).filter (fun e => !ops.any (·.removes e.1)) ++ lastAdds ops := by
  cases op with
  | add key val =>
    change (if ops.any (·.removes key) then lastAdds ops else (key, val) :: lastAdds ops) =
      [(key, val)].filter (fun e => !ops.any (·.removes e.1)) ++ lastAdds ops
    cases hany : ops.any (·.removes key) with
    | true => simp [hany]
    | false => simp [hany]
  | erase key => rfl
  | clear => rfl

/-- A run keeps the entries it does not remove, and its own last adds come behind them. -/
theorem runAll_entries (ops : List (LinkedMapOp K V)) (l : LinkedMap K V) :
    (runAll ops l).entries =
      l.entries.filter (fun e => !ops.any (·.removes e.1)) ++ lastAdds ops := by
  induction ops generalizing l with
  | nil => simp [runAll, lastAdds]
  | cons op ops ih =>
    have hsplit : l.entries.filter (fun e => !(op :: ops).any (·.removes e.1)) =
        (l.entries.filter (!op.removes ·.1)).filter (fun e => !ops.any (·.removes e.1)) := by
      rw [List.filter_filter]
      refine List.filter_congr fun e _ => ?_
      rw [List.any_cons, Bool.not_or, Bool.and_comm]
    rw [runAll, ih, run_entries, List.filter_append, lastAdds_cons op ops, hsplit,
      List.append_assoc]

theorem runAll_empty (ops : List (LinkedMapOp K V)) :
    (runAll ops LinkedMap.empty).entries = lastAdds ops := runAll_entries ops .empty

end LinkedMapOp

end runs
