import Djondb.BsonObj
import Djondb.LibLinkedMap
import Mathlib.Data.List.AList

set_option autoImplicit false

/-!
# `LinkedMap`

The class has a map and the list of its keys, which `add` and `erase` change side by side. They
show a map that keeps the order of insertion.
-/
namespace Djondb

/-- The members of a `LinkedMap`. -/
structure LinkedMapState (K V : Type) where
  elements : AList fun _ : K => V
  keys : List K
  keyComparator : K → K → Bool

/-- A place in the key list, and a copy of the map. -/
structure LinkedIterator (K V : Type) where
  iterKeys : ℕ
  elements : AList fun _ : K => V

section code
variable {K V : Type}

namespace LinkedIterator

/-- `operator->`: `first` and `second`, where a key that is not in the copy comes into it. There is
nothing to read at the end. -/
def arrow [DecidableEq K] (null : V) (keys : List K) (it : LinkedIterator K V) :
    Option ((K × V) × LinkedIterator K V) :=
  keys[it.iterKeys]?.map fun first =>
    match it.elements.lookup first with
    | some second => ((first, second), it)
    | none => ((first, null), { it with elements := it.elements.insert first null })

def incr (it : LinkedIterator K V) : LinkedIterator K V := { it with iterKeys := it.iterKeys + 1 }

def operatorEq (it b : LinkedIterator K V) : Bool := b.iterKeys = it.iterKeys

end LinkedIterator

namespace LinkedMapState

def new (keyComparator : K → K → Bool) : LinkedMapState K V :=
  ⟨∅, [], keyComparator⟩

def beginIterator (m : LinkedMapState K V) : LinkedIterator K V := ⟨0, m.elements⟩

def endIterator (m : LinkedMapState K V) : LinkedIterator K V := ⟨m.keys.length, m.elements⟩

def clear (m : LinkedMapState K V) : LinkedMapState K V :=
  { m with elements := ∅, keys := [] }

def size (m : LinkedMapState K V) : ℕ := m.elements.keys.length

variable [DecidableEq K]

def erase (key : K) (m : LinkedMapState K V) : LinkedMapState K V :=
  let elements := if key ∈ m.elements then m.elements.erase key else m.elements
  { m with elements := elements, keys := m.keys.eraseP (· = key) }

def add (key : K) (val : V) (m : LinkedMapState K V) : LinkedMapState K V :=
  let m :=
    if key ∈ m.elements then
      { m with
        elements := m.elements.erase key
        keys := m.keys.eraseP fun testKey => m.keyComparator key testKey }
    else m
  { m with elements := m.elements.insert key val, keys := m.keys ++ [key] }

def get (null : V) (key : K) (m : LinkedMapState K V) : V :=
  match m.elements.lookup key with
  | some val => val
  | none => null

def containsKey (key : K) (m : LinkedMapState K V) : Bool := (m.elements.lookup key).isSome

/-- The rounds of `for (it = begin(); it != end(); it++)`, with what each one reads. -/
def iterateFrom (null : V) (m : LinkedMapState K V) :
    ℕ → LinkedIterator K V → Option (List (K × V))
  | 0, _ => none
  | rounds + 1, it =>
    if it.operatorEq m.endIterator then some []
    else do
      let (entry, it) ← it.arrow null m.keys
      let entries ← m.iterateFrom null rounds it.incr
      some (entry :: entries)

/-- The loop ends with the round behind the last key. -/
def iterate (null : V) (m : LinkedMapState K V) : Option (List (K × V)) :=
  m.iterateFrom null (m.keys.length + 1) m.beginIterator

def run : LinkedMapOp K V → LinkedMapState K V → LinkedMapState K V
  | .add key val, m => m.add key val
  | .erase key, m => m.erase key
  | .clear, m => m.clear

def runAll : List (LinkedMapOp K V) → LinkedMapState K V → LinkedMapState K V
  | [], m => m
  | op :: ops, m => runAll ops (m.run op)

end LinkedMapState

/-- The comparator of `BaseTransaction::find`. -/
def compareStrings (s1 s2 : CString) : Bool := compare s1 s2 = .eq

end code

namespace LinkedMapState
variable {K V : Type} [DecidableEq K] {m : LinkedMapState K V} {l : LinkedMap K V}

/-- The list has the keys of `l` in their order, and the map its values. -/
structure Shows (m : LinkedMapState K V) (l : LinkedMap K V) : Prop where
  compares : ∀ a b, m.keyComparator a b = true ↔ a = b
  keys_eq : m.keys = l.entries.map Prod.fst
  lookup_eq : ∀ key, m.elements.lookup key = l.get key

/-- What can be asked of the map, when `entries` are its entries. -/
structure Answers (null : V) (m : LinkedMapState K V) (entries : List (K × V)) : Prop where
  once : (entries.map Prod.fst).Nodup
  iterate_eq : m.iterate null = some entries
  size_eq : m.size = entries.length
  contains_iff : ∀ key, m.containsKey key = true ↔ ∃ val, (key, val) ∈ entries
  get_eq : ∀ key val, (key, val) ∈ entries → m.get null key = val
  get_null : ∀ key, m.containsKey key = false → m.get null key = null

theorem Shows.mem_elements (h : m.Shows l) (key : K) : key ∈ m.elements ↔ key ∈ m.keys := by
  rw [← AList.lookup_isSome, h.lookup_eq, Option.isSome_iff_exists, h.keys_eq]
  constructor
  · rintro ⟨val, hval⟩
    exact List.mem_map_of_mem (LinkedMap.get_eq_some.1 hval)
  · intro hmem
    rcases List.mem_map.1 hmem with ⟨e, he, rfl⟩
    exact ⟨e.2, LinkedMap.get_eq_some.2 he⟩

theorem Shows.nodup (h : m.Shows l) : m.keys.Nodup := h.keys_eq ▸ l.nodup

/-- Taking one key out of the list leaves the keys of the entries that stay. -/
theorem Shows.keys_eraseP (h : m.Shows l) {key : K} {same : K → Bool}
    (hsame : ∀ k, same k = true ↔ k = key) :
    m.keys.eraseP same = (l.erase key).entries.map Prod.fst := by
  have heq : same = (key == ·) := by
    funext k
    rw [Bool.eq_iff_iff, hsame, beq_iff_eq, eq_comm]
  have hfilter : (l.erase key).entries = l.entries.filter ((· != key) ∘ Prod.fst) :=
    List.filter_congr fun e _ => by simp only [ne_eq, decide_not, Function.comp, bne, beq_eq_decide]
  rw [heq, ← List.erase_eq_eraseP, h.nodup.erase_eq_filter, h.keys_eq, List.filter_map, hfilter]

/-- A key that is in the map is taken out of both members. -/
theorem Shows.remove (h : m.Shows l) {key : K} {same : K → Bool}
    (hsame : ∀ k, same k = true ↔ k = key) :
    { m with elements := m.elements.erase key, keys := m.keys.eraseP same }.Shows
      (l.erase key) where
  compares := h.compares
  keys_eq := h.keys_eraseP hsame
  lookup_eq other := by
    rw [LinkedMap.get_erase]
    split_ifs with heq
    · rw [heq, AList.lookup_erase]
    · rw [AList.lookup_erase_ne heq, h.lookup_eq]

theorem Shows.erase_absent (h : m.Shows l) {key : K} (hkey : key ∉ m.elements) :
    l.erase key = l := by
  apply LinkedMap.ext_entries
  apply List.filter_eq_self.2
  intro e he
  apply decide_eq_true
  rintro rfl
  rw [h.mem_elements, h.keys_eq] at hkey
  exact hkey (List.mem_map_of_mem he)

theorem Shows.erase (h : m.Shows l) (key : K) : (m.erase key).Shows (l.erase key) := by
  have hsame : ∀ k, decide (k = key) = true ↔ k = key := fun _ => decide_eq_true_iff
  unfold LinkedMapState.erase
  split_ifs with hkey
  · exact h.remove hsame
  · refine ⟨h.compares, h.keys_eraseP hsame, fun other => ?_⟩
    rw [h.erase_absent hkey]
    exact h.lookup_eq other

/-- A new key comes to the end. -/
theorem Shows.push {key : K} (h : m.Shows (l.erase key)) (val : V) :
    { m with elements := m.elements.insert key val, keys := m.keys ++ [key] }.Shows
      (l.add key val) where
  compares := h.compares
  keys_eq := by
    change m.keys ++ [key] = ((l.erase key).entries ++ [(key, val)]).map Prod.fst
    rw [List.map_append, ← h.keys_eq]
    rfl
  lookup_eq other := by
    have hold := h.lookup_eq other
    rw [LinkedMap.get_erase] at hold
    rw [LinkedMap.get_add]
    split_ifs at hold ⊢ with heq
    · rw [heq, AList.lookup_insert]
    · rw [AList.lookup_insert_ne heq, hold]

theorem Shows.add (h : m.Shows l) (key : K) (val : V) : (m.add key val).Shows (l.add key val) := by
  have hsame : ∀ k, m.keyComparator key k = true ↔ k = key :=
    fun k => (h.compares key k).trans eq_comm
  unfold LinkedMapState.add
  split_ifs with hkey
  · exact (h.remove hsame).push val
  · have hkept : m.Shows (l.erase key) := by
      rw [h.erase_absent hkey]
      exact h
    exact hkept.push val

theorem Shows.empty (h : ∀ a b, m.keyComparator a b = true ↔ a = b) :
    m.clear.Shows .empty :=
  ⟨h, rfl, fun _ => rfl⟩

/-- Each operation does to the class what it does to the map that keeps the order. -/
theorem Shows.run (h : m.Shows l) (op : LinkedMapOp K V) : (m.run op).Shows (op.run l) := by
  cases op with
  | add key val => exact h.add key val
  | erase key => exact h.erase key
  | clear => exact .empty h.compares

theorem Shows.runAll (h : m.Shows l) (ops : List (LinkedMapOp K V)) :
    (m.runAll ops).Shows (LinkedMapOp.runAll ops l) := by
  induction ops generalizing m l with
  | nil => exact h
  | cons op ops ih => exact ih (h.run op)

/-! ## Reading -/

theorem Shows.size_eq (h : m.Shows l) : m.size = l.entries.length := by
  have hperm : m.elements.keys.Perm m.keys := by
    rw [List.perm_ext_iff_of_nodup m.elements.keys_nodup h.nodup]
    intro key
    rw [← h.mem_elements]
    exact AList.mem_keys.symm
  rw [size, hperm.length_eq, h.keys_eq, List.length_map]

/-- The loop from one place on reads the entries from there on. -/
theorem Shows.iterateFrom_eq (h : m.Shows l) (null : V) {rounds i : ℕ}
    (hrounds : l.entries.length < i + rounds) (hi : i ≤ l.entries.length) :
    m.iterateFrom null rounds ⟨i, m.elements⟩ = some (l.entries.drop i) := by
  have hlength : m.keys.length = l.entries.length := by rw [h.keys_eq, List.length_map]
  induction rounds generalizing i with
  | zero => omega
  | succ rounds ih =>
    unfold iterateFrom
    by_cases hend : i = l.entries.length
    · have hlast : (⟨i, m.elements⟩ : LinkedIterator K V).operatorEq m.endIterator = true :=
        decide_eq_true (hlength.trans hend.symm)
      rw [if_pos hlast, hend, List.drop_length]
    · have hlt : i < l.entries.length := by omega
      have hmore : ¬ (⟨i, m.elements⟩ : LinkedIterator K V).operatorEq m.endIterator = true := by
        intro hlast
        exact hend ((of_decide_eq_true hlast).symm.trans hlength)
      have hkey : m.keys[i]? = some l.entries[i].1 := by
        rw [h.keys_eq, List.getElem?_map, List.getElem?_eq_getElem hlt]
        rfl
      have hval : m.elements.lookup l.entries[i].1 = some l.entries[i].2 := by
        rw [h.lookup_eq, LinkedMap.get_eq_some]
        exact List.getElem_mem hlt
      have harrow : (⟨i, m.elements⟩ : LinkedIterator K V).arrow null m.keys =
          some (l.entries[i], ⟨i, m.elements⟩) := by
        unfold LinkedIterator.arrow
        rw [hkey, Option.map_some, hval]
      have hrest := ih (by omega : l.entries.length < i + 1 + rounds) (by omega)
      rw [if_neg hmore, harrow, List.drop_eq_getElem_cons hlt]
      change (m.iterateFrom null rounds ⟨i + 1, m.elements⟩ >>= fun entries =>
        some (l.entries[i] :: entries)) = some (l.entries[i] :: l.entries.drop (i + 1))
      rw [hrest]
      rfl

theorem Shows.answers (h : m.Shows l) (null : V) : m.Answers null l.entries where
  once := l.nodup
  iterate_eq := by
    have hlength : m.keys.length = l.entries.length := by rw [h.keys_eq, List.length_map]
    exact h.iterateFrom_eq null (by omega) (Nat.zero_le _)
  size_eq := h.size_eq
  contains_iff key := by
    unfold containsKey
    rw [h.lookup_eq, Option.isSome_iff_exists]
    exact exists_congr fun _ => LinkedMap.get_eq_some
  get_eq key val hmem := by
    unfold get
    rw [h.lookup_eq, LinkedMap.get_eq_some.2 hmem]
  get_null key hnot := by
    have hnone : m.elements.lookup key = none :=
      Option.isNone_iff_eq_none.1 (Option.isSome_eq_false_iff.1 hnot)
    unfold get
    rw [hnone]

/-- After any operations the map has the last adds of its live keys, in their order. -/
theorem runAll_answers (null : V) (keyComparator : K → K → Bool)
    (h : ∀ a b, keyComparator a b = true ↔ a = b) (ops : List (LinkedMapOp K V)) :
    ((new keyComparator).runAll ops).Answers null (LinkedMapOp.lastAdds ops) := by
  have hnew : (new (V := V) keyComparator).clear.Shows .empty := .empty h
  rw [← LinkedMapOp.runAll_empty]
  exact (hnew.runAll ops).answers null

end LinkedMapState

theorem compareStrings_iff (s1 s2 : CString) : compareStrings s1 s2 = true ↔ s1 = s2 :=
  decide_eq_true_iff.trans compare_eq_iff_eq

/-- A key that is added again comes behind the others, and one that is erased is gone. -/
theorem LinkedMapState.strings_answers :
    ((LinkedMapState.new compareStrings).runAll
      [.add (.ofBytes [97]) 1, .add (.ofBytes [98]) 2, .add (.ofBytes [99]) 3,
        .add (.ofBytes [97]) 4, .erase (.ofBytes [98])]).Answers 0
      [(.ofBytes [99], 3), (.ofBytes [97], 4)] :=
  LinkedMapState.runAll_answers 0 compareStrings compareStrings_iff _

end Djondb
