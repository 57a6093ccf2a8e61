import Djondb.BSONBufferedObj

set_option autoImplicit false

/-!
# `IndexFactory`

The factory keeps the indexes of a namespace in a vector and tells them apart by their key sets.
Two key sets are compared element by element, in `findIndex` and again in `dropIndex`; the loop of
`dropIndex` has no exit for a side that ends first.
-/
namespace Djondb

/-- `std::set<std::string>`, from the smallest key up. -/
structure KeySet where
  keys : List CString
  ascending : keys.Pairwise (· < ·)
  deriving DecidableEq

theorem KeySet.ext_keys {a b : KeySet} (h : a.keys = b.keys) : a = b := by
  cases a
  cases b
  cases h
  rfl

/-- What the factory uses of an index: the file that it was opened on and `_keys`. -/
structure IndexAlgorithm where
  fileName : List UInt8
  keys : KeySet
  deriving DecidableEq

/-- `_indexes`: for each database the namespaces, for each of them the vector of its indexes. -/
structure IndexFactory where
  indexes : CString → Option (CString → Option (List IndexAlgorithm))

namespace IndexFactory

/-! ## Comparing key sets -/

/-- The loop of `findIndex`. -/
def sameKeys : List CString → List CString → Bool
  | key1 :: keys, key2 :: implKeys =>
    if key1 ≠ key2 then false
    -- get to the end of both sides and all the keys are equal
    else if keys = [] ∧ implKeys = [] then true
    else sameKeys keys implKeys
  | _, _ => false

def findIndex (algs : List IndexAlgorithm) (keys : KeySet) : Option IndexAlgorithm :=
  algs.find? fun impl => sameKeys keys.keys impl.keys.keys

/-- The loop of `dropIndex`; with a side at its end it goes round without a step. -/
def dropLoop : ℕ → List CString → List CString → Option Bool
  | 0, _, _ => none
  | fuel + 1, key1 :: keys, key2 :: implKeys =>
    if key1 ≠ key2 then some false
    else if keys = [] ∧ implKeys = [] then some true
    else dropLoop fuel keys implKeys
  | fuel + 1, keys, implKeys => dropLoop fuel keys implKeys

/-- `dropIndex` from position `i` of the vector on. After `erase` the iterator is at the element
that has moved up, and `i++` passes over it. -/
def dropFrom (keys : KeySet) : ℕ → List IndexAlgorithm → ℕ → Option (Outcome (List IndexAlgorithm))
  | 0, _, _ => none
  | fuel + 1, algs, i =>
    if i = algs.length then some (.value algs)
    else match algs[i]? with
      -- behind the end
      | none => some .undefined
      | some impl => do
        let erased ← dropLoop fuel keys.keys impl.keys.keys
        dropFrom keys fuel (if erased then algs.eraseIdx i else algs) (i + 1)

/-- Both key sets have a key where they differ. -/
def Parts (a b : List CString) : Prop := ¬ a <+: b ∧ ¬ b <+: a

instance (a b : List CString) : Decidable (Parts a b) := inferInstanceAs (Decidable (_ ∧ _))

theorem parts_cons {key1 key2 : CString} {a b : List CString} :
    Parts (key1 :: a) (key2 :: b) ↔ key1 ≠ key2 ∨ Parts a b := by
  unfold Parts
  rw [List.cons_prefix_cons, List.cons_prefix_cons]
  by_cases h : key1 = key2
  · subst h
    simp
  · simp [h, Ne.symm h]

theorem sameKeys_iff (a b : List CString) : sameKeys a b = true ↔ a = b ∧ a ≠ [] := by
  induction a generalizing b with
  | nil => simp [sameKeys]
  | cons key1 a ih =>
    cases b with
    | nil => simp [sameKeys]
    | cons key2 b =>
      unfold sameKeys
      by_cases hkey : key1 = key2
      · rw [if_neg (not_not.2 hkey)]
        by_cases hend : a = [] ∧ b = []
        · rw [if_pos hend, hkey, hend.1, hend.2]
          simp
        · rw [if_neg hend, ih, hkey]
          constructor
          · rintro ⟨rfl, -⟩
            exact ⟨rfl, List.cons_ne_nil _ _⟩
          · rintro ⟨heq, -⟩
            cases heq
            exact ⟨rfl, fun hnil => hend ⟨hnil, hnil⟩⟩
      · rw [if_pos hkey]
        simp [hkey]

theorem dropLoop_parts {a b : List CString} (h : Parts a b) {fuel : ℕ} (hfuel : a.length < fuel) :
    dropLoop fuel a b = some false := by
  induction a generalizing b fuel with
  | nil => exact absurd List.nil_prefix h.1
  | cons key1 a ih =>
    cases b with
    | nil => exact absurd List.nil_prefix h.2
    | cons key2 b =>
      cases fuel with
      | zero => omega
      | succ fuel =>
        unfold dropLoop
        by_cases hkey : key1 = key2
        · have hrest := (parts_cons.1 h).resolve_left (not_not.2 hkey)
          rw [if_neg (not_not.2 hkey), if_neg]
          · rw [List.length_cons] at hfuel
            exact ih hrest (by omega)
          · rintro ⟨rfl, -⟩
            exact hrest.1 List.nil_prefix
        · rw [if_pos hkey]

theorem dropLoop_same {a : List CString} (h : a ≠ []) {fuel : ℕ} (hfuel : a.length < fuel) :
    dropLoop fuel a a = some true := by
  induction a generalizing fuel with
  | nil => exact absurd rfl h
  | cons key a ih =>
    cases fuel with
    | zero => omega
    | succ fuel =>
      unfold dropLoop
      rw [if_neg (not_not.2 rfl)]
      by_cases hend : a = []
      · rw [if_pos ⟨hend, hend⟩]
      · rw [if_neg fun hboth => hend hboth.1]
        rw [List.length_cons] at hfuel
        exact ih hend (by omega)

theorem dropLoop_eq_some {a b : List CString} {fuel : ℕ} {erased : Bool}
    (h : dropLoop fuel a b = some erased) :
    (erased = true ∧ a = b ∧ a ≠ []) ∨ (erased = false ∧ Parts a b) := by
  induction fuel generalizing a b with
  | zero => cases h
  | succ fuel ih =>
    cases a with
    | nil => exact ih h
    | cons key1 a =>
      cases b with
      | nil => exact ih h
      | cons key2 b =>
        unfold dropLoop at h
        rw [parts_cons]
        by_cases hkey : key1 = key2
        · rw [if_neg (not_not.2 hkey)] at h
          subst hkey
          by_cases hend : a = [] ∧ b = []
          · rw [if_pos hend] at h
            cases h
            rw [hend.1, hend.2]
            exact Or.inl ⟨rfl, rfl, List.cons_ne_nil _ _⟩
          · rw [if_neg hend] at h
            rcases ih h with ⟨rfl, rfl, -⟩ | ⟨rfl, hparts⟩
            · exact Or.inl ⟨rfl, rfl, List.cons_ne_nil _ _⟩
            · exact Or.inr ⟨rfl, Or.inr hparts⟩
        · rw [if_pos hkey] at h
          cases h
          exact Or.inr ⟨rfl, Or.inl hkey⟩

/-- With one key set a prefix of the other, or none at all, the loop never ends. -/
theorem dropLoop_endless {a b : List CString} (h : ¬ Parts a b) (hne : a = b → a = [])
    (fuel : ℕ) : dropLoop fuel a b = none := by
  cases hloop : dropLoop fuel a b with
  | none => rfl
  | some erased =>
    rcases dropLoop_eq_some hloop with ⟨-, heq, hnil⟩ | ⟨-, hparts⟩
    · exact absurd (hne heq) hnil
    · exact absurd hparts h

/-! ## Dropping from a vector -/

/-- `dropIndex` can tell `keys` from all other key sets that it meets, and the index with these
keys is not the last one. It does not meet the index behind the one that it erases. -/
def Droppable (keys : KeySet) (algs : List KeySet) : Prop :=
  (∀ impl ∈ algs, Parts keys.keys impl.keys) ∨
  (keys.keys ≠ [] ∧ ∃ before next after, algs = before ++ keys :: next :: after ∧
    ∀ impl ∈ before ++ after, Parts keys.keys impl.keys)

theorem droppable_cons {keys impl : KeySet} {algs : List KeySet}
    (h : Parts keys.keys impl.keys) : Droppable keys (impl :: algs) ↔ Droppable keys algs := by
  have hne : keys ≠ impl := by
    rintro rfl
    exact h.1 List.prefix_rfl
  unfold Droppable
  constructor
  · rintro (hall | ⟨hkeys, before, next, after, heq, hparts⟩)
    · exact Or.inl (List.forall_mem_cons.1 hall).2
    · cases before with
      | nil => exact absurd (List.cons.inj heq).1.symm hne
      | cons first before =>
        refine Or.inr ⟨hkeys, before, next, after, (List.cons.inj heq).2, fun x hx => ?_⟩
        exact hparts x (List.mem_cons_of_mem _ hx)
  · rintro (hall | ⟨hkeys, before, next, after, heq, hparts⟩)
    · exact Or.inl (List.forall_mem_cons.2 ⟨h, hall⟩)
    · refine Or.inr ⟨hkeys, impl :: before, next, after, ?_, ?_⟩
      · rw [heq, List.cons_append]
      · rw [List.cons_append]
        exact List.forall_mem_cons.2 ⟨h, hparts⟩

theorem droppable_match {keys next : KeySet} {algs : List KeySet} (hkeys : keys.keys ≠ [])
    (hnd : keys ∉ algs) : Droppable keys (keys :: next :: algs) ↔ Droppable keys algs := by
  have hself : ¬ Parts keys.keys keys.keys := fun hparts => hparts.1 List.prefix_rfl
  have hrest : Droppable keys algs ↔ ∀ impl ∈ algs, Parts keys.keys impl.keys := by
    constructor
    · rintro (hall | ⟨-, before, next, after, rfl, -⟩)
      · exact hall
      · exact absurd (List.mem_append_right _ List.mem_cons_self) hnd
    · exact Or.inl
  rw [hrest]
  constructor
  · rintro (hall | ⟨-, before, next', after, heq, hparts⟩)
    · exact absurd (hall keys List.mem_cons_self) hself
    · cases before with
      | nil =>
        cases heq
        exact hparts
      | cons first before =>
        have hfirst := (List.cons.inj heq).1
        exact absurd (hparts keys (by rw [hfirst]; exact List.mem_cons_self)) hself
  · exact fun hall => Or.inr ⟨hkeys, [], next, algs, rfl, hall⟩

/-- `dropIndex` ends and has removed the index with these keys and no other. -/
def DropsExactly (keys : KeySet) (algs : List IndexAlgorithm) : Prop :=
  ∃ fuel, dropFrom keys fuel algs 0 = some (.value (algs.filter fun impl => impl.keys ≠ keys))

section dropFrom
variable {keys : KeySet} {front : List IndexAlgorithm} {impl : IndexAlgorithm}
  {algs : List IndexAlgorithm} {fuel : ℕ}

theorem dropFrom_end : dropFrom keys (fuel + 1) front front.length = some (.value front) :=
  if_pos rfl

theorem dropFrom_cons : dropFrom keys (fuel + 1) (front ++ impl :: algs) front.length =
    (dropLoop fuel keys.keys impl.keys.keys).bind fun erased => dropFrom keys fuel
      (if erased then front ++ algs else front ++ impl :: algs) (front.length + 1) := by
  have hne : front.length ≠ (front ++ impl :: algs).length := by
    rw [List.length_append, List.length_cons]
    omega
  have hget : (front ++ impl :: algs)[front.length]? = some impl := by
    rw [List.getElem?_append_right le_rfl, Nat.sub_self]
    rfl
  have herase : (front ++ impl :: algs).eraseIdx front.length = front ++ algs := by
    rw [List.eraseIdx_append_of_length_le le_rfl, Nat.sub_self]
    rfl
  rw [dropFrom, if_neg hne, hget, herase]
  rfl

theorem dropFrom_behind : dropFrom keys (fuel + 1) front (front.length + 1) =
    some .undefined := by
  have hget : front[front.length + 1]? = none := List.getElem?_eq_none (by omega)
  unfold dropFrom
  rw [if_neg (by omega), hget]

end dropFrom

theorem Droppable.match_of_not_parts {keys impl : KeySet} {algs : List KeySet}
    (h : Droppable keys (impl :: algs)) (hparts : ¬ Parts keys.keys impl.keys) :
    impl = keys ∧ keys.keys ≠ [] ∧ ∃ next after, algs = next :: after := by
  rcases h with hall | ⟨hkeys, before, next, after, heq, hrest⟩
  · exact absurd (hall impl List.mem_cons_self) hparts
  · cases before with
    | nil =>
      rcases List.cons.inj heq with ⟨himpl, halgs⟩
      exact ⟨himpl, hkeys, next, after, halgs⟩
    | cons first before =>
      have hfirst := (List.cons.inj heq).1
      exact absurd (hrest impl (by rw [hfirst]; exact List.mem_cons_self)) hparts

section dropFrom
variable {keys : KeySet} {front algs : List IndexAlgorithm} {fuel : ℕ}

theorem dropFrom_eq_value (hnd : (algs.map IndexAlgorithm.keys).Nodup) {r : List IndexAlgorithm}
    (h : dropFrom keys fuel (front ++ algs) front.length = some (.value r)) :
    Droppable keys (algs.map IndexAlgorithm.keys) := by
  induction fuel generalizing front algs with
  | zero => cases h
  | succ fuel ih =>
    cases algs with
    | nil => exact Or.inl fun impl himpl => absurd himpl List.not_mem_nil
    | cons impl algs =>
      rw [dropFrom_cons] at h
      rcases Option.bind_eq_some_iff.1 h with ⟨erased, hloop, hrest⟩
      rw [List.map_cons, List.nodup_cons] at hnd
      rcases dropLoop_eq_some hloop with ⟨rfl, heq, hkeys⟩ | ⟨rfl, hparts⟩
      · have himpl : keys = impl.keys := KeySet.ext_keys heq
        rw [if_pos rfl] at hrest
        cases algs with
        | nil =>
          rw [List.append_nil] at hrest
          cases fuel with
          | zero => cases hrest
          | succ fuel =>
            rw [dropFrom_behind] at hrest
            cases hrest
        | cons next algs =>
          have hlength : front.length + 1 = (front ++ [next]).length := by
            rw [List.length_append, List.length_singleton]
          rw [List.append_cons, hlength] at hrest
          rw [List.map_cons, List.mem_cons, not_or, List.nodup_cons] at hnd
          have hbehind := ih hnd.2.2 hrest
          rw [List.map_cons, List.map_cons, ← himpl]
          exact (droppable_match hkeys (himpl ▸ hnd.1.2)).2 hbehind
      · have hlength : front.length + 1 = (front ++ [impl]).length := by
          rw [List.length_append, List.length_singleton]
        rw [if_neg Bool.false_ne_true, List.append_cons, hlength] at hrest
        exact (droppable_cons hparts).2 (ih hnd.2 hrest)

theorem Droppable.dropFrom_eq (hnd : (algs.map IndexAlgorithm.keys).Nodup)
    (h : Droppable keys (algs.map IndexAlgorithm.keys))
    (hfuel : algs.length + keys.keys.length < fuel) :
    dropFrom keys fuel (front ++ algs) front.length =
      some (.value (front ++ algs.filter fun impl => impl.keys ≠ keys)) := by
  induction fuel generalizing front algs with
  | zero => omega
  | succ fuel ih =>
    cases algs with
    | nil =>
      rw [List.append_nil, List.filter_nil, List.append_nil]
      exact dropFrom_end
    | cons impl algs =>
      rw [List.length_cons] at hfuel
      rw [List.map_cons] at h hnd
      rw [List.nodup_cons] at hnd
      rw [dropFrom_cons, List.filter_cons]
      by_cases hparts : Parts keys.keys impl.keys.keys
      · have hne : impl.keys ≠ keys := by
          intro heq
          rw [heq] at hparts
          exact hparts.1 List.prefix_rfl
        have hbehind : dropFrom keys fuel ((front ++ [impl]) ++ algs) (front ++ [impl]).length =
            _ := ih hnd.2 ((droppable_cons hparts).1 h) (by omega)
        rw [List.length_append, List.length_singleton, ← List.append_cons, ← List.append_cons]
          at hbehind
        rw [dropLoop_parts hparts (by omega), Option.bind_some, if_neg Bool.false_ne_true, hbehind,
          if_pos (decide_eq_true hne)]
      · rcases h.match_of_not_parts hparts with ⟨himpl, hkeys, next, after, halgs⟩
        cases algs with
        | nil => cases halgs
        | cons second algs =>
          rw [List.map_cons] at h hnd
          rw [List.mem_cons, not_or, List.nodup_cons] at hnd
          rw [himpl] at h hnd
          have hne : second.keys ≠ keys := Ne.symm hnd.1.1
          rw [List.length_cons] at hfuel
          have hbehind : dropFrom keys fuel ((front ++ [second]) ++ algs)
              (front ++ [second]).length = _ :=
            ih hnd.2.2 ((droppable_match hkeys hnd.1.2).1 h) (by omega)
          rw [List.length_append, List.length_singleton, ← List.append_cons, ← List.append_cons]
            at hbehind
          rw [himpl, dropLoop_same hkeys (by omega), Option.bind_some, if_pos rfl, hbehind,
            if_neg (by rw [decide_eq_true_eq]; exact not_not.2 rfl), List.filter_cons,
            if_pos (decide_eq_true hne)]

end dropFrom

/-- `dropIndex` does what it should if and only if it can tell the keys apart. -/
theorem dropsExactly_iff (keys : KeySet) (algs : List IndexAlgorithm)
    (hnd : (algs.map IndexAlgorithm.keys).Nodup) :
    DropsExactly keys algs ↔ Droppable keys (algs.map IndexAlgorithm.keys) := by
  constructor
  · rintro ⟨fuel, h⟩
    have h' : dropFrom keys fuel ([] ++ algs) ([] : List IndexAlgorithm).length = _ := h
    exact dropFrom_eq_value hnd h'
  · intro h
    have hdrop : dropFrom keys _ ([] ++ algs) ([] : List IndexAlgorithm).length = _ :=
      h.dropFrom_eq hnd (Nat.lt_succ_self _)
    exact ⟨_, hdrop⟩

/-! ## The registry -/

/-- The vector of a namespace; a missing one is as good as an empty one. -/
def algorithms (f : IndexFactory) (db ns : CString) : List IndexAlgorithm :=
  ((f.indexes db).bind fun byns => byns ns).getD []

def containsIndex (f : IndexFactory) (db ns : CString) (keys : KeySet) : Bool :=
  match f.indexes db with
  | none => false
  | some byns =>
    match byns ns with
    | none => false
    | some algorithms => (findIndex algorithms keys).isSome

/-- Puts a vector into the maps. -/
def setAlgorithms (f : IndexFactory) (db ns : CString) (algs : List IndexAlgorithm) :
    IndexFactory where
  indexes := Function.update f.indexes db
    (some (Function.update ((f.indexes db).getD fun _ => none) ns (some algs)))

/-- Makes the maps and the vector if they are missing. -/
def findAlgorithms (f : IndexFactory) (db ns : CString) : IndexFactory × List IndexAlgorithm :=
  (f.setAlgorithms db ns (f.algorithms db ns), f.algorithms db ns)

/-- `db/ns.ixp`. -/
def indexFileName (db ns : CString) : List UInt8 :=
  db.bytes ++ [47] ++ ns.bytes ++ [46, 105, 120, 112]

def index (f : IndexFactory) (db ns : CString) (keys : KeySet) : IndexFactory × IndexAlgorithm :=
  let (f, algorithms) := f.findAlgorithms db ns
  match findIndex algorithms keys with
  | some indexImpl => (f, indexImpl)
  | none =>
    let indexImpl : IndexAlgorithm := ⟨indexFileName db ns, keys⟩
    (f.setAlgorithms db ns (algorithms ++ [indexImpl]), indexImpl)

/-- `none` while the loops have not ended. -/
def dropIndex (fuel : ℕ) (f : IndexFactory) (db ns : CString) (keys : KeySet) :
    Option (Outcome IndexFactory) := do
  let (f, algorithms) := f.findAlgorithms db ns
  let dropped ← dropFrom keys fuel algorithms 0
  match dropped with
  | .value algs => some (.value (f.setAlgorithms db ns algs))
  | .exception e => some (.exception e)
  | .undefined => some .undefined

def dropIndexes (f : IndexFactory) (db ns : CString) : IndexFactory where
  indexes := Function.update f.indexes db
    (some (Function.update ((f.indexes db).getD fun _ => none) ns none))

inductive Call where
  | index (db ns : CString) (keys : KeySet)
  | dropIndex (db ns : CString) (keys : KeySet)
  | dropIndexes (db ns : CString)

def perform (fuel : ℕ) (f : IndexFactory) : Call → Option (Outcome IndexFactory)
  | .index db ns keys => some (.value (f.index db ns keys).1)
  | .dropIndex db ns keys => f.dropIndex fuel db ns keys
  | .dropIndexes db ns => some (.value (f.dropIndexes db ns))

/-- Nothing has been asked for yet. -/
def empty : IndexFactory := ⟨fun _ => none⟩

/-! ## What was created and not dropped -/

/-- The key sets of the indexes of each namespace, in the order in which they were created. -/
abbrev Created := CString → CString → List KeySet

def Created.set (c : Created) (db ns : CString) (keys : List KeySet) : Created :=
  fun db' ns' => if db' = db ∧ ns' = ns then keys else c db' ns'

def Call.after (c : Created) : Call → Created
  | .index db ns keys => if keys ∈ c db ns then c else c.set db ns (c db ns ++ [keys])
  | .dropIndex db ns keys => c.set db ns ((c db ns).filter fun impl => impl ≠ keys)
  | .dropIndexes db ns => c.set db ns []

/-- `containsIndex` knows the indexes that were created and not dropped. -/
def Agrees (f : IndexFactory) (c : Created) : Prop :=
  ∀ db ns keys, f.containsIndex db ns keys = true ↔ keys ∈ c db ns

/-- A call of `dropIndex` removes the index with these keys and no other. -/
def Call.Exact (f f' : IndexFactory) : Call → Prop
  | .dropIndex db ns keys => ∀ db' ns', f'.algorithms db' ns' =
      if db' = db ∧ ns' = ns then (f.algorithms db ns).filter fun impl => impl.keys ≠ keys
      else f.algorithms db' ns'
  | _ => True

/-- All calls end, and `containsIndex` is right before and after each of them. -/
def Registers (f : IndexFactory) (c : Created) : List Call → Prop
  | [] => f.Agrees c
  | call :: calls => f.Agrees c ∧ ∃ fuel f', f.perform fuel call = some (.value f') ∧
      call.Exact f f' ∧ f'.Registers (call.after c) calls

/-- No index without keys is asked for, and every `dropIndex` can tell the keys apart. -/
def Call.Sound (c : Created) : Call → Prop
  | .index _ _ keys => keys.keys ≠ []
  | .dropIndex db ns keys => Droppable keys (c db ns)
  | .dropIndexes _ _ => True

def Sound (c : Created) : List Call → Prop
  | [] => True
  | call :: calls => call.Sound c ∧ Sound (call.after c) calls

/-- The vectors hold the indexes that were created. -/
structure Holds (f : IndexFactory) (c : Created) : Prop where
  keys : ∀ db ns, (f.algorithms db ns).map IndexAlgorithm.keys = c db ns
  nodup : ∀ db ns, (c db ns).Nodup
  ne_nil : ∀ db ns, ∀ keys ∈ c db ns, keys.keys ≠ []

section registry
variable {f f' : IndexFactory} {c : Created} {db ns : CString} {keys : KeySet}

/-- One vector is put into the maps or taken out of them. -/
theorem algorithms_update {algs : Option (List IndexAlgorithm)} (h : f'.indexes =
    Function.update f.indexes db
      (some (Function.update ((f.indexes db).getD fun _ => none) ns algs))) (db' ns' : CString) :
    f'.algorithms db' ns' = if db' = db ∧ ns' = ns then algs.getD [] else f.algorithms db' ns' := by
  unfold algorithms
  rw [h]
  by_cases hdb : db' = db
  · subst hdb
    rw [Function.update_self, Option.bind_some]
    by_cases hns : ns' = ns
    · rw [hns, Function.update_self, if_pos ⟨rfl, rfl⟩]
    · rw [Function.update_of_ne hns, if_neg fun h => hns h.2]
      cases f.indexes db' <;> rfl
  · rw [Function.update_of_ne hdb, if_neg fun h => hdb h.1]

theorem algorithms_setAlgorithms (algs : List IndexAlgorithm) (db' ns' : CString) :
    (f.setAlgorithms db ns algs).algorithms db' ns' =
      if db' = db ∧ ns' = ns then algs else f.algorithms db' ns' := by
  have hupdate : (f.setAlgorithms db ns algs).indexes = Function.update f.indexes db
    (some (Function.update ((f.indexes db).getD fun _ => none) ns (some algs))) := rfl
  exact algorithms_update hupdate db' ns'

theorem algorithms_dropIndexes (db' ns' : CString) : (f.dropIndexes db ns).algorithms db' ns' =
    if db' = db ∧ ns' = ns then [] else f.algorithms db' ns' := by
  have hupdate : (f.dropIndexes db ns).indexes = Function.update f.indexes db
    (some (Function.update ((f.indexes db).getD fun _ => none) ns none)) := rfl
  exact algorithms_update hupdate db' ns'

theorem findIndex_isSome (algs : List IndexAlgorithm) (keys : KeySet) :
    (findIndex algs keys).isSome = true ↔ keys.keys ≠ [] ∧ keys ∈ algs.map IndexAlgorithm.keys := by
  unfold findIndex
  rw [List.find?_isSome, List.mem_map]
  constructor
  · rintro ⟨impl, himpl, hsame⟩
    rcases (sameKeys_iff _ _).1 hsame with ⟨heq, hne⟩
    exact ⟨hne, impl, himpl, (KeySet.ext_keys heq).symm⟩
  · rintro ⟨hne, impl, himpl, rfl⟩
    exact ⟨impl, himpl, (sameKeys_iff _ _).2 ⟨rfl, hne⟩⟩

theorem containsIndex_eq : f.containsIndex db ns keys =
    (findIndex (f.algorithms db ns) keys).isSome := by
  unfold containsIndex algorithms
  cases f.indexes db with
  | none => rfl
  | some byns =>
    dsimp only
    rw [Option.bind_some]
    cases byns ns <;> rfl

theorem Holds.agrees (h : f.Holds c) : f.Agrees c := by
  intro db ns keys
  rw [containsIndex_eq, findIndex_isSome, h.keys]
  exact ⟨fun hc => hc.2, fun hc => ⟨h.ne_nil db ns keys hc, hc⟩⟩

/-- Nothing changes but the vector of one namespace. -/
theorem Holds.set (h : f.Holds c) {algs : List IndexAlgorithm} {created : List KeySet}
    (halgs : algs.map IndexAlgorithm.keys = created) (hnd : created.Nodup)
    (hne : ∀ keys ∈ created, keys.keys ≠ [])
    (hf' : ∀ db' ns', f'.algorithms db' ns' =
      if db' = db ∧ ns' = ns then algs else f.algorithms db' ns') :
    f'.Holds (c.set db ns created) := by
  constructor
  · intro db' ns'
    unfold Created.set
    rw [hf']
    split_ifs
    · exact halgs
    · exact h.keys db' ns'
  · intro db' ns'
    unfold Created.set
    split_ifs
    · exact hnd
    · exact h.nodup db' ns'
  · intro db' ns'
    unfold Created.set
    split_ifs
    · exact hne
    · exact h.ne_nil db' ns'

theorem Holds.of_algorithms (h : f.Holds c)
    (hf' : ∀ db ns, f'.algorithms db ns = f.algorithms db ns) : f'.Holds c :=
  ⟨fun db ns => (hf' db ns).symm ▸ h.keys db ns, h.nodup, h.ne_nil⟩

theorem algorithms_findAlgorithms (db' ns' : CString) :
    (f.findAlgorithms db ns).1.algorithms db' ns' = f.algorithms db' ns' := by
  unfold findAlgorithms
  rw [algorithms_setAlgorithms]
  split_ifs with h
  · rw [h.1, h.2]
  · rfl

theorem algorithms_index (db' ns' : CString) : (f.index db ns keys).1.algorithms db' ns' =
    if db' = db ∧ ns' = ns ∧ (findIndex (f.algorithms db ns) keys).isSome = false then
      f.algorithms db ns ++ [⟨indexFileName db ns, keys⟩]
    else f.algorithms db' ns' := by
  unfold index
  dsimp only
  have hfound : (f.findAlgorithms db ns).2 = f.algorithms db ns := rfl
  rw [hfound]
  cases findIndex (f.algorithms db ns) keys with
  | some indexImpl =>
    dsimp only
    rw [algorithms_findAlgorithms, if_neg]
    rintro ⟨-, -, h⟩
    cases h
  | none =>
    dsimp only
    rw [algorithms_setAlgorithms, algorithms_findAlgorithms]
    simp only [Option.isSome_none, and_true]

theorem Holds.index (h : f.Holds c) (hkeys : keys.keys ≠ []) :
    (f.index db ns keys).1.Holds (Call.after c (.index db ns keys)) := by
  change (f.index db ns keys).1.Holds (if keys ∈ c db ns then c else _)
  by_cases hmem : keys ∈ c db ns
  · rw [if_pos hmem]
    apply h.of_algorithms
    intro db' ns'
    rw [algorithms_index, if_neg]
    rintro ⟨-, -, hnone⟩
    rw [(findIndex_isSome _ _).2 ⟨hkeys, (h.keys db ns).symm ▸ hmem⟩] at hnone
    cases hnone
  · rw [if_neg hmem]
    have hnone : (findIndex (f.algorithms db ns) keys).isSome = false := by
      rw [Bool.eq_false_iff, ne_eq, findIndex_isSome, h.keys]
      exact fun hfound => hmem hfound.2
    have halgs : (f.algorithms db ns ++ [(⟨indexFileName db ns, keys⟩ : IndexAlgorithm)]).map
        IndexAlgorithm.keys = c db ns ++ [keys] := by
      rw [List.map_append, h.keys]
      rfl
    apply h.set halgs
    · apply List.nodup_append.2
      refine ⟨h.nodup db ns, List.pairwise_singleton _ _, fun impl himpl impl' himpl' heq => ?_⟩
      rw [heq, List.mem_singleton.1 himpl'] at himpl
      exact hmem himpl
    · intro impl himpl
      rcases List.mem_append.1 himpl with hold | hnew
      · exact h.ne_nil db ns impl hold
      · rw [List.mem_singleton.1 hnew]
        exact hkeys
    · intro db' ns'
      rw [algorithms_index]
      simp only [hnone, and_true]

theorem dropIndex_eq_value {fuel : ℕ} (h : f.dropIndex fuel db ns keys = some (.value f')) :
    ∃ algs, dropFrom keys fuel (f.algorithms db ns) 0 = some (.value algs) ∧
      ∀ db' ns', f'.algorithms db' ns' =
        if db' = db ∧ ns' = ns then algs else f.algorithms db' ns' := by
  rcases Option.bind_eq_some_iff.1 h with ⟨dropped, hdropped, hrest⟩
  cases dropped with
  | value algs =>
    cases hrest
    refine ⟨algs, hdropped, fun db' ns' => ?_⟩
    rw [algorithms_setAlgorithms]
    change (if _ then algs else (f.findAlgorithms db ns).1.algorithms db' ns') = _
    rw [algorithms_findAlgorithms]
  | exception e => cases hrest
  | undefined => cases hrest

theorem dropIndex_of_dropFrom {fuel : ℕ} {algs : List IndexAlgorithm}
    (h : dropFrom keys fuel (f.algorithms db ns) 0 = some (.value algs)) :
    f.dropIndex fuel db ns keys =
      some (.value ((f.findAlgorithms db ns).1.setAlgorithms db ns algs)) := by
  apply Option.bind_eq_some_iff.2
  exact ⟨.value algs, h, rfl⟩

/-- What a sound call leaves behind. -/
theorem Holds.after (h : f.Holds c) {call : Call} (hsound : call.Sound c) {fuel : ℕ}
    (hperform : f.perform fuel call = some (.value f')) (hexact : call.Exact f f') :
    f'.Holds (call.after c) := by
  cases call with
  | index db ns keys =>
    cases hperform
    exact h.index hsound
  | dropIndex db ns keys =>
    have halgs : ((f.algorithms db ns).filter fun impl => impl.keys ≠ keys).map
        IndexAlgorithm.keys = (c db ns).filter fun impl => impl ≠ keys := by
      rw [← h.keys, List.filter_map]
      rfl
    apply h.set halgs ((h.nodup db ns).filter _) ?_ hexact
    exact fun impl himpl => h.ne_nil db ns impl (List.mem_of_mem_filter himpl)
  | dropIndexes db ns =>
    cases hperform
    apply h.set List.map_nil List.nodup_nil (fun impl himpl => absurd himpl List.not_mem_nil)
    exact algorithms_dropIndexes

theorem Holds.nodup_keys (h : f.Holds c) (db ns : CString) :
    ((f.algorithms db ns).map IndexAlgorithm.keys).Nodup := by
  rw [h.keys]
  exact h.nodup db ns

/-- A sound call ends and does what it should. -/
theorem Holds.perform (h : f.Holds c) {call : Call} (hsound : call.Sound c) :
    ∃ fuel f', f.perform fuel call = some (.value f') ∧ call.Exact f f' := by
  cases call with
  | index db ns keys => exact ⟨0, _, rfl, trivial⟩
  | dropIndex db ns keys =>
    have hdroppable : Droppable keys ((f.algorithms db ns).map IndexAlgorithm.keys) := by
      rw [h.keys]
      exact hsound
    rcases (dropsExactly_iff keys _ (h.nodup_keys db ns)).2 hdroppable with ⟨fuel, hdrop⟩
    have hperform := dropIndex_of_dropFrom hdrop
    rcases dropIndex_eq_value hperform with ⟨algs, hdrop', hf'⟩
    rw [hdrop] at hdrop'
    cases hdrop'
    exact ⟨fuel, _, hperform, hf'⟩
  | dropIndexes db ns => exact ⟨0, _, rfl, trivial⟩

/-- A call after which everything is right was sound. -/
theorem Holds.sound_of_perform (h : f.Holds c) {call : Call} {fuel : ℕ}
    (hperform : f.perform fuel call = some (.value f')) (hexact : call.Exact f f')
    (hagrees : f'.Agrees (call.after c)) : call.Sound c := by
  cases call with
  | index db ns keys =>
    intro hnil
    have hmem : keys ∈ Call.after c (.index db ns keys) db ns := by
      change keys ∈ (if keys ∈ c db ns then c else c.set db ns (c db ns ++ [keys])) db ns
      split_ifs with hold
      · exact hold
      · unfold Created.set
        rw [if_pos ⟨rfl, rfl⟩]
        exact List.mem_append_right _ List.mem_cons_self
    have hcontains := (hagrees db ns keys).2 hmem
    rw [containsIndex_eq, findIndex_isSome] at hcontains
    exact hcontains.1 hnil
  | dropIndex db ns keys =>
    rcases dropIndex_eq_value hperform with ⟨algs, hdrop, hf'⟩
    have halgs := hf' db ns
    rw [if_pos ⟨rfl, rfl⟩, hexact db ns, if_pos ⟨rfl, rfl⟩] at halgs
    rw [← halgs] at hdrop
    have hdroppable := (dropsExactly_iff keys _ (h.nodup_keys db ns)).1 ⟨fuel, hdrop⟩
    rw [h.keys] at hdroppable
    exact hdroppable
  | dropIndexes db ns => trivial

theorem Holds.registers_iff (h : f.Holds c) (calls : List Call) :
    f.Registers c calls ↔ Sound c calls := by
  induction calls generalizing f c with
  | nil => exact iff_of_true h.agrees trivial
  | cons call calls ih =>
    constructor
    · rintro ⟨-, fuel, f', hperform, hexact, hrest⟩
      have hagrees : f'.Agrees (call.after c) := by
        cases calls with
        | nil => exact hrest
        | cons _ _ => exact hrest.1
      have hsound := h.sound_of_perform hperform hexact hagrees
      exact ⟨hsound, (ih (h.after hsound hperform hexact)).1 hrest⟩
    · rintro ⟨hsound, hrest⟩
      rcases h.perform hsound with ⟨fuel, f', hperform, hexact⟩
      exact ⟨h.agrees, fuel, f', hperform, hexact, (ih (h.after hsound hperform hexact)).2 hrest⟩

end registry

theorem empty_holds : empty.Holds fun _ _ => [] :=
  ⟨fun _ _ => rfl, fun _ _ => List.nodup_nil, fun _ _ _ h => absurd h List.not_mem_nil⟩

/-- The registry is right throughout a run exactly when no index without keys is asked for and
every `dropIndex` can tell the keys apart. -/
theorem empty_registers_iff (calls : List Call) :
    empty.Registers (fun _ _ => []) calls ↔ Sound (fun _ _ => []) calls :=
  empty_holds.registers_iff calls

def keyA : CString := ⟨[97], noNul_a⟩
def keyB : CString := ⟨[98], noNul_b⟩

/-- An index on both keys is known when the one on the first key is dropped. -/
def dropPrefix : List Call :=
  [.index keyA keyA ⟨[keyA, keyB], by decide⟩, .dropIndex keyA keyA ⟨[keyA], by decide⟩]

theorem not_registers : ¬ ∀ calls, empty.Registers (fun _ _ => []) calls := by
  intro h
  rcases h dropPrefix with ⟨-, fuel, f, hindex, -, -, fuel', f', hdrop, -, -⟩
  cases hindex
  rcases dropIndex_eq_value hdrop with ⟨algs, hfrom, -⟩
  have halgs : (empty.index keyA keyA ⟨[keyA, keyB], by decide⟩).1.algorithms keyA keyA =
      [⟨indexFileName keyA keyA, ⟨[keyA, keyB], by decide⟩⟩] := by
    rw [algorithms_index]
    rfl
  rw [halgs] at hfrom
  cases fuel' with
  | zero => cases hfrom
  | succ fuel' =>
    have hcons := hfrom.symm.trans (@dropFrom_cons _ [] _ _ fuel')
    have hloop : dropLoop fuel' [keyA] [keyA, keyB] = none :=
      dropLoop_endless (by decide) (by decide) fuel'
    change _ = (dropLoop fuel' [keyA] [keyA, keyB]).bind _ at hcons
    rw [hloop] at hcons
    cases hcons

end IndexFactory
end Djondb
