import Djondb.LibRing
import Mathlib.Data.Int.Notation
import Mathlib.Data.List.Rotate
import Mathlib.Tactic.Ring

set_option autoImplicit false

/-!
# `CircularQueue`

Elements on the heap that point to each other in a ring, with pointers to the first, the last and
the current one. The queue is compared with a list of items and a cursor.
-/
namespace Djondb

/-- A pointer is the address of an element, or `none` for `NULL`. -/
structure CircularQueue.Element (A : Type) where
  value : A
  next : Option ℕ
  previous : Option ℕ

structure CircularQueue (A : Type) where
  maxSize : Int32
  size : Int32
  lastElement : Option ℕ
  firstElement : Option ℕ
  currentElement : Option ℕ
  /-- The elements that were made and not deleted. -/
  heap : ℕ → Option (CircularQueue.Element A)
  /-- The address of the next element that is made. -/
  fresh : ℕ

inductive QueueOp (A : Type) where
  | pushBack (val : A)
  | pushFront (val : A)
  | popBack
  | popFront
  | next
  | previous
  | reset
  | current

/-! ## The queue -/

namespace CircularQueue
variable {A : Type}

def value (q : CircularQueue A) (a : ℕ) : Option A := (q.heap a).map Element.value

def nextOf (q : CircularQueue A) (a : ℕ) : Option ℕ := (q.heap a).bind Element.next

def previousOf (q : CircularQueue A) (a : ℕ) : Option ℕ := (q.heap a).bind Element.previous

/-- `new Element(val)`, at the address `fresh`. -/
def newElement (val : A) (q : CircularQueue A) : CircularQueue A :=
  { q with heap := Function.update q.heap q.fresh (some ⟨val, none, none⟩), fresh := q.fresh + 1 }

/-- A call through `p`; there is none through `NULL` or to a deleted element. -/
def change (p : Option ℕ) (f : Element A → Element A) (q : CircularQueue A) :
    Option (CircularQueue A) := do
  let a ← p
  let element ← q.heap a
  some { q with heap := Function.update q.heap a (some (f element)) }

def setNext (p n : Option ℕ) (q : CircularQueue A) : Option (CircularQueue A) :=
  q.change p fun element => { element with next := n }

def setPrevious (p n : Option ℕ) (q : CircularQueue A) : Option (CircularQueue A) :=
  q.change p fun element => { element with previous := n }

/-- `p->setNext(n)` and `n->setPrevious(p)`. -/
def link (p n : Option ℕ) (q : CircularQueue A) : Option (CircularQueue A) := do
  let q ← q.setNext p n
  q.setPrevious n p

def delete (p : Option ℕ) (q : CircularQueue A) : CircularQueue A :=
  match p with
  | none => q
  | some a => { q with heap := Function.update q.heap a none }

def new (maxSize : Int32) : CircularQueue A where
  maxSize := maxSize
  size := 0
  lastElement := none
  firstElement := none
  currentElement := none
  heap _ := none
  fresh := 0

/-- What both pops do with the element they took out. -/
def drop (result : Option ℕ) (q : CircularQueue A) : CircularQueue A :=
  let q := q.delete result
  { q with currentElement := q.lastElement, size := q.size - 1 }

def popBack (q : CircularQueue A) : Option (A × CircularQueue A) := do
  let result := q.lastElement
  let val ← result >>= q.value
  let q ←
    if q.size = 1 then
      some { q with lastElement := none, firstElement := none, currentElement := none }
    else if 1 < q.size then do
      let q := { q with lastElement := q.lastElement >>= q.previousOf }
      q.link q.lastElement q.firstElement
    else some q
  some (val, q.drop result)

def popFront (q : CircularQueue A) : Option (A × CircularQueue A) := do
  let result := q.firstElement
  let val ← result >>= q.value
  let q ←
    if q.size = 1 then
      some { q with lastElement := none, firstElement := none, currentElement := none }
    else if 1 < q.size then do
      let q := { q with firstElement := q.firstElement >>= q.nextOf }
      q.link q.lastElement q.firstElement
    else some q
  some (val, q.drop result)

/-- What both pushes do after the element came in; `pop` is the one at the other end. -/
def grow (pop : CircularQueue A → Option (A × CircularQueue A)) (q : CircularQueue A) :
    Option (CircularQueue A) :=
  let q := { q with size := q.size + 1 }
  let popped := if -1 < q.maxSize ∧ q.maxSize < q.size then (pop q).map Prod.snd else some q
  popped.map fun q => { q with currentElement := q.lastElement }

def pushBack (val : A) (q : CircularQueue A) : Option (CircularQueue A) := do
  let element := some q.fresh
  let q := q.newElement val
  let q := { q with lastElement := if q.lastElement = none then element else q.lastElement }
  let q ← q.link q.lastElement element
  let q := { q with
    lastElement := element
    firstElement := if q.firstElement = none then element else q.firstElement }
  let q ← q.link q.lastElement q.firstElement
  q.grow popFront

def pushFront (val : A) (q : CircularQueue A) : Option (CircularQueue A) := do
  let element := some q.fresh
  let q := q.newElement val
  let q := { q with firstElement := if q.firstElement = none then element else q.firstElement }
  let q ← q.link element q.firstElement
  let q := { q with
    firstElement := element
    lastElement := if q.lastElement = none then element else q.lastElement }
  let q ← q.link q.lastElement q.firstElement
  q.grow popBack

def next (q : CircularQueue A) : Option (A × CircularQueue A) := do
  let ret ← q.currentElement >>= q.nextOf
  let val ← q.value ret
  some (val, { q with currentElement := some ret })

def previous (q : CircularQueue A) : Option (A × CircularQueue A) := do
  let ret ← q.currentElement >>= q.previousOf
  let val ← q.value ret
  some (val, { q with currentElement := some ret })

def reset (q : CircularQueue A) : CircularQueue A := { q with currentElement := q.lastElement }

/-- There is no `return` for `NULL`. -/
def current (q : CircularQueue A) : Option A := q.currentElement >>= q.value

def run : QueueOp A → CircularQueue A → Option (Option A × CircularQueue A)
  | .pushBack val, q => (q.pushBack val).map fun q => (none, q)
  | .pushFront val, q => (q.pushFront val).map fun q => (none, q)
  | .popBack, q => q.popBack.map fun (val, q) => (some val, q)
  | .popFront, q => q.popFront.map fun (val, q) => (some val, q)
  | .next, q => q.next.map fun (val, q) => (some val, q)
  | .previous, q => q.previous.map fun (val, q) => (some val, q)
  | .reset, q => some (none, q.reset)
  | .current, q => q.current.map fun val => (some val, q)

def runAll : List (QueueOp A) → CircularQueue A → Option (List (Option A) × CircularQueue A)
  | [], q => some ([], q)
  | op :: ops, q => do
    let (result, q) ← q.run op
    let (results, q) ← runAll ops q
    some (result :: results, q)

/-- The elements that some moves come to, with the values they return. -/
def moves (move : CircularQueue A → Option (A × CircularQueue A)) :
    ℕ → CircularQueue A → Option (List (ℕ × A) × CircularQueue A)
  | 0, q => some ([], q)
  | k + 1, q => do
    let (val, q) ← move q
    let element ← q.currentElement
    let (visits, q) ← moves move k q
    some ((element, val) :: visits, q)

end CircularQueue

/-! ## The deque -/

/-- At most `max` items, and the place of one of them if there is any. -/
structure RingDeque (A : Type) (max : Option ℕ) where
  items : List A
  cursor : ℕ
  size_le : ∀ m ∈ max, items.length ≤ m
  cursor_lt : items ≠ [] → cursor < items.length

namespace RingDeque
variable {A : Type} {max : Option ℕ}

/-- The cursor stands on the last item. -/
def ofItems (items : List A) (h : ∀ m ∈ max, items.length ≤ m) : RingDeque A max where
  items := items
  cursor := items.length - 1
  size_le := h
  cursor_lt hne := Nat.sub_lt (List.length_pos_of_ne_nil hne) Nat.one_pos

def empty : RingDeque A max := ofItems [] fun _ _ => Nat.zero_le _

/-- Both pushes: `items` are all of them, and `rest` those that stay if the deque was full. -/
def push (d : RingDeque A max) (items rest : List A) (hitems : items.length = d.items.length + 1)
    (hrest : rest.length = d.items.length) : RingDeque A max :=
  if hfull : max = some d.items.length then ofItems rest fun m hm => hrest ▸ d.size_le m hm
  else ofItems items fun m hm => by
    have hle := d.size_le m hm
    have hne : d.items.length ≠ m := fun heq => hfull (heq ▸ hm)
    omega

def pushBack (val : A) (d : RingDeque A max) : RingDeque A max :=
  d.push (d.items ++ [val]) (d.items ++ [val]).tail (by simp) (by simp)

def pushFront (val : A) (d : RingDeque A max) : RingDeque A max :=
  d.push (val :: d.items) (val :: d.items).dropLast (by simp) (by simp)

def popBack (d : RingDeque A max) : RingDeque A max :=
  ofItems d.items.dropLast fun m hm => le_trans (by simp) (d.size_le m hm)

def popFront (d : RingDeque A max) : RingDeque A max :=
  ofItems d.items.tail fun m hm => le_trans (by simp) (d.size_le m hm)

def moveTo (cursor : ℕ) (d : RingDeque A max) : RingDeque A max where
  items := d.items
  cursor := cursor % d.items.length
  size_le := d.size_le
  cursor_lt hne := Nat.mod_lt _ (List.length_pos_of_ne_nil hne)

def current (d : RingDeque A max) : Option A := d.items[d.cursor]?

def run : QueueOp A → RingDeque A max → Option (Option A × RingDeque A max)
  | .pushBack val, d => some (none, d.pushBack val)
  | .pushFront val, d => some (none, d.pushFront val)
  | .popBack, d => d.items.getLast?.map fun val => (some val, d.popBack)
  | .popFront, d => d.items.head?.map fun val => (some val, d.popFront)
  | .next, d =>
    let d := d.moveTo (d.cursor + 1)
    d.current.map fun val => (some val, d)
  | .previous, d =>
    let d := d.moveTo (d.cursor + (d.items.length - 1))
    d.current.map fun val => (some val, d)
  | .reset, d => some (none, ofItems d.items d.size_le)
  | .current, d => d.current.map fun val => (some val, d)

def runAll : List (QueueOp A) → RingDeque A max → Option (List (Option A) × RingDeque A max)
  | [], d => some ([], d)
  | op :: ops, d => do
    let (result, d) ← d.run op
    let (results, d) ← runAll ops d
    some (result :: results, d)

end RingDeque

namespace CircularQueue
variable {A : Type}

/-- The largest number of items for a `_maxSize`. -/
def bound (maxSize : Int32) : Option ℕ := if -1 < maxSize then some maxSize.toInt.toNat else none

/-- The queue has the items of the deque, one element of its ring for each, and the two moves go
round the ring in both directions. -/
structure IsDeque {max : Option ℕ} (q : CircularQueue A) (elements : List ℕ)
    (d : RingDeque A max) : Prop where
  nodup : elements.Nodup
  values : elements.map q.value = d.items.map some
  size_eq : q.size.toInt = elements.length
  first : q.firstElement = elements.head?
  last : q.lastElement = elements.getLast?
  current : q.currentElement = elements[d.cursor]?
  cycle : ∀ i a b, elements[i]? = some a → elements[(i + 1) % elements.length]? = some b →
    q.nextOf a = some b ∧ q.previousOf b = some a
  next_previous : d.items ≠ [] →
    ∃ val val' q', q.next = some (val, q') ∧ q'.previous = some (val', q)
  previous_next : d.items ≠ [] →
    ∃ val val' q', q.previous = some (val, q') ∧ q'.next = some (val', q)
  turn_next : q.moves next d.items.length =
    some ((elements.zip d.items).rotate (d.cursor + 1), q)
  turn_previous : q.moves previous d.items.length =
    some (((elements.zip d.items).rotate d.cursor).reverse, q)

end CircularQueue

namespace RingDeque
variable {A : Type} {max : Option ℕ}

def pushes : QueueOp A → Bool
  | .pushBack _ => true
  | .pushFront _ => true
  | _ => false

/-- At each push the `int` that counts the items has room for one more. -/
def SmallRun : List (QueueOp A) → RingDeque A max → Prop
  | [], _ => True
  | op :: ops, d => (pushes op = true → d.items.length + 1 < 2 ^ 31) ∧
    ∀ result d', d.run op = some (result, d') → SmallRun ops d'

end RingDeque

/-! ## Links -/

namespace CircularQueue
variable {A : Type} {q : CircularQueue A} {a p n : ℕ}

theorem heap_of_value (h : (q.value a).isSome) : ∃ element, q.heap a = some element :=
  Option.isSome_iff_exists.1 (Option.isSome_map.symm.trans h)

theorem change_eq {element : Element A} (h : q.heap a = some element) (f : Element A → Element A) :
    q.change (some a) f = some { q with heap := Function.update q.heap a (some (f element)) } := by
  unfold change
  rw [Option.bind_eq_bind, Option.bind_some, h]
  rfl

/-- A field has its new value where an element was written, and the old ones elsewhere. -/
theorem bind_update {heap : ℕ → Option (Element A)} {B : Type} (field : Element A → Option B)
    (element : Option (Element A)) :
    (fun b => (Function.update heap a element b).bind field) =
      Function.update (fun b => (heap b).bind field) a (element.bind field) := by
  funext b
  rw [Function.update_apply, Function.update_apply]
  split_ifs
  · rfl
  · rfl

theorem bind_update_same {heap : ℕ → Option (Element A)} {B : Type} {field : Element A → Option B}
    {old element : Element A} (h : heap a = some old) (hfield : field element = field old) :
    (fun b => (Function.update heap a (some element) b).bind field) =
      fun b => (heap b).bind field := by
  rw [bind_update, Option.bind_some, hfield]
  refine (congrArg (Function.update _ a) ?_).trans (Function.update_eq_self a _)
  rw [h]
  rfl

theorem value_eq (q : CircularQueue A) :
    q.value = fun b => (q.heap b).bind fun element => some element.value :=
  funext fun _ => Option.map_eq_bind

theorem setNext_eq (h : (q.value a).isSome) (n : Option ℕ) : ∃ heap,
    q.setNext (some a) n = some { q with heap := heap } ∧ { q with heap := heap }.value = q.value ∧
      { q with heap := heap }.nextOf = Function.update q.nextOf a n ∧
      { q with heap := heap }.previousOf = q.previousOf := by
  obtain ⟨element, helement⟩ := heap_of_value h
  refine ⟨_, change_eq helement _, ?_, bind_update _ _, bind_update_same helement rfl⟩
  rw [value_eq, value_eq]
  exact bind_update_same helement rfl

theorem setPrevious_eq (h : (q.value a).isSome) (p : Option ℕ) : ∃ heap,
    q.setPrevious (some a) p = some { q with heap := heap } ∧
      { q with heap := heap }.value = q.value ∧ { q with heap := heap }.nextOf = q.nextOf ∧
      { q with heap := heap }.previousOf = Function.update q.previousOf a p := by
  obtain ⟨element, helement⟩ := heap_of_value h
  refine ⟨_, change_eq helement _, ?_, bind_update_same helement rfl, bind_update _ _⟩
  rw [value_eq, value_eq]
  exact bind_update_same helement rfl

theorem link_eq (hp : (q.value p).isSome) (hn : (q.value n).isSome) : ∃ heap,
    q.link (some p) (some n) = some { q with heap := heap } ∧
      { q with heap := heap }.value = q.value ∧
      { q with heap := heap }.nextOf = Function.update q.nextOf p (some n) ∧
      { q with heap := heap }.previousOf = Function.update q.previousOf n (some p) := by
  rcases setNext_eq hp (some n) with ⟨heap1, hset1, hvalue1, hnext1, hprevious1⟩
  rcases setPrevious_eq (hvalue1 ▸ hn) (some p) with ⟨heap2, hset2, hvalue2, hnext2, hprevious2⟩
  refine ⟨heap2, ?_, hvalue2.trans hvalue1, hnext2.trans hnext1, hprevious1 ▸ hprevious2⟩
  unfold link
  rw [hset1]
  exact hset2

/-! ## Contents -/

/-- The elements `as` make a ring with these items. -/
structure Holds (q : CircularQueue A) (as : List ℕ) (items : List A) : Prop where
  ring : LinkRing q.nextOf q.previousOf as
  values : as.map q.value = items.map some
  last : q.lastElement = as.getLast?
  first : q.firstElement = as.head?
  unused : ∀ a, q.fresh ≤ a → q.value a = none

variable {as : List ℕ} {items : List A} {f l : ℕ}

theorem Holds.length_eq (h : q.Holds as items) : as.length = items.length := by
  have hlength := congrArg List.length h.values
  rwa [List.length_map, List.length_map] at hlength

theorem isSome_of_values (h : as.map q.value = items.map some) (ha : a ∈ as) :
    (q.value a).isSome := by
  have hmem : q.value a ∈ items.map some := h ▸ List.mem_map_of_mem ha
  rcases List.mem_map.1 hmem with ⟨val, -, hval⟩
  rw [← hval]
  rfl

theorem Holds.isSome (h : q.Holds as items) (ha : a ∈ as) : (q.value a).isSome :=
  isSome_of_values h.values ha

theorem Holds.fresh_notMem (h : q.Holds as items) : q.fresh ∉ as := by
  intro hmem
  have hsome := h.isSome hmem
  rw [h.unused q.fresh le_rfl] at hsome
  nomatch hsome

/-! ## Pushes -/

theorem newElement_value (q : CircularQueue A) (val : A) :
    (q.newElement val).value = Function.update q.value q.fresh (some val) := by
  rw [value_eq, value_eq]
  exact bind_update _ _

theorem newElement_nextOf (q : CircularQueue A) (val : A) :
    (q.newElement val).nextOf = Function.update q.nextOf q.fresh none := bind_update _ _

theorem newElement_previousOf (q : CircularQueue A) (val : A) :
    (q.newElement val).previousOf = Function.update q.previousOf q.fresh none := bind_update _ _

/-- The element `q.fresh` was made and came in between `l` and `f`. -/
structure Joined (q q' : CircularQueue A) (val : A) (l f : ℕ) : Prop where
  next_eq : q'.nextOf =
    Function.update (Function.update q.nextOf l (some q.fresh)) q.fresh (some f)
  previous_eq : q'.previousOf =
    Function.update (Function.update q.previousOf f (some q.fresh)) q.fresh (some l)
  value_eq : q'.value = Function.update q.value q.fresh (some val)
  fresh_eq : q'.fresh = q.fresh + 1
  size_eq : q'.size = q.size
  maxSize_eq : q'.maxSize = q.maxSize

/-- The links of the new element count, and not that they were `NULL` before. -/
theorem update_fresh (g : ℕ → Option ℕ) (e a : ℕ) (x y z : Option ℕ) :
    Function.update (Function.update (Function.update g e z) a x) e y =
      Function.update (Function.update g a x) e y := by
  funext b
  by_cases hb : b = e
  · rw [hb, Function.update_self, Function.update_self]
  · rw [Function.update_of_ne hb, Function.update_of_ne hb, Function.update_apply,
      Function.update_of_ne hb, Function.update_apply]

theorem update_fresh_swap (g : ℕ → Option ℕ) {e a : ℕ} {x y : Option ℕ} (z : Option ℕ)
    (h : a = e → x = y) :
    Function.update (Function.update (Function.update g e z) e y) a x =
      Function.update (Function.update g a x) e y := by
  rw [Function.update_idem]
  by_cases ha : a = e
  · rw [ha, h ha, Function.update_idem]
  · exact Function.update_comm (Ne.symm ha) _ _ _

theorem pushBack_joined {val : A} (hl : (if q.lastElement = none then some q.fresh
    else q.lastElement) = some l) (hf : (if q.firstElement = none then some q.fresh
    else q.firstElement) = some f) (hlvalue : ((q.newElement val).value l).isSome)
    (hfvalue : ((q.newElement val).value f).isSome) (hends : l = q.fresh ↔ f = q.fresh) :
    ∃ q' : CircularQueue A, q.pushBack val = q'.grow popFront ∧ Joined q q' val l f ∧
      q'.lastElement = some q.fresh ∧ q'.firstElement = some f := by
  have he : ((q.newElement val).value q.fresh).isSome := by
    rw [newElement_value, Function.update_self]
    rfl
  let q1 := { q.newElement val with lastElement := some l }
  rcases link_eq (q := q1) hlvalue he with ⟨heap2, hlink2, hvalue2, hnext2, hprevious2⟩
  let q2 := { q1 with heap := heap2, lastElement := some q.fresh, firstElement := some f }
  have hq2 : q2.value = (q.newElement val).value := hvalue2
  have he2 : (q2.value q.fresh).isSome := by rw [hq2]; exact he
  have hf2 : (q2.value f).isSome := by rw [hq2]; exact hfvalue
  rcases link_eq he2 hf2 with ⟨heap4, hlink4, hvalue4, hnext4, hprevious4⟩
  refine ⟨{ q2 with heap := heap4 }, ?_, ?_, rfl, rfl⟩
  · change (link (if q.lastElement = none then some q.fresh else q.lastElement) (some q.fresh)
      { q.newElement val with
        lastElement := if q.lastElement = none then some q.fresh else q.lastElement } >>= _) = _
    rw [hl, hlink2]
    change (link (some q.fresh) (if q.firstElement = none then some q.fresh else q.firstElement)
      { q1 with
        heap := heap2
        lastElement := some q.fresh
        firstElement := if q.firstElement = none then some q.fresh else q.firstElement } >>= _) = _
    rw [hf, hlink4]
    rfl
  · have hend : f = q.fresh → some q.fresh = some l := fun heq => congrArg some (hends.2 heq).symm
    refine ⟨?_, ?_, ?_, rfl, rfl, rfl⟩
    · rw [hnext4]
      refine (congrArg (Function.update · q.fresh (some f)) ?_).trans (update_fresh _ _ _ _ _ none)
      rw [← newElement_nextOf]
      exact hnext2
    · rw [hprevious4, ← update_fresh_swap _ none hend, ← newElement_previousOf]
      exact congrArg (Function.update · f (some q.fresh)) hprevious2
    · rw [hvalue4, hq2, newElement_value]

theorem pushFront_joined {val : A} (hl : (if q.lastElement = none then some q.fresh
    else q.lastElement) = some l) (hf : (if q.firstElement = none then some q.fresh
    else q.firstElement) = some f) (hlvalue : ((q.newElement val).value l).isSome)
    (hfvalue : ((q.newElement val).value f).isSome) (hends : l = q.fresh ↔ f = q.fresh) :
    ∃ q' : CircularQueue A, q.pushFront val = q'.grow popBack ∧ Joined q q' val l f ∧
      q'.lastElement = some l ∧ q'.firstElement = some q.fresh := by
  have he : ((q.newElement val).value q.fresh).isSome := by
    rw [newElement_value, Function.update_self]
    rfl
  let q1 := { q.newElement val with firstElement := some f }
  rcases link_eq (q := q1) he hfvalue with ⟨heap2, hlink2, hvalue2, hnext2, hprevious2⟩
  let q2 := { q1 with heap := heap2, firstElement := some q.fresh, lastElement := some l }
  have hq2 : q2.value = (q.newElement val).value := hvalue2
  have he2 : (q2.value q.fresh).isSome := by rw [hq2]; exact he
  have hl2 : (q2.value l).isSome := by rw [hq2]; exact hlvalue
  rcases link_eq hl2 he2 with ⟨heap4, hlink4, hvalue4, hnext4, hprevious4⟩
  refine ⟨{ q2 with heap := heap4 }, ?_, ?_, rfl, rfl⟩
  · change (link (some q.fresh) (if q.firstElement = none then some q.fresh else q.firstElement)
      { q.newElement val with
        firstElement := if q.firstElement = none then some q.fresh else q.firstElement } >>= _) = _
    rw [hf, hlink2]
    change (link (if q.lastElement = none then some q.fresh else q.lastElement) (some q.fresh)
      { q1 with
        heap := heap2
        firstElement := some q.fresh
        lastElement := if q.lastElement = none then some q.fresh else q.lastElement } >>= _) = _
    rw [hl, hlink4]
    rfl
  · have hend : l = q.fresh → some q.fresh = some f := fun heq => congrArg some (hends.1 heq).symm
    refine ⟨?_, ?_, ?_, rfl, rfl, rfl⟩
    · rw [hnext4, ← update_fresh_swap _ none hend, ← newElement_nextOf]
      exact congrArg (Function.update · l (some q.fresh)) hnext2
    · rw [hprevious4]
      refine (congrArg (Function.update · q.fresh (some l)) ?_).trans (update_fresh _ _ _ _ _ none)
      rw [← newElement_previousOf]
      exact hprevious2
    · rw [hvalue4, hq2, newElement_value]

/-- The two ends, with the new element for both of them if the queue was empty. -/
theorem Holds.ends (h : q.Holds as items) (val : A) : ∃ l f,
    (if q.lastElement = none then some q.fresh else q.lastElement) = some l ∧
    (if q.firstElement = none then some q.fresh else q.firstElement) = some f ∧
    ((q.newElement val).value l).isSome ∧ ((q.newElement val).value f).isSome ∧
    (l = q.fresh ↔ f = q.fresh) ∧
    (as = [] ∧ l = q.fresh ∧ f = q.fresh ∨ as.getLast? = some l ∧ as.head? = some f) := by
  rw [h.last, h.first, newElement_value]
  by_cases hnil : as = []
  · have he : (Function.update q.value q.fresh (some val) q.fresh).isSome := by
      rw [Function.update_self]
      rfl
    rw [hnil]
    exact ⟨q.fresh, q.fresh, rfl, rfl, he, he, Iff.rfl, .inl ⟨rfl, rfl, rfl⟩⟩
  · have hold : ∀ a ∈ as, a ≠ q.fresh ∧
        (Function.update q.value q.fresh (some val) a).isSome := by
      intro a ha
      have hne : a ≠ q.fresh := fun heq => h.fresh_notMem (heq ▸ ha)
      rw [Function.update_of_ne hne]
      exact ⟨hne, h.isSome ha⟩
    have hl := hold _ (List.getLast_mem hnil)
    have hf := hold _ (List.head_mem hnil)
    have hlast := List.getLast?_eq_some_getLast hnil
    have hfirst := List.head?_eq_some_head hnil
    refine ⟨as.getLast hnil, as.head hnil, ?_, ?_, hl.2, hf.2, iff_of_false hl.1 hf.1,
      .inr ⟨hlast, hfirst⟩⟩
    · rw [hlast, if_neg (Option.some_ne_none _)]
    · rw [hfirst, if_neg (Option.some_ne_none _)]

/-- The ring with the new element. -/
theorem Holds.join {q' : CircularQueue A} {val : A} (h : q.Holds as items)
    (hjoined : Joined q q' val l f) (hends : as = [] ∧ l = q.fresh ∧ f = q.fresh ∨
      as.getLast? = some l ∧ as.head? = some f) :
    LinkRing q'.nextOf q'.previousOf (as ++ [q.fresh]) := by
  have hself : q'.nextOf q.fresh = some f ∧ q'.previousOf q.fresh = some l := by
    rw [hjoined.next_eq, hjoined.previous_eq, Function.update_self, Function.update_self]
    exact ⟨rfl, rfl⟩
  rcases hends with ⟨rfl, rfl, rfl⟩ | ⟨hl, hf⟩
  · exact .singleton hself
  · have hold : ∀ a ∈ as, a ≠ q.fresh := fun a ha heq => h.fresh_notMem (heq ▸ ha)
    have hlne := hold l (List.mem_of_getLast? hl)
    have hfne := hold f (List.mem_of_head? hf)
    apply h.ring.insert h.fresh_notMem hf hl
    · refine ⟨?_, hself.2⟩
      rw [hjoined.next_eq, Function.update_of_ne hlne, Function.update_self]
    · refine ⟨hself.1, ?_⟩
      rw [hjoined.previous_eq, Function.update_of_ne hfne, Function.update_self]
    · intro x hx hne
      rw [hjoined.next_eq, Function.update_of_ne (hold x hx), Function.update_of_ne hne]
    · intro x hx hne
      rw [hjoined.previous_eq, Function.update_of_ne (hold x hx), Function.update_of_ne hne]

/-- The values and the addresses that are not in use. -/
theorem Holds.join_values {q' : CircularQueue A} {val : A} (h : q.Holds as items)
    (hjoined : Joined q q' val l f) : as.map q'.value = items.map some ∧
      q'.value q.fresh = some val ∧ ∀ a, q'.fresh ≤ a → q'.value a = none := by
  rw [hjoined.value_eq, hjoined.fresh_eq]
  refine ⟨?_, Function.update_self _ _ _, fun a ha => ?_⟩
  · rw [← h.values]
    refine List.map_congr_left fun a ha => Function.update_of_ne ?_ _ _
    rintro rfl
    exact h.fresh_notMem ha
  · rw [Function.update_of_ne (by omega)]
    exact h.unused a (by omega)

theorem Holds.pushBack (h : q.Holds as items) (val : A) : ∃ q' : CircularQueue A,
    q.pushBack val = q'.grow popFront ∧ q'.Holds (as ++ [q.fresh]) (items ++ [val]) ∧
      q'.size = q.size ∧ q'.maxSize = q.maxSize := by
  rcases h.ends val with ⟨l, f, hl, hf, hlvalue, hfvalue, hiff, hends⟩
  rcases pushBack_joined hl hf hlvalue hfvalue hiff with ⟨q', hrun, hjoined, hlast, hfirst⟩
  rcases h.join_values hjoined with ⟨hold, hnew, hunused⟩
  refine ⟨q', hrun, ⟨h.join hjoined hends, ?_, ?_, ?_, hunused⟩, hjoined.size_eq,
    hjoined.maxSize_eq⟩
  · rw [List.map_append, List.map_append, hold, List.map_singleton, List.map_singleton, hnew]
  · rw [hlast, List.getLast?_concat]
  · rw [hfirst]
    rcases hends with ⟨rfl, -, rfl⟩ | ⟨-, hhead⟩
    · rfl
    · rw [List.head?_append, hhead]
      rfl

theorem Holds.pushFront (h : q.Holds as items) (val : A) : ∃ q' : CircularQueue A,
    q.pushFront val = q'.grow popBack ∧ q'.Holds (q.fresh :: as) (val :: items) ∧
      q'.size = q.size ∧ q'.maxSize = q.maxSize := by
  rcases h.ends val with ⟨l, f, hl, hf, hlvalue, hfvalue, hiff, hends⟩
  rcases pushFront_joined hl hf hlvalue hfvalue hiff with ⟨q', hrun, hjoined, hlast, hfirst⟩
  rcases h.join_values hjoined with ⟨hold, hnew, hunused⟩
  refine ⟨q', hrun, ⟨LinkRing.rotate.2 (h.join hjoined hends), ?_, ?_, ?_, hunused⟩,
    hjoined.size_eq, hjoined.maxSize_eq⟩
  · rw [List.map_cons, List.map_cons, hold, hnew]
  · rw [hlast]
    rcases hends with ⟨rfl, rfl, -⟩ | ⟨hend, -⟩
    · rfl
    · rw [List.getLast?_cons, hend]
      rfl
  · exact hfirst

/-! ## Pops -/

theorem delete_value (q : CircularQueue A) (a : ℕ) :
    (q.delete (some a)).value = Function.update q.value a none := by
  rw [value_eq, value_eq]
  exact bind_update _ _

theorem delete_nextOf (q : CircularQueue A) (a : ℕ) :
    (q.delete (some a)).nextOf = Function.update q.nextOf a none := bind_update _ _

theorem delete_previousOf (q : CircularQueue A) (a : ℕ) :
    (q.delete (some a)).previousOf = Function.update q.previousOf a none := bind_update _ _

/-- The neighbours of an element are linked with each other, and the element is deleted. -/
theorem unlink (hring : LinkRing q.nextOf q.previousOf (a :: as))
    (hvalue : ∀ x ∈ as, (q.value x).isSome) (hf : as.head? = some f)
    (hl : as.getLast? = some l) : ∃ heap, q.link (some l) (some f) = some { q with heap := heap } ∧
      LinkRing ({ q with heap := heap }.drop (some a)).nextOf
        ({ q with heap := heap }.drop (some a)).previousOf as ∧
      ({ q with heap := heap }.drop (some a)).value = Function.update q.value a none := by
  have hlmem := List.mem_of_getLast? hl
  have hfmem := List.mem_of_head? hf
  have hold : ∀ x ∈ as, x ≠ a := fun x hx heq => (List.nodup_cons.1 hring.nodup).1 (heq ▸ hx)
  rcases link_eq (hvalue l hlmem) (hvalue f hfmem) with ⟨heap, hlink, hvalue', hnext, hprevious⟩
  have hnext' := (delete_nextOf { q with heap := heap } a).trans
    (congrArg (Function.update · a none) hnext)
  have hprevious' := (delete_previousOf { q with heap := heap } a).trans
    (congrArg (Function.update · a none) hprevious)
  refine ⟨heap, hlink, ?_, (delete_value _ a).trans (congrArg (Function.update · a none) hvalue')⟩
  change LinkRing ({ q with heap := heap }.delete (some a)).nextOf
    ({ q with heap := heap }.delete (some a)).previousOf as
  rw [hnext', hprevious']
  apply hring.remove hf hl
  · constructor
    · rw [Function.update_of_ne (hold l hlmem), Function.update_self]
    · rw [Function.update_of_ne (hold f hfmem), Function.update_self]
  · intro x hx hne
    rw [Function.update_of_ne (hold x hx), Function.update_of_ne hne]
  · intro x hx hne
    rw [Function.update_of_ne (hold x hx), Function.update_of_ne hne]

theorem size_eq_one_iff {size : Int32} {n : ℕ} (h : size.toInt = n) : size = 1 ↔ n = 1 := by
  rw [← Int32.toInt_inj, h]
  change (n : ℤ) = 1 ↔ n = 1
  omega

/-- The pops leave an element behind. -/
theorem size_many {size : Int32} {n : ℕ} (h : size.toInt = n) (hn : 1 < n) :
    ¬ size = 1 ∧ 1 < size := by
  rw [size_eq_one_iff h, Int32.lt_iff_toInt_lt, h]
  change ¬ n = 1 ∧ 1 < (n : ℤ)
  omega

/-- The other values stay, and the address of the deleted element is not in use. -/
theorem values_without {value : ℕ → Option A} {fresh : ℕ} (h : as.map value = items.map some)
    (hunused : ∀ b, fresh ≤ b → value b = none) (hout : a ∉ as) :
    as.map (Function.update value a none) = items.map some ∧
      ∀ b, fresh ≤ b → Function.update value a none b = none := by
  constructor
  · rw [← h]
    refine List.map_congr_left fun b hb => Function.update_of_ne ?_ _ _
    rintro rfl
    exact hout hb
  · intro b hb
    rw [Function.update_apply, hunused b hb, ite_self]

/-- The queue without its only element is empty. -/
theorem Holds.drop_only {val : A} (h : q.Holds [a] [val]) :
    Holds ({ q with lastElement := none, firstElement := none, currentElement := none }.drop
      (some a)) [] [] := by
  let q1 := { q with lastElement := none, firstElement := none, currentElement := none }
  have hvalue : (q1.drop (some a)).value = Function.update q.value a none := delete_value q1 a
  have hnone : ([] : List ℕ).map q.value = ([] : List A).map some := rfl
  refine ⟨.nil, rfl, rfl, rfl, ?_⟩
  rw [hvalue]
  exact (values_without hnone h.unused List.not_mem_nil).2

/-- An element at one end is taken out, where the pointer to that end has moved already. -/
theorem drop_end (hring : LinkRing q.nextOf q.previousOf (a :: as))
    (hvalues : as.map q.value = items.map some) (hunused : ∀ b, q.fresh ≤ b → q.value b = none)
    (hf : as.head? = some f) (hl : as.getLast? = some l) (hfirst : q.firstElement = some f)
    (hlast : q.lastElement = some l) : ∃ q', q.link q.lastElement q.firstElement = some q' ∧
      (q'.drop (some a)).Holds as items ∧ q'.size = q.size ∧ q'.maxSize = q.maxSize := by
  have hisSome : ∀ x ∈ as, (q.value x).isSome := fun x hx => isSome_of_values hvalues hx
  rcases unlink hring hisSome hf hl with ⟨heap, hlink, hring', hvalue⟩
  rcases values_without hvalues hunused (List.nodup_cons.1 hring.nodup).1 with ⟨hstay, hunused'⟩
  refine ⟨{ q with heap := heap }, ?_, ⟨hring', ?_, hlast.trans hl.symm, hfirst.trans hf.symm, ?_⟩,
    rfl, rfl⟩
  · rw [← hlast, ← hfirst] at hlink
    exact hlink
  · rw [hvalue]
    exact hstay
  · rw [hvalue]
    exact hunused'

theorem Holds.popFront_cons {val : A} (h : q.Holds (a :: as) (val :: items))
    (hsize : q.size.toInt = (val :: items).length) : ∃ q', q.popFront = some (val, q') ∧
      q'.Holds as items ∧ q'.size = q.size - 1 ∧ q'.maxSize = q.maxSize ∧
      q'.currentElement = q'.lastElement := by
  have hresult : q.firstElement = some a := h.first
  rcases List.cons.inj h.values with ⟨hval, hvalues⟩
  cases hf : as.head? with
  | none =>
    obtain rfl := List.head?_eq_none_iff.1 hf
    obtain rfl := List.map_eq_nil_iff.1 hvalues.symm
    have hone : q.size = 1 := (size_eq_one_iff hsize).2 rfl
    refine ⟨_, ?_, Holds.drop_only h, rfl, rfl, rfl⟩
    unfold CircularQueue.popFront
    rw [hresult]
    change (q.value a >>= _) = _
    rw [hval, Option.bind_eq_bind, Option.bind_some, if_pos hone]
    rfl
  | some f =>
    have hne : as ≠ [] := List.ne_nil_of_mem (List.mem_of_head? hf)
    have hl := List.getLast?_eq_some_getLast hne
    have hpos := List.length_pos_of_ne_nil hne
    rw [← h.length_eq, List.length_cons] at hsize
    rcases size_many hsize (by omega) with ⟨hmany, hsize'⟩
    have hnext : q.nextOf a = some f := ((LinkRing.cons_iff hf hl).1 h.ring).2.2.2.1
    have hlast : q.lastElement = some (as.getLast hne) := by
      rw [h.last, List.getLast?_cons, hl]
      rfl
    rcases drop_end (q := { q with firstElement := some f }) h.ring hvalues h.unused hf hl rfl hlast
      with ⟨q', hlink, hholds, hsize1, hmax⟩
    refine ⟨q'.drop (some a), ?_, hholds, congrArg (· - 1) hsize1, hmax, rfl⟩
    unfold CircularQueue.popFront
    rw [hresult]
    change (q.value a >>= _) = _
    rw [hval, Option.bind_eq_bind, Option.bind_some, if_neg hmany, if_pos hsize']
    change (link q.lastElement (q.nextOf a) { q with firstElement := q.nextOf a } >>= _) = _
    rw [hnext]
    exact congrArg (Option.bind · _) hlink

theorem Holds.popBack_concat {val : A} (h : q.Holds (as ++ [a]) (items ++ [val]))
    (hsize : q.size.toInt = (items ++ [val]).length) : ∃ q', q.popBack = some (val, q') ∧
      q'.Holds as items ∧ q'.size = q.size - 1 ∧ q'.maxSize = q.maxSize ∧
      q'.currentElement = q'.lastElement := by
  have hresult : q.lastElement = some a := by rw [h.last, List.getLast?_concat]
  have hring := LinkRing.rotate.2 h.ring
  have hvalues := h.values
  rw [List.map_append, List.map_append] at hvalues
  rcases List.append_inj' hvalues rfl with ⟨hvalues, hval⟩
  rw [List.map_singleton, List.map_singleton, List.singleton_inj] at hval
  cases hf : as.head? with
  | none =>
    obtain rfl := List.head?_eq_none_iff.1 hf
    obtain rfl := List.map_eq_nil_iff.1 hvalues.symm
    have hone : q.size = 1 := (size_eq_one_iff hsize).2 rfl
    refine ⟨_, ?_, Holds.drop_only h, rfl, rfl, rfl⟩
    unfold CircularQueue.popBack
    rw [hresult]
    change (q.value a >>= _) = _
    rw [hval, Option.bind_eq_bind, Option.bind_some, if_pos hone]
    rfl
  | some f =>
    have hne : as ≠ [] := List.ne_nil_of_mem (List.mem_of_head? hf)
    have hl := List.getLast?_eq_some_getLast hne
    have hpos := List.length_pos_of_ne_nil hne
    rw [← h.length_eq, List.length_append, List.length_singleton] at hsize
    rcases size_many hsize (by omega) with ⟨hmany, hsize'⟩
    have hprevious : q.previousOf a = some (as.getLast hne) :=
      ((LinkRing.cons_iff hf hl).1 hring).2.2.1.2
    have hfirst : q.firstElement = some f := by
      rw [h.first, List.head?_append, hf]
      rfl
    rcases drop_end (q := { q with lastElement := some (as.getLast hne) }) hring hvalues h.unused hf
      hl hfirst rfl with ⟨q', hlink, hholds, hsize1, hmax⟩
    refine ⟨q'.drop (some a), ?_, hholds, congrArg (· - 1) hsize1, hmax, rfl⟩
    unfold CircularQueue.popBack
    rw [hresult]
    change (q.value a >>= _) = _
    rw [hval, Option.bind_eq_bind, Option.bind_some, if_neg hmany, if_pos hsize']
    change (link (q.previousOf a) q.firstElement { q with lastElement := q.previousOf a } >>= _) = _
    rw [hprevious]
    exact congrArg (Option.bind · _) hlink

theorem Holds.popFront (h : q.Holds as items) (hsize : q.size.toInt = items.length)
    (hne : items ≠ []) : ∃ val q', q.popFront = some (val, q') ∧ q'.Holds as.tail items.tail ∧
      q'.size = q.size - 1 ∧ q'.maxSize = q.maxSize ∧ q'.currentElement = q'.lastElement ∧
      items.head? = some val := by
  have hlength := h.length_eq
  cases as with
  | nil => exact absurd (List.length_eq_zero_iff.1 hlength.symm) hne
  | cons a as =>
    cases items with
    | nil => exact absurd rfl hne
    | cons val items =>
      rcases h.popFront_cons hsize with ⟨q', hrun, hholds, hsize', hmax, hcurrent⟩
      exact ⟨val, q', hrun, hholds, hsize', hmax, hcurrent, rfl⟩

theorem Holds.popBack (h : q.Holds as items) (hsize : q.size.toInt = items.length)
    (hne : items ≠ []) : ∃ val q', q.popBack = some (val, q') ∧
      q'.Holds as.dropLast items.dropLast ∧ q'.size = q.size - 1 ∧ q'.maxSize = q.maxSize ∧
      q'.currentElement = q'.lastElement ∧ items.getLast? = some val := by
  have hlength := h.length_eq
  have has : as ≠ [] := by
    rintro rfl
    exact hne (List.length_eq_zero_iff.1 hlength.symm)
  obtain ⟨front, a, rfl⟩ := (List.eq_nil_or_concat' as).resolve_left has
  obtain ⟨start, val, rfl⟩ := (List.eq_nil_or_concat' items).resolve_left hne
  rcases h.popBack_concat hsize with ⟨q', hrun, hholds, hsize', hmax, hcurrent⟩
  rw [List.dropLast_concat, List.dropLast_concat]
  exact ⟨val, q', hrun, hholds, hsize', hmax, hcurrent, List.getLast?_concat⟩

/-! ## The state of the queue -/

/-- The queue holds the items of the deque, counts them and stands at the same place. -/
structure Shows {maxSize : Int32} (q : CircularQueue A) (as : List ℕ)
    (d : RingDeque A (bound maxSize)) : Prop where
  holds : q.Holds as d.items
  maxSize_eq : q.maxSize = maxSize
  counted : q.size.toInt = d.items.length
  current : q.currentElement = as[d.cursor]?

theorem toInt_add_one {size : Int32} {n : ℕ} (h : size.toInt = n) (hn : n + 1 < 2 ^ 31) :
    (size + 1).toInt = (n + 1 : ℕ) := by
  rw [Int32.toInt_add, h]
  change ((n : ℤ) + 1).bmod (2 ^ 32) = (n + 1 : ℕ)
  rw [Int.bmod_eq_of_le (by omega) (by omega)]
  rfl

theorem toInt_sub_one {size : Int32} {n : ℕ} (h : size.toInt = (n + 1 : ℕ)) :
    (size - 1).toInt = n := by
  have hlt := size.toInt_lt
  rw [Int32.toInt_sub, h]
  change ((n + 1 : ℕ) - 1 : ℤ).bmod (2 ^ 32) = n
  rw [Int.bmod_eq_of_le (by omega) (by omega)]
  omega

/-- The two tests of a push, where the size was at most `_maxSize` before. -/
theorem over_iff {maxSize size : Int32} {n : ℕ} (hle : ∀ m ∈ bound maxSize, n ≤ m)
    (hsize : size.toInt = (n + 1 : ℕ)) :
    (-1 < maxSize ∧ maxSize < size) ↔ bound maxSize = some n := by
  unfold bound at hle ⊢
  split_ifs at hle ⊢ with hpos
  · have hle' := hle _ rfl
    have hnonneg : -1 < maxSize.toInt := Int32.lt_iff_toInt_lt.1 hpos
    rw [and_iff_right hpos, Int32.lt_iff_toInt_lt, hsize, Option.some.injEq]
    omega
  · exact iff_of_false (fun h => hpos h.1) nofun

theorem Shows.ofItems {maxSize : Int32} (h : q.Holds as items) (hmax : q.maxSize = maxSize)
    (hsize : q.size.toInt = items.length) (hcurrent : q.currentElement = q.lastElement)
    (hle : ∀ m ∈ bound maxSize, items.length ≤ m) : q.Shows as (RingDeque.ofItems items hle) where
  holds := h
  maxSize_eq := hmax
  counted := hsize
  current := by rw [hcurrent, h.last, List.getLast?_eq_getElem?, h.length_eq]; rfl

/-- Behind a push one element goes out at the other end if the deque was full. -/
theorem Shows.push {maxSize : Int32} {d : RingDeque A (bound maxSize)} {all : List ℕ}
    (rest : List ℕ) {kept : List A} {pop : CircularQueue A → Option (A × CircularQueue A)}
    (h : q.Holds all items) (hmax : q.maxSize = maxSize) (hsize : q.size.toInt = d.items.length)
    (hsmall : d.items.length + 1 < 2 ^ 31) (hitems : items.length = d.items.length + 1)
    (hkept : kept.length = d.items.length)
    (hpop : ∀ q2 : CircularQueue A, q2.Holds all items → q2.size.toInt = items.length →
      ∃ val q3, pop q2 = some (val, q3) ∧ q3.Holds rest kept ∧ q3.size = q2.size - 1 ∧
        q3.maxSize = q2.maxSize) :
    ∃ q' as', q.grow pop = some q' ∧ q'.Shows as' (d.push items kept hitems hkept) := by
  subst hmax
  let q2 := { q with size := q.size + 1 }
  have h2 : q2.Holds all items := ⟨h.ring, h.values, h.last, h.first, h.unused⟩
  have hsize2 : q2.size.toInt = (d.items.length + 1 : ℕ) := toInt_add_one hsize hsmall
  have hover := over_iff d.size_le hsize2
  unfold grow RingDeque.push
  by_cases hfull : bound q.maxSize = some d.items.length
  · rcases hpop q2 h2 (hitems ▸ hsize2) with ⟨val, q3, hpop3, h3, hsize3, hmax3⟩
    refine ⟨q3.reset, rest, ?_, ?_⟩
    · dsimp only
      rw [if_pos (hover.2 hfull), hpop3]
      rfl
    · rw [dif_pos hfull]
      have hreset : q3.reset.Holds rest kept := ⟨h3.ring, h3.values, h3.last, h3.first, h3.unused⟩
      refine .ofItems hreset hmax3 ?_ rfl _
      rw [hkept]
      exact (congrArg Int32.toInt hsize3).trans (toInt_sub_one hsize2)
  · refine ⟨q2.reset, all, ?_, ?_⟩
    · dsimp only
      rw [if_neg (mt hover.1 hfull)]
      rfl
    · rw [dif_neg hfull]
      have hreset : q2.reset.Holds all items := ⟨h2.ring, h2.values, h2.last, h2.first, h2.unused⟩
      refine .ofItems hreset rfl ?_ rfl _
      rw [hitems]
      exact hsize2

theorem Shows.pushBack {maxSize : Int32} {d : RingDeque A (bound maxSize)} (h : q.Shows as d)
    (hsmall : d.items.length + 1 < 2 ^ 31) (val : A) :
    ∃ q' as', q.pushBack val = some q' ∧ q'.Shows as' (d.pushBack val) := by
  rcases h.holds.pushBack val with ⟨q1, hrun, h1, hsize1, hmax1⟩
  have hsize : q1.size.toInt = d.items.length := by rw [hsize1, h.counted]
  rw [hrun]
  apply Shows.push (as ++ [q.fresh]).tail h1 (hmax1.trans h.maxSize_eq) hsize hsmall
  intro q2 h2 hsize2
  rcases h2.popFront hsize2 (List.concat_ne_nil val d.items) with
    ⟨out, q3, hpop, h3, hsize3, hmax3, -⟩
  exact ⟨out, q3, hpop, h3, hsize3, hmax3⟩

theorem Shows.pushFront {maxSize : Int32} {d : RingDeque A (bound maxSize)} (h : q.Shows as d)
    (hsmall : d.items.length + 1 < 2 ^ 31) (val : A) :
    ∃ q' as', q.pushFront val = some q' ∧ q'.Shows as' (d.pushFront val) := by
  rcases h.holds.pushFront val with ⟨q1, hrun, h1, hsize1, hmax1⟩
  have hsize : q1.size.toInt = d.items.length := by rw [hsize1, h.counted]
  rw [hrun]
  apply Shows.push (q.fresh :: as).dropLast h1 (hmax1.trans h.maxSize_eq) hsize hsmall
  intro q2 h2 hsize2
  rcases h2.popBack hsize2 (List.cons_ne_nil val d.items) with
    ⟨out, q3, hpop, h3, hsize3, hmax3, -⟩
  exact ⟨out, q3, hpop, h3, hsize3, hmax3⟩

theorem Shows.popFront {maxSize : Int32} {d : RingDeque A (bound maxSize)} {val : A}
    (h : q.Shows as d) (hval : d.items.head? = some val) :
    ∃ q' as', q.popFront = some (val, q') ∧ q'.Shows as' d.popFront := by
  have hne : d.items ≠ [] := List.ne_nil_of_mem (List.mem_of_head? hval)
  have hpos := List.length_pos_of_ne_nil hne
  rcases h.holds.popFront h.counted hne with ⟨out, q', hrun, h', hsize, hmax, hcurrent, hout⟩
  cases hval.symm.trans hout
  refine ⟨q', _, hrun, .ofItems h' (hmax.trans h.maxSize_eq) ?_ hcurrent _⟩
  rw [hsize, List.length_tail]
  apply toInt_sub_one
  rw [h.counted, Nat.sub_add_cancel hpos]

theorem Shows.popBack {maxSize : Int32} {d : RingDeque A (bound maxSize)} {val : A}
    (h : q.Shows as d) (hval : d.items.getLast? = some val) :
    ∃ q' as', q.popBack = some (val, q') ∧ q'.Shows as' d.popBack := by
  have hne : d.items ≠ [] := List.ne_nil_of_mem (List.mem_of_getLast? hval)
  have hpos := List.length_pos_of_ne_nil hne
  rcases h.holds.popBack h.counted hne with ⟨out, q', hrun, h', hsize, hmax, hcurrent, hout⟩
  cases hval.symm.trans hout
  refine ⟨q', _, hrun, .ofItems h' (hmax.trans h.maxSize_eq) ?_ hcurrent _⟩
  rw [hsize, List.length_dropLast]
  apply toInt_sub_one
  rw [h.counted, Nat.sub_add_cancel hpos]

/-! ## Moves -/

section moves
variable {maxSize : Int32} {d : RingDeque A (bound maxSize)}

theorem Holds.value_eq (h : q.Holds as items) {i : ℕ} {val : A} (ha : as[i]? = some a)
    (hval : items[i]? = some val) : q.value a = some val := by
  have hvalues := congrArg (·[i]?) h.values
  rw [List.getElem?_map, List.getElem?_map, ha, hval] at hvalues
  exact Option.some.inj hvalues

theorem Holds.exists_getElem (h : q.Holds as items) {i : ℕ} (hi : i < items.length) :
    ∃ a val, as[i]? = some a ∧ items[i]? = some val ∧ q.value a = some val := by
  have ha := List.getElem?_eq_getElem (h.length_eq.symm ▸ hi)
  have hval := List.getElem?_eq_getElem hi
  exact ⟨_, _, ha, hval, h.value_eq ha hval⟩

/-- The links go round the list. -/
theorem Holds.linked (h : q.Holds as items) {i j : ℕ} {b : ℕ} (ha : as[i]? = some a)
    (hb : as[j]? = some b) (hij : (i + 1) % items.length = j) :
    Linked q.nextOf q.previousOf a b := by
  rcases List.getElem?_eq_some_iff.1 ha with ⟨hi, rfl⟩
  rcases List.getElem?_eq_some_iff.1 hb with ⟨hj, rfl⟩
  exact h.ring.linked_getElem hi hj (h.length_eq.symm ▸ hij)

/-- The queue when it stands at a place of the list. -/
def goTo (as : List ℕ) (i : ℕ) (q : CircularQueue A) : CircularQueue A :=
  { q with currentElement := as[i]? }

theorem Shows.goTo_moveTo (h : q.Shows as d) (i : ℕ) :
    (q.goTo as (i % d.items.length)).Shows as (d.moveTo i) where
  holds := ⟨h.holds.ring, h.holds.values, h.holds.last, h.holds.first, h.holds.unused⟩
  maxSize_eq := h.maxSize_eq
  counted := h.counted
  current := rfl

theorem Shows.goTo_self (h : q.Shows as d) : q.goTo as d.cursor = q := by
  unfold goTo
  rw [← h.current]

theorem mod_pred_add_one {c n : ℕ} (hc : c < n) : ((c + (n - 1)) % n + 1) % n = c := by
  have hsum : c + (n - 1) + 1 = c + n := by omega
  rw [Nat.mod_add_mod, hsum, Nat.add_mod_right, Nat.mod_eq_of_lt hc]

/-- Going back by one place `i + 1` times. -/
theorem back_mod {c n i : ℕ} (hi : i < n) :
    (c + (i + 1) * (n - 1)) % n = (c + (n - 1 - i)) % n := by
  obtain ⟨m, rfl⟩ := Nat.exists_eq_add_of_lt hi
  have hplaces : c + (i + 1) * (i + m + 1 - 1) = c + (i + m + 1 - 1 - i) + i * (i + m + 1) := by
    rw [Nat.add_sub_cancel, Nat.add_sub_cancel_left]
    ring
  rw [hplaces, Nat.add_mul_mod_self_right]

/-- `next` comes to the place behind the current one. -/
theorem Shows.next (h : q.Shows as d) (hne : d.items ≠ []) :
    ∃ a val, as[(d.cursor + 1) % d.items.length]? = some a ∧
      d.items[(d.cursor + 1) % d.items.length]? = some val ∧
      q.next = some (val, q.goTo as ((d.cursor + 1) % d.items.length)) := by
  have hc := d.cursor_lt hne
  rcases h.holds.exists_getElem hc with ⟨b, -, hb, -, -⟩
  rcases h.holds.exists_getElem (Nat.mod_lt (d.cursor + 1) (by omega)) with
    ⟨a, val, ha, hval, hvalue⟩
  have hnext : q.nextOf b = some a := (h.holds.linked hb ha rfl).1
  refine ⟨a, val, ha, hval, ?_⟩
  unfold CircularQueue.next goTo
  rw [h.current, hb, ha]
  change (q.nextOf b >>= _) = _
  rw [hnext]
  change (q.value a >>= _) = _
  rw [hvalue]
  rfl

/-- `previous` comes to the place in front of it. -/
theorem Shows.previous (h : q.Shows as d) (hne : d.items ≠ []) :
    ∃ a val, as[(d.cursor + (d.items.length - 1)) % d.items.length]? = some a ∧
      d.items[(d.cursor + (d.items.length - 1)) % d.items.length]? = some val ∧
      q.previous = some (val, q.goTo as ((d.cursor + (d.items.length - 1)) % d.items.length)) := by
  have hc := d.cursor_lt hne
  rcases h.holds.exists_getElem hc with ⟨b, -, hb, -, -⟩
  rcases h.holds.exists_getElem (Nat.mod_lt (d.cursor + (d.items.length - 1)) (by omega)) with
    ⟨a, val, ha, hval, hvalue⟩
  have hprevious : q.previousOf b = some a := (h.holds.linked ha hb (mod_pred_add_one hc)).2
  refine ⟨a, val, ha, hval, ?_⟩
  unfold CircularQueue.previous goTo
  rw [h.current, hb, ha]
  change (q.previousOf b >>= _) = _
  rw [hprevious]
  change (q.value a >>= _) = _
  rw [hvalue]
  rfl

/-- Moves that go on by `s` places each. -/
theorem Shows.moves {move : CircularQueue A → Option (A × CircularQueue A)} {s : ℕ}
    (hmove : ∀ {q : CircularQueue A} {d' : RingDeque A (bound maxSize)}, q.Shows as d' →
      d'.items = items → ∃ a val, as[(d'.cursor + s) % items.length]? = some a ∧
        items[(d'.cursor + s) % items.length]? = some val ∧
        move q = some (val, q.goTo as ((d'.cursor + s) % items.length)))
    (hne : items ≠ []) (h : q.Shows as d) (hitems : d.items = items) (k : ℕ) :
    ∃ visits, q.moves move k = some (visits, q.goTo as ((d.cursor + k * s) % items.length)) ∧
      visits.length = k ∧ ∀ i < k, visits[i]? =
        (as.zip items)[(d.cursor + (i + 1) * s) % items.length]? := by
  induction k generalizing q d with
  | zero =>
    have hc : (d.cursor + 0 * s) % items.length = d.cursor := by
      rw [Nat.zero_mul, Nat.add_zero, ← hitems]
      exact Nat.mod_eq_of_lt (d.cursor_lt (hitems ▸ hne))
    refine ⟨[], ?_, rfl, nofun⟩
    rw [hc, h.goTo_self]
    rfl
  | succ k ih =>
    rcases hmove h hitems with ⟨a, val, ha, hval, hrun⟩
    have hnext := h.goTo_moveTo (d.cursor + s)
    rw [hitems] at hnext
    rcases ih hnext hitems with ⟨visits, hmoves, hlength, hvisits⟩
    -- `i` moves from the next place are `i + 1` moves from here
    have hplace : ∀ i, ((d.moveTo (d.cursor + s)).cursor + i * s) % items.length =
        (d.cursor + (i + 1) * s) % items.length := by
      intro i
      change ((d.cursor + s) % d.items.length + i * s) % items.length = _
      rw [hitems, Nat.mod_add_mod, Nat.add_assoc, Nat.add_comm s, ← Nat.succ_mul]
    rw [hplace] at hmoves
    refine ⟨(a, val) :: visits, ?_, congrArg (· + 1) hlength, ?_⟩
    · unfold CircularQueue.moves
      rw [hrun]
      change (as[(d.cursor + s) % items.length]? >>= _) = _
      rw [ha]
      change (CircularQueue.moves move k _ >>= _) = _
      rw [hmoves]
      rfl
    · intro i hi
      cases i with
      | zero =>
        rw [Nat.zero_add, Nat.one_mul]
        exact (List.getElem?_zip_eq_some.2 ⟨ha, hval⟩).symm
      | succ i =>
        rw [List.getElem?_cons_succ, hvisits i (Nat.lt_of_succ_lt_succ hi), hplace]

/-- As many moves as there are items end where they began. -/
theorem Shows.turn {move : CircularQueue A → Option (A × CircularQueue A)} {s : ℕ}
    (hmove : ∀ {q : CircularQueue A} {d' : RingDeque A (bound maxSize)}, q.Shows as d' →
      d'.items = items → ∃ a val, as[(d'.cursor + s) % items.length]? = some a ∧
        items[(d'.cursor + s) % items.length]? = some val ∧
        move q = some (val, q.goTo as ((d'.cursor + s) % items.length)))
    (hne : items ≠ []) (h : q.Shows as d) (hitems : d.items = items) {visits : List (ℕ × A)}
    (hlength : visits.length = items.length) (hvisits : ∀ i < items.length,
      visits[i]? = (as.zip items)[(d.cursor + (i + 1) * s) % items.length]?) :
    q.moves move items.length = some (visits, q) := by
  rcases h.moves hmove hne hitems items.length with ⟨visits', hmoves, hlength', hvisits'⟩
  have hc : (d.cursor + items.length * s) % items.length = d.cursor := by
    rw [Nat.add_mul_mod_self_left, ← hitems]
    exact Nat.mod_eq_of_lt (d.cursor_lt (hitems ▸ hne))
  have hsame : visits = visits' := by
    apply List.ext_getElem?
    intro i
    by_cases hi : i < items.length
    · rw [hvisits i hi, hvisits' i hi]
    · rw [List.getElem?_eq_none (by omega), List.getElem?_eq_none (by omega)]
  rw [hmoves, hc, h.goTo_self, hsame]

theorem Shows.zip_length (h : q.Shows as d) : (as.zip d.items).length = d.items.length := by
  rw [List.length_zip, h.holds.length_eq, Nat.min_self]

theorem Shows.turn_next (h : q.Shows as d) :
    q.moves CircularQueue.next d.items.length =
      some ((as.zip d.items).rotate (d.cursor + 1), q) := by
  have hzip := h.zip_length
  by_cases hne : d.items = []
  · rw [hne, List.zip_nil_right, List.rotate_nil]
    rfl
  · refine h.turn (s := 1) (fun h' hitems => ?_) hne rfl ?_ fun i hi => ?_
    · rw [← hitems]
      exact h'.next (hitems ▸ hne)
    · rw [List.length_rotate, hzip]
    · rw [List.getElem?_rotate (hzip.symm ▸ hi), hzip, Nat.mul_one, Nat.add_comm i,
        Nat.add_assoc, Nat.add_comm 1]

theorem Shows.turn_previous (h : q.Shows as d) :
    q.moves CircularQueue.previous d.items.length =
      some (((as.zip d.items).rotate d.cursor).reverse, q) := by
  have hzip := h.zip_length
  by_cases hne : d.items = []
  · rw [hne, List.zip_nil_right, List.rotate_nil]
    rfl
  · refine h.turn (s := d.items.length - 1) (fun h' hitems => ?_) hne rfl ?_ fun i hi => ?_
    · rw [← hitems]
      exact h'.previous (hitems ▸ hne)
    · rw [List.length_reverse, List.length_rotate, hzip]
    · have hrotate : i < ((as.zip d.items).rotate d.cursor).length := by
        rw [List.length_rotate, hzip]
        exact hi
      rw [List.getElem?_reverse hrotate, List.length_rotate, hzip,
        List.getElem?_rotate (by omega), hzip]
      rw [back_mod hi, Nat.add_comm]

/-- The two moves take each other back. -/
theorem Shows.next_previous (h : q.Shows as d) (hne : d.items ≠ []) :
    ∃ val val' q', q.next = some (val, q') ∧ q'.previous = some (val', q) := by
  have hc := d.cursor_lt hne
  rcases h.next hne with ⟨-, val, -, -, hnext⟩
  rcases (h.goTo_moveTo (d.cursor + 1)).previous hne with ⟨-, val', -, -, hprevious⟩
  have hplace : ((d.moveTo (d.cursor + 1)).cursor + (d.items.length - 1)) % d.items.length =
      d.cursor := by
    have hsum : d.cursor + 1 + (d.items.length - 1) = d.cursor + d.items.length := by omega
    change ((d.cursor + 1) % d.items.length + (d.items.length - 1)) % d.items.length = d.cursor
    rw [Nat.mod_add_mod, hsum, Nat.add_mod_right, Nat.mod_eq_of_lt hc]
  refine ⟨val, val', _, hnext, ?_⟩
  refine hprevious.trans ?_
  have hback : (q.goTo as ((d.cursor + 1) % d.items.length)).goTo as d.cursor = q := h.goTo_self
  change some (val', (q.goTo as ((d.cursor + 1) % d.items.length)).goTo as
    (((d.moveTo (d.cursor + 1)).cursor + (d.items.length - 1)) % d.items.length)) = _
  rw [hplace, hback]

theorem Shows.previous_next (h : q.Shows as d) (hne : d.items ≠ []) :
    ∃ val val' q', q.previous = some (val, q') ∧ q'.next = some (val', q) := by
  have hc := d.cursor_lt hne
  rcases h.previous hne with ⟨-, val, -, -, hprevious⟩
  rcases (h.goTo_moveTo (d.cursor + (d.items.length - 1))).next hne with ⟨-, val', -, -, hnext⟩
  refine ⟨val, val', _, hprevious, ?_⟩
  refine hnext.trans ?_
  have hback : (q.goTo as ((d.cursor + (d.items.length - 1)) % d.items.length)).goTo as d.cursor =
      q := h.goTo_self
  change some (val', (q.goTo as ((d.cursor + (d.items.length - 1)) % d.items.length)).goTo as
    (((d.cursor + (d.items.length - 1)) % d.items.length + 1) % d.items.length)) = _
  rw [mod_pred_add_one hc, hback]

theorem Shows.isDeque (h : q.Shows as d) : q.IsDeque as d where
  nodup := h.holds.ring.nodup
  values := h.holds.values
  size_eq := h.holds.length_eq ▸ h.counted
  first := h.holds.first
  last := h.holds.last
  current := h.current
  cycle _ _ _ ha hb := h.holds.linked ha hb (h.holds.length_eq ▸ rfl)
  next_previous := h.next_previous
  previous_next := h.previous_next
  turn_next := h.turn_next
  turn_previous := h.turn_previous

end moves

/-! ## Runs -/

section runs
variable {maxSize : Int32} {d d' : RingDeque A (bound maxSize)} {op : QueueOp A}
variable {ops : List (QueueOp A)}

/-- The queue does what the deque does. -/
theorem Shows.run {result : Option A} (h : q.Shows as d)
    (hsmall : RingDeque.pushes op = true → d.items.length + 1 < 2 ^ 31)
    (hrun : d.run op = some (result, d')) :
    ∃ q' as', q.run op = some (result, q') ∧ q'.Shows as' d' := by
  cases op with
  | pushBack val =>
    cases hrun
    rcases h.pushBack (hsmall rfl) val with ⟨q', as', hpush, h'⟩
    exact ⟨q', as', congrArg (Option.map _) hpush, h'⟩
  | pushFront val =>
    cases hrun
    rcases h.pushFront (hsmall rfl) val with ⟨q', as', hpush, h'⟩
    exact ⟨q', as', congrArg (Option.map _) hpush, h'⟩
  | popBack =>
    rcases Option.map_eq_some_iff.1 hrun with ⟨val, hval, heq⟩
    cases heq
    rcases h.popBack hval with ⟨q', as', hpop, h'⟩
    exact ⟨q', as', congrArg (Option.map _) hpop, h'⟩
  | popFront =>
    rcases Option.map_eq_some_iff.1 hrun with ⟨val, hval, heq⟩
    cases heq
    rcases h.popFront hval with ⟨q', as', hpop, h'⟩
    exact ⟨q', as', congrArg (Option.map _) hpop, h'⟩
  | next =>
    rcases Option.map_eq_some_iff.1 hrun with ⟨val, hval, heq⟩
    cases heq
    have hne : d.items ≠ [] := List.ne_nil_of_mem (List.mem_of_getElem? hval)
    rcases h.next hne with ⟨-, val', -, hval', hnext⟩
    cases hval.symm.trans hval'
    exact ⟨_, as, congrArg (Option.map _) hnext, h.goTo_moveTo _⟩
  | previous =>
    rcases Option.map_eq_some_iff.1 hrun with ⟨val, hval, heq⟩
    cases heq
    have hne : d.items ≠ [] := List.ne_nil_of_mem (List.mem_of_getElem? hval)
    rcases h.previous hne with ⟨-, val', -, hval', hprevious⟩
    cases hval.symm.trans hval'
    exact ⟨_, as, congrArg (Option.map _) hprevious, h.goTo_moveTo _⟩
  | reset =>
    cases hrun
    have hreset : q.reset.Holds as d.items :=
      ⟨h.holds.ring, h.holds.values, h.holds.last, h.holds.first, h.holds.unused⟩
    exact ⟨q.reset, as, rfl, .ofItems hreset h.maxSize_eq h.counted rfl _⟩
  | current =>
    rcases Option.map_eq_some_iff.1 hrun with ⟨val, hval, heq⟩
    cases heq
    have hne : d.items ≠ [] := List.ne_nil_of_mem (List.mem_of_getElem? hval)
    rcases h.holds.exists_getElem (d.cursor_lt hne) with ⟨a, val', ha, hval', hvalue⟩
    cases hval.symm.trans hval'
    have hcurrent : q.current = some val := by
      unfold CircularQueue.current
      rw [h.current, ha]
      exact hvalue
    exact ⟨q, as, congrArg (Option.map _) hcurrent, h⟩

theorem Shows.runAll {results : List (Option A)} (h : q.Shows as d)
    (hsmall : RingDeque.SmallRun ops d) (hrun : RingDeque.runAll ops d = some (results, d')) :
    ∃ q' as', q.runAll ops = some (results, q') ∧ q'.Shows as' d' := by
  induction ops generalizing q as d results with
  | nil =>
    cases hrun
    exact ⟨q, as, rfl, h⟩
  | cons op ops ih =>
    rcases Option.bind_eq_some_iff.1 hrun with ⟨⟨result, d1⟩, hstep, htail⟩
    rcases Option.bind_eq_some_iff.1 htail with ⟨⟨results', d2⟩, hrest, heq⟩
    cases heq
    rcases h.run hsmall.1 hstep with ⟨q1, as1, hstep', h1⟩
    rcases ih h1 (hsmall.2 result d1 hstep) hrest with ⟨q2, as2, hrest', h2⟩
    refine ⟨q2, as2, ?_, h2⟩
    unfold CircularQueue.runAll
    rw [hstep']
    change (CircularQueue.runAll ops q1 >>= _) = _
    rw [hrest']
    rfl

theorem Shows.new (maxSize : Int32) :
    (new maxSize : CircularQueue A).Shows [] (RingDeque.empty : RingDeque A (bound maxSize)) where
  holds := ⟨.nil, rfl, rfl, rfl, fun _ _ => rfl⟩
  maxSize_eq := rfl
  counted := rfl
  current := rfl

/-- A run of the queue gives the results of the deque, and leaves a ring with its items. -/
theorem runAll_isDeque (maxSize : Int32) (ops : List (QueueOp A)) (results : List (Option A))
    (d : RingDeque A (bound maxSize)) (hrun : RingDeque.runAll ops .empty = some (results, d))
    (hsmall : RingDeque.SmallRun ops (.empty : RingDeque A (bound maxSize))) :
    ∃ q elements, (new maxSize).runAll ops = some (results, q) ∧ q.IsDeque elements d := by
  rcases (Shows.new maxSize).runAll hsmall hrun with ⟨q, elements, hqueue, h⟩
  exact ⟨q, elements, hqueue, h.isDeque⟩

end runs

end CircularQueue

namespace RingDeque
variable {A : Type}

/-- With a `_maxSize` that is not the largest `int` there is always room. -/
theorem smallRun {m : ℕ} (hm : m + 1 < 2 ^ 31) (ops : List (QueueOp A))
    (d : RingDeque A (some m)) : SmallRun ops d := by
  induction ops generalizing d with
  | nil => trivial
  | cons op ops ih =>
    have hle := d.size_le m rfl
    exact ⟨fun _ => by omega, fun _ d' _ => ih d'⟩

theorem runAll_pushBack (val : A) (n : ℕ) (d : RingDeque A none) : ∃ d',
    runAll (List.replicate n (.pushBack val)) d = some (List.replicate n none, d') ∧
      d'.items.length = d.items.length + n := by
  induction n generalizing d with
  | zero => exact ⟨d, rfl, rfl⟩
  | succ n ih =>
    rcases ih (d.pushBack val) with ⟨d', hrun, hlength⟩
    refine ⟨d', ?_, ?_⟩
    · change (runAll (List.replicate n (.pushBack val)) (d.pushBack val) >>= _) = _
      rw [hrun]
      rfl
    · have hpush : (d.pushBack val).items = d.items ++ [val] := rfl
      rw [hlength, hpush, List.length_append, List.length_singleton]
      omega

end RingDeque

namespace CircularQueue

/-- Three items at most, with items that come and go at both ends. -/
theorem three_isDeque : ∃ q elements, ∃ d : RingDeque ℕ (bound 3), d.items = [2] ∧
    (new 3).runAll [.pushBack 1, .pushBack 2, .pushBack 3, .pushBack 4, .pushFront 1, .current,
        .previous, .previous, .previous, .popBack, .popFront, .current] =
      some ([none, none, none, none, none, some 3, some 2, some 1, some 3, some 3, some 1,
        some 2], q) ∧ q.IsDeque elements d := by
  have hdeque : ∃ d : RingDeque ℕ (bound 3), d.items = [2] ∧
      RingDeque.runAll [.pushBack 1, .pushBack 2, .pushBack 3, .pushBack 4, .pushFront 1, .current,
          .previous, .previous, .previous, .popBack, .popFront, .current] .empty =
        some ([none, none, none, none, none, some 3, some 2, some 1, some 3, some 3, some 1,
          some 2], d) := ⟨_, rfl, rfl⟩
  rcases hdeque with ⟨d, hitems, hrun⟩
  rcases runAll_isDeque 3 _ _ d hrun (RingDeque.smallRun (m := 3) (by decide) _ _) with
    ⟨q, elements, hqueue, h⟩
  exact ⟨q, elements, d, hitems, hqueue, h⟩

/-- Without a `_maxSize` the `int` does not count 2^31 items. -/
theorem not_runAll_isDeque : ¬ ∀ (maxSize : Int32) (ops : List (QueueOp Unit))
    (results : List (Option Unit)) (d : RingDeque Unit (bound maxSize)),
    RingDeque.runAll ops .empty = some (results, d) →
      ∃ q elements, (new maxSize).runAll ops = some (results, q) ∧ q.IsDeque elements d := by
  intro h
  rcases RingDeque.runAll_pushBack () (2 ^ 31) .empty with ⟨d, hrun, hlength⟩
  rcases h (-1) _ _ d hrun with ⟨q, elements, -, hdeque⟩
  have hvalues := congrArg List.length hdeque.values
  rw [List.length_map, List.length_map] at hvalues
  have hsize := hdeque.size_eq
  have hlt := q.size.toInt_lt
  change d.items.length = 0 + 2 ^ 31 at hlength
  omega

end CircularQueue

end Djondb
