import Djondb.LibBytes

set_option autoImplicit false

/-!
# Mapped bytes

A file that is mapped into memory, as a function from offsets to bytes. A write is seen where it
was made and nowhere else, so what a region holds survives every write outside of it.
-/
namespace Bytes

abbrev Memory := ℕ → UInt8

namespace Memory

/-- The `n` bytes from `pos` on. -/
def read (mem : Memory) (pos : ℕ) : ℕ → List UInt8
  | 0 => []
  | n + 1 => mem pos :: mem.read (pos + 1) n

def write (mem : Memory) (pos : ℕ) (bs : List UInt8) : Memory := fun i =>
  if pos ≤ i then bs[i - pos]?.getD (mem i) else mem i

/-- `bs` stands in the memory from `pos` on. -/
def Holds (mem : Memory) (pos : ℕ) (bs : List UInt8) : Prop := mem.read pos bs.length = bs

@[simp] theorem read_length (mem : Memory) (pos n : ℕ) : (mem.read pos n).length = n := by
  induction n generalizing pos with
  | zero => rfl
  | succ n ih => simp [read, ih]

theorem read_add (mem : Memory) (pos m n : ℕ) :
    mem.read pos (m + n) = mem.read pos m ++ mem.read (pos + m) n := by
  induction m generalizing pos with
  | zero => simp [read]
  | succ m ih =>
    have hm : m + 1 + n = m + n + 1 := by omega
    have hp : pos + 1 + m = pos + (m + 1) := by omega
    rw [hm, read, read, ih, hp]
    rfl

/-- A read sees only the bytes it covers. -/
theorem read_congr {mem mem' : Memory} {pos n : ℕ}
    (h : ∀ i, pos ≤ i → i < pos + n → mem' i = mem i) : mem'.read pos n = mem.read pos n := by
  induction n generalizing pos with
  | zero => rfl
  | succ n ih =>
    rw [read, read, h pos (Nat.le_refl _) (by omega)]
    rw [ih fun i hi hlt => h i (by omega) (by omega)]

theorem write_nil (mem : Memory) (pos : ℕ) : mem.write pos [] = mem := by
  funext i
  simp [write]

/-- Every byte outside of the written ones stays. -/
theorem write_outside (mem : Memory) {pos i : ℕ} {bs : List UInt8}
    (h : i < pos ∨ pos + bs.length ≤ i) : mem.write pos bs i = mem i := by
  unfold write
  split
  · have hn : bs.length ≤ i - pos := by omega
    rw [List.getElem?_eq_none hn]
    rfl
  · rfl

theorem write_inside (mem : Memory) (pos : ℕ) {bs : List UInt8} {k : ℕ} (h : k < bs.length) :
    mem.write pos bs (pos + k) = bs[k] := by
  have hp : pos ≤ pos + k := Nat.le_add_right _ _
  have hk : pos + k - pos = k := by omega
  rw [write, if_pos hp, hk, List.getElem?_eq_getElem h]
  rfl

theorem write_holds (mem : Memory) (pos : ℕ) (bs : List UInt8) : (mem.write pos bs).Holds pos bs := by
  induction bs generalizing mem pos with
  | nil => rfl
  | cons b bs ih =>
    have hhead : mem.write pos (b :: bs) pos = b := by
      have hzero : 0 < (b :: bs).length := by simp
      have h := mem.write_inside pos hzero
      simpa using h
    have htail : (mem.write pos (b :: bs)).read (pos + 1) bs.length =
        (mem.write (pos + 1) bs).read (pos + 1) bs.length := by
      apply read_congr
      intro i hi hlt
      obtain ⟨k, rfl⟩ : ∃ k, i = pos + 1 + k := ⟨i - (pos + 1), by omega⟩
      have hk : k < bs.length := by omega
      have hsucc : k + 1 < (b :: bs).length := by simpa using hk
      have h := mem.write_inside pos hsucc
      rw [write_inside mem (pos + 1) hk]
      have hp : pos + 1 + k = pos + (k + 1) := by omega
      rw [hp, h]
      rfl
    change mem.write pos (b :: bs) pos :: (mem.write pos (b :: bs)).read (pos + 1) bs.length = _
    rw [hhead, htail]
    exact congrArg (List.cons b) (ih mem (pos + 1))

theorem Holds.congr {mem mem' : Memory} {pos : ℕ} {bs : List UInt8} (h : mem.Holds pos bs)
    (hsame : ∀ i, pos ≤ i → i < pos + bs.length → mem' i = mem i) : mem'.Holds pos bs :=
  (read_congr hsame).trans h

/-- A write that ends before the held bytes or starts behind them leaves them there. -/
theorem Holds.write {mem : Memory} {pos at_ : ℕ} {bs ws : List UInt8} (h : mem.Holds pos bs)
    (hd : at_ + ws.length ≤ pos ∨ pos + bs.length ≤ at_) : (mem.write at_ ws).Holds pos bs := by
  apply h.congr
  intro i hi hlt
  apply write_outside
  omega

theorem holds_append {mem : Memory} {pos : ℕ} {xs ys : List UInt8} :
    mem.Holds pos (xs ++ ys) ↔ mem.Holds pos xs ∧ mem.Holds (pos + xs.length) ys := by
  unfold Holds
  rw [List.length_append, read_add]
  constructor
  · intro h
    exact List.append_inj h (by simp)
  · intro h
    rw [h.1, h.2]

/-- Two writes one behind the other are one. -/
theorem write_write (mem : Memory) (pos : ℕ) (xs ys : List UInt8) :
    (mem.write pos xs).write (pos + xs.length) ys = mem.write pos (xs ++ ys) := by
  funext i
  unfold write
  by_cases h : pos + xs.length ≤ i
  · have h1 : pos ≤ i := by omega
    have h2 : xs.length ≤ i - pos := by omega
    have h3 : i - pos - xs.length = i - (pos + xs.length) := by omega
    have h4 : xs[i - pos]? = none := List.getElem?_eq_none h2
    rw [if_pos h, if_pos h1, if_pos h1, List.getElem?_append_right h2, h3, h4]
    rfl
  · rw [if_neg h]
    by_cases h1 : pos ≤ i
    · have h2 : i - pos < xs.length := by omega
      rw [if_pos h1, if_pos h1, List.getElem?_append_left h2]
    · rw [if_neg h1, if_neg h1]

end Memory

end Bytes
