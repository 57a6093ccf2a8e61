import Djondb.DjString
import Mathlib.Tactic.Common

set_option autoImplicit false

/-!
# The order of `djondb::string`

`compare` and the two operators on any bytes, NUL bytes among them.
-/
namespace Djondb

/-- A pointer into a buffer that goes on with `holder`, and a length. -/
structure DjString where
  holder : List UInt8
  len : ℕ
  len_le : len ≤ holder.length

namespace DjString

/-- The string of these bytes. -/
def ofBytes (bs : List UInt8) : DjString := ⟨bs, bs.length, le_rfl⟩

def bytes (s : DjString) : List UInt8 := s.holder.take s.len

/-- `compare(const char*, __int32)`; a negative number is `.lt`. -/
def compareWith (s2 : List UInt8) (len : ℕ) (s : DjString) : Ordering :=
  if s.len < len then .lt
  else if len < s.len then .gt
  else strncmp s.holder s2 s.len

def compare (s s2 : DjString) : Ordering := s.compareWith s2.holder s2.len

def operatorEq (s str : DjString) : Bool :=
  if s.len ≠ str.len then false
  else if strncmp s.holder str.holder s.len = .eq then true else false

def operatorNe (s str : DjString) : Bool :=
  if s.len ≠ str.len then true
  else if strncmp s.holder str.holder s.len = .eq then false else true

/-- A total order consistent with equality, on three strings. -/
structure Ordered (a b c : DjString) : Prop where
  total : a.compare b ≠ .gt ∨ b.compare a ≠ .gt
  swap : b.compare a = (a.compare b).swap
  antisymm : a.compare b ≠ .gt → b.compare a ≠ .gt → a.bytes = b.bytes
  trans : a.compare b ≠ .gt → b.compare c ≠ .gt → a.compare c ≠ .gt
  eq_iff : a.compare b = .eq ↔ a.bytes = b.bytes
  operatorEq_iff : a.operatorEq b = true ↔ a.compare b = .eq
  operatorNe_eq : a.operatorNe b = !a.operatorEq b

/-- Bytes of one length that are the same up to the first NUL are the same behind it. -/
def SameBehindNul (a b : List UInt8) : Prop :=
  a.length = b.length → a.takeWhile (· ≠ 0) = b.takeWhile (· ≠ 0) → a = b

end DjString

/-! ## `strncmp` as an order -/

/-- The numbers of the bytes in front of the first NUL. -/
def textCodes (bs : List UInt8) : List ℕ := (bs.takeWhile (· ≠ 0)).map UInt8.toNat

theorem textCodes_inj {a b : List UInt8} :
    textCodes a = textCodes b ↔ a.takeWhile (· ≠ 0) = b.takeWhile (· ≠ 0) :=
  (List.map_injective_iff.2 fun _ _ => UInt8.toNat_inj.1).eq_iff

/-- One step of `strncmp` on the text of a buffer. -/
theorem textCodes_take_succ (s : List UInt8) (n : ℕ) : textCodes (s.take (n + 1)) =
    if s.headD 0 = 0 then [] else (s.headD 0).toNat :: textCodes (s.tail.take n) := by
  cases s with
  | nil => rfl
  | cons b s =>
    change textCodes (b :: s.take n) = if b = 0 then [] else b.toNat :: textCodes (s.take n)
    split_ifs with hb
    · rw [hb]
      rfl
    · have htake : (b :: s.take n).takeWhile (· ≠ 0) = b :: (s.take n).takeWhile (· ≠ 0) :=
        List.takeWhile_cons_of_pos (decide_eq_true hb)
      unfold textCodes
      rw [htake, List.map_cons]

/-- `strncmp` is the order of the texts. -/
theorem strncmp_eq_compare (s1 s2 : List UInt8) (n : ℕ) :
    strncmp s1 s2 n = compare (textCodes (s1.take n)) (textCodes (s2.take n)) := by
  induction n generalizing s1 s2 with
  | zero => rfl
  | succ n ih =>
    rw [textCodes_take_succ, textCodes_take_succ, strncmp, ih]
    generalize s1.headD 0 = a
    generalize s2.headD 0 = b
    by_cases hab : a = b
    · subst hab
      rw [if_pos rfl]
      split_ifs
      · rfl
      · rw [List.compare_cons_cons, Nat.compare_eq_eq.2 rfl]
        rfl
    · have hne : a.toNat ≠ b.toNat := fun h => hab (UInt8.toNat_inj.1 h)
      rw [if_neg hab]
      split_ifs with ha hb hb
      · exact absurd (ha.trans hb.symm) hab
      · rw [List.compare_nil_cons, Nat.compare_eq_lt, ha]
        exact Nat.pos_of_ne_zero fun h => hb (UInt8.toNat_inj.1 h)
      · rw [List.compare_cons_nil, Nat.compare_eq_gt, hb]
        exact Nat.pos_of_ne_zero fun h => ha (UInt8.toNat_inj.1 h)
      · rw [List.compare_cons_cons]
        cases hcmp : compare a.toNat b.toNat with
        | lt => rfl
        | eq => exact absurd (Nat.compare_eq_eq.1 hcmp) hne
        | gt => rfl

/-! ## `djCompare` as an order -/

/-- The length comes first, then the text. -/
theorem djCompare_eq (a b : List UInt8) : djCompare a b =
    (compare a.length b.length).then (compare (textCodes a) (textCodes b)) := by
  unfold djCompare
  split_ifs with hlt hgt
  · rw [Nat.compare_eq_lt.2 hlt]
    rfl
  · rw [Nat.compare_eq_gt.2 hgt]
    rfl
  · have hlen : a.length = b.length := by omega
    rw [Nat.compare_eq_eq.2 hlen, strncmp_eq_compare, List.take_length, hlen, List.take_length]
    rfl

theorem djCompare_swap (a b : List UInt8) : djCompare b a = (djCompare a b).swap := by
  rw [djCompare_eq, djCompare_eq, Ordering.swap_then, ← Std.OrientedCmp.eq_swap,
    ← Std.OrientedCmp.eq_swap]

theorem djCompare_trans {a b c : List UInt8} (hab : (djCompare a b).isLE)
    (hbc : (djCompare b c).isLE) : (djCompare a c).isLE := by
  rw [djCompare_eq] at hab hbc ⊢
  have htrans : Std.TransCmp (compareLex (compareOn List.length) (compareOn textCodes)) :=
    inferInstance
  exact htrans.isLE_trans hab hbc

theorem djCompare_eq_eq {a b : List UInt8} : djCompare a b = .eq ↔
    a.length = b.length ∧ a.takeWhile (· ≠ 0) = b.takeWhile (· ≠ 0) := by
  rw [djCompare_eq, Ordering.then_eq_eq, Nat.compare_eq_eq, ← textCodes_inj]
  exact and_congr_right fun _ => Std.LawfulEqCmp.compare_eq_iff_eq

namespace DjString

theorem bytes_length (s : DjString) : s.bytes.length = s.len := List.length_take_of_le s.len_le

/-- What stands behind the strings in their buffers does not matter. -/
theorem strncmp_bytes {a b : DjString} (h : a.len = b.len) :
    strncmp a.holder b.holder a.len = strncmp a.bytes b.bytes a.bytes.length := by
  have htake : b.bytes.take a.len = b.holder.take a.len := by
    rw [h, bytes, List.take_take, Nat.min_self]
  rw [strncmp_eq_compare, strncmp_eq_compare, bytes_length, htake, bytes, List.take_take,
    Nat.min_self]

theorem compare_eq (a b : DjString) : a.compare b = djCompare a.bytes b.bytes := by
  unfold compare compareWith djCompare
  rw [bytes_length a, bytes_length b]
  split_ifs with hlt hgt
  · rfl
  · rfl
  · have hlen : a.len = b.len := by omega
    rw [strncmp_bytes hlen, bytes_length a]

theorem operatorEq_iff (a b : DjString) : a.operatorEq b = true ↔ a.compare b = .eq := by
  unfold operatorEq compare compareWith
  by_cases hlen : a.len = b.len
  · rw [if_neg (not_not.2 hlen), if_neg hlen.not_lt, if_neg hlen.not_gt]
    split_ifs with hsame
    · exact iff_of_true rfl hsame
    · exact iff_of_false not_false hsame
  · rw [if_pos hlen]
    apply iff_of_false Bool.false_ne_true
    split_ifs with hlt hgt
    · decide
    · decide
    · omega

theorem operatorNe_eq (a b : DjString) : a.operatorNe b = !a.operatorEq b := by
  unfold operatorNe operatorEq
  split_ifs <;> rfl

theorem compare_eq_eq {a b : DjString} : a.compare b = .eq ↔
    a.bytes.length = b.bytes.length ∧
      a.bytes.takeWhile (· ≠ 0) = b.bytes.takeWhile (· ≠ 0) := by
  rw [compare_eq, djCompare_eq_eq]

theorem compare_swap (a b : DjString) : b.compare a = (a.compare b).swap := by
  rw [compare_eq, compare_eq, djCompare_swap]

theorem compare_trans {a b c : DjString} (hab : a.compare b ≠ .gt) (hbc : b.compare c ≠ .gt) :
    a.compare c ≠ .gt := by
  rw [compare_eq] at hab hbc ⊢
  have hle := djCompare_trans (Ordering.ne_gt_iff_isLE.1 hab) (Ordering.ne_gt_iff_isLE.1 hbc)
  exact Ordering.ne_gt_iff_isLE.2 hle

theorem compare_total (a b : DjString) : a.compare b ≠ .gt ∨ b.compare a ≠ .gt := by
  rw [compare_swap a b]
  cases a.compare b with
  | lt => exact .inl (by decide)
  | eq => exact .inl (by decide)
  | gt => exact .inr (by decide)

/-- Two strings of which none is greater compare as 0. -/
theorem compare_antisymm {a b : DjString} (hab : a.compare b ≠ .gt) (hba : b.compare a ≠ .gt) :
    a.compare b = .eq := by
  rw [compare_swap a b] at hba
  cases hcmp : a.compare b with
  | lt =>
    rw [hcmp] at hba
    exact absurd rfl hba
  | eq => rfl
  | gt => exact absurd hcmp hab

theorem SameBehindNul.eq_iff {a b : DjString} (h : SameBehindNul a.bytes b.bytes) :
    a.compare b = .eq ↔ a.bytes = b.bytes := by
  rw [compare_eq_eq]
  constructor
  · rintro ⟨hlen, htext⟩
    exact h hlen htext
  · intro hsame
    rw [hsame]
    exact ⟨rfl, rfl⟩

/-- Text without a NUL byte is ordered by all of its bytes. -/
theorem SameBehindNul.of_noNul {a : List UInt8} (h : 0 ∉ a) (b : List UInt8) :
    SameBehindNul a b := by
  intro hlen htext
  have hwhole : a.takeWhile (· ≠ 0) = a := by
    apply List.takeWhile_eq_self_iff.2
    intro x hx
    exact decide_eq_true fun hzero => h (hzero ▸ hx)
  rw [hwhole] at htext
  have hprefix : a <+: b := htext ▸ List.takeWhile_prefix _
  exact hprefix.eq_of_length hlen

/-- `compare` is a total order consistent with equality, and with the operators, exactly where no
difference stands behind a NUL byte. -/
theorem ordered_iff (a b c : DjString) : Ordered a b c ↔ SameBehindNul a.bytes b.bytes := by
  constructor
  · intro h hlen htext
    exact h.eq_iff.1 (compare_eq_eq.2 ⟨hlen, htext⟩)
  · intro h
    exact
      { total := compare_total a b
        swap := compare_swap a b
        antisymm := fun hab hba => h.eq_iff.1 (compare_antisymm hab hba)
        trans := compare_trans
        eq_iff := h.eq_iff
        operatorEq_iff := operatorEq_iff a b
        operatorNe_eq := operatorNe_eq a b }

/-- Two strings of two bytes that differ behind a NUL byte. -/
theorem not_ordered : ¬ ∀ a b c : DjString, Ordered a b c := by
  intro h
  have hiff := (h (ofBytes [0, 1]) (ofBytes [0, 2]) (ofBytes [])).eq_iff
  have hsame : (ofBytes [0, 1]).bytes = (ofBytes [0, 2]).bytes := hiff.1 (by decide)
  exact absurd hsame (by decide)

end DjString

end Djondb
