import Djondb.BsonObj
import Mathlib.Data.Prod.Lex

set_option autoImplicit false

/-!
# `djondb::string`

Index keys are ordered by `djondb::string::compare`: shorter strings first, then `strncmp`. On
C strings this is the linear order of `CString.rank`.
-/
namespace Djondb

/-- A character past the end of a buffer reads as its terminator. -/
def strncmp : List UInt8 → List UInt8 → ℕ → Ordering
  | _, _, 0 => .eq
  | s1, s2, n + 1 =>
    if s1.headD 0 = s2.headD 0 then
      if s1.headD 0 = 0 then .eq else strncmp s1.tail s2.tail n
    else compare (s1.headD 0).toNat (s2.headD 0).toNat

/-- `djondb::string::compare`, over the bytes that the two lengths delimit. -/
def djCompare (s1 s2 : List UInt8) : Ordering :=
  if s1.length < s2.length then .lt
  else if s2.length < s1.length then .gt
  else strncmp s1 s2 s1.length

theorem strncmp_take (s1 s2 : List UInt8) (n : ℕ) : strncmp (s1.take n) s2 n = strncmp s1 s2 n := by
  induction n generalizing s1 s2 with
  | zero => rfl
  | succ n ih =>
    cases s1 with
    | nil => rfl
    | cons a s1 =>
      rw [List.take_succ_cons, strncmp, strncmp, List.tail_cons, List.tail_cons, ih]
      rfl

theorem strncmp_lt_iff (s1 s2 : List UInt8) (hlen : s1.length = s2.length) (h1 : 0 ∉ s1) :
    strncmp s1 s2 s1.length = .lt ↔ s1.map UInt8.toNat < s2.map UInt8.toNat := by
  induction s1 generalizing s2 with
  | nil =>
    obtain rfl : s2 = [] := List.length_eq_zero_iff.1 hlen.symm
    simp [strncmp]
  | cons a s1 ih =>
    obtain _ | ⟨b, s2⟩ := s2
    · simp at hlen
    have ha : a ≠ 0 := fun h => h1 (by simp [h])
    have hrec := ih s2 (by simpa using hlen) (fun h => h1 (by simp [h]))
    by_cases hab : a = b
    · subst b
      simp [strncmp, ha, hrec]
    · have hn : a.toNat ≠ b.toNat := fun h => hab (UInt8.toNat_inj.1 h)
      simp [strncmp, hab, List.cons_lt_cons_iff, hn, compare_lt_iff_lt]

/-- Over the length of its first argument `strncmp` is a prefix test. -/
theorem strncmp_eq_iff_prefix (s1 s2 : List UInt8) (h1 : 0 ∉ s1) :
    strncmp s1 s2 s1.length = .eq ↔ s1 <+: s2 := by
  induction s1 generalizing s2 with
  | nil => simp [strncmp]
  | cons a s1 ih =>
    have ha : a ≠ 0 := fun h => h1 (by simp [h])
    cases s2 with
    | nil =>
      have hn : a.toNat ≠ 0 := fun h => ha (UInt8.toNat_inj.1 h)
      simp [strncmp, ha, hn]
    | cons b s2 =>
      have hrec := ih s2 (fun h => h1 (by simp [h]))
      by_cases hab : a = b
      · subst b
        simp [strncmp, ha, hrec]
      · have hn : a.toNat ≠ b.toNat := fun h => hab (UInt8.toNat_inj.1 h)
        simp [strncmp, hab, hn]

theorem strncmp_eq_iff (s1 s2 : List UInt8) (hlen : s1.length = s2.length) (h1 : 0 ∉ s1) :
    strncmp s1 s2 s1.length = .eq ↔ s1 = s2 := by
  have hiff := strncmp_eq_iff_prefix s1 s2 h1
  constructor
  · exact fun h => (hiff.1 h).eq_of_length hlen
  · rintro rfl
    exact hiff.2 List.prefix_rfl

namespace CString

/-- Shortest first, then by code points. -/
def rank (s : CString) : ℕ ×ₗ List ℕ := toLex (s.length, s.codes)

theorem rank_injective : Function.Injective rank := fun _ _ h =>
  codes_injective (congrArg (fun p => (ofLex p).2) h)

theorem codes_lt_iff {s t : CString} (h : s.length = t.length) :
    strncmp s.bytes t.bytes s.bytes.length = .lt ↔ s.codes < t.codes :=
  strncmp_lt_iff _ _ h s.noNul

/-- The two length tests of `djCompare`, on the lengths of C strings. -/
theorem compare_eq (s t : CString) : djCompare s.bytes t.bytes =
    if s.length < t.length then .lt else if t.length < s.length then .gt
    else strncmp s.bytes t.bytes s.bytes.length := rfl

theorem compare_lt_iff (s t : CString) : djCompare s.bytes t.bytes = .lt ↔ s.rank < t.rank := by
  rw [rank, rank, Prod.Lex.toLex_lt_toLex, compare_eq]
  by_cases h : s.length < t.length
  · simp [h]
  by_cases h' : t.length < s.length
  · simp [h, h', h'.ne']
  · have heq : s.length = t.length := by omega
    rw [if_neg h, if_neg h', codes_lt_iff heq]
    simp [heq]

theorem compare_eq_iff (s t : CString) : djCompare s.bytes t.bytes = .eq ↔ s = t := by
  rw [compare_eq]
  by_cases h : s.length = t.length
  · rw [if_neg h.not_lt, if_neg h.not_gt, strncmp_eq_iff _ _ h s.noNul]
    cases s
    cases t
    simp
  · refine iff_of_false ?_ (fun hst => h (congrArg length hst))
    split_ifs <;> first | decide | omega

end CString

end Djondb
