import Mathlib.Data.Int.Notation
import Mathlib.Data.List.Count
import Mathlib.Logic.Function.Basic

set_option autoImplicit false

/-!
# Counters of references

A resource is in use as long as it occurs in a list of references. A counter for each resource
goes up and down with them, and the resource is given back where its counter says that none is
left. A counter may be missing; it then stands at zero.
-/
namespace RefCount
variable {κ : Type} [DecidableEq κ]

def value (c : κ → Option ℤ) (k : κ) : ℤ := (c k).getD 0

def acquire (c : κ → Option ℤ) (k : κ) : κ → Option ℤ :=
  Function.update c k (some (value c k + 1))

def acquireAll (c : κ → Option ℤ) (ks : List κ) : κ → Option ℤ := ks.foldl acquire c

/-- A counter that is missing stays so. -/
def release (c : κ → Option ℤ) (k : κ) : κ → Option ℤ :=
  Function.update c k ((c k).map (· - 1))

def releaseAll (c : κ → Option ℤ) (ks : List κ) : κ → Option ℤ := ks.foldl release c

def forget (c : κ → Option ℤ) (k : κ) : κ → Option ℤ := Function.update c k none

/-- The counter is the number of references. -/
def Exact (c : κ → Option ℤ) (refs : List κ) (k : κ) : Prop := value c k = refs.count k

/-- The counter is the number of references, or it is missing and there is one. -/
def Usable (c : κ → Option ℤ) (refs : List κ) (k : κ) : Prop :=
  Exact c refs k ∨ c k = none ∧ refs.count k = 1

section counters
variable {c : κ → Option ℤ} {refs ks : List κ} {k l : κ}

theorem acquire_of_ne (h : l ≠ k) : acquire c k l = c l := Function.update_of_ne h _ _

theorem release_of_ne (h : l ≠ k) : release c k l = c l := Function.update_of_ne h _ _

theorem forget_of_ne (h : l ≠ k) : forget c k l = c l := Function.update_of_ne h _ _

@[simp] theorem value_acquire : value (acquire c k) k = value c k + 1 := by
  unfold value acquire
  rw [Function.update_self]
  rfl

@[simp] theorem value_forget : value (forget c k) k = 0 := by
  unfold value forget
  rw [Function.update_self]
  rfl

theorem acquireAll_of_notMem (h : l ∉ ks) : acquireAll c ks l = c l := by
  induction ks generalizing c with
  | nil => rfl
  | cons k ks ih =>
    rw [List.mem_cons, not_or] at h
    exact (ih (c := acquire c k) h.2).trans (acquire_of_ne h.1)

theorem value_acquireAll : value (acquireAll c ks) l = value c l + ks.count l := by
  induction ks generalizing c with
  | nil => exact (Int.add_zero _).symm
  | cons k ks ih =>
    have htail : value (acquireAll c (k :: ks)) l = value (acquire c k) l + ks.count l :=
      ih (c := acquire c k)
    rw [htail]
    by_cases hl : l = k
    · rw [hl, value_acquire, List.count_cons_self]
      push_cast
      omega
    · have hvalue : value (acquire c k) l = value c l := by
        unfold value
        rw [acquire_of_ne hl]
      rw [hvalue, List.count_cons_of_ne (Ne.symm hl)]

theorem Usable.congr {c' : κ → Option ℤ} (h : Usable c refs k) (hc : c' k = c k) :
    Usable c' refs k := by
  unfold Usable Exact value at *
  rwa [hc]

/-- One reference may be there before the counting begins. -/
theorem usable_of_none (hc : c k = none) (h : refs.count k ≤ 1) : Usable c refs k := by
  cases Nat.le_one_iff_eq_zero_or_eq_one.1 h with
  | inl hzero =>
    left
    unfold Exact value
    rw [hc, hzero]
    rfl
  | inr hone => exact .inr ⟨hc, hone⟩

/-- What is acquired is counted, and its references come with it. -/
theorem Exact.acquireAll (h : Exact c refs l) : Exact (acquireAll c ks) (refs ++ ks) l := by
  unfold Exact at *
  rw [value_acquireAll, h, List.count_append]
  push_cast
  rfl

/-- Only a resource without references may be acquired where its counter is missing. -/
theorem Usable.acquireAll (h : Usable c refs l) (hks : l ∈ ks → refs.count l = 0) :
    Usable (acquireAll c ks) (refs ++ ks) l := by
  by_cases hl : l ∈ ks
  · left
    cases h with
    | inl h => exact h.acquireAll
    | inr h =>
      have hzero := hks hl
      omega
  · have hcount : (refs ++ ks).count l = refs.count l := by
      rw [List.count_append, List.count_eq_zero_of_not_mem hl, Nat.add_zero]
    unfold Usable Exact value
    rw [acquireAll_of_notMem hl, hcount]
    exact h

theorem value_releaseAll (h : value c l ≤ refs.count l) : value (releaseAll c refs) l ≤ 0 := by
  induction refs generalizing c with
  | nil => exact h
  | cons k refs ih =>
    apply ih (c := release c k)
    by_cases hl : l = k
    · subst hl
      rw [List.count_cons_self] at h
      unfold value release at *
      rw [Function.update_self]
      cases hc : c l with
      | none => exact Int.natCast_nonneg _
      | some n =>
        rw [hc] at h
        push_cast at h
        change n ≤ _ at h
        change n - 1 ≤ _
        omega
    · rw [List.count_cons_of_ne (Ne.symm hl)] at h
      unfold value at *
      rwa [release_of_ne hl]

/-- A reference that ends leaves the counter at the number of those that are left. -/
theorem Usable.release_self (h : Usable c (k :: refs) k) : Exact (release c k) refs k := by
  unfold Usable Exact value release at *
  rw [Function.update_self]
  rw [List.count_cons_self] at h
  cases hc : c k with
  | none =>
    rw [hc] at h
    change (0 : ℤ) = _
    change (0 : ℤ) = _ ∨ _ at h
    omega
  | some n =>
    rw [hc] at h
    cases h with
    | inl h =>
      push_cast at h
      change n = _ at h
      change n - 1 = _
      omega
    | inr h => exact absurd h.1 (Option.some_ne_none _)

theorem Usable.release_of_ne (h : Usable c (k :: refs) l) (hl : l ≠ k) :
    Usable (release c k) refs l := by
  unfold Usable Exact value at *
  rw [RefCount.release_of_ne hl]
  rwa [List.count_cons_of_ne (Ne.symm hl)] at h

theorem Usable.release (h : Usable c (k :: refs) l) : Usable (release c k) refs l := by
  by_cases hl : l = k
  · rw [hl] at h ⊢
    exact .inl h.release_self
  · exact h.release_of_ne hl

/-- The counter is at zero exactly where no reference is left. -/
theorem Exact.nonpos_iff (h : Exact c refs k) : value c k ≤ 0 ↔ k ∉ refs := by
  unfold Exact at h
  rw [h, ← List.count_eq_zero]
  omega

theorem Usable.forget (h : Usable c refs l) (hk : k ∉ refs) : Usable (forget c k) refs l := by
  by_cases hl : l = k
  · left
    unfold Exact
    rw [hl, value_forget, List.count_eq_zero_of_not_mem hk]
    rfl
  · unfold Usable Exact value at *
    rwa [forget_of_ne hl]

end counters

end RefCount
