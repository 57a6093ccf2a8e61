import Djondb.LibBytes
import Mathlib.Data.List.Basic

set_option autoImplicit false

/-!
# Files of records

Records written one after another behind some first bytes. A record is known by its offset; one
that is rewritten in as many bytes leaves the others where they are.
-/
namespace Records
open Bytes

variable {R : Type} (enc : R → List UInt8)

def bytes (recs : List R) : List UInt8 := recs.flatMap enc

/-- Where record `i` starts. -/
def offset (recs : List R) (i : ℕ) : ℕ := (bytes enc (recs.take i)).length

variable {enc} {recs : List R} {i : ℕ} {a b : R}

/-- The records in front of and behind record `i`. -/
theorem exists_parts (h : recs[i]? = some a) :
    ∃ A B, recs = A ++ a :: B ∧ A = recs.take i ∧ A.length = i := by
  obtain ⟨hi, ha⟩ := List.getElem?_eq_some_iff.1 h
  refine ⟨recs.take i, recs.drop (i + 1), ?_, rfl, ?_⟩
  · rw [← ha, ← List.drop_eq_getElem_cons hi, List.take_append_drop]
  · rw [List.length_take]
    omega

theorem set_parts {A B : List R} (hlen : A.length = i) :
    (A ++ a :: B).set i b = A ++ b :: B := by
  rw [List.set_append_right _ _ hlen.le, ← hlen, Nat.sub_self, List.set_cons_zero]

theorem bytes_append (xs ys : List R) : bytes enc (xs ++ ys) = bytes enc xs ++ bytes enc ys :=
  List.flatMap_append

theorem bytes_snoc (xs : List R) (r : R) : bytes enc (xs ++ [r]) = bytes enc xs ++ enc r := by
  simp [bytes]

theorem offset_append (more : List R) (hi : i ≤ recs.length) :
    offset enc (recs ++ more) i = offset enc recs i := by
  rw [offset, offset, List.take_append_of_le_length hi]

theorem offset_length : offset enc recs recs.length = (bytes enc recs).length := by
  rw [offset, List.take_length]

theorem offset_succ (h : recs[i]? = some a) :
    offset enc recs (i + 1) = offset enc recs i + (enc a).length := by
  obtain ⟨hi, ha⟩ := List.getElem?_eq_some_iff.1 h
  rw [offset, offset, List.take_succ_eq_append_getElem hi, ha, bytes_snoc, List.length_append]

theorem offset_lt {j : ℕ} (hne : ∀ r ∈ recs, enc r ≠ []) (hij : i < j) (hj : j ≤ recs.length) :
    offset enc recs i < offset enc recs j := by
  induction j, hij using Nat.le_induction with
  | base =>
    have hi : recs[i]? = some recs[i] := List.getElem?_eq_getElem hj
    rw [offset_succ hi]
    have hpos := List.length_pos_of_ne_nil (hne _ (List.getElem_mem hj))
    omega
  | succ j hle ih =>
    have hlast : recs[j]? = some recs[j] := List.getElem?_eq_getElem hj
    rw [offset_succ hlast]
    exact Nat.lt_of_lt_of_le (ih (Nat.le_of_succ_le hj)) (Nat.le_add_right _ _)

/-- Records that are not empty are known by their offsets. -/
theorem offset_inj {j : ℕ} (hne : ∀ r ∈ recs, enc r ≠ []) (hi : i ≤ recs.length)
    (hj : j ≤ recs.length) (h : offset enc recs i = offset enc recs j) : i = j := by
  rcases Nat.lt_trichotomy i j with hlt | heq | hgt
  · exact absurd h (Nat.ne_of_lt (offset_lt hne hlt hj))
  · exact heq
  · exact absurd h.symm (Nat.ne_of_lt (offset_lt hne hgt hi))

/-- The bytes from record `i` on. -/
theorem drop_offset (pre : List UInt8) (h : recs[i]? = some a) :
    ∃ rest, (pre ++ bytes enc recs).drop (pre.length + offset enc recs i) = enc a ++ rest := by
  obtain ⟨A, B, hrecs, hA, -⟩ := exists_parts h
  have hbytes : bytes enc recs = bytes enc A ++ (enc a ++ bytes enc B) := by
    rw [hrecs, bytes_append]
    rfl
  refine ⟨bytes enc B, ?_⟩
  rw [offset, ← hA, hbytes, ← List.append_assoc, ← List.length_append, List.drop_left]

section rewrite
variable (h : recs[i]? = some a) (hlen : (enc a).length = (enc b).length)
include h hlen

/-- A record of the same length takes the place of another. -/
theorem overwrite_record (pre : List UInt8) :
    overwrite (pre ++ bytes enc recs) (pre.length + offset enc recs i) (enc b) =
      pre ++ bytes enc (recs.set i b) := by
  obtain ⟨A, B, hrecs, hA, hi⟩ := exists_parts h
  have hbytes : ∀ r, bytes enc (A ++ r :: B) = bytes enc A ++ (enc r ++ bytes enc B) := by
    intro r
    rw [bytes_append]
    rfl
  have hmiddle := overwrite_middle (pre ++ bytes enc A) (enc a) (enc b) (bytes enc B) hlen
  rw [List.length_append] at hmiddle
  rw [offset, ← hA, hrecs, set_parts hi, hbytes, hbytes]
  simpa only [List.append_assoc] using hmiddle

theorem bytes_set_length : (bytes enc (recs.set i b)).length = (bytes enc recs).length := by
  obtain ⟨A, B, hrecs, -, hi⟩ := exists_parts h
  rw [hrecs, set_parts hi]
  simp [bytes, hlen]

theorem offset_set (j : ℕ) : offset enc (recs.set i b) j = offset enc recs j := by
  rw [offset, offset, List.take_set]
  by_cases hij : i < j
  · refine bytes_set_length ?_ hlen
    rw [List.getElem?_take_of_lt hij, h]
  · rw [List.set_eq_of_length_le]
    rw [List.length_take]
    omega

end rewrite

/-! ## Selections -/

section filter
variable {p : R → Bool}

theorem filter_set_of_not (h : recs[i]? = some a) (ha : p a = false) (hb : p b = false) :
    (recs.set i b).filter p = recs.filter p := by
  obtain ⟨A, B, rfl, -, hi⟩ := exists_parts h
  rw [set_parts hi]
  simp [ha, hb]

/-- The only selected record is taken out. -/
theorem filter_set_of_unique {d : R} (h : recs[i]? = some a) (ha : p a = true) (hb : p b = false)
    (hd : recs.filter p = [d]) : (recs.set i b).filter p = [] := by
  obtain ⟨A, B, rfl, -, hi⟩ := exists_parts h
  rw [set_parts hi, List.filter_append, List.filter_cons_of_neg (by simp [hb])]
  rw [List.filter_append, List.filter_cons_of_pos ha] at hd
  have hcount := congrArg List.length hd
  simp only [List.length_append, List.length_cons, List.length_nil] at hcount
  rw [List.eq_nil_of_length_eq_zero (l := A.filter p) (by omega),
    List.eq_nil_of_length_eq_zero (l := B.filter p) (by omega)]
  rfl

end filter

/-! ## Reading all records -/

/-- Reads records to the end of the stream, at most `fuel` of them. -/
def readAll (read : Reader R) : ℕ → List UInt8 → Option (List R)
  | _, [] => some []
  | 0, _ :: _ => none
  | fuel + 1, b :: bs => do
    let (r, rest) ← read (b :: bs)
    let rs ← readAll read fuel rest
    some (r :: rs)

theorem readAll_bytes {read : Reader R} (hread : ∀ r ∈ recs, Reads read (enc r) r)
    (hne : ∀ r ∈ recs, enc r ≠ []) {fuel : ℕ} (hfuel : recs.length ≤ fuel) :
    readAll read fuel (bytes enc recs) = some recs := by
  induction recs generalizing fuel with
  | nil => cases fuel <;> rfl
  | cons r rs ih =>
    obtain ⟨fuel, rfl⟩ : ∃ n, fuel = n + 1 := ⟨fuel - 1, by simp at hfuel; omega⟩
    have hr := hread r List.mem_cons_self (bytes enc rs)
    have hrs : readAll read fuel (bytes enc rs) = some rs :=
      ih (fun x hx => hread x (List.mem_cons_of_mem _ hx))
        (fun x hx => hne x (List.mem_cons_of_mem _ hx)) (by simpa using hfuel)
    have hbytes : bytes enc (r :: rs) = enc r ++ bytes enc rs := rfl
    obtain ⟨b, bs, hb⟩ : ∃ b bs, enc r ++ bytes enc rs = b :: bs :=
      List.exists_cons_of_ne_nil (List.append_ne_nil_of_left_ne_nil (hne r List.mem_cons_self) _)
    rw [hb] at hr
    simp only [hbytes, hb, readAll, hr, Option.bind_eq_bind, Option.bind_some, hrs]

theorem length_le_bytes (hne : ∀ r ∈ recs, enc r ≠ []) : recs.length ≤ (bytes enc recs).length := by
  induction recs with
  | nil => exact Nat.zero_le _
  | cons r rs ih =>
    have hr := List.length_pos_of_ne_nil (hne r List.mem_cons_self)
    have hrs := ih fun x hx => hne x (List.mem_cons_of_mem _ hx)
    have hbytes : bytes enc (r :: rs) = enc r ++ bytes enc rs := rfl
    rw [hbytes, List.length_append, List.length_cons]
    omega

end Records
