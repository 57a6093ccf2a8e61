import Mathlib.Algebra.Order.Ring.Int
import Mathlib.Tactic.Ring
import Mathlib.Tactic.NormNum
import Mathlib.Data.List.Basic

set_option autoImplicit false

/-!
# Byte codecs

Little-endian words and readers that consume a prefix of a byte stream. `Reads r bs a` says
that `r` turns exactly the bytes `bs` into `a`, whatever follows them; it composes along
`bind`, so that a record layout is checked field by field.
-/
namespace Bytes

/-- The `w` low bytes of `n`, least significant first. -/
def leEncode : ℕ → ℕ → List UInt8
  | 0, _ => []
  | w + 1, n => UInt8.ofNat n :: leEncode w (n / 256)

def leDecode : List UInt8 → ℕ
  | [] => 0
  | b :: bs => b.toNat + 256 * leDecode bs

@[simp] theorem leEncode_length (w n : ℕ) : (leEncode w n).length = w := by
  induction w generalizing n with
  | zero => rfl
  | succ w ih => simp [leEncode, ih]

theorem leDecode_leEncode (w n : ℕ) : leDecode (leEncode w n) = n % 256 ^ w := by
  induction w generalizing n with
  | zero => simp [leEncode, leDecode, Nat.mod_one]
  | succ w ih =>
    have hb : (UInt8.ofNat n).toNat = n % 256 := UInt8.toNat_ofNat'
    rw [leEncode, leDecode, ih, hb, pow_succ', Nat.mod_mul]

/-- Two's complement word of `w` bytes. -/
def encodeWord (w : ℕ) (v : ℤ) : List UInt8 := leEncode w (v % (256 ^ w : ℕ)).toNat

def decodeWord (w : ℕ) (bs : List UInt8) : ℤ := (leDecode bs : ℤ).bmod (256 ^ w)

/-- The values a signed word of `w` bytes can hold. -/
def Word (w : ℕ) (v : ℤ) : Prop := -((256 ^ w / 2 : ℕ) : ℤ) ≤ v ∧ v < ((256 ^ w / 2 : ℕ) : ℤ)

instance (w : ℕ) (v : ℤ) : Decidable (Word w v) := inferInstanceAs (Decidable (_ ∧ _))

@[simp] theorem encodeWord_length (w : ℕ) (v : ℤ) : (encodeWord w v).length = w :=
  leEncode_length w _

theorem decodeWord_encodeWord {w : ℕ} {v : ℤ} (h : Word w v) :
    decodeWord w (encodeWord w v) = v := by
  have hpos : (0 : ℤ) < (256 ^ w : ℕ) := by positivity
  have hnn : 0 ≤ v % (256 ^ w : ℕ) := Int.emod_nonneg _ hpos.ne'
  have hlt : v % (256 ^ w : ℕ) < (256 ^ w : ℕ) := Int.emod_lt_of_pos _ hpos
  have hsmall : (v % (256 ^ w : ℕ)).toNat < 256 ^ w := by omega
  rw [decodeWord, encodeWord, leDecode_leEncode, Nat.mod_eq_of_lt hsmall, Int.toNat_of_nonneg hnn,
    Int.emod_bmod]
  obtain ⟨hl, hu⟩ := h
  exact Int.bmod_eq_of_le (by omega) (by omega)

/-- A stream is read from its cursor on; a failed read has no result. -/
abbrev Reader := StateT (List UInt8) Option

def Reads {α : Type} (r : Reader α) (bs : List UInt8) (a : α) : Prop :=
  ∀ rest, r (bs ++ rest) = some (a, rest)

section rules
variable {α β : Type} {r : Reader α} {bs cs : List UInt8} {a : α} {b : β}

theorem Reads.pure (a : α) : Reads (Pure.pure a) [] a := fun _ => rfl

/-- Whatever comes after `r` goes on where `r` has stopped. -/
theorem bind_apply_of_eq {rest : List UInt8} (h : r bs = some (a, rest)) (f : α → Reader β) :
    (r >>= f) bs = f a rest := by
  change (r bs).bind (fun p => f p.1 p.2) = _
  rw [h]
  rfl

/-- The two halves of a read that has succeeded. -/
theorem of_bind_eq_some {f : α → Reader β} {rest : List UInt8}
    (h : (r >>= f) bs = some (b, rest)) :
    ∃ a rest1, r bs = some (a, rest1) ∧ f a rest1 = some (b, rest) := by
  change (r bs).bind (fun p => f p.1 p.2) = _ at h
  obtain ⟨⟨a, rest1⟩, hr, hf⟩ := Option.bind_eq_some_iff.1 h
  exact ⟨a, rest1, hr, hf⟩

theorem Reads.bind_apply (h : Reads r bs a) (f : α → Reader β) (rest : List UInt8) :
    (r >>= f) (bs ++ rest) = f a rest := bind_apply_of_eq (h rest) f

theorem Reads.bind {f : α → Reader β} (h : Reads r bs a) (hf : Reads (f a) cs b) :
    Reads (r >>= f) (bs ++ cs) b := by
  intro rest
  rw [List.append_assoc, h.bind_apply]
  exact hf rest

theorem Reads.map (f : α → β) (h : Reads r bs a) : Reads (f <$> r) bs (f a) := by
  intro rest
  change (r (bs ++ rest)).bind (fun p => some (f p.1, p.2)) = _
  rw [h]
  rfl

/-- The last step of a read hands on what was read. -/
theorem Reads.bind_pure (h : Reads r bs a) (f : α → β) :
    Reads (r >>= fun x => Pure.pure (f x)) bs (f a) := by
  have hb := h.bind (f := fun x => (Pure.pure (f x) : Reader β)) (Reads.pure (f a))
  rwa [List.append_nil] at hb

theorem Reads.at_end (h : Reads r bs a) : r bs = some (a, []) := by
  simpa using h []

end rules

/-- Reads `n` bytes; past the end of the stream the missing ones are zero. -/
def readBytes (n : ℕ) : Reader (List UInt8) := fun s =>
  some (s.take n ++ List.replicate (n - s.length) 0, s.drop n)

theorem readBytes_reads (bs : List UInt8) : Reads (readBytes bs.length) bs bs := by
  intro rest
  simp [readBytes]

def readWord (w : ℕ) : Reader ℤ := decodeWord w <$> readBytes w

theorem readWord_reads {w : ℕ} {v : ℤ} (h : Word w v) : Reads (readWord w) (encodeWord w v) v := by
  have hr := (readBytes_reads (encodeWord w v)).map (decodeWord w)
  rw [encodeWord_length, decodeWord_encodeWord h] at hr
  exact hr

/-- Overwrites the bytes of `file` from `pos` on; a gap past its end is filled with zeros. -/
def overwrite (file : List UInt8) (pos : ℕ) (bs : List UInt8) : List UInt8 :=
  file.take pos ++ List.replicate (pos - file.length) 0 ++ bs ++ file.drop (pos + bs.length)

theorem overwrite_end (file bs : List UInt8) : overwrite file file.length bs = file ++ bs := by
  simp [overwrite]

theorem overwrite_append (pre post bs : List UInt8) :
    overwrite (pre ++ post) pre.length bs = pre ++ (bs ++ post.drop bs.length) := by
  simp [overwrite]

theorem overwrite_zero (file bs : List UInt8) :
    overwrite file 0 bs = bs ++ file.drop bs.length := overwrite_append [] file bs

theorem overwrite_middle (pre old bs post : List UInt8) (h : old.length = bs.length) :
    overwrite (pre ++ old ++ post) pre.length bs = pre ++ bs ++ post := by
  have hd : (pre ++ old ++ post).drop (pre.length + bs.length) = post := by
    rw [← h, ← List.length_append, List.drop_left]
  have ht : (pre ++ old ++ post).take pre.length = pre := by
    rw [List.append_assoc, List.take_left]
  rw [overwrite, hd, ht]
  simp

/-- Bytes in front of the cursor stay. -/
theorem overwrite_behind (pre rest bs : List UInt8) {pos : ℕ} (h : pre.length ≤ pos) :
    overwrite (pre ++ rest) pos bs = pre ++ overwrite rest (pos - pre.length) bs := by
  have h1 : pos + bs.length = pre.length + (pos - pre.length + bs.length) := by omega
  have h2 : pos - (pre ++ rest).length = pos - pre.length - rest.length := by
    rw [List.length_append]
    omega
  rw [overwrite, overwrite, h2, List.take_append, List.take_of_length_le h, h1, ← List.drop_drop,
    List.drop_left]
  simp

theorem overwrite_nil (file : List UInt8) {pos : ℕ} (h : pos ≤ file.length) :
    overwrite file pos [] = file := by
  have h0 : pos - file.length = 0 := by omega
  simp [overwrite, h0]

/-- Two writes one behind the other are one. -/
theorem overwrite_overwrite (file xs ys : List UInt8) (pos : ℕ) :
    overwrite (overwrite file pos xs) (pos + xs.length) ys = overwrite file pos (xs ++ ys) := by
  obtain ⟨pre, hpre⟩ : ∃ pre, pre = file.take pos ++ List.replicate (pos - file.length) 0 :=
    ⟨_, rfl⟩
  have hlen : (pre ++ xs).length = pos + xs.length := by
    rw [hpre]
    simp only [List.length_append, List.length_take, List.length_replicate]
    omega
  have h := overwrite_append (pre ++ xs) (file.drop (pos + xs.length)) ys
  rw [hlen, List.drop_drop, Nat.add_assoc, ← List.length_append] at h
  have hfile : overwrite file pos xs = pre ++ xs ++ file.drop (pos + xs.length) := by
    rw [hpre]
    rfl
  rw [hfile, h, overwrite, ← hpre]
  simp only [List.append_assoc]

theorem overwrite_drop (file bs : List UInt8) (pos : ℕ) :
    (overwrite file pos bs).drop pos = bs ++ file.drop (pos + bs.length) := by
  have hlen : (file.take pos ++ List.replicate (pos - file.length) 0).length = pos := by
    simp only [List.length_append, List.length_take, List.length_replicate]
    omega
  rw [overwrite, List.append_assoc]
  exact (congrArg (List.drop · _) hlen.symm).trans List.drop_left

theorem overwrite_length (file bs : List UInt8) (pos : ℕ) :
    (overwrite file pos bs).length = max file.length (pos + bs.length) := by
  simp only [overwrite, List.length_append, List.length_take, List.length_replicate,
    List.length_drop]
  omega

end Bytes
