import Djondb.MMapInputOutputStream

set_option autoImplicit false

/-!
# Typed values through a mapping

What the typed writes put into a mapping and what the typed reads take from it after `seek(0)`. A
`float` or a `double` comes back as the number that its first byte is.
-/
namespace Djondb
open Bytes

/-! ## Characters as numbers -/

theorem charValue_natAbs_le (b : UInt8) : (charValue b).natAbs ≤ 128 := by
  have hlt := b.toNat_lt
  unfold charValue
  rw [Int.bmod_def]
  split_ifs <;> omega

theorem charValue_zero : charValue 0 = 0 := by decide

theorem ieeeBits_zero (fraction exponent : ℕ) : ieeeBits fraction exponent 0 = 0 := if_pos rfl

example : ieeeBits 23 8 (charValue 255) = 0xBF800000 := by decide

/-- The few digits of a `char` leave the low bits of the format free. -/
theorem ieeeBits_mod {fraction : ℕ} (exponent : ℕ) (h : 15 ≤ fraction) (b : UInt8) :
    ieeeBits fraction exponent (charValue b) % 256 = 0 := by
  have hle := charValue_natAbs_le b
  unfold ieeeBits
  by_cases hzero : charValue b = 0
  · rw [if_pos hzero]
  · rw [if_neg hzero]
    obtain ⟨log, hlog⟩ : ∃ log, log = Nat.log2 (charValue b).natAbs := ⟨_, rfl⟩
    have hsmall : log < 8 := by
      rw [hlog]
      apply (Nat.log2_lt (Int.natAbs_ne_zero.2 hzero)).2
      omega
    have hpow : ∀ k, 8 ≤ k → 256 ∣ 2 ^ k := fun k hk => by
      have hdvd : 2 ^ 8 ∣ 2 ^ k := Nat.pow_dvd_pow 2 hk
      exact hdvd
    dsimp only
    rw [← hlog]
    apply Nat.mod_eq_zero_of_dvd
    apply Nat.dvd_add
    · apply Nat.dvd_add
      · split_ifs
        · exact hpow _ (by omega)
        · exact dvd_zero 256
      · exact Dvd.dvd.mul_left (hpow fraction (by omega)) _
    · exact Dvd.dvd.mul_left (hpow (fraction - log) (by omega)) _

/-- Of all numbers only zero is the number of its lowest byte. -/
theorem ieeeBits_eq {fraction size : ℕ} (exponent bits : ℕ) (h : 15 ≤ fraction)
    (hsize : 256 ∣ size) :
    ieeeBits fraction exponent (charValue (UInt8.ofNat bits)) % size = bits ↔ bits = 0 := by
  constructor
  · intro heq
    have hmod := ieeeBits_mod exponent h (UInt8.ofNat bits)
    rw [← Nat.mod_mod_of_dvd _ hsize, heq] at hmod
    have hzero : UInt8.ofNat bits = 0 := UInt8.toNat_inj.1 (UInt8.toNat_ofNat'.trans hmod)
    rw [← heq, hzero, charValue_zero, ieeeBits_zero, Nat.zero_mod]
  · intro heq
    have hzero : charValue (UInt8.ofNat 0) = 0 := charValue_zero
    rw [heq, hzero, ieeeBits_zero, Nat.zero_mod]

/-! ## Positions in a mapping -/

namespace MMapInputOutputStream

/-- The stream stands at `p` in a mapping that has not been moved. -/
structure At (s : MMapInputOutputStream) (p : ℕ) : Prop where
  initaddr_eq : s.initaddr = s.start
  addr_eq : s.addr = some (s.start + p)
  pos_eq : s.pos = p
  len_eq : s.len = s.content.length
  le : p ≤ s.content.length

theorem new_at (start : ℤ) (content : List UInt8) : (new start content).At 0 :=
  ⟨rfl, congrArg some (Int.add_zero start).symm, rfl, rfl, Nat.zero_le _⟩

section at_position
variable {s next : MMapInputOutputStream} {p n : ℕ}

theorem At.place (h : s.At p) (hfit : p + n ≤ s.content.length) : s.place n = some p := by
  unfold MMapInputOutputStream.place
  rw [h.addr_eq, Option.bind_eq_bind, Option.bind_some, if_pos (by omega)]
  exact congrArg some (by omega)

/-- The stream has moved on, and its mapping is the old one. -/
theorem At.advance (h : s.At p) (hfit : p + n ≤ s.content.length) : (s.advance n).At (p + n) where
  initaddr_eq := h.initaddr_eq
  addr_eq := by
    have hsum : s.start + p + n = s.start + (p + n : ℕ) := by
      push_cast
      omega
    change s.addr.map (· + (n : ℤ)) = some (s.start + (p + n : ℕ))
    rw [h.addr_eq, Option.map_some, hsum]
  pos_eq := by
    change s.pos + n = _
    rw [h.pos_eq]
    push_cast
    rfl
  len_eq := h.len_eq
  le := hfit

theorem At.seek (h : s.At p) {i : ℕ} (hi : i ≤ s.content.length) : (s.seek i).At i where
  initaddr_eq := h.initaddr_eq
  addr_eq := by
    change some (s.initaddr + i) = _
    rw [h.initaddr_eq]
    rfl
  pos_eq := rfl
  len_eq := h.len_eq
  le := hi

/-- What is written stands at the position, and nothing else in the mapping changes. -/
structure Wrote (s : MMapInputOutputStream) (p : ℕ) (bs : List UInt8)
    (next : MMapInputOutputStream) : Prop where
  here : next.At (p + bs.length)
  start_eq : next.start = s.start
  content_eq : next.content = overwrite s.content p bs

theorem At.write (h : s.At p) {bs : List UInt8} (hfit : p + bs.length ≤ s.content.length) :
    ∃ next, s.write bs = some next ∧ s.Wrote p bs next := by
  have hlen : (overwrite s.content p bs).length = s.content.length := by
    rw [overwrite_length, Nat.max_eq_left hfit]
  have hwritten : ({ s with content := overwrite s.content p bs } : MMapInputOutputStream).At p :=
    ⟨h.initaddr_eq, h.addr_eq, h.pos_eq, h.len_eq.trans (congrArg _ hlen.symm), hlen.symm ▸ h.le⟩
  refine ⟨_, ?_, hwritten.advance (hlen.symm ▸ hfit), rfl, rfl⟩
  unfold MMapInputOutputStream.write
  rw [h.place hfit]
  rfl

theorem Wrote.trans {s1 s2 s3 : MMapInputOutputStream} {bs cs : List UInt8}
    (h1 : s1.Wrote p bs s2) (h2 : s2.Wrote (p + bs.length) cs s3) : s1.Wrote p (bs ++ cs) s3 where
  here := by
    rw [List.length_append, ← Nat.add_assoc]
    exact h2.here
  start_eq := h2.start_eq.trans h1.start_eq
  content_eq := by rw [h2.content_eq, h1.content_eq, overwrite_overwrite]

theorem Wrote.content_length {bs : List UInt8} (h : s.Wrote p bs next)
    (hfit : p + bs.length ≤ s.content.length) : next.content.length = s.content.length := by
  rw [h.content_eq, overwrite_length, Nat.max_eq_left hfit]

theorem At.writeData (h : s.At p) {w : ℕ} {v : ℤ} (hfit : p + w ≤ s.content.length) :
    ∃ next, s.writeData w v = some next ∧ s.Wrote p (encodeWord w v) next := by
  have hlen : (encodeWord w v).length = w := encodeWord_length w v
  unfold MMapInputOutputStream.writeData
  rw [← hlen] at hfit
  generalize encodeWord w v = bs at hfit
  induction bs generalizing s p with
  | nil =>
    exact ⟨s, rfl, h, rfl, (overwrite_nil _ h.le).symm⟩
  | cons b bs ih =>
    rw [List.length_cons] at hfit
    have hone : p + [b].length ≤ s.content.length := by
      rw [List.length_singleton]
      omega
    rcases h.write hone with ⟨s1, hs1, hwrote⟩
    have hrest : p + [b].length + bs.length ≤ s1.content.length := by
      rw [hwrote.content_length hone, List.length_singleton]
      omega
    rcases ih hwrote.here hrest with ⟨next, hnext, hdone⟩
    refine ⟨next, ?_, hwrote.trans hdone⟩
    rw [List.foldlM_cons, writeChar, hs1]
    exact hnext

theorem At.writeChars (h : s.At p) {text : List UInt8} (hlen : text.length < 2 ^ 31)
    (hfit : p + (Djondb.writeChars text).length ≤ s.content.length) :
    ∃ next, s.writeChars text = some next ∧ s.Wrote p (Djondb.writeChars text) next := by
  have hmod : (text.length : ℤ).bmod (2 ^ 32) = text.length := by
    apply Int.bmod_eq_of_le <;> omega
  have hword : (encodeWord 4 (text.length : ℤ)).length = 4 := encodeWord_length 4 _
  have hbytes : Djondb.writeChars text = encodeWord 4 (text.length : ℤ) ++ text := rfl
  rw [hbytes, List.length_append, hword] at hfit
  have hfirst : p + 4 ≤ s.content.length := by omega
  rcases h.writeData (v := text.length) hfirst with ⟨s1, hs1, hwrote⟩
  have hrest : p + (encodeWord 4 (text.length : ℤ)).length + text.length ≤ s1.content.length := by
    rw [hwrote.content_length (by rw [hword]; exact hfirst), hword]
    omega
  rcases hwrote.here.write hrest with ⟨next, hnext, hdone⟩
  rw [hbytes]
  refine ⟨next, ?_, hwrote.trans hdone⟩
  unfold MMapInputOutputStream.writeChars
  dsimp only
  rw [hmod, hs1, Option.bind_eq_bind, Option.bind_some, if_neg (by omega), Int.toNat_natCast,
    List.take_length]
  exact hnext

end at_position

/-! ## Room for floats -/

/-- What the system does with the mapping at `start`: one that keeps its length stays where it is,
and behind it there is nothing that a longer range could go on with. -/
structure Remaps (mremap : Mremap) (start len : ℤ) : Prop where
  same : mremap start len len = some start
  outside : ∀ addr len', start < addr → mremap addr len len' = none

section floats
variable {mremap : Mremap} {psize p : ℕ} {s : MMapInputOutputStream}

/-- There are 64 KiB left, or the cursor stands at the front. -/
def Roomy (len p : ℕ) : Prop := p = 0 ∨ p + 64 * 1024 ≤ len

/-- With pages of 4096 bytes and their multiples no length is added. -/
theorem newLength_page (hpage : 4096 ∣ psize) (h : s.At 0) (hshort : s.short = true) :
    s.newLength psize = s.len := by
  have hlen := h.len_eq
  have hpos := h.pos_eq
  have hsmall := of_decide_eq_true hshort
  rcases hpage with ⟨k, rfl⟩
  unfold newLength
  have hsum : s.len + ((4096 * k : ℕ) : ℤ) * 10 * 1024 * 1024 =
      s.len + ((2 ^ 32 : ℕ) : ℤ) * (10 * k) := by
    push_cast
    omega
  rw [hsum, Int.add_mul_bmod_self_left]
  apply Int.bmod_eq_of_le <;> omega

theorem At.check (hpage : 4096 ∣ psize) (h : s.At p) (hmap : Remaps mremap s.start s.len)
    (hroomy : Roomy s.content.length p) : s.checkAvailableSpace mremap psize = s := by
  have hlen := h.len_eq
  have hpos := h.pos_eq
  unfold checkAvailableSpace
  by_cases hshort : s.short = true
  · have hsmall := of_decide_eq_true hshort
    have hzero : p = 0 := by
      rcases hroomy with hzero | hleft
      · exact hzero
      · omega
    subst hzero
    have haddr := h.addr_eq
    rw [Int.natCast_zero, Int.add_zero] at haddr
    rw [if_pos hshort, newLength_page hpage h hshort]
    unfold resize
    rw [haddr, Option.bind_some, hmap.same]
    change { s with
      addr := some s.start, content := s.content.take s.len.toNat } = s
    rw [hlen, Int.toNat_natCast, List.take_length, ← haddr, ← hlen]
  · exact if_neg hshort

theorem At.check_lost (psize : ℕ) (h : s.At p) (hmap : Remaps mremap s.start s.len)
    (hroomy : ¬ Roomy s.content.length p) : (s.checkAvailableSpace mremap psize).addr = none := by
  have hlen := h.len_eq
  have hpos := h.pos_eq
  unfold Roomy at hroomy
  have hshort : s.short = true := by
    apply decide_eq_true
    omega
  have hout := hmap.outside (s.start + p) (s.newLength psize) (by omega)
  unfold checkAvailableSpace
  rw [if_pos hshort]
  unfold resize
  rw [h.addr_eq, Option.bind_some, hout]

theorem write_lost {bs : List UInt8} (h : s.addr = none) : s.write bs = none := by
  unfold MMapInputOutputStream.write place
  rw [h]
  rfl

end floats

end MMapInputOutputStream

/-! ## Values -/

namespace StreamValue

/-- The values of which the write asks for space. -/
def floating : StreamValue → Bool
  | float _ => true
  | typed (.double _) => true
  | _ => false

/-- What comes back: of a float, the number of its first byte. -/
def seen : StreamValue → StreamValue
  | float bits => float (UInt32.ofNat (ieeeBits 23 8 (charValue (UInt8.ofNat bits.toNat))))
  | typed (.double bits) =>
    typed (.double (UInt64.ofNat (ieeeBits 52 11 (charValue (UInt8.ofNat bits.toNat)))))
  | v => v

/-- A floating value has all bits zero. -/
def Plain : StreamValue → Prop
  | float bits => bits = 0
  | typed (.double bits) => bits = 0
  | _ => True

theorem seen_eq_iff (v : StreamValue) : v.seen = v ↔ v.Plain := by
  cases v with
  | float bits =>
    have hfraction : 15 ≤ 23 := by decide
    have hsize : 256 ∣ 2 ^ 32 := by decide
    have hbits := ieeeBits_eq 8 bits.toNat hfraction hsize
    have hfloat : (float bits).seen = float bits ↔ UInt32.ofNat
        (ieeeBits 23 8 (charValue (UInt8.ofNat bits.toNat))) = bits :=
      ⟨fun h => float.inj h, congrArg float⟩
    rw [hfloat, ← UInt32.toNat_inj, UInt32.toNat_ofNat', hbits]
    exact UInt32.toNat_inj (b := 0)
  | typed v =>
    cases v with
    | double bits =>
      have hfraction : 15 ≤ 52 := by decide
      have hsize : 256 ∣ 2 ^ 64 := by decide
      have hbits := ieeeBits_eq 11 bits.toNat hfraction hsize
      have hdouble : (typed (.double bits)).seen = typed (.double bits) ↔ UInt64.ofNat
          (ieeeBits 52 11 (charValue (UInt8.ofNat bits.toNat))) = bits :=
        ⟨fun h => TypedValue.double.inj (typed.inj h), fun h => congrArg (typed ∘ .double) h⟩
      rw [hdouble, ← UInt64.toNat_inj, UInt64.toNat_ofNat', hbits]
      exact UInt64.toNat_inj (b := 0)
    | _ => exact iff_of_true rfl trivial

theorem map_seen_iff (vs : List StreamValue) : vs.map seen = vs ↔ ∀ v ∈ vs, v.Plain := by
  induction vs with
  | nil => exact iff_of_true rfl fun _ h => nomatch h
  | cons v vs ih =>
    rw [List.map_cons, List.cons_eq_cons, seen_eq_iff, ih, List.forall_mem_cons]

end StreamValue

namespace MMapInputOutputStream

/-! ## Writing values -/

section writing
variable {mremap : Mremap} {psize p : ℕ} {s next : MMapInputOutputStream}

theorem At.writeFloating (hpage : 4096 ∣ psize) (h : s.At p) (hmap : Remaps mremap s.start s.len)
    {bs : List UInt8} (hfit : p + bs.length ≤ s.content.length)
    (hroomy : Roomy s.content.length p) :
    ∃ next, (s.checkAvailableSpace mremap psize).write bs = some next ∧ s.Wrote p bs next := by
  rw [h.check hpage hmap hroomy]
  exact h.write hfit

theorem At.writeValue (hpage : 4096 ∣ psize) (h : s.At p) (hmap : Remaps mremap s.start s.len)
    {v : StreamValue} (hv : v.Fits) (hfit : p + v.bytes.length ≤ s.content.length)
    (hroomy : v.floating = true → Roomy s.content.length p) :
    ∃ next, s.writeValue mremap psize v = some next ∧ s.Wrote p v.bytes next := by
  have hdata : ∀ (w : ℕ) (n : ℤ), v.bytes = encodeWord w n → p + w ≤ s.content.length := by
    intro w n hbytes
    rw [hbytes, encodeWord_length] at hfit
    exact hfit
  cases v with
  | float bits => exact h.writeFloating hpage hmap hfit (hroomy rfl)
  | typed v =>
    cases v with
    | char v => exact h.write hfit
    | boolean v => exact h.writeData (hdata 1 _ rfl)
    | short v => exact h.writeData (hdata 2 _ rfl)
    | int v => exact h.writeData (hdata 4 _ rfl)
    | long v => exact h.writeData (hdata 8 _ rfl)
    | double bits => exact h.writeFloating hpage hmap hfit (hroomy rfl)
    | chars text => exact h.writeChars hv hfit
    | string text => exact h.writeChars hv.1 hfit

/-- A floating value that has been written had room. -/
theorem At.roomy_of_writeValue (h : s.At p) (hmap : Remaps mremap s.start s.len) {v : StreamValue}
    (hwrite : s.writeValue mremap psize v = some next) (hv : v.floating = true) :
    Roomy s.content.length p := by
  by_contra hroomy
  have hlost := h.check_lost psize hmap hroomy
  cases v with
  | float bits =>
    have hnone : s.writeFloatIEEE mremap psize bits = none := write_lost hlost
    cases hnone.symm.trans hwrite
  | typed v =>
    cases v with
    | double bits =>
      have hnone : s.writeDoubleIEEE mremap psize bits = none := write_lost hlost
      cases hnone.symm.trans hwrite
    | _ => cases hv

end writing

/-- Every floating value finds room where it comes to stand. -/
def AllRoomy (len : ℕ) : ℕ → List StreamValue → Prop
  | _, [] => True
  | p, v :: vs => (v.floating = true → Roomy len p) ∧ AllRoomy len (p + v.bytes.length) vs

section runs
variable {mremap : Mremap} {psize p : ℕ} {s : MMapInputOutputStream} {vs : List StreamValue}

theorem Wrote.remaps {bs : List UInt8} {next : MMapInputOutputStream} (h : s.At p)
    (hwrote : s.Wrote p bs next) (hfit : p + bs.length ≤ s.content.length)
    (hmap : Remaps mremap s.start s.len) : Remaps mremap next.start next.len := by
  rw [hwrote.start_eq, hwrote.here.len_eq, hwrote.content_length hfit, ← h.len_eq]
  exact hmap

/-- With room for the floating ones the values are written one behind the other. -/
theorem At.writeAll (hpage : 4096 ∣ psize) (h : s.At p) (hmap : Remaps mremap s.start s.len)
    (hvs : ∀ v ∈ vs, v.Fits) (hfit : p + (vs.flatMap StreamValue.bytes).length ≤ s.content.length)
    (hroomy : AllRoomy s.content.length p vs) :
    ∃ next, s.writeAll mremap psize vs = some next ∧
      s.Wrote p (vs.flatMap StreamValue.bytes) next := by
  unfold MMapInputOutputStream.writeAll
  induction vs generalizing s p with
  | nil => exact ⟨s, rfl, h, rfl, (overwrite_nil _ h.le).symm⟩
  | cons v vs ih =>
    rcases List.forall_mem_cons.1 hvs with ⟨hv, hvs⟩
    rcases hroomy with ⟨hroom, hrest⟩
    rw [List.flatMap_cons, List.length_append] at hfit
    have hfirst : p + v.bytes.length ≤ s.content.length := by omega
    rcases h.writeValue hpage hmap hv hfirst hroom with ⟨s1, hs1, hwrote⟩
    have hlen := hwrote.content_length hfirst
    rw [← hlen] at hrest
    rcases ih hwrote.here (hwrote.remaps h hfirst hmap) hvs (by omega) hrest
      with ⟨next, hnext, hdone⟩
    rw [List.flatMap_cons]
    refine ⟨next, ?_, hwrote.trans hdone⟩
    rw [List.foldlM_cons, hs1]
    exact hnext

theorem At.roomy_of_writeAll (hpage : 4096 ∣ psize) (h : s.At p)
    (hmap : Remaps mremap s.start s.len) (hvs : ∀ v ∈ vs, v.Fits)
    (hfit : p + (vs.flatMap StreamValue.bytes).length ≤ s.content.length)
    {next : MMapInputOutputStream} (hwrite : s.writeAll mremap psize vs = some next) :
    AllRoomy s.content.length p vs := by
  unfold MMapInputOutputStream.writeAll at hwrite
  induction vs generalizing s p with
  | nil => trivial
  | cons v vs ih =>
    rcases List.forall_mem_cons.1 hvs with ⟨hv, hvs⟩
    rw [List.flatMap_cons, List.length_append] at hfit
    have hfirst : p + v.bytes.length ≤ s.content.length := by omega
    rw [List.foldlM_cons] at hwrite
    rcases Option.bind_eq_some_iff.1 hwrite with ⟨s1, hs1, hrest⟩
    have hroom := h.roomy_of_writeValue hmap hs1
    rcases h.writeValue hpage hmap hv hfirst hroom with ⟨s1', hs1', hwrote⟩
    cases hs1.symm.trans hs1'
    have hlen := hwrote.content_length hfirst
    have htail := ih hwrote.here (hwrote.remaps h hfirst hmap) hvs (by omega) hrest
    rw [hlen] at htail
    exact ⟨hroom, htail⟩

end runs

/-! ## Reading values -/

structure Ahead (s : MMapInputOutputStream) (p : ℕ) (bs : List UInt8) : Prop where
  here : s.At p
  drop_eq : s.content.drop p = bs

/-- A reader that takes these bytes for this value. -/
def Takes {α : Type} (r : StateT MMapInputOutputStream Option α) (bs : List UInt8) (a : α) : Prop :=
  ∀ s p rest, s.Ahead p (bs ++ rest) →
    ∃ next, r s = some (a, next) ∧ next.Ahead (p + bs.length) rest

section rules
variable {α β : Type} {r : StateT MMapInputOutputStream Option α} {bs cs : List UInt8} {a : α}
variable {b : β} {s next : MMapInputOutputStream} {p : ℕ}

theorem Takes.pure (a : α) : Takes (Pure.pure a) [] a := fun s _ _ h => ⟨s, rfl, h⟩

theorem Takes.bind {f : α → StateT MMapInputOutputStream Option β} (h : Takes r bs a)
    (hf : Takes (f a) cs b) : Takes (r >>= f) (bs ++ cs) b := by
  intro s p rest hs
  rw [List.append_assoc] at hs
  rcases h s p _ hs with ⟨next, hr, hnext⟩
  rcases hf next _ rest hnext with ⟨last, hlast, hend⟩
  rw [List.length_append, ← Nat.add_assoc]
  refine ⟨last, ?_, hend⟩
  change (r s).bind (fun p => f p.1 p.2) = _
  rw [hr]
  exact hlast

theorem Takes.map (f : α → β) (h : Takes r bs a) : Takes (f <$> r) bs (f a) := by
  intro s p rest hs
  rcases h s p rest hs with ⟨next, hr, hnext⟩
  refine ⟨next, ?_, hnext⟩
  change (r s).bind (fun p => some (f p.1, p.2)) = _
  rw [hr]
  rfl

theorem of_map_eq_some {f : α → β} (h : (f <$> r) s = some (b, next)) :
    ∃ a, r s = some (a, next) ∧ b = f a := by
  change (r s).bind (fun p => some (f p.1, p.2)) = _ at h
  rcases Option.bind_eq_some_iff.1 h with ⟨⟨a, next'⟩, hr, heq⟩
  cases heq
  exact ⟨a, hr, rfl⟩

theorem Ahead.length_eq (h : s.Ahead p bs) : p + bs.length = s.content.length := by
  have hlen := congrArg List.length h.drop_eq
  have hle := h.here.le
  rw [List.length_drop] at hlen
  omega

theorem Ahead.advance (h : s.Ahead p (bs ++ cs)) :
    (s.advance bs.length).Ahead (p + bs.length) cs where
  here := by
    have hlen := h.length_eq
    rw [List.length_append] at hlen
    exact h.here.advance (by omega)
  drop_eq := by
    change s.content.drop (p + bs.length) = cs
    rw [← List.drop_drop, h.drop_eq, List.drop_left]

end rules

theorem read_takes (bs : List UInt8) : Takes (read bs.length) bs bs := by
  intro s p rest h
  have hlen := h.length_eq
  rw [List.length_append] at hlen
  refine ⟨_, ?_, h.advance⟩
  unfold read
  rw [h.here.place (by omega), Option.bind_eq_bind, Option.bind_some, h.drop_eq, List.take_left]

theorem readData_takes {w : ℕ} {v : ℤ} (h : Word w v) :
    Takes (readData w) (encodeWord w v) v := by
  have hr := (read_takes (encodeWord w v)).map (decodeWord w)
  rw [encodeWord_length, decodeWord_encodeWord h] at hr
  exact hr

theorem readChars_takes {text : List UInt8} (h : text.length < 2 ^ 31) :
    Takes readChars (Djondb.writeChars text) text := by
  apply (readData_takes (word_four_natCast h)).bind
  rw [if_neg (by omega), Int.toNat_natCast]
  exact read_takes text

/-- The first byte is what a floating value is made of. -/
theorem first_takes {α : Type} (f : UInt8 → α) (b : UInt8) (bs : List UInt8) :
    Takes (fun s => do
      let i ← s.place 1
      some (f (s.content.getD i 0), s.advance (b :: bs).length)) (b :: bs) (f b) := by
  intro s p rest h
  have hlen := h.length_eq
  rw [List.cons_append, List.length_cons] at hlen
  have hfirst : s.content.getD p 0 = b := by
    have hhead := congrArg (fun l => l.headD 0) h.drop_eq
    rw [List.headD_eq_head?_getD, List.head?_drop] at hhead
    exact hhead
  refine ⟨_, ?_, h.advance⟩
  change (s.place 1).bind (fun i => some (f (s.content.getD i 0), _)) = _
  rw [h.here.place (by omega), Option.bind_some, hfirst]

theorem readFloatIEEE_takes (bits : UInt32) : Takes readFloatIEEE (Djondb.writeFloatIEEE bits)
    (UInt32.ofNat (ieeeBits 23 8 (charValue (UInt8.ofNat bits.toNat)))) :=
  first_takes (fun b => UInt32.ofNat (ieeeBits 23 8 (charValue b))) (UInt8.ofNat bits.toNat)
    (leEncode 3 (bits.toNat / 256))

theorem readDoubleIEEE_takes (bits : UInt64) : Takes readDoubleIEEE (Djondb.writeDoubleIEEE bits)
    (UInt64.ofNat (ieeeBits 52 11 (charValue (UInt8.ofNat bits.toNat)))) :=
  first_takes (fun b => UInt64.ofNat (ieeeBits 52 11 (charValue b))) (UInt8.ofNat bits.toNat)
    (leEncode 7 (bits.toNat / 256))

end MMapInputOutputStream

namespace StreamValue
open MMapInputOutputStream

/-- The read of a value takes its bytes, and what it gives is the value but for floating ones. -/
theorem readValue_takes {v : StreamValue} (hv : v.Fits) : Takes (readValue v) v.bytes v.seen := by
  cases v with
  | float bits => exact (readFloatIEEE_takes bits).map float
  | typed v =>
    cases v with
    | char v => exact ((read_takes [v]).map fun bs => bs.headD 0).map fun v => typed (.char v)
    | boolean v =>
      have h : Word 1 (if v then 1 else 0) := by cases v <;> decide
      have hr := (readData_takes h).map fun v => typed (.boolean (v != 0))
      cases v <;> exact hr
    | short v =>
      have h : Word 2 v.toInt := ⟨Int16.le_toInt v, Int16.toInt_lt v⟩
      have hr := (readData_takes h).map fun v => typed (.short (Int16.ofInt v))
      rwa [Int16.ofInt_toInt] at hr
    | int v =>
      have h : Word 4 v.toInt := ⟨Int32.le_toInt v, Int32.toInt_lt v⟩
      have hr := (readData_takes h).map fun v => typed (.int (Int32.ofInt v))
      rwa [Int32.ofInt_toInt] at hr
    | long v =>
      have h : Word 8 v.toInt := ⟨Int64.le_toInt v, Int64.toInt_lt v⟩
      have hr := (readData_takes h).map fun v => typed (.long (Int64.ofInt v))
      rwa [Int64.ofInt_toInt] at hr
    | double bits => exact (readDoubleIEEE_takes bits).map fun v => typed (.double v)
    | chars text => exact (readChars_takes hv).map fun v => typed (.chars v)
    | string text =>
      have hr := ((readChars_takes hv.1).map CString.ofBytes).map fun v => typed (.string v.bytes)
      have hcut : (CString.ofBytes text).bytes = text := TypedValue.takeWhile_eq hv.2
      rw [hcut] at hr
      exact hr

theorem readAll_takes {vs : List StreamValue} (hvs : ∀ v ∈ vs, v.Fits) :
    Takes (readAll vs) (vs.flatMap bytes) (vs.map seen) := by
  induction vs with
  | nil => exact Takes.pure []
  | cons v vs ih =>
    rcases List.forall_mem_cons.1 hvs with ⟨hv, hvs⟩
    apply (readValue_takes hv).bind
    have hrest := (ih hvs).map (List.cons v.seen)
    rw [← bind_pure_comp] at hrest
    exact hrest

/-! ## Values that come back -/

section back
variable {s next last : MMapInputOutputStream}

theorem read_length {n : ℕ} {bs : List UInt8} (h : MMapInputOutputStream.read n s = some (bs, next)) :
    bs.length ≤ n := by
  rcases Option.bind_eq_some_iff.1 h with ⟨i, -, heq⟩
  cases heq
  exact List.length_take_le _ _

theorem readChars_length {text : List UInt8}
    (h : MMapInputOutputStream.readChars s = some (text, next)) : text.length < 2 ^ 31 := by
  change (readData 4 s).bind (fun p => (if p.1 < 0 then failure
    else MMapInputOutputStream.read p.1.toNat :
      StateT MMapInputOutputStream Option (List UInt8)) p.2) = _ at h
  rcases Option.bind_eq_some_iff.1 h with ⟨⟨len, s1⟩, hint, hrest⟩
  dsimp only at hrest
  split_ifs at hrest
  · cases hrest
  · have hle := read_length hrest
    rcases of_map_eq_some hint with ⟨word, -, hdecoded⟩
    have hlt := MemoryStream.decodeWord_lt 4 word
    norm_num at hlt
    rw [← hdecoded] at hlt
    omega

/-- Whatever is read fits its type. -/
theorem fits_of_readValue {v v' : StreamValue} (h : readValue v s = some (v', next)) : v'.Fits := by
  cases v with
  | float bits =>
    rcases of_map_eq_some h with ⟨a, -, rfl⟩
    trivial
  | typed v =>
    cases v with
    | chars text =>
      rcases of_map_eq_some h with ⟨text', htext, rfl⟩
      exact readChars_length htext
    | string text =>
      rcases of_map_eq_some h with ⟨c, hc, rfl⟩
      rcases of_map_eq_some hc with ⟨text', htext, rfl⟩
      have hcut : (CString.ofBytes text').bytes.length ≤ text'.length :=
        (List.takeWhile_prefix _).length_le
      exact ⟨lt_of_le_of_lt hcut (readChars_length htext), (CString.ofBytes text').noNul⟩
    | _ =>
      rcases of_map_eq_some h with ⟨a, -, rfl⟩
      trivial

theorem fits_of_readAll {vs all : List StreamValue} (h : readAll vs s = some (all, last)) :
    ∀ v ∈ all, v.Fits := by
  induction vs generalizing s all with
  | nil =>
    cases h
    exact fun _ h => nomatch h
  | cons v vs ih =>
    change (readValue v s).bind (fun p => ((do
      let vs' ← readAll vs
      pure (p.1 :: vs')) : StateT MMapInputOutputStream Option (List StreamValue)) p.2) = _ at h
    rcases Option.bind_eq_some_iff.1 h with ⟨⟨v', next⟩, hv, hrest⟩
    rcases Option.bind_eq_some_iff.1 hrest with ⟨⟨vs', last'⟩, hvs, heq⟩
    cases heq
    exact List.forall_mem_cons.2 ⟨fits_of_readValue hv, ih hvs⟩

end back

/-- After `seek(0)` the reads give the values back, and the position is the number of bytes that
were written. -/
def MapsBack (mremap : Mremap) (psize : ℕ) (s : MMapInputOutputStream) (vs : List StreamValue) :
    Prop :=
  ∃ written last, s.writeAll mremap psize vs = some written ∧
    readAll vs (written.seek 0) = some (vs, last) ∧ last.pos = (vs.flatMap bytes).length

section roundtrip
variable {mremap : Mremap} {psize : ℕ} {start : ℤ} {content : List UInt8} {vs : List StreamValue}

/-- What was written is ahead after `seek(0)`. -/
theorem ahead_of_writeAll (hpage : 4096 ∣ psize) (hmap : Remaps mremap start content.length)
    (hfit : (vs.flatMap bytes).length ≤ content.length) (hvs : ∀ v ∈ vs, v.Fits)
    (hroomy : AllRoomy content.length 0 vs) :
    ∃ written rest, (new start content).writeAll mremap psize vs = some written ∧
      (written.seek 0).Ahead 0 (vs.flatMap bytes ++ rest) := by
  have hat := new_at start content
  have hroom : 0 + (vs.flatMap bytes).length ≤ (new start content).content.length := by
    rw [Nat.zero_add]
    exact hfit
  rcases hat.writeAll hpage hmap hvs hroom hroomy with ⟨written, hwritten, hwrote⟩
  refine ⟨written, content.drop (vs.flatMap bytes).length, hwritten,
    hwrote.here.seek (Nat.zero_le _), ?_⟩
  change written.content.drop 0 = _
  rw [hwrote.content_eq, List.drop_zero]
  exact overwrite_zero content _

/-- Values that come back are what the reads make of them. -/
theorem MapsBack.seen_eq (h : MapsBack mremap psize (new start content) vs) (hpage : 4096 ∣ psize)
    (hmap : Remaps mremap start content.length) (hfit : (vs.flatMap bytes).length ≤ content.length) :
    (∀ v ∈ vs, v.Fits) ∧ AllRoomy content.length 0 vs ∧ vs.map seen = vs := by
  rcases h with ⟨written, last, hwrite, hread, -⟩
  have hvs := fits_of_readAll hread
  have hroom : 0 + (vs.flatMap bytes).length ≤ (new start content).content.length := by
    rw [Nat.zero_add]
    exact hfit
  have hroomy := (new_at start content).roomy_of_writeAll hpage hmap hvs hroom hwrite
  rcases ahead_of_writeAll hpage hmap hfit hvs hroomy with ⟨written', rest, hwrite', hahead⟩
  cases hwrite.symm.trans hwrite'
  rcases readAll_takes hvs _ _ _ hahead with ⟨last', hread', -⟩
  exact ⟨hvs, hroomy, (Prod.mk.inj (Option.some.inj (hread'.symm.trans hread))).1⟩

/-- Values come back from a mapping that holds them exactly if they fit their types, and the
floating ones are zero and written where there are 64 KiB left or at the front. -/
theorem mapsBack_iff (hpage : 4096 ∣ psize) (hmap : Remaps mremap start content.length)
    (hfit : (vs.flatMap bytes).length ≤ content.length) :
    MapsBack mremap psize (new start content) vs ↔
      (∀ v ∈ vs, v.Fits ∧ v.Plain) ∧ AllRoomy content.length 0 vs := by
  constructor
  · intro h
    rcases h.seen_eq hpage hmap hfit with ⟨hvs, hroomy, hseen⟩
    have hplain := (map_seen_iff vs).1 hseen
    exact ⟨fun v hv => ⟨hvs v hv, hplain v hv⟩, hroomy⟩
  · rintro ⟨hvs, hroomy⟩
    have hfits : ∀ v ∈ vs, v.Fits := fun v hv => (hvs v hv).1
    have hseen : vs.map seen = vs := (map_seen_iff vs).2 fun v hv => (hvs v hv).2
    rcases ahead_of_writeAll hpage hmap hfit hfits hroomy with ⟨written, rest, hwrite, hahead⟩
    rcases readAll_takes hfits _ _ _ hahead with ⟨last, hread, hend⟩
    rw [hseen] at hread
    have hpos := hend.here.pos_eq
    rw [Nat.zero_add] at hpos
    exact ⟨written, last, hwrite, hread, hpos⟩

end roundtrip

/-- A system that moves no mapping, and refuses a range that is not the mapping at 0. -/
def keepsZero : Mremap := fun addr _ _ => if addr = 0 then some 0 else none

theorem keepsZero_remaps (len : ℤ) : Remaps keepsZero 0 len where
  same := rfl
  outside addr _ h := if_neg (by omega)

/-- A double at the front, and values of other sizes behind it. -/
def mixedValues : List StreamValue :=
  [.typed (.double 0), .typed (.char 200), .typed (.chars [0, 1]), .typed (.long (-1))]

theorem mixedValues_mapsBack :
    MapsBack keepsZero 4096 (new 0 (List.replicate 4096 0)) mixedValues := by
  have hfit : (mixedValues.flatMap bytes).length ≤ (List.replicate 4096 (0 : UInt8)).length := by
    rw [List.length_replicate]
    decide
  apply (mapsBack_iff (dvd_refl 4096) (keepsZero_remaps _) hfit).2
  refine ⟨?_, fun _ => Or.inl rfl, nofun, nofun, nofun, trivial⟩
  have htext : [0, 1].length < 2 ^ 31 := by decide
  simp only [mixedValues, List.forall_mem_cons]
  exact ⟨⟨trivial, rfl⟩, ⟨trivial, trivial⟩, ⟨htext, trivial⟩, ⟨trivial, trivial⟩, nofun⟩

/-- A double of which the lowest byte is one comes back as the number one. -/
theorem not_mapsBack : ¬ ∀ (mremap : Mremap) (psize : ℕ) (start : ℤ) (content : List UInt8)
    (vs : List StreamValue), 4096 ∣ psize → Remaps mremap start content.length →
      (vs.flatMap bytes).length ≤ content.length →
        MapsBack mremap psize (new start content) vs := by
  intro h
  have hfit : (([.typed (.double 1)] : List StreamValue).flatMap bytes).length ≤
      (List.replicate 4096 (0 : UInt8)).length := by
    rw [List.length_replicate]
    decide
  have hback := h keepsZero 4096 0 (List.replicate 4096 0) _ (dvd_refl 4096)
    (keepsZero_remaps _) hfit
  have hseen := (hback.seen_eq (dvd_refl 4096) (keepsZero_remaps _) hfit).2.2
  have hzero : (1 : UInt64) = 0 := (map_seen_iff _).1 hseen _ List.mem_cons_self
  exact absurd hzero (by decide)

end StreamValue
end Djondb
