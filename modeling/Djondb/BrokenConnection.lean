import Djondb.NetworkInputStream

set_option autoImplicit false

/-!
# Connections that break

What a reader makes of the beginning of its bytes: it runs into an assertion, or it goes on with
zeros from the closed stream. Only behind the length of the version the zeros are refused.
-/
namespace Djondb
open Bytes

namespace NetworkInputStream

section rules
variable {α β : Type} {r : NetReader α} {f : α → NetReader β} {s s' : NetworkInputStream}
variable {bs cs : List UInt8} {a : α} {b : β} {n m : ℕ} {P : α → Prop} {Q : β → Prop} {e : Stop}

theorem bind_ok (h : r s = .ok (a, s')) (f : α → NetReader β) : (r >>= f) s = f a s' := by
  change (r s).bind (fun p => f p.1 p.2) = _
  rw [h]
  rfl

theorem bind_error (h : r s = .error e) (f : α → NetReader β) : (r >>= f) s = .error e := by
  change (r s).bind (fun p => f p.1 p.2) = _
  rw [h]
  rfl

/-- The read fails an assertion, or it goes on with such a value from the closed stream. -/
def Breaks (r : NetReader α) (s : NetworkInputStream) (P : α → Prop) : Prop :=
  r s = .error .assertion ∨ ∃ a s', r s = .ok (a, s') ∧ P a ∧ s'.Dead

/-- The read fails an assertion on a closed stream, or it does without a byte. -/
def Late (r : NetReader α) (P : α → Prop) : Prop := ∀ s, s.Dead → Breaks r s P

/-- The read needs a byte. -/
def Needs (r : NetReader α) : Prop := ∀ s, s.Dead → r s = .error .assertion

/-- On streams with less than `n` bytes the read takes these bytes for this value, and where they
end too early it breaks. -/
structure Carries (n : ℕ) (r : NetReader α) (bs : List UInt8) (a : α) (P : α → Prop) : Prop where
  whole : ∀ s rest, s.isOpen = true → s.bytes = bs ++ rest → s.bytes.length < n →
    ∃ s', r s = .ok (a, s') ∧ s'.isOpen = true ∧ s'.bytes = rest
  cut : ∀ s, s.isOpen = true → s.bytes <+: bs → s.bytes ≠ bs → s.bytes.length < n → Breaks r s P

theorem Needs.late (h : Needs r) (P : α → Prop) : Late r P := fun s hs => Or.inl (h s hs)

theorem Needs.bind (h : Needs r) (f : α → NetReader β) : Needs (r >>= f) :=
  fun s hs => bind_error (h s hs) f

theorem Needs.map (h : Needs r) (f : α → β) : Needs (f <$> r) := by
  rw [← bind_pure_comp]
  exact h.bind _

theorem late_pure (a : α) (h : P a) : Late (pure a) P := fun s hs => Or.inr ⟨a, s, rfl, h, hs⟩

theorem Breaks.bind (h : Breaks r s P) (hlate : ∀ a, P a → Late (f a) Q) :
    Breaks (r >>= f) s Q := by
  rcases h with h | ⟨a, s', hr, ha, hs'⟩
  · exact Or.inl (bind_error h f)
  · rcases hlate a ha s' hs' with hf | ⟨b, s2, hf, hb, hs2⟩
    · left
      rw [bind_ok hr, hf]
    · right
      refine ⟨b, s2, ?_, hb, hs2⟩
      rw [bind_ok hr, hf]

theorem Carries.pure (a : α) (P : α → Prop) : Carries n (Pure.pure a) [] a P := by
  constructor
  · exact fun s _ hopen hbytes _ => ⟨s, rfl, hopen, hbytes⟩
  · exact fun _ _ hstart hne _ => absurd (List.prefix_nil.1 hstart) hne

/-- A cut is in the bytes of the first read, or the first one is done. -/
theorem Carries.bind (h : Carries n r bs a P) (hf : Carries m (f a) cs b Q)
    (hnm : n ≤ m + bs.length) (hlate : 0 < n → ∀ a, P a → Late (f a) Q) :
    Carries n (r >>= f) (bs ++ cs) b Q where
  whole s rest hopen hbytes hlen := by
    rw [List.append_assoc] at hbytes
    rcases h.whole s (cs ++ rest) hopen hbytes hlen with ⟨s1, hr, hopen1, hbytes1⟩
    have hlen1 : s1.bytes.length < m := by
      rw [hbytes, List.length_append] at hlen
      rw [hbytes1]
      omega
    rcases hf.whole s1 rest hopen1 hbytes1 hlen1 with ⟨s2, hf2, hs2⟩
    refine ⟨s2, ?_, hs2⟩
    rw [bind_ok hr, hf2]
  cut s hopen hstart hne hlen := by
    have hfirst : bs <+: bs ++ cs := List.prefix_append bs cs
    by_cases hbs : s.bytes <+: bs ∧ s.bytes ≠ bs
    · exact (h.cut s hopen hbs.1 hbs.2 hlen).bind (hlate (by omega))
    · have hle : bs <+: s.bytes := by
        rcases List.prefix_or_prefix_of_prefix hstart hfirst with hs | hs
        · by_cases heq : s.bytes = bs
          · exact heq ▸ List.prefix_refl bs
          · exact absurd ⟨hs, heq⟩ hbs
        · exact hs
      rcases hle with ⟨rest, hrest⟩
      rcases h.whole s rest hopen hrest.symm hlen with ⟨s1, hr, hopen1, hbytes1⟩
      rw [← hrest] at hstart hne hlen
      have hstart1 : s1.bytes <+: cs := by
        rw [hbytes1]
        exact (List.prefix_append_right_inj bs).1 hstart
      have hne1 : s1.bytes ≠ cs := by
        rw [hbytes1]
        exact fun heq => hne (congrArg (bs ++ ·) heq)
      have hlen1 : s1.bytes.length < m := by
        rw [List.length_append] at hlen
        rw [hbytes1]
        omega
      have hbreaks := hf.cut s1 hopen1 hstart1 hne1 hlen1
      unfold Breaks
      rw [bind_ok hr]
      exact hbreaks

theorem Carries.map (h : Carries n r bs a P) (g : α → β) (hg : ∀ a, P a → Q (g a)) :
    Carries n (g <$> r) bs (g a) Q := by
  rw [← bind_pure_comp, ← List.append_nil bs]
  have hpure : Carries n (Pure.pure (g a) : NetReader β) [] (g a) Q := Carries.pure _ _
  exact h.bind hpure (Nat.le_add_right n _) fun _ a ha => late_pure (g a) (hg a ha)

theorem Carries.weaken (h : Carries n r bs a P) {R : α → Prop} (hR : ∀ a, P a → R a) :
    Carries n r bs a R where
  whole := h.whole
  cut s hopen hstart hne hlen := by
    rcases h.cut s hopen hstart hne hlen with hs | ⟨a, s1, hr, ha, hdead⟩
    · exact Or.inl hs
    · exact Or.inr ⟨a, s1, hr, hR a ha, hdead⟩

end rules

/-! ## Bytes, words and strings -/

section primitives
variable {s : NetworkInputStream} {k n : ℕ} {bs : List UInt8}

theorem readBufferData_whole (hopen : s.isOpen = true) (hne : s.bytes ≠ [])
    (hlen : k ≤ s.bytes.length) : ∃ s', readBufferData k s = .ok (some (s.bytes.take k), s') ∧
      s'.isOpen = true ∧ s'.bytes = s.bytes.drop k := by
  rcases checkStatus_open hopen hne with ⟨s1, hstatus, hopen1, hbytes1⟩
  rw [← hbytes1] at hlen ⊢
  rcases readLoop_whole (le_refl k) hopen1 hlen with ⟨s2, hloop, hs2⟩
  refine ⟨s2, ?_, hs2⟩
  unfold readBufferData
  rw [hstatus]
  change ((readLoop k k s1).bind fun p => .ok (some p.1, p.2)) = _
  rw [hloop]
  rfl

theorem readBufferData_short (hopen : s.isOpen = true) (hne : s.bytes ≠ [])
    (hlen : s.bytes.length < k) : readBufferData k s = .error .assertion := by
  rcases checkStatus_open hopen hne with ⟨s1, hstatus, hopen1, hbytes1⟩
  rw [← hbytes1] at hlen
  unfold readBufferData
  rw [hstatus]
  change ((readLoop k k s1).bind fun p => .ok (some p.1, p.2)) = _
  rw [readLoop_short (le_refl k) hopen1 hlen]
  rfl

theorem readBufferData_end (hopen : s.isOpen = true) (hnil : s.bytes = []) :
    ∃ s', readBufferData k s = .ok (none, s') ∧ s'.Dead := by
  rcases checkStatus_end hopen hnil with ⟨s1, hstatus, hdead⟩
  refine ⟨s1, ?_, hdead⟩
  unfold readBufferData
  rw [hstatus]
  rfl

theorem readBufferData_needs (hk : 0 < k) : Needs (readBufferData k) := by
  intro s hs
  have hclosed : ¬ s.isOpen = true := ne_true_of_eq_false hs.1
  unfold readBufferData checkStatus
  rw [if_neg hclosed]
  change ((readLoop k k s).bind fun p => .ok (some p.1, p.2)) = _
  rw [readLoop_dead hk (le_refl k) hs]
  rfl

theorem readBufferData_carries (hne : bs ≠ []) :
    Carries n (readBufferData bs.length) bs (some bs) (· = none) where
  whole s rest hopen hbytes _ := by
    have hbytes_ne : s.bytes ≠ [] := by
      rw [hbytes]
      exact List.append_ne_nil_of_left_ne_nil hne rest
    have hlen : bs.length ≤ s.bytes.length := by
      rw [hbytes, List.length_append]
      omega
    rcases readBufferData_whole hopen hbytes_ne hlen with ⟨s1, hread, hopen1, hbytes1⟩
    rw [hbytes, List.take_left] at hread
    rw [hbytes, List.drop_left] at hbytes1
    exact ⟨s1, hread, hopen1, hbytes1⟩
  cut s hopen hstart hcut _ := by
    by_cases hnil : s.bytes = []
    · rcases readBufferData_end hopen hnil with ⟨s1, hread, hdead⟩
      exact Or.inr ⟨none, s1, hread, rfl, hdead⟩
    · have hlen : s.bytes.length < bs.length :=
        lt_of_le_of_ne hstart.length_le fun heq => hcut (hstart.eq_of_length heq)
      exact Or.inl (readBufferData_short hopen hnil hlen)

theorem readCharsOf_carries (hne : bs ≠ []) :
    Carries n (readCharsOf bs.length) bs bs (· = List.replicate bs.length 0) := by
  have h := (readBufferData_carries (n := n) hne).map
    (Q := (· = List.replicate bs.length 0))
    (fun data => data.getD (List.replicate bs.length 0)) (fun data hdata => by
      rw [hdata]
      rfl)
  rw [← bind_pure_comp] at h
  exact h

theorem readCharsOf_needs (hk : 0 < k) : Needs (readCharsOf k) := (readBufferData_needs hk).bind _

theorem leDecode_replicate (k : ℕ) : leDecode (List.replicate k 0) = 0 := by
  induction k with
  | zero => rfl
  | succ k ih =>
    rw [List.replicate_succ, leDecode, ih]
    rfl

theorem readData_carries {w : ℕ} {v : ℤ} (hw : 0 < w) (h : Word w v) :
    Carries n (readData w) (encodeWord w v) v (· = 0) := by
  have hlen : (encodeWord w v).length = w := encodeWord_length w v
  have hne : encodeWord w v ≠ [] := List.ne_nil_of_length_pos (by omega)
  have hzero : decodeWord w (List.replicate w 0) = 0 := by
    unfold decodeWord
    rw [leDecode_replicate]
    exact Int.zero_bmod
  have hchars := readCharsOf_carries (n := n) hne
  rw [hlen] at hchars
  have hdata := hchars.map (Q := (· = 0)) (decodeWord w) (fun data hdata => by rw [hdata, hzero])
  rw [decodeWord_encodeWord h] at hdata
  exact hdata

theorem readData_needs {w : ℕ} (hw : 0 < w) : Needs (readData w) := (readCharsOf_needs hw).map _

theorem readInt_carries {v : ℤ} (h : Word 4 v) : Carries n readInt (writeInt v) v (· = 0) :=
  readData_carries (by decide) h

theorem readLong_carries {v : ℤ} (h : Word 8 v) : Carries n readLong (writeLong v) v (· = 0) :=
  readData_carries (by decide) h

theorem readInt_needs : Needs readInt := readData_needs (by decide)
theorem readLong_needs : Needs readLong := readData_needs (by decide)

theorem readBoolean_carries (v : Bool) :
    Carries n readBoolean (writeBoolean v) v (fun _ => True) := by
  cases v with
  | false =>
    have h : Word 1 0 := by decide
    exact (readData_carries (by decide) h).map _ fun _ _ => trivial
  | true =>
    have h : Word 1 1 := by decide
    exact (readData_carries (by decide) h).map _ fun _ _ => trivial

theorem readDoubleIEEE_carries (d bits : UInt64) :
    Carries n (readDoubleIEEE d) (writeDoubleIEEE bits) bits (fun _ => True) := by
  have hlen : (writeDoubleIEEE bits).length = 8 := leEncode_length 8 _
  have hne : writeDoubleIEEE bits ≠ [] := List.ne_nil_of_length_pos (by omega)
  have hv : UInt64.ofNat (leDecode (writeDoubleIEEE bits)) = bits := by
    have hlt : bits.toNat < 256 ^ 8 := UInt64.toNat_lt bits
    rw [writeDoubleIEEE, leDecode_leEncode, Nat.mod_eq_of_lt hlt]
    exact UInt64.ofNat_toNat
  have hdata := readBufferData_carries (n := n) hne
  rw [hlen] at hdata
  have h := hdata.map (Q := fun _ => True)
    (fun data => (data.map fun bs => UInt64.ofNat (leDecode bs)).getD d) fun _ _ => trivial
  change Carries n _ _ (UInt64.ofNat (leDecode (writeDoubleIEEE bits))) _ at h
  rw [hv] at h
  exact h

theorem readChars_carries {text : List UInt8} (h : text.length < 2 ^ 31) :
    Carries n readChars (writeChars text) text (fun _ => True) := by
  have hrest : Carries n (if (0 : ℤ) < (text.length : ℤ) then readCharsOf (text.length : ℤ).toNat
      else pure []) text text (fun _ => True) := by
    rw [Int.toNat_natCast]
    cases text with
    | nil => exact Carries.pure _ _
    | cons b text =>
      rw [if_pos (by simp)]
      exact (readCharsOf_carries (List.cons_ne_nil b text)).weaken fun _ _ => trivial
  apply (readInt_carries (word_four_natCast h)).bind hrest (Nat.le_add_right n _)
  intro _ a ha
  rw [ha, if_neg (lt_irrefl 0)]
  exact late_pure [] trivial

theorem readString_carries {v : CString} (h : v.length < 2 ^ 31) :
    Carries n readString (writeString v) v (fun _ => True) := by
  have hread := (readChars_carries (n := n) h).map (Q := fun _ => True) CString.ofBytes
    fun _ _ => trivial
  rw [CString.ofBytes_bytes] at hread
  exact hread

theorem readString_needs : Needs readString := (readInt_needs.bind _).map _

end primitives

/-! ## Documents -/

section documents
variable {n : ℕ}

/-- `inner` takes the documents from streams with less than `n` bytes. -/
structure CarriesBelow (inner : NetReader BSONObj) (n : ℕ) : Prop where
  carries : ∀ o : BSONObj, o.length < 2 ^ 31 → o.fieldsWf = true →
    Carries n inner (writeLong o.length ++ o.writeFields) o (fun _ => True)
  needs : 0 < n → Needs inner

theorem guard_carries {α : Type} {k : ℕ} (hk : k < 2 ^ 31) {r : ℕ → NetReader α}
    {bs : List UInt8} {a : α} {P : α → Prop} {m : ℕ} (h : Carries m (r k) bs a P)
    (hnm : n ≤ m + 8) (hlate : 0 < n → Late (r 0) P) :
    Carries n (do let elements ← readLong
                  if 2 ^ 31 ≤ elements then fun _ => .error .undefined else r elements.toNat)
      (writeLong k ++ bs) a P := by
  have hrest : Carries m (if (2 : ℤ) ^ 31 ≤ (k : ℤ) then fun _ => .error .undefined
      else r (k : ℤ).toNat) bs a P := by
    rw [if_neg (by omega), Int.toNat_natCast]
    exact h
  apply (readLong_carries (word_eight_natCast hk)).bind hrest
  · rw [writeLong_length]
    exact hnm
  · intro hn v hv
    rw [hv, if_neg (by decide)]
    exact hlate hn

section below
variable {d : UInt64} {inner : NetReader BSONObj} (hin : CarriesBelow inner n)
include hin

theorem readItems_late (hn : 0 < n) (k : ℕ) : Late (readItems inner k) (fun _ => True) := by
  cases k with
  | zero => exact late_pure _ trivial
  | succ k => exact ((hin.needs hn).bind _).late _

theorem readItems_carries (a : BSONArrayObj) (hw : a.itemsWf = true) :
    Carries n (readItems inner a.length) a.writeItems a (fun _ => True) := by
  induction a with
  | empty => exact Carries.pure _ _
  | item o rest ih =>
    simp only [BSONArrayObj.itemsWf, Bool.and_eq_true, decide_eq_true_eq] at hw
    rcases hw with ⟨⟨hl, ho⟩, hr⟩
    have hrest := (ih hr).map (Q := fun _ => True) (BSONArrayObj.item o) fun _ _ => trivial
    rw [← bind_pure_comp] at hrest
    apply (hin.carries o hl ho).bind hrest (Nat.le_add_right n _)
    intro hn o' _ s hs
    exact (readItems_late hin hn rest.length s hs).bind fun a _ => late_pure _ trivial

theorem readContent_carries (key : CString) (acc : BSONObj) (c : BSONContent)
    (hw : c.wf = true) :
    Carries n (readContent d inner key acc (some c.storedType)) c.write (acc.add key c)
      (fun _ => True) := by
  cases c with
  | boolean v => exact (readBoolean_carries v).map _ fun _ _ => trivial
  | int v =>
    have h : Word 4 v.toInt := ⟨Int32.le_toInt v, Int32.toInt_lt v⟩
    have hr := (readInt_carries (n := n) h).map (Q := fun _ => True)
      (fun i => acc.add key (.int (Int32.ofInt i))) fun _ _ => trivial
    rw [Int32.ofInt_toInt] at hr
    exact hr
  | long v =>
    have h : Word 8 v.toInt := ⟨Int64.le_toInt v, Int64.toInt_lt v⟩
    have hr := (readLong_carries (n := n) h).map (Q := fun _ => True)
      (fun l => acc.add key (.long (Int64.ofInt l))) fun _ _ => trivial
    rw [Int64.ofInt_toInt] at hr
    exact hr
  | double bits => exact (readDoubleIEEE_carries d bits).map _ fun _ _ => trivial
  | string s =>
    have h : s.length < 2 ^ 31 := of_decide_eq_true hw
    exact (readString_carries h).map _ fun _ _ => trivial
  | bson o =>
    have hwf : o.length < 2 ^ 31 ∧ o.fieldsWf = true := by simpa [BSONContent.wf] using hw
    exact (hin.carries o hwf.1 hwf.2).map _ fun _ _ => trivial
  | array a =>
    have hwf : a.length < 2 ^ 31 ∧ a.itemsWf = true := by simpa [BSONContent.wf] using hw
    have harray : Carries n (readInnerArray inner) (writeLong a.length ++ a.writeItems) a
        (fun _ => True) :=
      guard_carries hwf.1 (readItems_carries hin a hwf.2) (Nat.le_add_right n 8)
        fun hn => readItems_late hin hn 0
    exact harray.map _ fun _ _ => trivial

omit hin in
theorem readFields_late (k : ℕ) (acc : BSONObj) :
    Late (readFields d inner k acc) (fun _ => True) := by
  cases k with
  | zero => exact late_pure _ trivial
  | succ k => exact (readString_needs.bind _).late _

theorem readFields_carries (o acc : BSONObj) (hw : o.fieldsWf = true) (hb : acc.Before o) :
    Carries n (readFields d inner o.length acc) o.writeFields (acc.append o) (fun _ => True) := by
  induction o generalizing acc with
  | empty =>
    rw [BSONObj.append_empty]
    exact Carries.pure _ _
  | field k c rest ih =>
    rcases BSONObj.fieldsWf_field.1 hw with ⟨hlt, hk, hc, hr⟩
    have hadd : acc.add k c = acc.append (.field k c .empty) :=
      acc.add_last k c fun k' hk' => hb k' hk' k (by simp [BSONObj.keys])
    have hrest := ih (acc.append (.field k c .empty)) hr (BSONObj.before_snoc hb hlt)
    rw [BSONObj.append_assoc, ← hadd] at hrest
    have hcontent : Carries n (do
        let obj ← readContent d inner k acc (BSONTYPE.ofCode c.storedType.code)
        readFields d inner rest.length obj)
        (c.write ++ rest.writeFields) (acc.append (.field k c rest)) (fun _ => True) := by
      rw [BSONTYPE.ofCode_code]
      exact (readContent_carries hin k acc c hc).bind hrest (Nat.le_add_right n _)
        fun _ obj _ => readFields_late rest.length obj
    have htype : Carries n (do
        let type ← readLong
        let obj ← readContent d inner k acc (BSONTYPE.ofCode type)
        readFields d inner rest.length obj)
        (writeLong c.storedType.code ++ (c.write ++ rest.writeFields))
        (acc.append (.field k c rest)) (fun _ => True) := by
      apply (readLong_carries c.storedType.word_code).bind hcontent (Nat.le_add_right n _)
      intro _ type htype
      -- the zeros are the tag of an `int`
      rw [htype]
      exact ((readInt_needs.map _).bind _).late _
    exact (readString_carries hk).bind htype (Nat.le_add_right n _)
      fun _ key _ => (readLong_needs.bind _).late _

end below

theorem readObj_below (d : UInt64) (fuel : ℕ) : CarriesBelow (readObj d fuel) fuel := by
  induction fuel with
  | zero =>
    constructor
    · intro o _ _
      constructor
      · exact fun _ _ _ _ hlen => absurd hlen (Nat.not_lt_zero _)
      · exact fun _ _ _ _ hlen => absurd hlen (Nat.not_lt_zero _)
    · exact fun h => absurd h (lt_irrefl 0)
  | succ fuel ih =>
    constructor
    · intro o hl hw
      have hempty : BSONObj.Before .empty o := fun k hk => nomatch hk
      have hfields := readFields_carries (d := d) ih o .empty hw hempty
      exact guard_carries (r := fun k => readFields d (readObj d fuel) k .empty) hl hfields
        (by omega) fun _ => readFields_late 0 .empty
    · exact fun _ => readLong_needs.bind _

theorem readBSON_needs (d : UInt64) : Needs (readBSON d) := fun s hs =>
  (readObj_below d (s.bytes.length + 1)).needs (Nat.succ_pos _) s hs

theorem readBSON_carries (d : UInt64) {o : BSONObj} (h : o.wf = true) :
    Carries n (readBSON d) (writeBSON o) o (fun _ => True) := by
  simp only [BSONObj.wf, Bool.and_eq_true, decide_eq_true_eq] at h
  constructor
  · intro s rest hopen hbytes _
    exact ((readObj_below d (s.bytes.length + 1)).carries o h.1 h.2).whole s rest hopen hbytes
      (Nat.lt_succ_self _)
  · intro s hopen hstart hne _
    exact ((readObj_below d (s.bytes.length + 1)).carries o h.1 h.2).cut s hopen hstart hne
      (Nat.lt_succ_self _)

end documents

/-! ## Commands -/

section commands
variable {n : ℕ} {s : NetworkInputStream} (d : UInt64)

theorem parseFields_late (t : COMMANDTYPE) :
    Late (parseFields d (some t)) (fun _ => True) := by
  cases t with
  | INSERT => exact (readString_needs.bind _).late _
  | UPDATE => exact (readString_needs.bind _).late _
  | FIND => exact (readString_needs.bind _).late _
  | CLOSECONNECTION => exact late_pure _ trivial
  | DROPNAMESPACE => exact (readString_needs.bind _).late _
  | SHUTDOWN => exact late_pure _ trivial
  | SHOWDBS => exact late_pure _ trivial
  | SHOWNAMESPACES => exact (readString_needs.bind _).late _
  | REMOVE => exact (readString_needs.bind _).late _
  | COMMIT => exact (readString_needs.bind _).late _
  | ROLLBACK => exact (readString_needs.bind _).late _

/-- The next string of a command, and then the others. -/
theorem string_carries {α : Type} {v : CString} (hv : v.length < 2 ^ 31)
    {f : CString → NetReader α} {bs : List UInt8} {a : α}
    (hf : Carries n (f v) bs a (fun _ => True)) (hlate : ∀ v, Late (f v) (fun _ => True)) :
    Carries n (readString >>= f) (writeString v ++ bs) a (fun _ => True) :=
  (readString_carries hv).bind hf (Nat.le_add_right n _) fun _ v _ => hlate v

/-- The last string of a command. -/
theorem lastString_carries {α : Type} {v : CString} (hv : v.length < 2 ^ 31) (f : CString → α) :
    Carries n (do let v ← readString; pure (f v)) (writeString v) (f v) (fun _ => True) := by
  rw [bind_pure_comp]
  exact (readString_carries hv).map f fun _ _ => trivial

/-- The document at the end of a command. -/
theorem lastBSON_carries {α : Type} {o : BSONObj} (ho : o.wf = true) (f : BSONObj → α) :
    Carries n (do let o ← readBSON d; pure (f o)) (writeBSON o) (f o) (fun _ => True) := by
  rw [bind_pure_comp]
  exact (readBSON_carries d ho).map f fun _ _ => trivial

theorem fields_carries (fields : CommandFields) (h : fields.fits = true) :
    Carries n (parseFields d (some fields.commandType)) fields.writeCommand fields.received
      (fun _ => True) := by
  have hstring {α : Type} (f : CString → NetReader α) : Late (readString >>= f) (fun _ => True) :=
    (readString_needs.bind f).late _
  have hbson {α : Type} (f : BSONObj → NetReader α) : Late (readBSON d >>= f) (fun _ => True) :=
    ((readBSON_needs d).bind f).late _
  cases fields with
  | insert db ns bson =>
    simp only [CommandFields.fits, Bool.and_eq_true, decide_eq_true_eq] at h
    apply string_carries h.1.1 _ fun _ => hstring _
    apply string_carries h.1.2 _ fun _ => hbson _
    exact lastBSON_carries d h.2 _
  | update db ns bson =>
    simp only [CommandFields.fits, Bool.and_eq_true, decide_eq_true_eq] at h
    apply string_carries h.1.1 _ fun _ => hstring _
    apply string_carries h.1.2 _ fun _ => hbson _
    exact lastBSON_carries d h.2 _
  | find db ns filter select =>
    simp only [CommandFields.fits, Bool.and_eq_true, decide_eq_true_eq] at h
    apply string_carries h.1.1.1 _ fun _ => hstring _
    apply string_carries h.1.1.2 _ fun _ => hstring _
    apply string_carries h.1.2 _ fun _ => hstring _
    exact lastString_carries h.2 _
  | close => exact Carries.pure _ _
  | dropnamespace db ns =>
    simp only [CommandFields.fits, Bool.and_eq_true, decide_eq_true_eq] at h
    apply string_carries h.1 _ fun _ => hstring _
    exact lastString_carries h.2 _
  | shutdown => exact Carries.pure _ _
  | showdbs => exact Carries.pure _ _
  | shownamespaces db => exact lastString_carries (of_decide_eq_true h) _
  | remove db ns id revision =>
    simp only [CommandFields.fits, Bool.and_eq_true, decide_eq_true_eq] at h
    apply string_carries h.1.1.1 _ fun _ => hstring _
    apply string_carries h.1.1.2 _ fun _ => hstring _
    apply string_carries h.1.2 _ fun _ => hstring _
    exact lastString_carries h.2 _
  | commit transactionId => exact lastString_carries (of_decide_eq_true h) _
  | rollback transactionId => exact lastString_carries (of_decide_eq_true h) _

/-- What stands behind the version. -/
def body (cmd : Command) : List UInt8 :=
  writeInt cmd.fields.commandType.code ++
    (writeBSON (cmd.options.getD .empty) ++ cmd.fields.writeCommand)

/-- Where a command is cut behind the version the read fails an assertion or has a command. -/
theorem body_carries (cmd : WireCommand) :
    Carries n (do
      let type ← readInt
      let options ← readOptions d ⟨0, 3, 0⟩
      let fields ← parseFields d (COMMANDTYPE.ofCode type)
      pure (Command.mk fields (some options))) (body cmd.command) cmd.command.received
      (fun _ => True) := by
  have hfits := cmd.fits
  rw [Bool.and_eq_true] at hfits
  have hoptions : readOptions d ⟨0, 3, 0⟩ = readBSON d := if_pos (by decide)
  have hfields : Carries n (do
      let fields ← parseFields d (COMMANDTYPE.ofCode cmd.command.fields.commandType.code)
      pure (Command.mk fields (some (cmd.command.options.getD .empty))))
      cmd.command.fields.writeCommand cmd.command.received (fun _ => True) := by
    rw [COMMANDTYPE.ofCode_code, bind_pure_comp]
    exact (fields_carries d _ hfits.1).map _ fun _ _ => trivial
  have hrest : Carries n (do
      let options ← readBSON d
      let fields ← parseFields d (COMMANDTYPE.ofCode cmd.command.fields.commandType.code)
      pure (Command.mk fields (some options)))
      (writeBSON (cmd.command.options.getD .empty) ++ cmd.command.fields.writeCommand)
      cmd.command.received (fun _ => True) := by
    apply (readBSON_carries d hfits.2).bind hfields (Nat.le_add_right n _)
    intro _ options _ s hs
    rw [COMMANDTYPE.ofCode_code]
    exact (parseFields_late d _ s hs).bind fun fields _ => late_pure _ trivial
  rw [hoptions]
  exact (readInt_carries (COMMANDTYPE.word_code _)).bind hrest (Nat.le_add_right n _)
    fun _ type _ => ((readBSON_needs d).bind _).late _

theorem readOpen_of_version {s s' : NetworkInputStream} {v : CString} {version : Version}
    (h : readString s = .ok (v, s')) (hv : Version.parse v = some version) :
    readOpen d s = (do
      let type ← readInt
      let options ← readOptions d version
      let fields ← parseFields d (COMMANDTYPE.ofCode type)
      pure (Command.mk fields (some options))) s' := by
  unfold readOpen
  rw [bind_ok h, hv]

/-- A command arrives, and the stream stops behind it. -/
theorem readCommand_whole (cmd : WireCommand) {rest : List UInt8} (hopen : s.isOpen = true)
    (hbytes : s.bytes = writeCommand cmd.command ++ rest) :
    ∃ s', readCommand d s = .ok (some cmd.command.received, s') ∧ s'.isOpen = true ∧
      s'.bytes = rest := by
  have hversion : protocolVersion.length < 2 ^ 31 := by decide
  have hne : s.bytes ≠ [] := by
    rw [hbytes]
    exact List.cons_ne_nil _ _
  rcases checkStatus_open hopen hne with ⟨s1, hstatus, hopen1, hbytes1⟩
  have hsplit : s1.bytes = writeString protocolVersion ++ (body cmd.command ++ rest) := by
    rw [hbytes1, hbytes, ← List.append_assoc]
    rfl
  rcases (readString_carries hversion).whole s1 _ hopen1 hsplit (Nat.lt_succ_self _) with
    ⟨s2, hread, hopen2, hbytes2⟩
  rcases (body_carries d cmd).whole s2 rest hopen2 hbytes2 (Nat.lt_succ_self _) with
    ⟨s3, hbody, hs3⟩
  refine ⟨s3, ?_, hs3⟩
  unfold readCommand isClosed
  rw [hstatus]
  dsimp only
  rw [hopen1]
  change ((readOpen d s1).bind fun p => .ok (some p.1, p.2)) = _
  rw [readOpen_of_version d hread parse_protocolVersion, hbody]
  rfl

/-! ## Cuts -/

/-- Behind the length of the version there is no version, and before there is no length. -/
theorem readOpen_cut (cmd : WireCommand) (hopen : s.isOpen = true)
    (hstart : s.bytes <+: writeCommand cmd.command) (hne : s.bytes ≠ writeCommand cmd.command)
    (hnil : s.bytes ≠ []) :
    if s.bytes.length = 4 then readOpen d s = .error .exception
    else Breaks (readOpen d) s (fun _ => True) := by
  have hword : Word 4 5 := by decide
  have hversion : protocolVersion.length < 2 ^ 31 := by decide
  have hwrite : writeCommand cmd.command = writeString protocolVersion ++ body cmd.command := rfl
  have hint : writeInt 5 <+: writeCommand cmd.command := ⟨_, rfl⟩
  have hassertion (h : readString s = .error .assertion) :
      Breaks (readOpen d) s (fun _ => True) := Or.inl (bind_error h _)
  by_cases hshort : s.bytes.length < 4
  · rw [if_neg (by omega)]
    apply hassertion
    have hbuffer := readBufferData_short hopen hnil hshort
    have hchars : readChars s = .error .assertion := by
      apply bind_error
      unfold readInt readData
      rw [← bind_pure_comp]
      exact bind_error (bind_error hbuffer _) _
    unfold readString
    rw [← bind_pure_comp]
    exact bind_error hchars _
  · rcases List.prefix_of_prefix_length_le hint hstart (by rw [writeInt_length]; omega) with
      ⟨rest, hrest⟩
    have hlen : s.bytes.length = 4 + rest.length := by
      rw [← hrest, List.length_append, writeInt_length]
    rcases (readInt_carries hword).whole s rest hopen hrest.symm (Nat.lt_succ_self _) with
      ⟨s1, hread, hopen1, hbytes1⟩
    have hchars : readChars s = readCharsOf 5 s1 := bind_ok hread _
    by_cases hend : rest = []
    · -- the zeros of the version are no version
      have hfour : s.bytes.length = 4 := by
        rw [hlen, hend]
        rfl
      rw [hend] at hbytes1
      rw [if_pos hfour]
      rcases readBufferData_end (k := 5) hopen1 hbytes1 with ⟨s2, hbuffer, -⟩
      have hzeros : readCharsOf 5 s1 = .ok (List.replicate 5 0, s2) := bind_ok hbuffer _
      have hstring : readString s = .ok (CString.ofBytes (List.replicate 5 0), s2) := by
        unfold readString
        rw [← bind_pure_comp, bind_ok (hchars.trans hzeros)]
        rfl
      unfold readOpen
      rw [bind_ok hstring]
      rfl
    · have hpos := List.length_pos_iff.2 hend
      rw [if_neg (by omega)]
      by_cases hfive : rest.length < 5
      · apply hassertion
        rw [← hbytes1] at hfive hend
        have hbuffer := readBufferData_short hopen1 hend hfive
        unfold readString
        rw [← bind_pure_comp]
        apply bind_error
        rw [hchars]
        exact bind_error hbuffer _
      · have hstring : writeString protocolVersion <+: s.bytes := by
          rw [hwrite] at hstart
          apply List.prefix_of_prefix_length_le (List.prefix_append _ _) hstart
          rw [hlen]
          change 9 ≤ _
          omega
        rcases hstring with ⟨behind, hbehind⟩
        rcases (readString_carries hversion).whole s behind hopen hbehind.symm
          (Nat.lt_succ_self _) with ⟨s2, hread2, hopen2, hbytes2⟩
        rw [← hbehind, hwrite] at hstart hne
        have hstart2 : s2.bytes <+: body cmd.command := by
          rw [hbytes2]
          exact (List.prefix_append_right_inj _).1 hstart
        have hne2 : s2.bytes ≠ body cmd.command := by
          rw [hbytes2]
          exact fun heq => hne (congrArg (writeString protocolVersion ++ ·) heq)
        unfold Breaks
        rw [readOpen_of_version d hread2 parse_protocolVersion]
        exact (body_carries d cmd).cut s2 hopen2 hstart2 hne2 (Nat.lt_succ_self _)

/-- The request is no command, fails no assertion and leaves the store and the log as they are,
whatever commands make of them. -/
def NoCommand (s : NetworkInputStream) : Prop :=
  (∀ cmd s', readCommand d s ≠ .ok (some cmd, s')) ∧ readCommand d s ≠ .error .assertion ∧
    ∀ (σ : Type) (execute : Command → σ → σ) (store : σ), executeRequest d execute s store = store

theorem noCommand_of {s : NetworkInputStream}
    (h : ∀ cmd s', readCommand d s ≠ .ok (some cmd, s'))
    (hassertion : readCommand d s ≠ .error .assertion) : NoCommand d s := by
  refine ⟨h, hassertion, fun σ execute store => ?_⟩
  unfold executeRequest
  split
  · rename_i hcmd
    exact absurd hcmd (h _ _)
  · rfl

/-- A connection that breaks in a command brings no command if and only if it breaks before the first
byte or right behind the length of the version. -/
theorem noCommand_iff (cmd : WireCommand) (hopen : s.isOpen = true)
    (hstart : s.bytes <+: writeCommand cmd.command)
    (hne : s.bytes ≠ writeCommand cmd.command) :
    NoCommand d s ↔ s.bytes.length = 0 ∨ s.bytes.length = 4 := by
  by_cases hnil : s.bytes = []
  · have hread : ∃ s', readCommand d s = .ok (none, s') := by
      rcases checkStatus_end hopen hnil with ⟨s1, hstatus, hdead⟩
      refine ⟨s1, ?_⟩
      unfold readCommand isClosed
      rw [hstatus]
      dsimp only
      rw [hdead.1]
      rfl
    rcases hread with ⟨s1, hread⟩
    constructor
    · exact fun _ => Or.inl (congrArg List.length hnil)
    · intro _
      apply noCommand_of
      · rw [hread]
        exact nofun
      · rw [hread]
        exact nofun
  · have hpos := List.length_pos_iff.2 hnil
    rcases checkStatus_open hopen hnil with ⟨s1, hstatus, hopen1, hbytes1⟩
    have hread : readCommand d s = (readOpen d s1).bind fun p => .ok (some p.1, p.2) := by
      unfold readCommand isClosed
      rw [hstatus]
      dsimp only
      rw [hopen1]
      rfl
    rw [← hbytes1] at hstart hne hnil
    have hcut := readOpen_cut d cmd hopen1 hstart hne hnil
    rw [hbytes1] at hcut
    split_ifs at hcut with hfour
    · constructor
      · exact fun _ => Or.inr hfour
      · intro _
        rw [hcut] at hread
        apply noCommand_of
        · rw [hread]
          exact nofun
        · rw [hread]
          exact nofun
    · constructor
      · intro h
        exfalso
        rcases hcut with hcut | ⟨a, s2, hcut, -, -⟩
        · rw [hcut] at hread
          exact h.2.1 hread
        · rw [hcut] at hread
          exact h.1 a s2 hread
      · intro h
        omega

/-- The removal of the document `i` with the revision `r` from `d` and `n`. -/
def removeRevision : WireCommand :=
  ⟨⟨.remove ⟨[100], by decide⟩ ⟨[110], by decide⟩ ⟨[105], by decide⟩ ⟨[114], by decide⟩, none⟩,
    by decide⟩

/-- The first bytes of a command in one piece, and then the peer closes the connection. -/
def brokenAt (sent : List UInt8) (h : sent ≠ [] ∧ sent.length ≤ STREAM_BUFFER_SIZE) :
    NetworkInputStream :=
  ⟨[], [⟨sent, h.1, h.2⟩], true⟩

theorem noCommand_four : NoCommand 0 (brokenAt [5, 0, 0, 0] (by decide)) ↔
    (brokenAt [5, 0, 0, 0] (by decide)).bytes.length = 0 ∨
      (brokenAt [5, 0, 0, 0] (by decide)).bytes.length = 4 :=
  noCommand_iff 0 removeRevision rfl ⟨_, rfl⟩ (by decide +kernel)

/-- The removal up to its revision. -/
def unrevised : NetworkInputStream :=
  brokenAt ((writeCommand removeRevision.command).take 36) (by decide +kernel)

/-- The removal is executed without its revision. -/
theorem not_noCommand : ¬ ∀ (d : UInt64) (cmd : WireCommand) (s : NetworkInputStream),
    s.isOpen = true → s.bytes <+: writeCommand cmd.command →
      s.bytes ≠ writeCommand cmd.command → NoCommand d s := by
  intro h
  have hstart : unrevised.bytes <+: writeCommand removeRevision.command := by
    change _ ++ [] <+: _
    rw [List.append_nil]
    exact List.take_prefix 36 _
  have hstore := (h 0 removeRevision unrevised rfl hstart (by decide +kernel)).2.2
    (List Command) List.cons []
  revert hstore
  decide +kernel

end commands

end NetworkInputStream
end Djondb
