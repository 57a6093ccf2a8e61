import Mathlib.Order.WithBot
import Mathlib.Data.List.Nodup
import Mathlib.Data.List.Basic

set_option autoImplicit false

/-!
# Pages of a search tree

A page holds entries from the largest key down; an inner page has one child more than it has
entries. Child `x` owns the keys above entry `x` and up to entry `x - 1`. The intervals owned by
the children are kept as two functions on pages, so that inserting a separator and splitting a
page are equations between lists.
-/
namespace SearchPage

variable {K E ι : Type} (key : E → K)

/-- The children `ps` own the intervals that the separators `es` cut out of `(l, h]`. -/
structure Children (lo : ι → WithBot K) (hi : ι → WithTop K) (es : List E) (ps : List ι)
    (l : WithBot K) (h : WithTop K) : Prop where
  lows : ps.map lo = es.map (fun e => (key e : WithBot K)) ++ [l]
  highs : ps.map hi = h :: es.map (fun e => (key e : WithTop K))

variable {key}
variable {lo : ι → WithBot K} {hi : ι → WithTop K} {es : List E} {ps : List ι}
  {l : WithBot K} {h : WithTop K}

theorem Children.length_eq (hc : Children key lo hi es ps l h) : ps.length = es.length + 1 := by
  simpa using congrArg List.length hc.lows

theorem Children.of_keys {es' : List E} (hc : Children key lo hi es ps l h)
    (heq : es'.map key = es.map key) : Children key lo hi es' ps l h := by
  have hbot := congrArg (List.map ((↑) : K → WithBot K)) heq
  have htop := congrArg (List.map ((↑) : K → WithTop K)) heq
  rw [List.map_map, List.map_map] at hbot htop
  exact ⟨hc.lows.trans (congrArg (· ++ [l]) hbot.symm),
    hc.highs.trans (congrArg (h :: ·) htop.symm)⟩

/-- The two parts of the equations at a child. -/
theorem Children.at_child {A B : List E} {PA PB : List ι} {c : ι}
    (hc : Children key lo hi (A ++ B) (PA ++ c :: PB) l h) (hlen : PA.length = A.length) :
    PA.map lo = A.map (fun e => (key e : WithBot K)) ∧
    lo c :: PB.map lo = B.map (fun e => (key e : WithBot K)) ++ [l] ∧
    PA.map hi ++ [hi c] = h :: A.map (fun e => (key e : WithTop K)) ∧
    PB.map hi = B.map (fun e => (key e : WithTop K)) := by
  have hl := hc.lows
  have hh := hc.highs
  rw [List.map_append, List.map_append, List.append_assoc] at hl
  obtain ⟨hl1, hl2⟩ := List.append_inj hl (by simpa using hlen)
  have hsplit : (PA.map hi ++ [hi c]) ++ PB.map hi =
      (h :: A.map (fun e => (key e : WithTop K))) ++ B.map (fun e => (key e : WithTop K)) := by
    simpa using hh
  obtain ⟨hh1, hh2⟩ := List.append_inj hsplit (by simpa using hlen)
  exact ⟨hl1, hl2, hh1, hh2⟩

theorem Children.of_parts {A B : List E} {PA PB : List ι} {c : ι}
    (hl1 : PA.map lo = A.map (fun e => (key e : WithBot K)))
    (hl2 : lo c :: PB.map lo = B.map (fun e => (key e : WithBot K)) ++ [l])
    (hh1 : PA.map hi ++ [hi c] = h :: A.map (fun e => (key e : WithTop K)))
    (hh2 : PB.map hi = B.map (fun e => (key e : WithTop K))) :
    Children key lo hi (A ++ B) (PA ++ c :: PB) l h := by
  constructor
  · rw [List.map_append, List.map_cons, hl1, hl2, List.map_append, List.append_assoc]
  · rw [List.map_append, List.map_cons, hh2, List.map_append, ← List.cons_append, ← hh1,
      List.append_assoc, List.singleton_append]

/-- Splitting a page at separator `m`: both halves own their part of the interval. -/
theorem Children.split {A B : List E} {PA PB : List ι} {m : E}
    (hc : Children key lo hi (A ++ m :: B) (PA ++ PB) l h) (hlen : PA.length = A.length + 1) :
    Children key lo hi A PA (key m) h ∧ Children key lo hi B PB l (key m) := by
  have hl := hc.lows
  have hh := hc.highs
  have hl' : PA.map lo ++ PB.map lo =
      (A.map (fun e => (key e : WithBot K)) ++ [(key m : WithBot K)]) ++
        (B.map (fun e => (key e : WithBot K)) ++ [l]) := by simpa using hl
  have hh' : PA.map hi ++ PB.map hi =
      (h :: A.map (fun e => (key e : WithTop K))) ++
        ((key m : WithTop K) :: B.map (fun e => (key e : WithTop K))) := by simpa using hh
  obtain ⟨hl1, hl2⟩ := List.append_inj hl' (by simpa using hlen)
  obtain ⟨hh1, hh2⟩ := List.append_inj hh' (by simpa using hlen)
  exact ⟨⟨hl1, hh1⟩, ⟨hl2, hh2⟩⟩

section update
variable [DecidableEq ι]

/-- The intervals after page `p` has kept the keys above `k` and page `r` has taken the rest. -/
def splitLo (lo : ι → WithBot K) (p r : ι) (k : K) : ι → WithBot K :=
  Function.update (Function.update lo r (lo p)) p k

def splitHi (hi : ι → WithTop K) (r : ι) (k : K) : ι → WithTop K :=
  Function.update hi r k

@[simp] theorem splitLo_page {p r : ι} {k : K} : splitLo lo p r k p = k := by simp [splitLo]

@[simp] theorem splitLo_right {p r : ι} {k : K} (h : p ≠ r) : splitLo lo p r k r = lo p := by
  simp [splitLo, h.symm]

theorem splitLo_of_ne {p q r : ι} {k : K} (hp : q ≠ p) (hr : q ≠ r) : splitLo lo p r k q = lo q := by
  simp [splitLo, hp, hr]

@[simp] theorem splitHi_right {r : ι} {k : K} : splitHi hi r k r = k := by simp [splitHi]

theorem splitHi_of_ne {q r : ι} {k : K} (hr : q ≠ r) : splitHi hi r k q = hi q := by simp [splitHi, hr]

theorem map_splitLo_of_notMem {p r : ι} {k : K} (hp : p ∉ ps) (hr : r ∉ ps) :
    ps.map (splitLo lo p r k) = ps.map lo := by
  refine List.map_congr_left fun q hq => ?_
  have hqp : q ≠ p := fun h => hp (h ▸ hq)
  have hqr : q ≠ r := fun h => hr (h ▸ hq)
  simp [splitLo, hqp, hqr]

theorem map_splitHi_of_notMem {r : ι} {k : K} (hr : r ∉ ps) :
    ps.map (splitHi hi r k) = ps.map hi := by
  refine List.map_congr_left fun q hq => ?_
  have hqr : q ≠ r := fun h => hr (h ▸ hq)
  simp [splitHi, hqr]

/-- Linking the new page `r` behind child `p`, with separator `m` between them. -/
theorem Children.insert {A B : List E} {PA PB : List ι} {p r : ι} {m : E}
    (hc : Children key lo hi (A ++ B) (PA ++ p :: PB) l h) (hlen : PA.length = A.length)
    (hnd : (PA ++ p :: PB).Nodup) (hr : r ∉ PA ++ p :: PB) :
    Children key (splitLo lo p r (key m)) (splitHi hi r (key m)) (A ++ m :: B)
      (PA ++ p :: r :: PB) l h := by
  obtain ⟨hl1, hl2, hh1, hh2⟩ := hc.at_child hlen
  obtain ⟨-, hnd2, hnd3⟩ := List.nodup_append.1 hnd
  have hpPA : p ∉ PA := fun hp => hnd3 p hp p (by simp) rfl
  have hpPB : p ∉ PB := (List.nodup_cons.1 hnd2).1
  simp only [List.mem_append, List.mem_cons, not_or] at hr
  obtain ⟨hrPA, hrp, hrPB⟩ := hr
  refine Children.of_parts ?_ ?_ ?_ ?_
  · rw [map_splitLo_of_notMem hpPA hrPA, hl1]
  · rw [List.map_cons, map_splitLo_of_notMem hpPB hrPB]
    simpa [splitLo, hrp] using hl2
  · rw [map_splitHi_of_notMem hrPA]
    simpa [splitHi, Ne.symm hrp] using hh1
  · rw [List.map_cons, map_splitHi_of_notMem hrPB, hh2]
    simp [splitHi]

end update

/-! ## Order -/

variable [LinearOrder K] (key)

def Descending (es : List E) : Prop := es.Pairwise (fun a b => key b < key a)

/-- The first entry with a key below `k`, or the number of entries. -/
def slot (k : K) (es : List E) : ℕ := es.findIdx (fun e => decide (key e < k))

theorem slot_le (k : K) (es : List E) : slot key k es ≤ es.length := List.findIdx_le_length

/-- A page cut at the slot of `k`: entries at or above `k`, then entries below. -/
structure Cut (k : K) (es above below : List E) : Prop where
  eq : es = above ++ below
  length : above.length = slot key k es
  ge : ∀ e ∈ above, k ≤ key e
  lt : ∀ e ∈ below, key e < k

/-- The keys `es` lie in the interval that a page owns. -/
def Within (l : WithBot K) (h : WithTop K) (es : List E) : Prop :=
  ∀ e ∈ es, l < (key e : WithBot K) ∧ (key e : WithTop K) ≤ h

variable {key}

/-- Order is a matter of keys alone. -/
theorem Descending.of_keys {es' : List E} (hd : Descending key es) (h : es'.map key = es.map key) :
    Descending key es' := by
  have hmap : (es.map key).Pairwise (fun a b => b < a) := List.pairwise_map.2 hd
  rw [← h] at hmap
  exact List.pairwise_map.1 hmap

theorem Within.of_keys {es' : List E} (hw : Within key l h es) (heq : es'.map key = es.map key) :
    Within key l h es' := by
  intro e he
  obtain ⟨a, ha, hae⟩ := List.mem_map.1 (heq ▸ List.mem_map_of_mem he : key e ∈ es.map key)
  exact hae ▸ hw a ha

theorem exists_cut {k : K} {es : List E} (hd : Descending key es) :
    Cut key k es (es.take (slot key k es)) (es.drop (slot key k es)) := by
  refine ⟨(List.take_append_drop _ _).symm, ?_, ?_, ?_⟩
  · simpa using slot_le key k es
  · intro e he
    obtain ⟨i, hi, rfl⟩ := List.mem_iff_getElem.1 he
    have hlt : i < slot key k es := by
      rw [List.length_take] at hi
      omega
    have h := List.not_of_lt_findIdx (p := fun e => decide (key e < k)) hlt
    simpa using h
  · intro e he
    obtain ⟨i, hi, rfl⟩ := List.mem_iff_getElem.1 he
    rw [List.length_drop] at hi
    have hs : slot key k es < es.length := by omega
    have hfirst : key (es[slot key k es]) < k :=
      of_decide_eq_true (List.findIdx_getElem (p := fun e => decide (key e < k)) (w := hs))
    rw [List.getElem_drop]
    obtain _ | i := i
    · exact hfirst
    · exact (List.pairwise_iff_getElem.1 hd _ _ hs (by omega) (by omega)).trans hfirst

theorem slot_append {k : K} {A B : List E} (hA : ∀ a ∈ A, ¬ key a < k) (hB : ∀ b ∈ B, key b < k) :
    slot key k (A ++ B) = A.length := by
  rw [slot, List.findIdx_append, List.findIdx_eq_length_of_false (fun a ha => by simpa using hA a ha),
    if_neg (lt_irrefl _)]
  obtain _ | ⟨b, B⟩ := B
  · simp
  · have hb := hB b (by simp)
    simp [List.findIdx_cons, hb]

/-- The first entry at or below `k` has that key, or it is at the slot of `k` and none has. -/
theorem first_le_cases {k : K} {es : List E} (hd : Descending key es) :
    (∃ e, es[es.findIdx (fun e => decide (key e ≤ k))]? = some e ∧ key e = k) ∨
    es.findIdx (fun e => decide (key e ≤ k)) = slot key k es ∧ ∀ e ∈ es, key e ≠ k := by
  induction es with
  | nil => exact Or.inr ⟨rfl, by simp⟩
  | cons a es ih =>
    obtain ⟨ha, hd'⟩ := List.pairwise_cons.1 hd
    obtain hlt | heq | hgt := lt_trichotomy (key a) k
    · refine Or.inr ⟨by simp [slot, List.findIdx_cons, hlt, hlt.le], fun e he => ?_⟩
      obtain rfl | he := List.mem_cons.1 he
      · exact hlt.ne
      · exact ((ha e he).trans hlt).ne
    · exact Or.inl ⟨a, by simp [List.findIdx_cons, heq], heq⟩
    · have h1 : decide (key a ≤ k) = false := decide_eq_false hgt.not_ge
      have h2 : decide (key a < k) = false := decide_eq_false hgt.not_gt
      obtain ⟨e, he, hek⟩ | ⟨hslot, hne⟩ := ih hd'
      · exact Or.inl ⟨e, by simpa [List.findIdx_cons, h1] using he, hek⟩
      · refine Or.inr ⟨?_, fun e he => ?_⟩
        · rw [slot, List.findIdx_cons, List.findIdx_cons, h1, h2, cond_false, cond_false, hslot]
          rfl
        · obtain rfl | he := List.mem_cons.1 he
          · exact hgt.ne'
          · exact hne e he

theorem Cut.insert_descending {e : E} {es A B : List E} (hd : Descending key es)
    (hc : Cut key (key e) es A B) (hne : ∀ a ∈ A, key a ≠ key e) :
    Descending key (A ++ e :: B) := by
  have hd' : Descending key (A ++ B) := hc.eq ▸ hd
  obtain ⟨hA, hB, hAB⟩ := List.pairwise_append.1 hd'
  refine List.pairwise_append.2 ⟨hA, List.pairwise_cons.2 ⟨hc.lt, hB⟩, ?_⟩
  intro a ha b hb
  obtain rfl | hb := List.mem_cons.1 hb
  · exact lt_of_le_of_ne (hc.ge a ha) (hne a ha).symm
  · exact hAB a ha b hb

theorem Children.nodup (hc : Children key lo hi es ps l h) (hd : Descending key es)
    (hw : Within key l h es) : ps.Nodup := by
  have hp : (ps.map lo).Pairwise (fun a b => b < a) := by
    rw [hc.lows]
    refine List.pairwise_append.2 ⟨?_, List.pairwise_singleton _ _, ?_⟩
    · exact List.pairwise_map.2 (hd.imp fun hab => WithBot.coe_lt_coe.2 hab)
    · intro a ha b hb
      obtain ⟨e, he, rfl⟩ := List.mem_map.1 ha
      obtain rfl := List.mem_singleton.1 hb
      exact (hw e he).1
  exact List.Nodup.of_map lo (hp.imp fun hab => hab.ne')

/-- The child at the slot of `k`, with the entries and children on either side. -/
theorem exists_child_cut {k : K} {es : List E} {ps : List ι} {c : ι} (hd : Descending key es)
    (hc : ps[slot key k es]? = some c) :
    ∃ A B PA PB, Cut key k es A B ∧ ps = PA ++ c :: PB ∧ PA.length = A.length := by
  obtain ⟨hlt, hget⟩ := List.getElem?_eq_some_iff.1 hc
  refine ⟨_, _, ps.take (slot key k es), ps.drop (slot key k es + 1), exists_cut hd, ?_, ?_⟩
  · rw [← hget, ← List.drop_eq_getElem_cons hlt, List.take_append_drop]
  · have hle := slot_le key k es
    simp only [List.length_take]
    omega

/-- The child at the slot of `k` owns `k`. -/
theorem Children.owns {A B : List E} {PA PB : List ι} {c : ι} {k : K}
    (hc : Children key lo hi (A ++ B) (PA ++ c :: PB) l h) (hlen : PA.length = A.length)
    (hA : ∀ e ∈ A, k ≤ key e) (hB : ∀ e ∈ B, key e < k)
    (hl : l < (k : WithBot K)) (hh : (k : WithTop K) ≤ h) :
    lo c < (k : WithBot K) ∧ (k : WithTop K) ≤ hi c := by
  obtain ⟨-, hl2, hh1, -⟩ := hc.at_child hlen
  constructor
  · obtain _ | ⟨b, B⟩ := B
    · obtain rfl : lo c = l := by simpa using (List.cons.inj hl2).1
      exact hl
    · obtain h1 : lo c = (key b : WithBot K) := (List.cons.inj hl2).1
      rw [h1]
      exact WithBot.coe_lt_coe.2 (hB b (by simp))
  · have hmem : hi c ∈ h :: A.map (fun e => (key e : WithTop K)) := by
      rw [← hh1]
      simp
    obtain heq | hmem := List.mem_cons.1 hmem
    · rw [heq]
      exact hh
    · obtain ⟨a, ha, heq⟩ := List.mem_map.1 hmem
      rw [← heq]
      exact WithTop.coe_le_coe.2 (hA a ha)

/-- A child's interval lies inside its parent's. -/
theorem Children.nested {A B : List E} {PA PB : List ι} {c : ι}
    (hc : Children key lo hi (A ++ B) (PA ++ c :: PB) l h) (hlen : PA.length = A.length)
    (hw : Within key l h (A ++ B)) : l ≤ lo c ∧ hi c ≤ h := by
  obtain ⟨-, hl2, hh1, -⟩ := hc.at_child hlen
  constructor
  · obtain _ | ⟨b, B⟩ := B
    · exact (List.cons.inj hl2).1.ge
    · rw [(List.cons.inj hl2).1]
      exact (hw b (by simp)).1.le
  · have hmem : hi c ∈ h :: A.map (fun e => (key e : WithTop K)) := by
      rw [← hh1]
      simp
    obtain heq | hmem := List.mem_cons.1 hmem
    · exact heq.le
    · obtain ⟨a, ha, heq⟩ := List.mem_map.1 hmem
      rw [← heq]
      exact (hw a (by simp [ha])).2

theorem Children.nested_mem {c : ι} (hc : Children key lo hi es ps l h)
    (hw : Within key l h es) (hmem : c ∈ ps) : l ≤ lo c ∧ hi c ≤ h := by
  obtain ⟨PA, PB, rfl⟩ := List.append_of_mem hmem
  have hlen := hc.length_eq
  rw [List.length_append, List.length_cons] at hlen
  have htake : PA.length = (es.take PA.length).length := by
    rw [List.length_take]
    omega
  rw [← List.take_append_drop PA.length es] at hc hw
  exact hc.nested htake hw

/-- A child ends at or below the start of every child before it. -/
theorem Children.disjoint {i j : ℕ} {k : K} (hc : Children key lo hi es ps l h)
    (hd : Descending key es) (hij : i < j) (hj : j < ps.length) (hl : lo ps[i] < (k : WithBot K)) :
    ¬ (k : WithTop K) ≤ hi ps[j] := by
  obtain ⟨j, rfl⟩ : ∃ n, j = n + 1 := ⟨j - 1, by omega⟩
  have hlen := hc.length_eq
  have hlo : lo ps[i] = (key es[i] : WithBot K) := by
    have hget := List.getElem_of_eq hc.lows (i := i) (by simp; omega)
    rw [List.getElem_map, List.getElem_append_left (by simp; omega), List.getElem_map] at hget
    exact hget
  have hhi : hi ps[j + 1] = (key es[j] : WithTop K) := by
    have hget := List.getElem_of_eq hc.highs (i := j + 1) (by simp; omega)
    rw [List.getElem_map, List.getElem_cons_succ, List.getElem_map] at hget
    exact hget
  rw [hlo, WithBot.coe_lt_coe] at hl
  rw [hhi, WithTop.coe_le_coe, not_le]
  obtain rfl | hlt := Nat.eq_or_lt_of_le (Nat.le_of_lt_succ hij)
  · exact hl
  · exact (List.pairwise_iff_getElem.1 hd i j (by omega) (by omega) hlt).trans hl

theorem Children.owner_unique {c c' : ι} {k : K} (hc : Children key lo hi es ps l h)
    (hd : Descending key es) (hmem : c ∈ ps) (hmem' : c' ∈ ps)
    (hl : lo c < (k : WithBot K)) (hh : (k : WithTop K) ≤ hi c)
    (hl' : lo c' < (k : WithBot K)) (hh' : (k : WithTop K) ≤ hi c') : c = c' := by
  obtain ⟨i, hi', rfl⟩ := List.mem_iff_getElem.1 hmem
  obtain ⟨j, hj, rfl⟩ := List.mem_iff_getElem.1 hmem'
  obtain hij | rfl | hij := lt_trichotomy i j
  · exact absurd hh' (hc.disjoint hd hij hj hl)
  · rfl
  · exact absurd hh (hc.disjoint hd hij hi' hl')

/-- A separator that a child's interval contains strictly lies between its neighbours. -/
theorem Children.separates {A B : List E} {PA PB : List ι} {c : ι} {k : K}
    (hc : Children key lo hi (A ++ B) (PA ++ c :: PB) l h) (hlen : PA.length = A.length)
    (hd : Descending key (A ++ B)) (hl : lo c < (k : WithBot K)) (hh : (k : WithTop K) < hi c) :
    (∀ e ∈ A, k < key e) ∧ ∀ e ∈ B, key e < k := by
  obtain ⟨-, hl2, hh1, -⟩ := hc.at_child hlen
  obtain ⟨hdA, hdB, -⟩ := List.pairwise_append.1 hd
  constructor
  · obtain rfl | ⟨A', a, rfl⟩ := A.eq_nil_or_concat'
    · simp
    have hlast : hi c = (key a : WithTop K) := by
      have h1 : PA.map hi ++ [hi c] =
          (h :: A'.map (fun e => (key e : WithTop K))) ++ [(key a : WithTop K)] := by
        simpa using hh1
      simpa using (List.append_inj' h1 rfl).2
    rw [hlast, WithTop.coe_lt_coe] at hh
    intro e he
    obtain he | he := List.mem_append.1 he
    · exact hh.trans ((List.pairwise_append.1 hdA).2.2 e he a (by simp))
    · obtain rfl := List.mem_singleton.1 he
      exact hh
  · obtain _ | ⟨b, B⟩ := B
    · simp
    rw [(List.cons.inj hl2).1] at hl
    have hb : key b < k := WithBot.coe_lt_coe.1 hl
    intro e he
    obtain rfl | he := List.mem_cons.1 he
    · exact hb
    · exact ((List.pairwise_cons.1 hdB).1 e he).trans hb

end SearchPage
