import Mathlib.Data.List.Chain
import Mathlib.Data.List.Nodup
import Mathlib.Tactic.Common

set_option autoImplicit false

/-!
# Rings of links

Places that are linked both ways, where the last one comes in front of the first one. Two edits
keep a ring: a place goes in between two neighbours, or comes out.
-/

section links
variable {κ : Type} {next previous next' previous' : κ → Option κ}

/-- `b` comes behind `a`. -/
def Linked (next previous : κ → Option κ) (a b : κ) : Prop :=
  next a = some b ∧ previous b = some a

/-- All places but the last one keep their `next`, and all but the first one their `previous`. -/
theorem List.IsChain.relink {as : List κ} (h : as.IsChain (Linked next previous)) (hnodup : as.Nodup)
    (hnext : ∀ x ∈ as, as.getLast? ≠ some x → next' x = next x)
    (hprevious : ∀ x ∈ as, as.head? ≠ some x → previous' x = previous x) :
    as.IsChain (Linked next' previous') := by
  rw [List.isChain_iff_getElem] at h ⊢
  intro i hi
  have hlast : as.getLast? ≠ some as[i] := by
    rw [List.getLast?_eq_getElem?, List.getElem?_eq_getElem (by omega), ne_eq, Option.some.injEq,
      hnodup.getElem_inj_iff]
    omega
  have hfirst : as.head? ≠ some as[i + 1] := by
    rw [List.head?_eq_getElem?, List.getElem?_eq_getElem (by omega), ne_eq, Option.some.injEq,
      hnodup.getElem_inj_iff]
    omega
  unfold Linked
  rw [hnext _ (List.getElem_mem _) hlast, hprevious _ (List.getElem_mem _) hfirst]
  exact h i hi

/-- The places of `as` are linked in their order, and the last one with the first one. -/
structure LinkRing (next previous : κ → Option κ) (as : List κ) : Prop where
  nodup : as.Nodup
  chain : as.IsChain (Linked next previous)
  closed : ∀ l ∈ as.getLast?, ∀ f ∈ as.head?, Linked next previous l f

namespace LinkRing
variable {as : List κ} {a f l : κ}

theorem nil : LinkRing next previous [] := ⟨.nil, .nil, nofun⟩

theorem singleton (h : Linked next previous a a) : LinkRing next previous [a] where
  nodup := List.nodup_singleton a
  chain := .singleton a
  closed := by
    rintro l ⟨⟩ f ⟨⟩
    exact h

/-- A ring that begins with `a`, where `f` and `l` stand next to `a`. -/
theorem cons_iff (hf : as.head? = some f) (hl : as.getLast? = some l) :
    LinkRing next previous (a :: as) ↔ (a ∉ as ∧ as.Nodup) ∧
      as.IsChain (Linked next previous) ∧ Linked next previous l a ∧ Linked next previous a f := by
  have hlast : (a :: as).getLast? = some l := by
    rw [List.getLast?_cons, hl]
    rfl
  constructor
  · intro h
    rcases List.isChain_cons.1 h.chain with ⟨hfirst, hchain⟩
    exact ⟨List.nodup_cons.1 h.nodup, hchain, h.closed l hlast a rfl, hfirst f hf⟩
  · rintro ⟨hnodup, hchain, hla, haf⟩
    refine ⟨List.nodup_cons.2 hnodup, List.isChain_cons.2 ⟨fun y hy => ?_, hchain⟩, ?_⟩
    · cases hf.symm.trans hy
      exact haf
    · rintro x hx y ⟨⟩
      cases hlast.symm.trans hx
      exact hla

/-- The same for a ring that ends with `a`. -/
theorem concat_iff (hf : as.head? = some f) (hl : as.getLast? = some l) :
    LinkRing next previous (as ++ [a]) ↔ (a ∉ as ∧ as.Nodup) ∧
      as.IsChain (Linked next previous) ∧ Linked next previous l a ∧ Linked next previous a f := by
  have hfirst : (as ++ [a]).head? = some f := by
    rw [List.head?_append, hf]
    rfl
  have hlast : (as ++ [a]).getLast? = some a := List.getLast?_concat
  have hperm : (as ++ [a]).Nodup ↔ a ∉ as ∧ as.Nodup :=
    (List.perm_append_singleton a as).nodup_iff.trans List.nodup_cons
  constructor
  · intro h
    rcases List.isChain_append.1 h.chain with ⟨hchain, -, hseam⟩
    exact ⟨hperm.1 h.nodup, hchain, hseam l hl a rfl, h.closed a hlast f hfirst⟩
  · rintro ⟨hnodup, hchain, hla, haf⟩
    refine ⟨hperm.2 hnodup, List.isChain_append.2 ⟨hchain, .singleton a, ?_⟩, ?_⟩
    · rintro x hx y ⟨⟩
      cases hl.symm.trans hx
      exact hla
    · intro x hx y hy
      cases hlast.symm.trans hx
      cases hfirst.symm.trans hy
      exact haf

/-- A ring may be read from the place behind the first one. -/
theorem rotate : LinkRing next previous (a :: as) ↔ LinkRing next previous (as ++ [a]) := by
  cases hf : as.head? with
  | none =>
    rw [List.head?_eq_none_iff.1 hf]
    exact Iff.rfl
  | some f =>
    have hne : as ≠ [] := by
      rintro rfl
      nomatch hf
    have hl := List.getLast?_eq_some_getLast hne
    rw [cons_iff hf hl, concat_iff hf hl]

/-- A new place comes in between the last one and the first one. -/
theorem insert (h : LinkRing next previous as) (hnew : a ∉ as) (hf : as.head? = some f)
    (hl : as.getLast? = some l) (hla : Linked next' previous' l a)
    (haf : Linked next' previous' a f) (hnext : ∀ x ∈ as, x ≠ l → next' x = next x)
    (hprevious : ∀ x ∈ as, x ≠ f → previous' x = previous x) :
    LinkRing next' previous' (as ++ [a]) := by
  refine (concat_iff hf hl).2 ⟨⟨hnew, h.nodup⟩, ?_, hla, haf⟩
  refine h.chain.relink h.nodup (fun x hx hlast => ?_) fun x hx hfirst => ?_
  · exact hnext x hx fun heq => hlast (heq ▸ hl)
  · exact hprevious x hx fun heq => hfirst (heq ▸ hf)

/-- The first place comes out, and its neighbours are linked with each other. -/
theorem remove (h : LinkRing next previous (a :: as)) (hf : as.head? = some f)
    (hl : as.getLast? = some l) (hlf : Linked next' previous' l f)
    (hnext : ∀ x ∈ as, x ≠ l → next' x = next x)
    (hprevious : ∀ x ∈ as, x ≠ f → previous' x = previous x) :
    LinkRing next' previous' as := by
  rcases (cons_iff hf hl).1 h with ⟨⟨-, hnodup⟩, hchain, -⟩
  refine ⟨hnodup, ?_, ?_⟩
  · refine hchain.relink hnodup (fun x hx hlast => ?_) fun x hx hfirst => ?_
    · exact hnext x hx fun heq => hlast (heq ▸ hl)
    · exact hprevious x hx fun heq => hfirst (heq ▸ hf)
  · intro x hx y hy
    cases hl.symm.trans hx
    cases hf.symm.trans hy
    exact hlf

/-- Behind each place stands the next one of the list, and behind the last one the first one. -/
theorem linked_getElem (h : LinkRing next previous as) {i j : ℕ} (hi : i < as.length)
    (hj : j < as.length) (hij : (i + 1) % as.length = j) :
    Linked next previous as[i] as[j] := by
  by_cases hlast : i + 1 = as.length
  · have hzero : j = 0 := by rw [← hij, hlast, Nat.mod_self]
    have hend : i = as.length - 1 := by omega
    subst hzero hend
    have hl : as.getLast? = some as[as.length - 1] := by
      rw [List.getLast?_eq_getElem?, List.getElem?_eq_getElem hi]
    have hf : as.head? = some as[0] := by
      rw [List.head?_eq_getElem?, List.getElem?_eq_getElem hj]
    exact h.closed _ hl _ hf
  · rw [Nat.mod_eq_of_lt (by omega)] at hij
    subst hij
    exact h.chain.getElem i hj

end LinkRing

end links
