import Mathlib.Algebra.Order.Ring.Nat
import Mathlib.Data.List.Basic

set_option autoImplicit false

/-!
# Words between separators

The words of a list are its maximal runs of elements that are no separators. They are what a
tokenizer finds that takes any number of separators as one.
-/
namespace Tokens
variable {α : Type*} {sep : α → Bool}

def tokens (sep : α → Bool) (l : List α) : List (List α) := (l.splitOnP sep).filter (!·.isEmpty)

/-- A run of elements that could be a word. -/
structure Word (sep : α → Bool) (t : List α) : Prop where
  ne_nil : t ≠ []
  clear : ∀ x ∈ t, sep x = false

@[simp] theorem tokens_nil : tokens sep ([] : List α) = [] := by
  simp [tokens]

theorem tokens_append_cons (xs ys : List α) {a : α} (ha : sep a = true) :
    tokens sep (xs ++ a :: ys) = tokens sep xs ++ tokens sep ys := by
  rw [tokens, List.splitOnP_append_cons xs ys ha, List.filter_append]
  rfl

theorem tokens_cons {a : α} (ha : sep a = true) (l : List α) : tokens sep (a :: l) = tokens sep l := by
  have h := tokens_append_cons [] l ha
  rwa [tokens_nil, List.nil_append, List.nil_append] at h

theorem tokens_append {s : List α} (hs : ∀ x ∈ s, sep x = true) (l : List α) :
    tokens sep (s ++ l) = tokens sep l := by
  induction s with
  | nil => rfl
  | cons a s ih =>
    rw [List.cons_append, tokens_cons (hs a List.mem_cons_self), ih]
    exact fun x hx => hs x (List.mem_cons_of_mem a hx)

theorem Word.tokens_self {t : List α} (h : Word sep t) : tokens sep t = [t] := by
  have hne : t.isEmpty = false := by simpa using h.ne_nil
  rw [tokens, List.splitOnP_eq_singleton h.clear]
  simp [hne]

/-- A word goes up to the next separator. -/
theorem Word.tokens_append {t : List α} (h : Word sep t) {a : α} (ha : sep a = true)
    (l : List α) : tokens sep (t ++ a :: l) = t :: tokens sep l := by
  rw [tokens_append_cons t l ha, h.tokens_self]
  rfl

/-- A list is free of separators, or it has a first one and a rest behind it. -/
@[elab_as_elim]
theorem separators_induction (sep : α → Bool) {P : List α → Prop} (clear : ∀ l, (∀ x ∈ l, sep x = false) → P l)
    (append : ∀ xs a ys, sep a = true → P xs → P ys → P (xs ++ a :: ys)) (l : List α) : P l := by
  induction hn : l.length using Nat.strongRecOn generalizing l with
  | _ n ih =>
    by_cases h : ∃ a ∈ l, sep a = true
    · obtain ⟨a, ha, hsep⟩ := h
      obtain ⟨xs, ys, rfl⟩ := List.append_of_mem ha
      rw [List.length_append, List.length_cons] at hn
      exact append xs a ys hsep (ih _ (by omega) xs rfl) (ih _ (by omega) ys rfl)
    · exact clear l (by simpa using h)

theorem tokens_of_clear {l : List α} (h : ∀ x ∈ l, sep x = false) :
    tokens sep l = if l = [] then [] else [l] := by
  split_ifs with hne
  · rw [hne, tokens_nil]
  · exact (Word.mk hne h).tokens_self

theorem word_of_mem {t l : List α} (h : t ∈ tokens sep l) : Word sep t := by
  induction l using separators_induction sep with
  | clear l hl =>
    rw [tokens_of_clear hl] at h
    split_ifs at h with hne
    · cases h
    · rw [List.mem_singleton.1 h]
      exact ⟨hne, hl⟩
  | append xs a ys ha hx hy =>
    rw [tokens_append_cons xs ys ha] at h
    cases List.mem_append.1 h with
    | inl h => exact hx h
    | inr h => exact hy h

/-- Words are apart: each takes one place more than its length, but for the last one. -/
theorem sum_length_tokens (l : List α) :
    ((tokens sep l).map fun t => t.length + 1).sum ≤ l.length + 1 := by
  induction l using separators_induction sep with
  | clear l hl =>
    rw [tokens_of_clear hl]
    split_ifs with hne <;> simp
  | append xs a ys ha hx hy =>
    rw [tokens_append_cons xs ys ha, List.map_append, List.sum_append, List.length_append,
      List.length_cons]
    omega

/-! ## Joined words -/

theorem tokens_intercalate {s : List α} (hne : s ≠ []) (hs : ∀ x ∈ s, sep x = true)
    {ts : List (List α)} (h : ∀ t ∈ ts, Word sep t) : tokens sep (s.intercalate ts) = ts := by
  cases s with
  | nil => exact absurd rfl hne
  | cons a s =>
    induction ts with
    | nil => simp [List.intercalate]
    | cons t ts ih =>
      have ht := h t List.mem_cons_self
      cases ts with
      | nil => rw [List.intercalate_singleton, ht.tokens_self]
      | cons t' ts =>
        have hrest := ih fun x hx => h x (List.mem_cons_of_mem t hx)
        rw [List.intercalate_cons_cons, List.append_assoc, List.cons_append,
          ht.tokens_append (hs a List.mem_cons_self),
          tokens_append (fun x hx => hs x (List.mem_cons_of_mem a hx)), hrest]

/-- Where only the first element between two words separates, the others go with the next word. -/
theorem tokens_intercalate_cons {a : α} {s : List α} (ha : sep a = true)
    (hs : ∀ x ∈ s, sep x = false) {t : List α} {ts : List (List α)}
    (h : ∀ t' ∈ t :: ts, Word sep t') :
    tokens sep ((a :: s).intercalate (t :: ts)) = t :: ts.map (s ++ ·) := by
  induction ts generalizing t with
  | nil => rw [List.intercalate_singleton, (h t List.mem_cons_self).tokens_self]; rfl
  | cons t' ts ih =>
    have ht := h t List.mem_cons_self
    have ht' := h t' (by simp)
    have hword : Word sep (s ++ t') := by
      refine ⟨by simp [ht'.ne_nil], fun x hx => ?_⟩
      cases List.mem_append.1 hx with
      | inl hx => exact hs x hx
      | inr hx => exact ht'.clear x hx
    have hrest : s ++ (a :: s).intercalate (t' :: ts) = (a :: s).intercalate ((s ++ t') :: ts) := by
      cases ts with
      | nil => rw [List.intercalate_singleton, List.intercalate_singleton]
      | cons t'' ts => simp [List.intercalate_cons_cons]
    rw [List.intercalate_cons_cons, List.append_assoc, List.cons_append, ht.tokens_append ha, hrest,
      ih]
    · rfl
    · intro x hx
      cases List.mem_cons.1 hx with
      | inl hx => rwa [hx]
      | inr hx => exact h x (by simp [hx])

end Tokens
