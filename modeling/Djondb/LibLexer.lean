import Mathlib.Data.List.TakeWhile

set_option autoImplicit false

/-!
# Generated lexers

A rule takes a piece from the front of the input. Which rule comes next is predicted by a cyclic DFA
from its tables; where the prediction or the rule fails, some bytes are passed over.
-/
namespace Lexing

/-- What a rule takes and what it leaves. -/
abbrev Rule := List UInt8 → Option (List UInt8 × List UInt8)

namespace Rule

/-- One byte of a set. -/
def set (p : UInt8 → Bool) : Rule
  | [] => none
  | b :: rest => if p b then some ([b], rest) else none

def byte (b : UInt8) : Rule := set (· = b)

def seq (r s : Rule) : Rule := fun input =>
  match r input with
  | none => none
  | some (text, input) =>
    match s input with
    | none => none
    | some (text', rest) => some (text ++ text', rest)

/-- As many bytes of the set as there are. -/
def many (p : UInt8 → Bool) : Rule := fun input => some (input.takeWhile p, input.dropWhile p)

/-- One byte of the set and as many more as there are. -/
def many1 (p : UInt8 → Bool) : Rule := (set p).seq (many p)

/-- The rule if the next byte is in the set, and nothing otherwise. -/
def optional (p : UInt8 → Bool) (r : Rule) : Rule
  | [] => some ([], [])
  | b :: rest => if p b then r (b :: rest) else some ([], b :: rest)

theorem byte_cons (b : UInt8) (rest : List UInt8) : byte b (b :: rest) = some ([b], rest) :=
  if_pos (decide_eq_true rfl)

theorem many_append {p : UInt8 → Bool} {text rest : List UInt8} (htext : ∀ b ∈ text, p b = true)
    (hrest : ∀ b ∈ rest.head?, p b = false) : many p (text ++ rest) = some (text, rest) := by
  have hnil : rest.takeWhile p = [] ∧ rest.dropWhile p = rest := by
    cases rest with
    | nil => exact ⟨rfl, rfl⟩
    | cons b rest =>
      have hb : p b = false := hrest b rfl
      constructor
      · rw [List.takeWhile_cons, hb]
        rfl
      · rw [List.dropWhile_cons, hb]
        rfl
  unfold many
  rw [List.takeWhile_append_of_pos htext, List.dropWhile_append_of_pos htext, hnil.1, hnil.2,
    List.append_nil]

theorem many1_append {p : UInt8 → Bool} {text rest : List UInt8} (hne : text ≠ [])
    (htext : ∀ b ∈ text, p b = true) (hrest : ∀ b ∈ rest.head?, p b = false) :
    many1 p (text ++ rest) = some (text, rest) := by
  cases text with
  | nil => exact absurd rfl hne
  | cons b text =>
    rcases List.forall_mem_cons.1 htext with ⟨hb, htext⟩
    have hset : set p (b :: (text ++ rest)) = some ([b], text ++ rest) := if_pos hb
    unfold many1 seq
    rw [List.cons_append, hset]
    dsimp only
    rw [many_append htext hrest]
    rfl

/-! ### What is taken -/

section some
variable {p : UInt8 → Bool} {r s : Rule} {input text rest : List UInt8}

theorem set_eq_some (h : set p input = some (text, rest)) :
    ∃ b, p b = true ∧ text = [b] ∧ input = b :: rest := by
  cases input with
  | nil => cases h
  | cons b input =>
    change (if p b then some ([b], input) else none) = some (text, rest) at h
    split_ifs at h with hb
    cases h
    exact ⟨b, hb, rfl, rfl⟩

theorem byte_eq_some {b : UInt8} (h : byte b input = some (text, rest)) : text = [b] := by
  rcases set_eq_some h with ⟨b', hb', rfl, -⟩
  rw [of_decide_eq_true hb']

theorem seq_eq_some (h : r.seq s input = some (text, rest)) :
    ∃ first middle second, r input = some (first, middle) ∧ s middle = some (second, rest) ∧
      text = first ++ second := by
  unfold Rule.seq at h
  split at h
  · cases h
  · rename_i first middle hfirst
    split at h
    · cases h
    · rename_i second rest' hsecond
      cases h
      exact ⟨first, middle, second, hfirst, hsecond, rfl⟩

theorem many_eq_some (h : many p input = some (text, rest)) :
    (∀ b ∈ text, p b = true) ∧ input = text ++ rest := by
  cases h
  exact ⟨fun b hb => List.mem_takeWhile_imp hb, List.takeWhile_append_dropWhile.symm⟩

theorem many1_eq_some (h : many1 p input = some (text, rest)) :
    text ≠ [] ∧ ∀ b ∈ text, p b = true := by
  rcases seq_eq_some h with ⟨first, middle, second, hfirst, hsecond, rfl⟩
  rcases set_eq_some hfirst with ⟨b, hb, rfl, -⟩
  exact ⟨List.cons_ne_nil _ _, List.forall_mem_cons.2 ⟨hb, (many_eq_some hsecond).1⟩⟩

theorem optional_eq_some (h : optional p r input = some (text, rest)) :
    text = [] ∧ input = rest ∨ r input = some (text, rest) := by
  cases input with
  | nil =>
    cases h
    exact Or.inl ⟨rfl, rfl⟩
  | cons b input =>
    change (if p b then r (b :: input) else some ([], b :: input)) = some (text, rest) at h
    split_ifs at h
    · exact Or.inr h
    · cases h
      exact Or.inl ⟨rfl, rfl⟩

end some

/-- A rule takes something. -/
def Takes (r : Rule) : Prop := ∀ input text rest, r input = some (text, rest) → text ≠ []

theorem takes_set (p : UInt8 → Bool) : Takes (set p) := by
  intro input text rest h
  rcases set_eq_some h with ⟨b, -, rfl, -⟩
  exact List.cons_ne_nil _ _

theorem Takes.seq {r : Rule} (hr : Takes r) (s : Rule) : Takes (r.seq s) := by
  intro input text rest h
  rcases seq_eq_some h with ⟨first, middle, second, hfirst, -, rfl⟩
  exact List.append_ne_nil_of_left_ne_nil (hr _ _ _ hfirst) _

/-- A rule cuts the input into what it takes and what it leaves. -/
def Cuts (r : Rule) : Prop := ∀ input text rest, r input = some (text, rest) → input = text ++ rest

theorem cuts_set (p : UInt8 → Bool) : Cuts (set p) := by
  intro input text rest h
  rcases set_eq_some h with ⟨b, -, rfl, rfl⟩
  rfl

theorem cuts_many (p : UInt8 → Bool) : Cuts (many p) := fun _ _ _ h => (many_eq_some h).2

theorem Cuts.seq {r s : Rule} (hr : Cuts r) (hs : Cuts s) : Cuts (r.seq s) := by
  intro input text rest h
  rcases seq_eq_some h with ⟨first, middle, second, hfirst, hsecond, rfl⟩
  rw [hr _ _ _ hfirst, hs _ _ _ hsecond, List.append_assoc]

theorem cuts_many1 (p : UInt8 → Bool) : Cuts (many1 p) := (cuts_set p).seq (cuts_many p)

theorem Cuts.optional {r : Rule} (hr : Cuts r) (p : UInt8 → Bool) : Cuts (optional p r) := by
  intro input text rest h
  rcases optional_eq_some h with ⟨rfl, rfl⟩ | h
  · rfl
  · exact hr _ _ _ h

end Rule

/-! ## Prediction -/

/-- `LA(1)`: the next byte, or a negative number at the end of the input. -/
def la : List UInt8 → ℤ
  | [] => -1
  | b :: _ => b.toNat

/-- The tables of a DFA without special states and without edges for the end of the input. -/
structure CyclicDfa where
  eot : List ℤ
  min : List ℤ
  max : List ℤ
  accept : List ℤ
  transition : List (List ℤ)

namespace CyclicDfa

/-- The state after the character `c`; where there is no transition, what `eot` says. -/
def next (d : CyclicDfa) (s : ℕ) (c : ℤ) : ℤ :=
  let snext :=
    if d.min.getD s (-1) ≤ c ∧ c ≤ d.max.getD s (-1) then
      (d.transition.getD s []).getD (c - d.min.getD s (-1)).toNat (-1)
    else -1
  if snext < 0 then d.eot.getD s (-1) else snext

/-- The simulation from a state on. -/
def run (d : CyclicDfa) : ℕ → ℕ → List UInt8 → Option ℕ
  | 0, _, _ => none
  | fuel + 1, s, input =>
    if 1 ≤ d.accept.getD s (-1) then some (d.accept.getD s (-1)).toNat
    else
      let snext := d.next s (la input)
      if snext < 0 then none else d.run fuel snext.toNat input.tail

/-- The number of the alternative. -/
def predict (d : CyclicDfa) (input : List UInt8) : Option ℕ := d.run (input.length + 2) 0 input

variable {d : CyclicDfa} {s s' alt : ℕ} {input : List UInt8}

theorem run_accept (fuel : ℕ) (h : d.accept.getD s (-1) = alt) (halt : 1 ≤ alt) :
    d.run (fuel + 1) s input = some alt := by
  unfold run
  rw [h, if_pos (by omega), Int.toNat_natCast]

theorem run_next (fuel : ℕ) (h : d.accept.getD s (-1) < 1) (hnext : d.next s (la input) = s') :
    d.run (fuel + 1) s input = d.run fuel s' input.tail := by
  have hpos : ¬ d.next s (la input) < 0 := by omega
  rw [run, if_neg (by omega)]
  dsimp only
  rw [if_neg hpos, hnext, Int.toNat_natCast]

/-- Where the transitions lead on a piece of the input, if no state before accepts. -/
def walk (d : CyclicDfa) : ℕ → List UInt8 → Option ℕ
  | s, [] => some s
  | s, b :: text =>
    if d.accept.getD s (-1) < 1 ∧ 0 ≤ d.next s b.toNat then d.walk (d.next s b.toNat).toNat text
    else none

variable {text rest : List UInt8}

theorem run_walk (h : d.walk s text = some s') (fuel : ℕ) :
    d.run (fuel + text.length) s (text ++ rest) = d.run fuel s' rest := by
  induction text generalizing s with
  | nil =>
    cases h
    rfl
  | cons b text ih =>
    unfold walk at h
    split_ifs at h with hwalk
    have hnext : d.next s (la (b :: text ++ rest)) = (d.next s b.toNat).toNat :=
      (Int.toNat_of_nonneg hwalk.2).symm
    rw [List.length_cons, ← Nat.add_assoc, run_next _ hwalk.1 hnext]
    exact ih h

/-- What is read decides. -/
theorem predict_walk (h : d.walk 0 text = some s) (haccept : d.accept.getD s (-1) = alt)
    (halt : 1 ≤ alt) : d.predict (text ++ rest) = some alt := by
  have hfuel : (text ++ rest).length + 2 = rest.length + 1 + 1 + text.length := by
    rw [List.length_append]
    omega
  unfold predict
  rw [hfuel, run_walk h, run_accept _ haccept halt]

/-- What comes next decides. -/
theorem predict_walk_next (h : d.walk 0 text = some s) (hs : d.accept.getD s (-1) < 1)
    (hnext : d.next s (la rest) = s') (haccept : d.accept.getD s' (-1) = alt) (halt : 1 ≤ alt) :
    d.predict (text ++ rest) = some alt := by
  have hfuel : (text ++ rest).length + 2 = rest.length + 1 + 1 + text.length := by
    rw [List.length_append]
    omega
  unfold predict
  rw [hfuel, run_walk h, run_next _ hs hnext, run_accept _ haccept halt]

end CyclicDfa

/-! ## The tokens -/

/-- The next token and what it leaves, whether a token is hidden from the parser, and how many bytes
are passed over besides the first one where there is no token. -/
structure Lexer (T : Type) where
  nextToken : List UInt8 → Option (T × List UInt8)
  visible : T → Bool
  recover : List UInt8 → ℕ

/-- All tokens, hidden or not, if there is one everywhere. -/
def whole {T : Type} (nextToken : List UInt8 → Option (T × List UInt8)) :
    ℕ → List UInt8 → Option (List T)
  | 0, _ => none
  | _ + 1, [] => some []
  | fuel + 1, b :: rest => do
    let (token, input) ← nextToken (b :: rest)
    let ts ← whole nextToken fuel input
    some (token :: ts)

section whole
variable {T : Type} {nextToken : List UInt8 → Option (T × List UInt8)} {fuel : ℕ}
variable {input : List UInt8} {ts : List T}

theorem whole_eq_some (h : whole nextToken (fuel + 1) input = some ts) :
    input = [] ∧ ts = [] ∨ ∃ token rest ts', nextToken input = some (token, rest) ∧
      whole nextToken fuel rest = some ts' ∧ ts = token :: ts' := by
  cases input with
  | nil =>
    cases h
    exact Or.inl ⟨rfl, rfl⟩
  | cons b tail =>
    rcases Option.bind_eq_some_iff.1 h with ⟨⟨token, rest⟩, hnext, h⟩
    rcases Option.bind_eq_some_iff.1 h with ⟨ts', hwhole, heq⟩
    cases heq
    exact Or.inr ⟨token, rest, ts', hnext, hwhole, rfl⟩

theorem eq_nil_of_whole (h : whole nextToken fuel [] = some ts) : ts = [] := by
  cases fuel with
  | zero => cases h
  | succ fuel =>
    cases h
    rfl

end whole

namespace Lexer
variable {T : Type}

/-- The visible tokens. -/
def tokens (l : Lexer T) : ℕ → List UInt8 → List T
  | 0, _ => []
  | _ + 1, [] => []
  | fuel + 1, b :: rest =>
    match l.nextToken (b :: rest) with
    | some (token, input) =>
      if l.visible token then token :: l.tokens fuel input else l.tokens fuel input
    | none => l.tokens fuel (rest.drop (l.recover (b :: rest)))

/-- A token takes a byte at least, so that the length of the input is enough. -/
def lex (l : Lexer T) (input : List UInt8) : List T := l.tokens (input.length + 1) input

/-- These are the tokens of the input. -/
def Lexes (l : Lexer T) (input : List UInt8) (ts : List T) : Prop :=
  ∀ fuel, input.length < fuel → l.tokens fuel input = ts

variable {l : Lexer T} {input rest : List UInt8} {ts : List T} {token : T}

theorem Lexes.lex_eq (h : l.Lexes input ts) : l.lex input = ts := h _ (Nat.lt_succ_self _)

theorem lexes_nil : l.Lexes [] [] := by
  intro fuel hfuel
  cases fuel with
  | zero => rfl
  | succ fuel => rfl

/-- A fact about the input that is kept up gives a fact about every token. -/
theorem tokens_forall {Q : List UInt8 → Prop} {P : T → Prop}
    (hnext : ∀ input token rest, Q input → l.nextToken input = some (token, rest) →
      P token ∧ Q rest)
    (hdrop : ∀ input n, Q input → Q (input.drop n)) (fuel : ℕ) {input : List UInt8}
    (hinput : Q input) : ∀ token ∈ l.tokens fuel input, P token := by
  induction fuel generalizing input with
  | zero => exact fun token htoken => absurd htoken List.not_mem_nil
  | succ fuel ih =>
    cases input with
    | nil => exact fun token htoken => absurd htoken List.not_mem_nil
    | cons b rest =>
      unfold Lexer.tokens
      cases hr : l.nextToken (b :: rest) with
      | none => exact ih (hdrop _ _ (hdrop _ 1 hinput))
      | some r =>
        rcases hnext _ r.1 r.2 hinput hr with ⟨hmade, hrest⟩
        dsimp only
        split_ifs with hvisible
        · exact List.forall_mem_cons.2 ⟨hmade, ih hrest⟩
        · exact ih hrest

section next
variable (h : l.Lexes rest ts) (hnext : l.nextToken input = some (token, rest))
variable (hlt : rest.length < input.length)
include h hnext hlt

theorem Lexes.cons (hvisible : l.visible token = true) : l.Lexes input (token :: ts) := by
  intro fuel hfuel
  cases fuel with
  | zero => exact absurd hfuel (Nat.not_lt_zero _)
  | succ fuel =>
    cases input with
    | nil => exact absurd hlt (Nat.not_lt_zero _)
    | cons b tail =>
      rw [tokens, hnext]
      dsimp only
      rw [if_pos hvisible, h fuel (by omega)]

theorem Lexes.hidden (hvisible : l.visible token = false) : l.Lexes input ts := by
  intro fuel hfuel
  cases fuel with
  | zero => exact absurd hfuel (Nat.not_lt_zero _)
  | succ fuel =>
    cases input with
    | nil => exact absurd hlt (Nat.not_lt_zero _)
    | cons b tail =>
      rw [tokens, hnext]
      dsimp only
      rw [hvisible, h fuel (by omega)]
      rfl

end next

/-- Where nothing is passed over, the visible ones of all tokens are found. -/
theorem lexes_whole (hlt : ∀ input token rest, l.nextToken input = some (token, rest) →
    rest.length < input.length) (fuel : ℕ) {input : List UInt8} {ts : List T}
    (h : whole l.nextToken fuel input = some ts) :
    l.Lexes input (ts.filter l.visible) := by
  induction fuel generalizing input ts with
  | zero => cases h
  | succ fuel ih =>
    rcases whole_eq_some h with ⟨rfl, rfl⟩ | ⟨token, rest, ts', hnext, hwhole, rfl⟩
    · exact lexes_nil
    · have hshorter := hlt _ _ _ hnext
      rw [List.filter_cons]
      split_ifs with hvisible
      · exact (ih hwhole).cons hnext hshorter hvisible
      · exact (ih hwhole).hidden hnext hshorter (Bool.eq_false_iff.2 hvisible)

end Lexer

end Lexing
