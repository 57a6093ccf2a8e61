import Djondb.LibDescent
import Djondb.LibLexer

set_option autoImplicit false

/-!
# The texts of tokens

A piece of the input is lexed once more, perhaps by another lexer. What a rule has taken it takes
again if what stands behind it now does not let it go on.
-/
namespace Lexing
namespace Rule

/-- What the rule takes begins with a byte of the set. -/
def Starts (r : Rule) (p : UInt8 → Bool) : Prop :=
  ∀ input text rest, r input = some (text, rest) → ∃ b tail, text = b :: tail ∧ p b = true

/-- What the rule has taken in front of the first text it takes in front of the second one. -/
def Stable (r : Rule) (C : List UInt8 → List UInt8 → Prop) : Prop :=
  ∀ input text rest, r input = some (text, rest) →
    ∀ rest', C rest rest' → r (text ++ rest') = some (text, rest')

/-- No byte of the set comes next. -/
def Apart (p : UInt8 → Bool) (rest : List UInt8) : Prop := ∀ b ∈ rest.head?, p b = false

section stable
variable {r s : Rule} {p q : UInt8 → Bool} {C D : List UInt8 → List UInt8 → Prop}

theorem starts_set (p : UInt8 → Bool) : Starts (set p) p := by
  intro input text rest h
  rcases set_eq_some h with ⟨b, hb, rfl, -⟩
  exact ⟨b, [], rfl, hb⟩

theorem Starts.seq (hr : Starts r p) (s : Rule) : Starts (r.seq s) p := by
  intro input text rest h
  rcases seq_eq_some h with ⟨first, middle, second, hfirst, -, rfl⟩
  rcases hr _ _ _ hfirst with ⟨b, tail, rfl, hb⟩
  exact ⟨b, tail ++ second, rfl, hb⟩

theorem starts_many1 (p : UInt8 → Bool) : Starts (many1 p) p := (starts_set p).seq _

theorem Starts.mono (hr : Starts r p) (hpq : ∀ b, p b = true → q b = true) : Starts r q := by
  intro input text rest h
  rcases hr _ _ _ h with ⟨b, tail, htext, hb⟩
  exact ⟨b, tail, htext, hpq b hb⟩

theorem Starts.apart (hr : Starts r p) (hpq : ∀ b, p b = true → q b = false)
    {input text rest : List UInt8} (h : r input = some (text, rest)) (rest' : List UInt8) :
    Apart q (text ++ rest') := by
  rcases hr _ _ _ h with ⟨b, tail, rfl, hb⟩
  intro c hc
  cases hc
  exact hpq b hb

theorem Stable.mono (hr : Stable r C) (hcd : ∀ rest rest', D rest rest' → C rest rest') :
    Stable r D :=
  fun input text rest h rest' hd => hr input text rest h rest' (hcd rest rest' hd)

theorem stable_set (p : UInt8 → Bool) : Stable (set p) fun _ _ => True := by
  intro input text rest h rest' _
  rcases set_eq_some h with ⟨b, hb, rfl, -⟩
  exact if_pos hb

/-- What the second rule takes stands behind what the first one takes. -/
theorem Stable.seq (hr : Stable r C) (hs : Stable s D)
    (hcd : ∀ middle text rest, s middle = some (text, rest) → ∀ rest', D rest rest' →
      C middle (text ++ rest')) : Stable (r.seq s) D := by
  intro input text rest h rest' hd
  rcases seq_eq_some h with ⟨first, middle, second, hfirst, hsecond, rfl⟩
  have hfirst' := hr _ _ _ hfirst (second ++ rest') (hcd _ _ _ hsecond rest' hd)
  unfold Rule.seq
  rw [List.append_assoc, hfirst']
  dsimp only
  rw [hs _ _ _ hsecond rest' hd]

/-- The first rule takes the same whatever stands behind it. -/
theorem Stable.seq_right (hr : Stable r fun _ _ => True) (hs : Stable s D) : Stable (r.seq s) D :=
  hr.seq hs fun _ _ _ _ _ _ => trivial

theorem apart_of_many {input text rest : List UInt8} (h : many p input = some (text, rest)) :
    Apart p rest := by
  cases h
  induction input with
  | nil => rintro b ⟨⟩
  | cons b input ih =>
    by_cases hb : p b = true
    · rw [List.dropWhile_cons_of_pos hb]
      exact ih
    · rw [List.dropWhile_cons_of_neg hb]
      rintro c ⟨⟩
      exact Bool.eq_false_iff.2 hb

theorem stable_many (p : UInt8 → Bool) : Stable (many p) fun _ => Apart p :=
  fun _ _ _ h _ hrest' => many_append (many_eq_some h).1 hrest'

theorem stable_many1 (p : UInt8 → Bool) : Stable (many1 p) fun _ => Apart p :=
  (stable_set p).seq_right (stable_many p)

/-- Where the rule is left out, it could not have begun, and it cannot begin now. -/
theorem stable_optional (hr : Stable r C) (hstarts : Starts r p) :
    Stable (optional p r) fun rest rest' => Apart p rest' ∧ C rest rest' := by
  intro input text rest h rest' hrest'
  rcases optional_eq_some h with ⟨rfl, -⟩ | htext
  · cases rest' with
    | nil => rfl
    | cons c rest' =>
      have hc : p c = false := hrest'.1 c rfl
      change (if p c then r (c :: rest') else some ([], c :: rest')) = _
      rw [hc]
      rfl
  · rcases hstarts _ _ _ htext with ⟨b, tail, rfl, hb⟩
    have hoptional : optional p r (b :: tail ++ rest') = r (b :: tail ++ rest') := if_pos hb
    rw [hoptional]
    exact hr _ _ _ htext rest' hrest'.2

end stable
end Rule

/-! ## Prediction -/

namespace CyclicDfa
variable {d : CyclicDfa} {s s' alt : ℕ} {text rest : List UInt8}

theorem walk_append (text text' : List UInt8) :
    d.walk s (text ++ text') = (d.walk s text).bind fun s' => d.walk s' text' := by
  induction text generalizing s with
  | nil => rfl
  | cons b text ih =>
    rw [List.cons_append, walk, walk]
    split_ifs
    · exact ih
    · rfl

/-- A state that the bytes of a set lead back to. -/
theorem walk_loop {p : UInt8 → Bool} (hs : d.accept.getD s (-1) < 1)
    (hnext : ∀ b, p b = true → d.next s b.toNat = s) (htext : ∀ b ∈ text, p b = true) :
    d.walk s text = some s := by
  induction text with
  | nil => rfl
  | cons b text ih =>
    rcases List.forall_mem_cons.1 htext with ⟨hb, htext⟩
    have hnonneg : 0 ≤ d.next s b.toNat := by
      rw [hnext b hb]
      exact Int.natCast_nonneg s
    rw [walk, if_pos ⟨hs, hnonneg⟩, hnext b hb, Int.toNat_natCast]
    exact ih htext

/-- One byte and a loop behind it. -/
theorem walk_many1 {p : UInt8 → Bool} (hs : d.accept.getD s (-1) < 1)
    (hs' : d.accept.getD s' (-1) < 1)
    (hnext : ∀ b, p b = true → d.next s b.toNat = s' ∧ d.next s' b.toNat = s')
    (hne : text ≠ []) (htext : ∀ b ∈ text, p b = true) : d.walk s text = some s' := by
  cases text with
  | nil => exact absurd rfl hne
  | cons b text =>
    rcases List.forall_mem_cons.1 htext with ⟨hb, htext⟩
    have hnonneg : 0 ≤ d.next s b.toNat := by
      rw [(hnext b hb).1]
      exact Int.natCast_nonneg s'
    rw [walk, if_pos ⟨hs, hnonneg⟩, (hnext b hb).1, Int.toNat_natCast]
    exact walk_loop hs' (fun b hb => (hnext b hb).2) htext

/-- The letters in either case, from the upper ones. -/
def Spells (letters text : List UInt8) : Prop :=
  List.Forall₂ (fun upper b => b = upper ∨ b = upper + 32) letters text

/-- From the state on the letters lead on, in either case, and everything else leads to `other`;
behind the last one the bytes of words do. -/
inductive Branch (d : CyclicDfa) (isWord : UInt8 → Bool) (other : ℕ) : List UInt8 → ℕ → Prop where
  | last {s : ℕ} (hs : d.accept.getD s (-1) < 1)
    (hother : ∀ b, isWord b = true → d.next s b.toNat = other) : Branch d isWord other [] s
  | next {upper : UInt8} {letters : List UInt8} {s t : ℕ} (hs : d.accept.getD s (-1) < 1)
    (hupper : d.next s upper.toNat = t) (hlower : d.next s (upper + 32).toNat = t)
    (hend : d.next s (-1) = other)
    (hother : ∀ b : UInt8, b ≠ upper → b ≠ upper + 32 → d.next s b.toNat = other)
    (hword : isWord upper = true ∧ isWord (upper + 32) = true)
    (hletters : Branch d isWord other letters t) : Branch d isWord other (upper :: letters) s

/-- A word that is not spelled so leaves the way somewhere. -/
theorem Branch.leaves {isWord : UInt8 → Bool} {other : ℕ} {letters : List UInt8}
    (h : Branch d isWord other letters s) (hword : ∀ b ∈ text, isWord b = true)
    (hne : ¬ Spells letters text) (hrest : Rule.Apart isWord rest) :
    ∃ front back s', text ++ rest = front ++ back ∧ d.walk s front = some s' ∧
      d.accept.getD s' (-1) < 1 ∧ d.next s' (la back) = other := by
  induction h generalizing text with
  | last hs hother =>
    cases text with
    | nil => exact absurd .nil hne
    | cons b text =>
      exact ⟨[], b :: text ++ rest, _, rfl, rfl, hs, hother b (hword b List.mem_cons_self)⟩
  | @next upper letters s s' hs hupper hlower hend hother hupperWord hletters ih =>
    cases text with
    | nil =>
      refine ⟨[], rest, s, rfl, rfl, hs, ?_⟩
      cases rest with
      | nil => exact hend
      | cons c rest =>
        have hc : isWord c = false := hrest c rfl
        apply hother c
        · rintro rfl
          rw [hupperWord.1] at hc
          cases hc
        · rintro rfl
          rw [hupperWord.2] at hc
          cases hc
    | cons b text =>
      rcases List.forall_mem_cons.1 hword with ⟨-, htext⟩
      by_cases hb : b = upper ∨ b = upper + 32
      · have hnext : d.next s b.toNat = s' := by
          rcases hb with rfl | rfl
          · exact hupper
          · exact hlower
        rcases ih htext fun hspells => hne (.cons hb hspells) with
          ⟨front, back, s'', hinput, hwalk, haccept, hother⟩
        refine ⟨b :: front, back, s'', congrArg (b :: ·) hinput, ?_, haccept, hother⟩
        have hnonneg : 0 ≤ d.next s b.toNat := by
          rw [hnext]
          exact Int.natCast_nonneg s'
        rw [walk, if_pos ⟨hs, hnonneg⟩, hnext, Int.toNat_natCast]
        exact hwalk
      · rcases not_or.1 hb with ⟨hupper', hlower'⟩
        exact ⟨[], b :: text ++ rest, s, rfl, rfl, hs, hother b hupper' hlower'⟩

/-- The prediction of a word that leaves the way. -/
theorem Branch.predict {isWord : UInt8 → Bool} {other : ℕ} {letters : List UInt8}
    (h : Branch d isWord other letters s) {b : UInt8} (hfirst : d.walk 0 [b] = some s)
    (haccept : d.accept.getD other (-1) = alt) (halt : 1 ≤ alt)
    (hword : ∀ b ∈ text, isWord b = true) (hne : ¬ Spells letters text)
    (hrest : Rule.Apart isWord rest) : d.predict (b :: text ++ rest) = some alt := by
  rcases h.leaves hword hne hrest with ⟨front, back, s', hinput, hwalk, hs', hnext⟩
  have hpath : d.walk 0 ([b] ++ front) = some s' := by
    rw [walk_append, hfirst]
    exact hwalk
  have heq : b :: text ++ rest = [b] ++ front ++ back := by
    rw [List.append_assoc, ← hinput]
    rfl
  rw [heq]
  exact predict_walk_next hpath hs' hnext haccept halt

end CyclicDfa

/-! ## Hidden texts -/

/-- What a hidden channel is made of: blanks and comments. -/
structure Channel where
  isBlank : UInt8 → Bool
  comment : Rule
  first : UInt8 → Bool
  starts : comment.Starts first
  not_blank : ∀ b, first b = true → isBlank b = false
  stable : comment.Stable fun _ _ => True

/-- Blanks and comments in any order. -/
inductive Channel.Hidden (c : Channel) : List UInt8 → Prop where
  | nil : Hidden c []
  | blank {b : UInt8} {rest : List UInt8} (hb : c.isBlank b = true) (hrest : Hidden c rest) :
    Hidden c (b :: rest)
  | comment {input text behind rest : List UInt8} (htext : c.comment input = some (text, behind))
    (hrest : Hidden c rest) : Hidden c (text ++ rest)

/-- The lexer passes over what is hidden, over as many blanks as there are. -/
structure Lexer.Skips {T : Type} (l : Lexer T) (c : Channel) : Prop where
  blank : ∀ b rest, c.isBlank b = true → ∃ token,
    l.nextToken (b :: rest) = some (token, rest.dropWhile c.isBlank) ∧ l.visible token = false
  comment : ∀ input text rest, c.comment input = some (text, rest) → ∃ token,
    l.nextToken input = some (token, rest) ∧ l.visible token = false

section hidden
variable {T : Type} {l : Lexer T} {c : Channel} {text text' rest : List UInt8} {ts : List T}

theorem Channel.Hidden.append (h : c.Hidden text) (h' : c.Hidden text') :
    c.Hidden (text ++ text') := by
  induction h with
  | nil => exact h'
  | blank hb _ ih => exact .blank hb ih
  | comment htext _ ih =>
    rw [List.append_assoc]
    exact .comment htext ih

theorem Channel.hidden_blanks (h : ∀ b ∈ text, c.isBlank b = true) : c.Hidden text := by
  induction text with
  | nil => exact .nil
  | cons b text ih =>
    rcases List.forall_mem_cons.1 h with ⟨hb, htext⟩
    exact .blank hb (ih htext)

theorem Channel.hidden_comment {input behind : List UInt8}
    (h : c.comment input = some (text, behind)) : c.Hidden text := by
  have hcomment : c.Hidden (text ++ []) := .comment h .nil
  rw [List.append_nil] at hcomment
  exact hcomment

/-- What is hidden begins with a blank or like a comment. -/
theorem Channel.Hidden.starts (h : c.Hidden text) :
    text = [] ∨ ∃ b tail, text = b :: tail ∧ (c.isBlank b = true ∨ c.first b = true) := by
  cases h with
  | nil => exact Or.inl rfl
  | blank hb _ => exact Or.inr ⟨_, _, rfl, Or.inl hb⟩
  | comment htext _ =>
    rcases c.starts _ _ _ htext with ⟨b, tail, rfl, hb⟩
    exact Or.inr ⟨b, _, rfl, Or.inr hb⟩

/-- What is not hidden does not begin with a blank. -/
theorem Lexer.Skips.apart (h : l.Skips c) {token : T}
    (hnext : l.nextToken text = some (token, rest)) (hvisible : l.visible token = true) :
    Rule.Apart c.isBlank text := by
  intro b hb
  cases text with
  | nil => cases hb
  | cons b' tail =>
    have heq : b' = b := Option.some.inj hb
    rw [← heq, ← Bool.not_eq_true]
    intro hblank
    rcases h.blank b' tail hblank with ⟨token', hnext', hhidden⟩
    rw [hnext] at hnext'
    cases hnext'
    rw [hvisible] at hhidden
    cases hhidden

/-- Hidden texts do not change the tokens. The token of a blank takes the blanks behind it as well, so
that the tokens behind the blanks are said to be the same. -/
theorem Lexer.Skips.lexes_dropWhile (h : l.Skips c) (htext : c.Hidden text)
    (hapart : Rule.Apart c.isBlank rest) (hrest : l.Lexes rest ts) :
    l.Lexes (text ++ rest) ts ∧ l.Lexes ((text ++ rest).dropWhile c.isBlank) ts := by
  have hdrop : ∀ {input}, Rule.Apart c.isBlank input → input.dropWhile c.isBlank = input := by
    intro input hinput
    cases input with
    | nil => rfl
    | cons b input =>
      have hb : ¬ c.isBlank b = true := ne_true_of_eq_false (hinput b rfl)
      exact List.dropWhile_cons_of_neg hb
  induction htext with
  | nil =>
    rw [List.nil_append, hdrop hapart]
    exact ⟨hrest, hrest⟩
  | @blank b text hb _ ih =>
    rcases h.blank b (text ++ rest) hb with ⟨token, hnext, hvisible⟩
    have hle := (List.dropWhile_suffix (l := text ++ rest) c.isBlank).length_le
    rw [List.cons_append, List.dropWhile_cons_of_pos hb]
    exact ⟨ih.2.hidden hnext (Nat.lt_succ_of_le hle) hvisible, ih.2⟩
  | @comment input text behind text' htext _ ih =>
    have htext' := c.stable _ _ _ htext (text' ++ rest) trivial
    rcases h.comment _ _ _ htext' with ⟨token, hnext, hvisible⟩
    have hlt : (text' ++ rest).length < (text ++ (text' ++ rest)).length := by
      rcases c.starts _ _ _ htext with ⟨b, tail, rfl, -⟩
      simp only [List.cons_append, List.length_cons, List.length_append]
      omega
    rw [List.append_assoc, hdrop (c.starts.apart c.not_blank htext _)]
    exact ⟨ih.1.hidden hnext hlt hvisible, ih.1.hidden hnext hlt hvisible⟩

end hidden

/-! ## Tokens and what is hidden between them -/

section lexed
open Descent
variable {K : Type}

/-- Tokens as a lexer has found them; there is nothing behind the last one only. -/
inductive Lexed (c : Channel) (Found : Token K → List UInt8 → Prop) : List (Token K) → Prop where
  | nil : Lexed c Found []
  | cons {token : Token K} {tokens : List (Token K)} {behind : List UInt8}
    (hbefore : c.Hidden token.before) (hfound : Found token behind)
    (hlast : behind = [] → tokens = []) (htokens : Lexed c Found tokens) :
    Lexed c Found (token :: tokens)

variable {c : Channel} {Found : Token K → List UInt8 → Prop} {word rest : List (Token K)}

theorem Lexed.of_append (h : Lexed c Found (word ++ rest)) :
    Lexed c Found word ∧ Lexed c Found rest := by
  induction word with
  | nil => exact ⟨.nil, h⟩
  | cons token word ih =>
    cases h with
    | cons hbefore hfound hlast htokens =>
      rcases ih htokens with ⟨hword, hrest⟩
      exact ⟨.cons hbefore hfound (fun h => (List.append_eq_nil_iff.1 (hlast h)).1) hword, hrest⟩

/-- One of the tokens and those behind it. -/
theorem Lexed.of_suffix {token : Token K} {tokens : List (Token K)} (h : Lexed c Found tokens)
    (hsuffix : token :: rest <:+ tokens) :
    c.Hidden token.before ∧ ∃ behind, Found token behind ∧ (behind = [] → rest = []) := by
  rcases hsuffix with ⟨word, rfl⟩
  cases h.of_append.2 with
  | cons hbefore hfound hlast _ => exact ⟨hbefore, _, hfound, hlast⟩

theorem Lexed.of_mem {token : Token K} {tokens : List (Token K)} (h : Lexed c Found tokens)
    (hmem : token ∈ tokens) : c.Hidden token.before ∧ ∃ behind, Found token behind := by
  rcases List.mem_iff_append.1 hmem with ⟨word, rest, rfl⟩
  rcases h.of_suffix ⟨word, rfl⟩ with ⟨hbefore, behind, hfound, -⟩
  exact ⟨hbefore, behind, hfound⟩

/-- A lexer that shows all tokens has found those that are seen. -/
theorem lexed_attach {l : Lexer (K × List UInt8)} (visible : K → Bool)
    (hall : ∀ token, l.visible token = true)
    (hhidden : ∀ input type text rest, l.nextToken input = some ((type, text), rest) →
      visible type = false → c.Hidden text)
    (hfound : ∀ before input type text rest, l.nextToken input = some ((type, text), rest) →
      visible type = true → Found ⟨before, type, text⟩ rest) (fuel : ℕ) (input : List UInt8)
    {before : List UInt8} (hbefore : c.Hidden before) :
    Lexed c Found (attach visible before (l.tokens fuel input)) := by
  induction fuel generalizing input before with
  | zero => exact .nil
  | succ fuel ih =>
    cases input with
    | nil => exact .nil
    | cons b tail =>
      unfold Lexer.tokens
      cases hnext : l.nextToken (b :: tail) with
      | none => exact ih _ hbefore
      | some r =>
        rcases r with ⟨⟨type, text⟩, rest⟩
        dsimp only
        rw [if_pos (hall _), attach]
        split_ifs with hvisible
        · refine .cons hbefore (hfound before _ _ _ _ hnext hvisible) ?_ (ih rest .nil)
          rintro rfl
          cases fuel with
          | zero => rfl
          | succ fuel => rfl
        · have htext := hhidden _ _ _ _ hnext (Bool.eq_false_iff.2 hvisible)
          exact ih rest (hbefore.append htext)

/-- What holds of every byte of the tokens that a lexer finds holds of those that are seen. -/
theorem attach_forall {visible : K → Bool} {P : UInt8 → Prop} {ts : List (K × List UInt8)}
    (hts : ∀ token ∈ ts, ∀ b ∈ token.2, P b) {before : List UInt8} (hbefore : ∀ b ∈ before, P b) :
    ∀ token ∈ attach visible before ts, (∀ b ∈ token.before, P b) ∧ ∀ b ∈ token.text, P b := by
  induction ts generalizing before with
  | nil => exact fun token htoken => absurd htoken List.not_mem_nil
  | cons t ts ih =>
    rcases t with ⟨type, text⟩
    rcases List.forall_mem_cons.1 hts with ⟨htext, hts⟩
    rw [attach]
    split_ifs
    · exact List.forall_mem_cons.2 ⟨⟨hbefore, htext⟩,
        ih hts fun b hb => absurd hb List.not_mem_nil⟩
    · exact ih hts (List.forall_mem_append.2 ⟨hbefore, htext⟩)

/-- The texts of tokens, with what is hidden in front of each one. -/
def textBehind (tokens : List (Token K)) : List UInt8 :=
  tokens.flatMap fun token => token.before ++ token.text

theorem textBetween_forall {P : UInt8 → Prop} {tokens : List (Token K)}
    (h : ∀ token ∈ tokens, (∀ b ∈ token.before, P b) ∧ ∀ b ∈ token.text, P b) :
    ∀ b ∈ textBetween tokens, P b := by
  cases tokens with
  | nil => exact fun b hb => absurd hb List.not_mem_nil
  | cons token tokens =>
    rcases List.forall_mem_cons.1 h with ⟨htoken, htokens⟩
    intro b hb
    rcases List.mem_append.1 hb with hb | hb
    · exact htoken.2 b hb
    · rcases List.mem_flatMap.1 hb with ⟨token', hmem, hb⟩
      rcases List.mem_append.1 hb with hb | hb
      · exact (htokens token' hmem).1 b hb
      · exact (htokens token' hmem).2 b hb

theorem notMem_textBetween {b : UInt8} {tokens : List (Token K)}
    (h : ∀ token ∈ tokens, b ∉ token.before ∧ b ∉ token.text) : b ∉ textBetween tokens := by
  have hne : ∀ b' ∈ textBetween tokens, b' ≠ b := by
    apply textBetween_forall
    intro token htoken
    rcases h token htoken with ⟨hbefore, htext⟩
    exact ⟨fun b' hb heq => hbefore (heq ▸ hb), fun b' hb heq => htext (heq ▸ hb)⟩
  exact fun hmem => hne b hmem rfl

/-- Neither what is hidden nor the next token begins with a byte of the set. -/
theorem apart_textBehind {p : UInt8 → Bool} {tokens : List (Token K)}
    (hblank : ∀ b, c.isBlank b = true ∨ c.first b = true → p b = false)
    (htokens : ∀ token ∈ tokens.head?, c.Hidden token.before ∧
      ∃ b text, token.text = b :: text ∧ p b = false) : Rule.Apart p (textBehind tokens) := by
  intro b hb
  cases tokens with
  | nil => cases hb
  | cons token tokens =>
    rcases htokens token rfl with ⟨hbefore, b', text, htext, hp⟩
    have hinput : textBehind (token :: tokens) =
        token.before ++ (token.text ++ textBehind tokens) := List.append_assoc _ _ _
    rw [hinput] at hb
    rcases hbefore.starts with hnil | ⟨b'', tail, hcons, hfirst⟩
    · rw [hnil, htext] at hb
      cases hb
      exact hp
    · rw [hcons] at hb
      cases hb
      exact hblank _ hfirst

/-- Another lexer finds the same tokens in the texts, if it finds each one where it stands. -/
theorem lexes_texts {T : Type} {l : Lexer T} (hskips : l.Skips c) {f : Token K → T}
    {tokens : List (Token K)} (htokens : ∀ token ∈ tokens, c.Hidden token.before ∧ token.text ≠ [])
    (hnext : ∀ token rest, token :: rest <:+ tokens →
      l.nextToken (token.text ++ textBehind rest) = some (f token, textBehind rest) ∧
        l.visible (f token) = true) :
    l.Lexes (textBehind tokens) (tokens.map f) ∧ l.Lexes (textBetween tokens) (tokens.map f) := by
  induction tokens with
  | nil => exact ⟨Lexer.lexes_nil, Lexer.lexes_nil⟩
  | cons token tokens ih =>
    rcases List.forall_mem_cons.1 htokens with ⟨⟨hbefore, hne⟩, htokens⟩
    rcases hnext token tokens (List.suffix_refl _) with ⟨hfound, hvisible⟩
    have hbehind := (ih htokens fun token rest hsuffix =>
      hnext token rest (hsuffix.trans (List.suffix_cons _ _))).1
    have hlt : (textBehind tokens).length < (token.text ++ textBehind tokens).length := by
      have hpos := List.length_pos_of_ne_nil hne
      rw [List.length_append]
      omega
    have hlexes : l.Lexes (token.text ++ textBehind tokens) (f token :: tokens.map f) :=
      hbehind.cons hfound hlt hvisible
    refine ⟨?_, hlexes⟩
    have hhidden := (hskips.lexes_dropWhile hbefore (hskips.apart hfound hvisible) hlexes).1
    rw [← List.append_assoc] at hhidden
    exact hhidden

end lexed
end Lexing
