import Mathlib.Data.List.Infix

set_option autoImplicit false

/-!
# Recursive descent with error recovery

The rules of a generated parser. An exception that has been set stays set, also where the runtime
goes on behind it. So a rule either takes the same tokens whatever happened before, or there is an
exception behind it. Every rule carries this with it, so that it is enough to say what a rule takes.
-/
namespace Descent

/-- A token, with the text that is hidden in front of it. -/
structure Token (K : Type) where
  before : List UInt8
  type : K
  text : List UInt8
  deriving DecidableEq

/-- The tokens that are seen, with the texts of the other ones in front of them. -/
def attach {K : Type} (visible : K → Bool) : List UInt8 → List (K × List UInt8) → List (Token K)
  | _, [] => []
  | before, (type, text) :: rest =>
    if visible type then ⟨before, type, text⟩ :: attach visible [] rest
    else attach visible (before ++ text) rest

/-- What is between the beginning of the first token and the end of the last one. -/
def textBetween {K : Type} : List (Token K) → List UInt8
  | [] => []
  | token :: rest => token.text ++ rest.flatMap fun token => token.before ++ token.text

/-- Where a rule stands: the tokens that are left, and whether an exception is set. -/
structure State (K : Type) where
  input : List (Token K)
  exception : Bool

/-- What a rule ends with, unless it throws: its value, if it has one, and where it stands. -/
abbrev Result (E K α : Type) : Type := Except E (Option α × State K)

section lawful
variable {E K α : Type}

/-- An exception is set, or one was thrown. -/
def Result.Spoiled : Result E K α → Prop
  | .error _ => True
  | .ok (_, s) => s.exception = true

/-- The rule takes what is in front of `rest`, whether an exception is set or not. -/
def Taken (run : State K → Result E K α) (input : List (Token K)) (a : α) (rest : List (Token K)) :
    Prop :=
  rest <:+ input ∧ ∀ exception, run ⟨input, exception⟩ = .ok (some a, ⟨rest, exception⟩)

def Lawful (run : State K → Result E K α) : Prop :=
  ∀ input, (∃ a rest, Taken run input a rest) ∨ ∀ exception, (run ⟨input, exception⟩).Spoiled

end lawful

/-- A rule. Where it has no value, the rules around it end as well; what it throws is thrown through
them. -/
structure Parser (E K α : Type) where
  run : State K → Result E K α
  lawful : Lawful run

namespace Parser
variable {E K α β : Type}

theorem lawful_pure (a : α) : Lawful fun s : State K => (.ok (some a, s) : Result E K α) :=
  fun input => Or.inl ⟨a, input, List.suffix_refl _, fun _ => rfl⟩

/-- Goes on where there is a value. -/
def andThen (f : α → State K → Result E K β) : Result E K α → Result E K β
  | .error e => .error e
  | .ok (none, s) => .ok (none, s)
  | .ok (some a, s) => f a s

theorem spoiled_andThen {f : α → State K → Result E K β} {r : Result E K α} (hr : r.Spoiled)
    (hf : ∀ a s, s.exception = true → (f a s).Spoiled) : (andThen f r).Spoiled := by
  cases r with
  | error e => trivial
  | ok r =>
    rcases r with ⟨a, s⟩
    cases a with
    | none => exact hr
    | some a => exact hf a s hr

theorem spoiled_run (p : Parser E K α) {s : State K} (hs : s.exception = true) :
    (p.run s).Spoiled := by
  rcases s with ⟨input, exception⟩
  rcases p.lawful input with ⟨a, rest, htaken⟩ | hspoiled
  · rw [htaken.2]
    exact hs
  · exact hspoiled exception

theorem lawful_bind (p : Parser E K α) (f : α → Parser E K β) :
    Lawful fun s => andThen (fun a => (f a).run) (p.run s) := by
  intro input
  rcases p.lawful input with ⟨a, middle, hsuffix, hrun⟩ | hspoiled
  · rcases (f a).lawful middle with ⟨b, rest, hsuffix', hrun'⟩ | hspoiled
    · refine Or.inl ⟨b, rest, hsuffix'.trans hsuffix, fun exception => ?_⟩
      dsimp only
      rw [hrun exception]
      exact hrun' exception
    · refine Or.inr fun exception => ?_
      dsimp only
      rw [hrun exception]
      exact hspoiled exception
  · exact Or.inr fun exception =>
      spoiled_andThen (hspoiled exception) fun a s hs => (f a).spoiled_run hs

instance : Monad (Parser E K) where
  pure a := ⟨fun s => .ok (some a, s), lawful_pure a⟩
  bind p f := ⟨fun s => andThen (fun a => (f a).run) (p.run s), lawful_bind p f⟩

/-! ## The rules of the runtime -/

/-- The type of the next token; there is none at the end. -/
def nextType (input : List (Token K)) : Option K := input.head?.map Token.type

def nextText (input : List (Token K)) : List UInt8 := (input.head?.map Token.text).getD []

theorem lawful_look (f : List (Token K) → α) :
    Lawful fun s : State K => (.ok (some (f s.input), s) : Result E K α) :=
  fun input => Or.inl ⟨f input, input, List.suffix_refl _, fun _ => rfl⟩

/-- Something that is read off the tokens. -/
def look (f : List (Token K) → α) : Parser E K α :=
  ⟨fun s => .ok (some (f s.input), s), lawful_look f⟩

/-- `LA(1)`. -/
def la : Parser E K (Option K) := look nextType

/-- `LA(2)`. -/
def la2 : Parser E K (Option K) := look fun input => nextType input.tail

/-- Every round of a loop takes a token. -/
def rounds : Parser E K ℕ := look fun input => input.length + 1

theorem lawful_consume : Lawful fun s : State K =>
    (.ok (some (nextText s.input), { s with input := s.input.tail }) : Result E K _) :=
  fun input => Or.inl ⟨nextText input, input.tail, List.tail_suffix _, fun _ => rfl⟩

/-- A token that has been looked at is taken. -/
def consume : Parser E K (List UInt8) :=
  ⟨fun s => .ok (some (nextText s.input), { s with input := s.input.tail }), lawful_consume⟩

theorem lawful_noViableAlt :
    Lawful fun s : State K => (.ok (none, { s with exception := true }) : Result E K α) :=
  fun _ => Or.inr fun _ => rfl

/-- No alternative begins with the next token. A loop that is given too few rounds ends here, too. -/
def noViableAlt : Parser E K α :=
  ⟨fun s => .ok (none, { s with exception := true }), lawful_noViableAlt⟩

theorem lawful_raise (r : Except E α) : Lawful fun s : State K => r.map fun a => (some a, s) := by
  intro input
  cases r with
  | error e => exact Or.inr fun _ => trivial
  | ok a => exact Or.inl ⟨a, input, List.suffix_refl _, fun _ => rfl⟩

/-- What an action computes or throws. -/
def raise (r : Except E α) : Parser E K α :=
  ⟨fun s => r.map fun a => (some a, s), lawful_raise r⟩

theorem lawful_textOf (p : Parser E K Unit) : Lawful fun s => andThen (fun _ s' =>
    (.ok (some (textBetween (s.input.take (s.input.length - s'.input.length))), s') :
      Result E K _)) (p.run s) := by
  intro input
  rcases p.lawful input with ⟨a, rest, hsuffix, hrun⟩ | hspoiled
  · refine Or.inl ⟨textBetween (input.take (input.length - rest.length)), rest, hsuffix,
      fun exception => ?_⟩
    dsimp only
    rw [hrun exception]
    rfl
  · exact Or.inr fun exception => spoiled_andThen (hspoiled exception) fun _ _ hs => hs

/-- `$rule.text`, from the token that is next to the one that was taken last. -/
def textOf (p : Parser E K Unit) : Parser E K (List UInt8) :=
  ⟨fun s => andThen (fun _ s' =>
    .ok (some (textBetween (s.input.take (s.input.length - s'.input.length))), s')) (p.run s),
    lawful_textOf p⟩

end Parser

/-- What the runtime does on errors; `F` are the follow sets. -/
structure Recovery (F K : Type) where
  /-- With the follow sets on the stack, that of the expected token, its type and the tokens that
  are left: the text of the token that stands for the expected one and how many tokens are passed
  over, if it goes on. -/
  recoverFromMismatchedToken : List F → F → Option K → List (Token K) → Option (List UInt8 × ℕ)
  /-- The same where one token of a set is expected. -/
  recoverFromMismatchedSet : List F → F → List (Token K) → Option ℕ

namespace Parser
variable {E F K α β : Type} [DecidableEq K]

section recovery
variable (recovery : Recovery F K) (stack : List F)

/-- `MATCHT`; the end of the input has no type. -/
def matchRun (type : Option K) (follow : F) (s : State K) : Result E K (List UInt8) :=
  if nextType s.input = type then .ok (some (nextText s.input), { s with input := s.input.tail })
  else
    match recovery.recoverFromMismatchedToken stack follow type s.input with
    | some (text, n) => .ok (some text, ⟨s.input.drop n, true⟩)
    | none => .ok (none, { s with exception := true })

theorem lawful_matchRun (type : Option K) (follow : F) :
    Lawful (matchRun (E := E) recovery stack type follow) := by
  intro input
  by_cases h : nextType input = type
  · exact Or.inl ⟨nextText input, input.tail, List.tail_suffix _, fun _ => if_pos h⟩
  · refine Or.inr fun exception => ?_
    unfold matchRun
    rw [if_neg h]
    split <;> exact rfl

def matchT (type : Option K) (follow : F) : Parser E K (List UInt8) :=
  ⟨matchRun recovery stack type follow, lawful_matchRun recovery stack type follow⟩

/-- One token of a set. Where the runtime goes on without it, the rule itself ends. -/
def matchSetRun (types : List K) (follow : F) (s : State K) : Result E K (Option (List UInt8)) :=
  if nextType s.input ∈ types.map some then
    .ok (some (some (nextText s.input)), { s with input := s.input.tail })
  else
    match recovery.recoverFromMismatchedSet stack follow s.input with
    | some n => .ok (some none, ⟨s.input.drop n, true⟩)
    | none => .ok (none, { s with exception := true })

theorem lawful_matchSetRun (types : List K) (follow : F) :
    Lawful (matchSetRun (E := E) recovery stack types follow) := by
  intro input
  by_cases h : nextType input ∈ types.map some
  · exact Or.inl ⟨some (nextText input), input.tail, List.tail_suffix _, fun _ => if_pos h⟩
  · refine Or.inr fun exception => ?_
    unfold matchSetRun
    rw [if_neg h]
    split <;> exact rfl

def matchSet (types : List K) (follow : F) : Parser E K (Option (List UInt8)) :=
  ⟨matchSetRun recovery stack types follow, lawful_matchSetRun recovery stack types follow⟩

end recovery

/-- While the next token is a separator, a round takes it and what stands behind it. -/
def loopRounds (type : K) (item : α → Parser E K α) : ℕ → α → Parser E K α
  | 0, _ => noViableAlt
  | n + 1, a => do
    if (← la) = some type then do
      let _ ← consume
      let b ← item a
      loopRounds type item n b
    else pure a

/-- `( type item )*`, with a value that every round changes. -/
def loop (type : K) (item : α → Parser E K α) (a : α) : Parser E K α := do
  let n ← rounds
  loopRounds type item n a

/-! ## What a rule takes -/

section takes
variable {E K α β : Type}

def Takes (p : Parser E K α) (input : List (Token K)) (a : α) (rest : List (Token K)) : Prop :=
  Taken p.run input a rest

variable {p : Parser E K α} {f : α → Parser E K β} {input rest middle : List (Token K)} {a : α}
variable {b : β} {text : List UInt8}

theorem Takes.suffix (h : p.Takes input a rest) : rest <:+ input := h.1

theorem takes_unique {a' : α} {rest' : List (Token K)} (h : p.Takes input a rest)
    (h' : p.Takes input a' rest') : a' = a ∧ rest' = rest := by
  have heq := (h'.2 false).symm.trans (h.2 false)
  simp only [Except.ok.injEq, Prod.mk.injEq, Option.some.injEq, State.mk.injEq, and_true] at heq
  exact heq

theorem Takes.iff {a' : α} {rest' : List (Token K)} (h : p.Takes input a rest) :
    p.Takes input a' rest' ↔ a' = a ∧ rest' = rest := by
  constructor
  · exact takes_unique h
  · rintro ⟨rfl, rfl⟩
    exact h

theorem not_takes (h : ∀ exception, (p.run ⟨input, exception⟩).Spoiled) :
    ¬ p.Takes input a rest := by
  intro htakes
  have hspoiled := h false
  rw [htakes.2 false] at hspoiled
  exact absurd hspoiled Bool.false_ne_true

/-- Without an exception behind it a rule has taken something. -/
theorem takes_of_run {r : Option α} (h : p.run ⟨input, false⟩ = .ok (r, ⟨rest, false⟩)) :
    ∃ a, r = some a ∧ p.Takes input a rest := by
  rcases p.lawful input with ⟨a, rest', htaken⟩ | hspoiled
  · have heq := h.symm.trans (htaken.2 false)
    cases heq
    exact ⟨a, rfl, htaken⟩
  · have hexception := hspoiled false
    rw [h] at hexception
    exact absurd hexception Bool.false_ne_true

@[simp] theorem takes_pure {a' : α} :
    (pure a : Parser E K α).Takes input a' rest ↔ a' = a ∧ rest = input :=
  Takes.iff ⟨List.suffix_refl _, fun _ => rfl⟩

theorem Takes.bind (h : p.Takes input a middle) (h' : (f a).Takes middle b rest) :
    (p >>= f).Takes input b rest := by
  refine ⟨h'.1.trans h.1, fun exception => ?_⟩
  change andThen (fun a => (f a).run) (p.run ⟨input, exception⟩) = _
  rw [h.2 exception]
  exact h'.2 exception

/-- What two rules take one after the other. -/
@[simp] theorem takes_bind :
    (p >>= f).Takes input b rest ↔
      ∃ a middle, p.Takes input a middle ∧ (f a).Takes middle b rest := by
  constructor
  · intro h
    rcases p.lawful input with ⟨a, middle, htaken⟩ | hspoiled
    · refine ⟨a, middle, htaken, ?_⟩
      rcases (f a).lawful middle with ⟨b', rest', htaken'⟩ | hspoiled'
      · rcases takes_unique h (Takes.bind htaken htaken') with ⟨rfl, rfl⟩
        exact htaken'
      · refine absurd h (not_takes fun exception => ?_)
        change (andThen (fun a => (f a).run) (p.run ⟨input, exception⟩)).Spoiled
        rw [htaken.2 exception]
        exact hspoiled' exception
    · exact absurd h (not_takes fun exception =>
        spoiled_andThen (hspoiled exception) fun a s hs => (f a).spoiled_run hs)
  · rintro ⟨a, middle, h, h'⟩
    exact h.bind h'

@[simp] theorem takes_look {g : List (Token K) → α} :
    (look g : Parser E K α).Takes input a rest ↔ a = g input ∧ rest = input :=
  Takes.iff ⟨List.suffix_refl _, fun _ => rfl⟩

@[simp] theorem takes_la {type : Option K} :
    (la : Parser E K (Option K)).Takes input type rest ↔ type = nextType input ∧ rest = input :=
  takes_look

/-- What is next decides. -/
theorem takes_la_bind {f : Option K → Parser E K β} :
    (la >>= f).Takes input b rest ↔ (f (nextType input)).Takes input b rest := by
  rw [takes_bind]
  constructor
  · rintro ⟨_, _, hla, h⟩
    rcases takes_la.1 hla with ⟨rfl, rfl⟩
    exact h
  · exact fun h => ⟨_, _, takes_la.2 ⟨rfl, rfl⟩, h⟩

@[simp] theorem takes_la2 {type : Option K} : (la2 : Parser E K (Option K)).Takes input type rest ↔
    type = nextType input.tail ∧ rest = input :=
  takes_look

@[simp] theorem takes_rounds {n : ℕ} :
    (rounds : Parser E K ℕ).Takes input n rest ↔ n = input.length + 1 ∧ rest = input :=
  takes_look

@[simp] theorem takes_consume : (consume : Parser E K (List UInt8)).Takes input text rest ↔
    text = nextText input ∧ rest = input.tail :=
  Takes.iff ⟨List.tail_suffix _, fun _ => rfl⟩

@[simp] theorem takes_noViableAlt : ¬ (noViableAlt : Parser E K α).Takes input a rest :=
  not_takes fun _ => rfl

@[simp] theorem takes_raise {r : Except E α} :
    (raise r : Parser E K α).Takes input a rest ↔ r = .ok a ∧ rest = input := by
  cases r with
  | error e => exact iff_of_false (not_takes fun _ => trivial) fun h => by cases h.1
  | ok a' =>
    have htakes : (raise (.ok a') : Parser E K α).Takes input a' input :=
      ⟨List.suffix_refl _, fun _ => rfl⟩
    rw [htakes.iff, Except.ok.injEq, eq_comm (a := a)]

theorem take_of_suffix {word : List (Token K)} (h : input = word ++ rest) :
    input.take (input.length - rest.length) = word := by
  rw [h, List.length_append, Nat.add_sub_cancel, List.take_left]

@[simp] theorem takes_textOf {p : Parser E K Unit} : p.textOf.Takes input text rest ↔
    p.Takes input () rest ∧ ∃ word, input = word ++ rest ∧ text = textBetween word := by
  have htext : ∀ {rest}, p.Takes input () rest →
      p.textOf.Takes input (textBetween (input.take (input.length - rest.length))) rest := by
    intro rest h
    refine ⟨h.1, fun exception => ?_⟩
    change andThen _ (p.run ⟨input, exception⟩) = _
    rw [h.2 exception]
    rfl
  constructor
  · intro h
    rcases p.lawful input with ⟨_, rest', htaken⟩ | hspoiled
    · rcases takes_unique (htext htaken) h with ⟨rfl, rfl⟩
      rcases htaken.1 with ⟨word, hword⟩
      exact ⟨htaken, word, hword.symm, by rw [take_of_suffix hword.symm]⟩
    · exact absurd h (not_takes fun exception =>
        spoiled_andThen (hspoiled exception) fun _ _ hs => hs)
  · rintro ⟨h, word, hword, rfl⟩
    have htakes := htext h
    rw [take_of_suffix hword] at htakes
    exact htakes

end takes

section matching
variable {recovery : Recovery F K} {stack : List F} {follow : F} {input rest : List (Token K)}
variable {text : List UInt8}

theorem takes_matchT_type {type : Option K} :
    (matchT recovery stack type follow : Parser E K _).Takes input text rest ↔
      nextType input = type ∧ text = nextText input ∧ rest = input.tail := by
  by_cases h : nextType input = type
  · have htakes : (matchT recovery stack type follow : Parser E K _).Takes input (nextText input)
        input.tail := ⟨List.tail_suffix _, fun _ => if_pos h⟩
    rw [htakes.iff]
    exact (and_iff_right h).symm
  · refine iff_of_false (not_takes fun exception => ?_) fun h' => h h'.1
    change (matchRun recovery stack type follow ⟨input, exception⟩).Spoiled
    unfold matchRun
    rw [if_neg h]
    split <;> exact rfl

@[simp] theorem takes_matchT {type : K} :
    (matchT recovery stack (some type) follow : Parser E K _).Takes input text rest ↔
      ∃ before, input = ⟨before, type, text⟩ :: rest := by
  rw [takes_matchT_type]
  constructor
  · rintro ⟨htype, rfl, rfl⟩
    cases input with
    | nil => cases htype
    | cons token rest =>
      cases htype
      exact ⟨token.before, rfl⟩
  · rintro ⟨before, rfl⟩
    exact ⟨rfl, rfl, rfl⟩

/-- The same about the token. -/
theorem takes_matchT_token {type : K} :
    (matchT recovery stack (some type) follow : Parser E K _).Takes input text rest ↔
      ∃ token, token.type = type ∧ text = token.text ∧ input = token :: rest := by
  rw [takes_matchT]
  constructor
  · rintro ⟨before, rfl⟩
    exact ⟨_, rfl, rfl, rfl⟩
  · rintro ⟨⟨before, _, _⟩, rfl, rfl, rfl⟩
    exact ⟨before, rfl⟩

@[simp] theorem takes_matchEnd :
    (matchT recovery stack none follow : Parser E K _).Takes input text rest ↔
      input = [] ∧ text = [] ∧ rest = [] := by
  rw [takes_matchT_type]
  cases input with
  | nil => simp [nextType, nextText]
  | cons token input => simp [nextType]

@[simp] theorem takes_matchSet {types : List K} {found : Option (List UInt8)} :
    (matchSet recovery stack types follow : Parser E K _).Takes input found rest ↔
      ∃ token, token.type ∈ types ∧ found = some token.text ∧ input = token :: rest := by
  by_cases h : nextType input ∈ types.map some
  · have htakes : (matchSet recovery stack types follow : Parser E K _).Takes input
        (some (nextText input)) input.tail := ⟨List.tail_suffix _, fun _ => if_pos h⟩
    rw [htakes.iff]
    cases input with
    | nil => simp [nextType] at h
    | cons token input =>
      have htype : token.type ∈ types := by simpa [nextType] using h
      constructor
      · rintro ⟨rfl, rfl⟩
        exact ⟨token, htype, rfl, rfl⟩
      · rintro ⟨token', -, rfl, heq⟩
        cases heq
        exact ⟨rfl, rfl⟩
  · refine iff_of_false (not_takes fun exception => ?_) ?_
    · change (matchSetRun recovery stack types follow ⟨input, exception⟩).Spoiled
      unfold matchSetRun
      rw [if_neg h]
      split <;> exact rfl
    · rintro ⟨token, htype, -, rfl⟩
      exact h (List.mem_map_of_mem htype)

end matching

/-! ## Loops -/

section loops
variable {type : K} {item : α → Parser E K α} {a b : α} {input rest : List (Token K)}

/-- What the rounds of a loop take, one after the other. -/
inductive Rounds (type : K) (item : α → Parser E K α) :
    α → List (Token K) → α → List (Token K) → Prop where
  | stop {a : α} {input : List (Token K)} (h : nextType input ≠ some type) :
    Rounds type item a input a input
  | next {a b c : α} {token : Token K} {input middle rest : List (Token K)} (htype : token.type = type)
    (hitem : (item a).Takes input b middle) (hrounds : Rounds type item b middle c rest) :
    Rounds type item a (token :: input) c rest

theorem takes_loopRounds {n : ℕ} (hn : input.length < n) :
    (loopRounds type item n a).Takes input b rest ↔ Rounds type item a input b rest := by
  induction n generalizing a input with
  | zero => exact absurd hn (Nat.not_lt_zero _)
  | succ n ih =>
    have hunfold : (loopRounds type item (n + 1) a).Takes input b rest ↔
        (if nextType input = some type then do
          let _ ← consume
          let b ← item a
          loopRounds type item n b
        else pure a : Parser E K α).Takes input b rest := by
      rw [loopRounds, takes_la_bind]
    rw [hunfold]
    by_cases h : nextType input = some type
    · rw [if_pos h]
      cases input with
      | nil => cases h
      | cons token input =>
        have htype : token.type = type := Option.some.inj h
        simp only [takes_bind, takes_consume, List.tail_cons]
        constructor
        · rintro ⟨_, _, ⟨-, rfl⟩, b', middle, hitem, hrounds⟩
          have hle := hitem.suffix.length_le
          rw [List.length_cons] at hn
          exact .next htype hitem ((ih (by omega)).1 hrounds)
        · intro hrounds
          cases hrounds with
          | stop hne => exact absurd h hne
          | @next _ b' _ _ _ middle _ _ hitem hrounds =>
            have hle := hitem.suffix.length_le
            rw [List.length_cons] at hn
            exact ⟨_, input, ⟨rfl, rfl⟩, b', middle, hitem, (ih (by omega)).2 hrounds⟩
    · rw [if_neg h, takes_pure]
      constructor
      · rintro ⟨rfl, rfl⟩
        exact .stop h
      · intro hrounds
        cases hrounds with
        | stop => exact ⟨rfl, rfl⟩
        | next htype => exact absurd (congrArg some htype) h

@[simp] theorem takes_loop :
    (loop type item a).Takes input b rest ↔ Rounds type item a input b rest := by
  unfold loop
  simp only [takes_bind, takes_rounds]
  constructor
  · rintro ⟨n, _, ⟨rfl, rfl⟩, h⟩
    exact (takes_loopRounds (Nat.lt_succ_self _)).1 h
  · intro h
    exact ⟨_, input, ⟨rfl, rfl⟩, (takes_loopRounds (Nat.lt_succ_self _)).2 h⟩

omit [DecidableEq K] in
theorem Rounds.suffix (h : Rounds type item a input b rest) : rest <:+ input := by
  induction h with
  | stop => exact List.suffix_refl _
  | next _ hitem _ ih => exact (ih.trans hitem.suffix).trans (List.suffix_cons _ _)

end loops

/-! ## One token ahead -/

section ahead
variable {E K α β : Type}

/-- What the rule takes depends on the next token behind it at most. -/
def Local (p : Parser E K α) : Prop :=
  ∀ input a rest, p.Takes input a rest → ∃ word, input = word ++ rest ∧
    ∀ rest', nextType rest' = nextType rest → p.Takes (word ++ rest') a rest'

/-- What the rule takes does not depend on what stands behind it. -/
def Closed (p : Parser E K α) : Prop :=
  ∀ input a rest, p.Takes input a rest → ∃ word, word ≠ [] ∧ input = word ++ rest ∧
    ∀ rest', p.Takes (word ++ rest') a rest'

variable {p : Parser E K α} {f : α → Parser E K β}

theorem Closed.local (h : p.Closed) : p.Local := by
  intro input a rest htakes
  rcases h input a rest htakes with ⟨word, -, hword, htakes'⟩
  exact ⟨word, hword, fun rest' _ => htakes' rest'⟩

theorem local_pure (a : α) : (pure a : Parser E K α).Local := by
  intro input a' rest h
  rcases takes_pure.1 h with ⟨rfl, rfl⟩
  exact ⟨[], rfl, fun rest' _ => takes_pure.2 ⟨rfl, rfl⟩⟩

theorem closed_noViableAlt : (noViableAlt : Parser E K α).Closed :=
  fun _ _ _ h => absurd h takes_noViableAlt

theorem nextType_append {word rest rest' : List (Token K)} (h : nextType rest' = nextType rest) :
    nextType (word ++ rest') = nextType (word ++ rest) := by
  cases word with
  | nil => exact h
  | cons token word => rfl

theorem Local.bind (hp : p.Local) (hf : ∀ a, (f a).Local) : (p >>= f).Local := by
  intro input b rest h
  rcases takes_bind.1 h with ⟨a, middle, hfirst, hsecond⟩
  rcases hp _ _ _ hfirst with ⟨word, rfl, hfirst'⟩
  rcases hf _ _ _ _ hsecond with ⟨word', rfl, hsecond'⟩
  refine ⟨word ++ word', (List.append_assoc _ _ _).symm, fun rest' hnext => ?_⟩
  rw [List.append_assoc]
  exact (hfirst' _ (nextType_append hnext)).bind (hsecond' _ hnext)

/-- A rule that ends with a token does not look further. -/
theorem Local.bind_closed (hp : p.Local) (hf : ∀ a, (f a).Closed) : (p >>= f).Closed := by
  intro input b rest h
  rcases takes_bind.1 h with ⟨a, middle, hfirst, hsecond⟩
  rcases hp _ _ _ hfirst with ⟨word, rfl, hfirst'⟩
  rcases hf _ _ _ _ hsecond with ⟨word', hne, rfl, hsecond'⟩
  refine ⟨word ++ word', List.append_ne_nil_of_right_ne_nil _ hne,
    (List.append_assoc _ _ _).symm, fun rest' => ?_⟩
  have hnext : nextType (word' ++ rest') = nextType (word' ++ rest) := by
    cases word' with
    | nil => exact absurd rfl hne
    | cons token word' => rfl
  rw [List.append_assoc]
  exact (hfirst' _ hnext).bind (hsecond' rest')

theorem Closed.bind_pure {g : α → β} (hp : p.Closed) : (p >>= fun a => pure (g a)).Closed := by
  intro input b rest h
  rcases takes_bind.1 h with ⟨a, middle, hfirst, hpure⟩
  rcases takes_pure.1 hpure with ⟨rfl, rfl⟩
  rcases hp _ _ _ hfirst with ⟨word, hne, hword, hfirst'⟩
  exact ⟨word, hne, hword, fun rest' => (hfirst' rest').bind (takes_pure.2 ⟨rfl, rfl⟩)⟩

/-- The rules of the alternatives may be of either kind, depending on the next token. -/
theorem Local.la_bind {f : Option K → Parser E K β} (hf : ∀ type, (f type).Local) :
    (la >>= f).Local := by
  intro input b rest h
  rcases hf _ _ _ _ (takes_la_bind.1 h) with ⟨word, rfl, htakes⟩
  refine ⟨word, rfl, fun rest' hnext => takes_la_bind.2 ?_⟩
  rw [nextType_append hnext]
  exact htakes rest' hnext

theorem closed_la_bind {f : Option K → Parser E K β}
    (hf : ∀ input b rest, (f (nextType input)).Takes input b rest → ∃ word, word ≠ [] ∧
      input = word ++ rest ∧ ∀ rest', (f (nextType input)).Takes (word ++ rest') b rest') :
    (la >>= f).Closed := by
  intro input b rest h
  rcases hf _ _ _ (takes_la_bind.1 h) with ⟨word, hne, rfl, htakes⟩
  refine ⟨word, hne, rfl, fun rest' => takes_la_bind.2 ?_⟩
  have hnext : nextType (word ++ rest') = nextType (word ++ rest) := by
    cases word with
    | nil => exact absurd rfl hne
    | cons token word => rfl
  rw [hnext]
  exact htakes rest'

end ahead

section ahead
variable {E F K α : Type} [DecidableEq K] {recovery : Recovery F K} {stack : List F} {follow : F}

theorem closed_matchT {type : K} :
    (matchT recovery stack (some type) follow : Parser E K _).Closed := by
  intro input text rest h
  rcases takes_matchT.1 h with ⟨before, rfl⟩
  exact ⟨[⟨before, type, text⟩], List.cons_ne_nil _ _, rfl,
    fun rest' => takes_matchT.2 ⟨before, rfl⟩⟩

theorem closed_matchSet {types : List K} :
    (matchSet recovery stack types follow : Parser E K _).Closed := by
  intro input found rest h
  rcases takes_matchSet.1 h with ⟨token, htype, hfound, rfl⟩
  exact ⟨[token], List.cons_ne_nil _ _, rfl, fun rest' =>
    takes_matchSet.2 ⟨token, htype, hfound, rfl⟩⟩

theorem local_loop {type : K} {item : α → Parser E K α} (hitem : ∀ a, (item a).Local) (a : α) :
    (loop type item a).Local := by
  intro input b rest h
  have hrounds := takes_loop.1 h
  clear h
  suffices hword : ∃ word, input = word ++ rest ∧ ∀ rest', nextType rest' = nextType rest →
      Rounds type item a (word ++ rest') b rest' by
    rcases hword with ⟨word, hword, hrounds'⟩
    exact ⟨word, hword, fun rest' hnext => takes_loop.2 (hrounds' rest' hnext)⟩
  induction hrounds with
  | @stop a input hstop =>
    exact ⟨[], rfl, fun rest' hnext => .stop (hnext.trans_ne hstop)⟩
  | @next a b c token input middle rest htype htakes hrounds ih =>
    rcases ih with ⟨word', rfl, hrounds'⟩
    rcases hitem _ _ _ _ htakes with ⟨word, rfl, htakes'⟩
    refine ⟨token :: (word ++ word'), by simp, fun rest' hnext => ?_⟩
    rw [List.cons_append, List.append_assoc]
    exact .next htype (htakes' _ (nextType_append hnext)) (hrounds' rest' hnext)

end ahead

/-! ## The tokens that are taken -/

section gives
variable {E K α β : Type} {p : Parser E K α} {f : α → Parser E K β}
variable {P Q R : List (Token K) → Prop}

/-- What the rule takes has the property. -/
def Gives (p : Parser E K α) (P : List (Token K) → Prop) : Prop :=
  ∀ input a rest, p.Takes input a rest → ∃ word, input = word ++ rest ∧ P word

theorem gives_pure (a : α) (h : P []) : (pure a : Parser E K α).Gives P := by
  intro input b rest htakes
  rcases takes_pure.1 htakes with ⟨rfl, rfl⟩
  exact ⟨[], rfl, h⟩

theorem gives_noViableAlt : (noViableAlt : Parser E K α).Gives P :=
  fun _ _ _ h => absurd h takes_noViableAlt

theorem Gives.bind (hp : p.Gives P) (hf : ∀ a, (f a).Gives Q)
    (hword : ∀ word word', P word → Q word' → R (word ++ word')) : (p >>= f).Gives R := by
  intro input b rest h
  rcases takes_bind.1 h with ⟨a, middle, hfirst, hsecond⟩
  rcases hp _ _ _ hfirst with ⟨word, rfl, hP⟩
  rcases hf _ _ _ _ hsecond with ⟨word', rfl, hQ⟩
  exact ⟨word ++ word', (List.append_assoc _ _ _).symm, hword word word' hP hQ⟩

theorem Gives.la_bind {f : Option K → Parser E K β} (hf : ∀ type, (f type).Gives P) :
    (la >>= f).Gives P :=
  fun _ _ _ h => hf _ _ _ _ (takes_la_bind.1 h)

section matching
variable {F : Type} [DecidableEq K] {recovery : Recovery F K} {stack : List F} {follow : F}

/-- A token and what comes behind it. -/
theorem gives_matchT_bind {type : K} {f : List UInt8 → Parser E K β} (hf : ∀ text, (f text).Gives Q)
    (hword : ∀ before text word, Q word → P (⟨before, type, text⟩ :: word)) :
    (matchT recovery stack (some type) follow >>= f).Gives P := by
  intro input b rest h
  rcases takes_bind.1 h with ⟨text, middle, hmatch, hnext⟩
  rcases takes_matchT.1 hmatch with ⟨before, rfl⟩
  rcases hf _ _ _ _ hnext with ⟨word, rfl, hQ⟩
  exact ⟨⟨before, type, text⟩ :: word, rfl, hword before text word hQ⟩

theorem gives_matchSet_bind {types : List K} {f : Option (List UInt8) → Parser E K β}
    (hf : ∀ text, (f text).Gives Q)
    (hword : ∀ token word, token.type ∈ types → Q word → P (token :: word)) :
    (matchSet recovery stack types follow >>= f).Gives P := by
  intro input b rest h
  rcases takes_bind.1 h with ⟨text, middle, hmatch, hnext⟩
  rcases takes_matchSet.1 hmatch with ⟨token, htype, -, rfl⟩
  rcases hf _ _ _ _ hnext with ⟨word, rfl, hQ⟩
  exact ⟨token :: word, rfl, hword token word htype hQ⟩

theorem gives_loop {type : K} {item : α → Parser E K α} (hitem : ∀ a, (item a).Gives Q)
    (hnil : P []) (hnext : ∀ token word word', token.type = type → Q word → P word' →
      P (token :: (word ++ word'))) (a : α) : (loop type item a).Gives P := by
  intro input b rest h
  have hrounds := takes_loop.1 h
  clear h
  induction hrounds with
  | stop => exact ⟨[], rfl, hnil⟩
  | @next a b c token input middle rest htype htakes hrounds ih =>
    rcases ih with ⟨word', rfl, hP⟩
    rcases hitem _ _ _ _ htakes with ⟨word, rfl, hQ⟩
    exact ⟨token :: (word ++ word'), by simp, hnext token word word' htype hQ hP⟩

end matching
end gives

/-! ## Depth -/

section within
variable {E K α β : Type} {m : ℕ} {p p' : Parser E K α} {f f' : α → Parser E K β}

/-- What the first rule takes the second one takes, too, as long as it is not more than `m`
tokens. -/
def Within (m : ℕ) (p p' : Parser E K α) : Prop :=
  ∀ input a rest, p.Takes input a rest → input.length ≤ rest.length + m → p'.Takes input a rest

theorem within_refl (m : ℕ) (p : Parser E K α) : Within m p p := fun _ _ _ h _ => h

theorem Within.bind (hp : Within m p p') (hf : ∀ a, Within m (f a) (f' a)) :
    Within m (p >>= f) (p' >>= f') := by
  intro input b rest h hm
  rcases takes_bind.1 h with ⟨a, middle, hfirst, hsecond⟩
  have hle := hfirst.suffix.length_le
  have hle' := hsecond.suffix.length_le
  exact (hp _ _ _ hfirst (by omega)).bind (hf _ _ _ _ hsecond (by omega))

theorem Within.la_bind {f f' : Option K → Parser E K β} (hf : ∀ type, Within m (f type) (f' type)) :
    Within m (la >>= f) (la >>= f') :=
  fun _ _ _ h hm => takes_la_bind.2 (hf _ _ _ _ (takes_la_bind.1 h) hm)

/-- Behind a token there is one token less. -/
theorem Within.bind_closed (hp : p.Closed) (hf : ∀ a, Within m (f a) (f' a)) :
    Within (m + 1) (p >>= f) (p >>= f') := by
  intro input b rest h hm
  rcases takes_bind.1 h with ⟨a, middle, hfirst, hsecond⟩
  rcases hp _ _ _ hfirst with ⟨word, hne, hword, -⟩
  have hpos := List.length_pos_of_ne_nil hne
  rw [hword, List.length_append] at hm
  exact hfirst.bind (hf _ _ _ _ hsecond (by omega))

theorem within_loop [DecidableEq K] {type : K} {item item' : α → Parser E K α}
    (hitem : ∀ a, Within m (item a) (item' a)) (a : α) :
    Within m (loop type item a) (loop type item' a) := by
  intro input b rest h hm
  have hrounds := takes_loop.1 h
  clear h
  apply takes_loop.2
  induction hrounds with
  | stop hstop => exact .stop hstop
  | @next a b c token input middle rest htype htakes hrounds ih =>
    have hle := htakes.suffix.length_le
    have hle' := hrounds.suffix.length_le
    rw [List.length_cons] at hm
    exact .next htype (hitem _ _ _ _ htakes (by omega)) (ih (by omega))

end within
end Parser
end Descent
