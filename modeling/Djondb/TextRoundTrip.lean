import Djondb.BsonGrammarParser
import Djondb.BsonStream
import Djondb.TextTokens

set_option autoImplicit false

/-!
# Text round trip

A text has no types for its numbers: a number that fits an `int` is read as one. Apart from that,
what `toChar` prints is read back, if no number is negative, every quote in a string stands behind a
backslash, no string ends with a backslash, and the text fits into the buffer.
-/
namespace Djondb
open Lexing BsonGrammarLexer BsonGrammarParser

mutual

/-- A `long` that fits an `int` becomes one. -/
def BSONContent.narrow : BSONContent → BSONContent
  | .boolean v => .boolean v
  | .int v => .int v
  | .long v => if v.toInt ≤ 2 ^ 31 - 1 then .int (Int32.ofInt v.toInt) else .long v
  | .double bits => .double bits
  | .string s => .string s
  | .bson o => .bson o.narrow
  | .array a => .array a.narrow

def BSONObj.narrow : BSONObj → BSONObj
  | .empty => .empty
  | .field key c rest => .field key c.narrow rest.narrow

def BSONArrayObj.narrow : BSONArrayObj → BSONArrayObj
  | .empty => .empty
  | .item o rest => .item o.narrow rest.narrow

end

/-! ## Values -/

theorem unquote_quoted (s : CString) : unquote (quoted s) = s := by
  have hlen : (quoted s).length - 2 = s.bytes.length := by
    simp [quoted]
  unfold unquote
  rw [hlen]
  change CString.ofBytes ((s.bytes ++ [34]).take s.bytes.length) = s
  rw [List.take_left, CString.ofBytes_bytes]

theorem noNul_decimal (n : ℕ) : 0 ∉ decimal n := by
  intro h
  have hdigit := isDigit_of_mem_decimal h
  cases hdigit

theorem foldl_digits (cs : List Char) (h : ∀ c ∈ cs, c.isDigit = true) (n : ℕ) :
    (cs.map fun c => UInt8.ofNat c.toNat).foldl (fun n b => 10 * n + (b.toNat - 48)) n =
      Nat.ofDigitChars 10 cs n := by
  induction cs generalizing n with
  | nil => rw [Nat.ofDigitChars_nil, List.map_nil, List.foldl_nil]
  | cons c cs ih =>
    rcases List.forall_mem_cons.1 h with ⟨hc, hcs⟩
    rw [List.map_cons, List.foldl_cons, (toNat_digit hc).1, ih hcs, Nat.ofDigitChars_cons]
    rfl

theorem digitsValue_decimal (n : ℕ) : digitsValue (decimal n) = n := by
  have hall : (decimal n).takeWhile (fun b => 48 ≤ b && b ≤ 57) = decimal n :=
    List.takeWhile_eq_self_iff.2 fun b hb => isDigit_of_mem_decimal hb
  have hdigits : ∀ c ∈ Nat.toDigits 10 n, c.isDigit = true := fun c hc =>
    Nat.isDigit_of_mem_toDigits (by decide) (by decide) hc
  unfold digitsValue
  rw [hall]
  unfold decimal
  rw [foldl_digits _ hdigits, Nat.ofDigitChars_toDigits (by decide) (by decide)]

theorem isDigit_head_decimal {n : ℕ} {d : UInt8} {ds : List UInt8} (hn : decimal n = d :: ds) :
    isDigit d = true := by
  apply isDigit_of_mem_decimal (n := n)
  rw [hn]
  exact List.mem_cons_self

theorem atoll_digits {ds : List UInt8} (hne : ds ≠ []) (hds : ∀ d ∈ ds, isDigit d = true) :
    atoll (CString.ofBytes ds) = max (-2 ^ 63) (min (digitsValue ds : ℤ) (2 ^ 63 - 1)) := by
  have hnul : 0 ∉ ds := fun hmem => ne_of_isDigit (hds _ hmem) rfl rfl
  have hbytes : (CString.ofBytes ds).bytes = ds :=
    congrArg CString.bytes (CString.ofBytes_bytes ⟨ds, hnul⟩)
  unfold atoll
  rw [hbytes]
  cases ds with
  | nil => exact absurd rfl hne
  | cons d ds =>
    have hd : isDigit d = true := hds d List.mem_cons_self
    have hblank : ¬ (d = 32 || (9 ≤ d && d ≤ 13)) = true := by
      rcases isDigit_iff.1 hd with ⟨hle, -⟩
      simp only [Bool.or_eq_true, Bool.and_eq_true, decide_eq_true_eq]
      rw [← UInt8.toNat_inj, UInt8.le_iff_toNat_le, UInt8.le_iff_toNat_le]
      change ¬ (d.toNat = 32 ∨ 9 ≤ d.toNat ∧ d.toNat ≤ 13)
      omega
    rw [List.dropWhile_cons, if_neg hblank]
    dsimp only
    split
    · rename_i rest hrest
      exact absurd (List.cons.inj hrest).1 (ne_of_isDigit hd rfl)
    · rename_i rest hrest
      exact absurd (List.cons.inj hrest).1 (ne_of_isDigit hd rfl)
    · rfl

theorem atoll_decimal {n : ℕ} (h : n < 2 ^ 63) : atoll (CString.ofBytes (decimal n)) = n := by
  rw [atoll_digits (decimal_ne_nil n) fun _ hd => isDigit_of_mem_decimal hd, digitsValue_decimal]
  omega

theorem numberValue_formatInt {v : ℤ} (hv : 0 ≤ v) (hlt : v < 2 ^ 63) :
    numberValue (formatInt v) =
      if v ≤ 2 ^ 31 - 1 then .int (Int32.ofInt v) else .long (Int64.ofInt v) := by
  have hnat : (v.natAbs : ℤ) = v := Int.natAbs_of_nonneg hv
  have hatoll : atoll (CString.ofBytes (formatInt v)) = v := by
    rw [formatInt_of_nonneg hv, atoll_decimal (by omega), hnat]
  unfold numberValue
  rw [hatoll]

/-! ## Parsing the tokens -/

theorem BSONObj.length_le_fieldsTokens (o : BSONObj) :
    o.length ≤ (o.fieldsTokens false).length := by
  induction o with
  | empty => exact Nat.zero_le _
  | field key c o ih =>
    rw [BSONObj.fieldsTokens, List.length_append, List.length_append, List.length_append]
    change o.length + 1 ≤ 1 + _
    omega

theorem BSONArrayObj.length_le_itemsTokens (a : BSONArrayObj) :
    a.length ≤ (a.itemsTokens false).length := by
  induction a with
  | empty => exact Nat.zero_le _
  | item o a ih =>
    rw [BSONArrayObj.itemsTokens, List.length_append, List.length_append]
    change a.length + 1 ≤ 1 + _
    omega

section rules
variable {antlr : Antlr} {atof : CString → UInt64} {text : List UInt8} {rest : List Token}

theorem matchT_cons (stack : List Follow) (type : TokenType) (follow : Follow) :
    matchT antlr stack type follow (⟨type, text⟩ :: rest) = some rest := if_pos rfl

section steps
variable {inner : ExprRule} {stack : List Follow} {tokens tokens' tokens'' : List Token} {n : ℕ}

theorem arrayItems_comma {j2 : BSONObj} {items : BSONArrayObj}
    (hitem : inner (.json_expr_in_json_array_expr179 :: stack) tokens = some (j2, tokens'))
    (hitems : arrayItems inner stack n tokens' = some (items, tokens'')) :
    arrayItems inner stack (n + 1) (⟨.COMMA, text⟩ :: tokens) =
      some (.item j2 items, tokens'') := by
  change (inner (.json_expr_in_json_array_expr179 :: stack) tokens).bind _ = _
  rw [hitem, Option.bind_some]
  change (arrayItems inner stack n tokens').bind _ = _
  rw [hitems, Option.bind_some]

theorem jsonArrayExpr_items {j1 : BSONObj} {items : BSONArrayObj} {open_ close : List UInt8}
    (hitem : inner (.json_expr_in_json_array_expr167 :: stack) tokens = some (j1, tokens'))
    (hitems : arrayItems inner stack (tokens'.length + 1) tokens' =
      some (items, ⟨.RBRAK, close⟩ :: tokens'')) :
    jsonArrayExpr antlr inner stack (⟨.LBRAK, open_⟩ :: tokens) =
      some (.item j1 items, tokens'') := by
  unfold jsonArrayExpr
  rw [matchT_cons, Option.bind_eq_bind, Option.bind_some, hitem, Option.bind_eq_bind,
    Option.bind_some]
  dsimp only
  rw [hitems, Option.bind_eq_bind, Option.bind_some]
  dsimp only
  rw [matchT_cons]
  rfl

/-- A field with a quoted name. -/
theorem field_string {colon const : Follow} {obj : BSONObj} {key : CString} {v : BSONContent}
    (hvalue : jsonConst antlr atof inner (const :: stack) tokens = some (v, tokens')) :
    field antlr atof inner stack colon const obj
      (⟨.STRING, quoted key⟩ :: ⟨.COLON, text⟩ :: tokens) = some (obj.add key v, tokens') := by
  have hname : jsonFieldname (⟨.STRING, quoted key⟩ :: ⟨.COLON, text⟩ :: tokens) =
      some (key, ⟨.COLON, text⟩ :: tokens) := by
    change some (unquote (quoted key), _) = _
    rw [unquote_quoted]
  unfold field
  rw [hname, Option.bind_eq_bind, Option.bind_some]
  dsimp only
  rw [matchT_cons, Option.bind_eq_bind, Option.bind_some, hvalue]
  rfl

theorem fields_comma {obj obj' : BSONObj} {result : Option (BSONObj × List Token)}
    (hfield : field antlr atof inner stack .COLON_in_json_expr234 .json_const_in_json_expr238 obj
      tokens = some (obj', tokens'))
    (hfields : fields antlr atof inner stack n obj' tokens' = result) :
    fields antlr atof inner stack (n + 1) obj (⟨.COMMA, text⟩ :: tokens) = result := by
  change (field antlr atof inner stack _ _ obj tokens).bind _ = _
  rw [hfield, Option.bind_some]
  exact hfields

end steps

/-- `inner` reads the documents nested less than `n` deep. -/
def ParsesBelow (inner : ExprRule) (n : ℕ) : Prop :=
  ∀ o : BSONObj, o.plain = true → o.readable = true → o.fieldsWf = true → o.depth < n →
    ∀ stack rest, inner stack (o.tokens ++ rest) = some (o.narrow, rest)

section below
variable (antlr atof)

section
variable {inner : ExprRule} {n : ℕ} (hin : ParsesBelow inner n)
include hin

theorem arrayItems_tokens (a : BSONArrayObj) (hplain : a.itemsPlain = true)
    (hreadable : a.itemsReadable = true) (hw : a.itemsWf = true) (hd : a.depth < n)
    (stack : List Follow) {fuel : ℕ} (hfuel : a.length < fuel) (text : List UInt8)
    (rest : List Token) :
    arrayItems inner stack fuel (a.itemsTokens false ++ ⟨.RBRAK, text⟩ :: rest) =
      some (a.narrow, ⟨.RBRAK, text⟩ :: rest) := by
  induction a generalizing fuel with
  | empty =>
    cases fuel with
    | zero => exact absurd hfuel (Nat.not_lt_zero _)
    | succ fuel => rfl
  | item o a ih =>
    cases fuel with
    | zero => exact absurd hfuel (Nat.not_lt_zero _)
    | succ fuel =>
      rcases Bool.and_eq_true_iff.1 hplain with ⟨ho, ha⟩
      rcases Bool.and_eq_true_iff.1 hreadable with ⟨ho', ha'⟩
      rcases Bool.and_eq_true_iff.1 hw with ⟨how, haw⟩
      rcases Bool.and_eq_true_iff.1 how with ⟨-, how⟩
      rcases max_lt_iff.1 hd with ⟨hod, had⟩
      have hitem := hin o ho ho' how hod (.json_expr_in_json_array_expr179 :: stack)
        (a.itemsTokens false ++ ⟨.RBRAK, text⟩ :: rest)
      have hrest := ih ha ha' haw had (Nat.lt_of_succ_lt_succ hfuel)
      have htokens : (BSONArrayObj.item o a).itemsTokens false ++ ⟨.RBRAK, text⟩ :: rest =
          ⟨.COMMA, [44]⟩ :: (o.tokens ++ (a.itemsTokens false ++ ⟨.RBRAK, text⟩ :: rest)) := by
        rw [BSONArrayObj.itemsTokens]
        simp [BSONObj.tokens]
      rw [htokens]
      exact arrayItems_comma hitem hrest

theorem jsonConst_tokens (c : BSONContent) (hplain : c.plain = true)
    (hreadable : c.readable = true) (hw : c.wf = true) (hd : c.depth ≤ n) (stack : List Follow)
    (rest : List Token) :
    jsonConst antlr atof inner stack (c.tokens ++ rest) = some (c.narrow, rest) := by
  cases c with
  | boolean v => cases v <;> rfl
  | int v =>
    have hv : 0 ≤ v.toInt := of_decide_eq_true hreadable
    have hlt := Int32.toInt_lt v
    change some (numberValue (formatInt v.toInt), rest) = _
    rw [numberValue_formatInt hv (by omega), if_pos (by omega), Int32.ofInt_toInt]
    rfl
  | long v =>
    have hv : 0 ≤ v.toInt := of_decide_eq_true hreadable
    change some (numberValue (formatInt v.toInt), rest) = _
    rw [numberValue_formatInt hv (Int64.toInt_lt v), Int64.ofInt_toInt]
    rfl
  | double bits => cases hplain
  | string s =>
    change some (BSONContent.string (unquote (quoted s)), rest) = _
    rw [unquote_quoted]
    rfl
  | bson o =>
    have hwf : o.length < 2 ^ 31 ∧ o.fieldsWf = true := by simpa [BSONContent.wf] using hw
    have hinner := hin o hplain hreadable hwf.2 hd (.json_expr_in_json_const142 :: stack) rest
    exact Option.bind_eq_some_iff.2 ⟨_, hinner, rfl⟩
  | array a =>
    cases a with
    | empty => cases hplain
    | item o a =>
      have hwf : (BSONArrayObj.item o a).itemsWf = true := (Bool.and_eq_true_iff.1 hw).2
      rcases Bool.and_eq_true_iff.1 hplain with ⟨ho, ha⟩
      rcases Bool.and_eq_true_iff.1 hreadable with ⟨ho', ha'⟩
      rcases Bool.and_eq_true_iff.1 hwf with ⟨how, haw⟩
      rcases Bool.and_eq_true_iff.1 how with ⟨-, how⟩
      have hdepth : max o.depth a.depth < n := hd
      rcases max_lt_iff.1 hdepth with ⟨hod, had⟩
      have hitem := hin o ho ho' how hod
        (.json_expr_in_json_array_expr167 :: .json_array_expr_in_json_const136 :: stack)
        (a.itemsTokens false ++ ⟨.RBRAK, [93]⟩ :: rest)
      have hfuel : a.length < (a.itemsTokens false ++ ⟨.RBRAK, [93]⟩ :: rest).length + 1 := by
        have hle := a.length_le_itemsTokens
        rw [List.length_append]
        omega
      have hitems := arrayItems_tokens hin a ha ha' haw had
        (.json_array_expr_in_json_const136 :: stack) hfuel [93] rest
      have htokens : (BSONContent.array (.item o a)).tokens ++ rest = ⟨.LBRAK, [91]⟩ ::
          (o.tokens ++ (a.itemsTokens false ++ ⟨.RBRAK, [93]⟩ :: rest)) := by
        rw [BSONContent.tokens, BSONArrayObj.itemsTokens]
        simp [BSONObj.tokens]
      rw [htokens]
      exact Option.bind_eq_some_iff.2 ⟨_, jsonArrayExpr_items hitem hitems, rfl⟩

theorem fields_tokens (o : BSONObj) (hplain : o.plain = true) (hreadable : o.readable = true)
    (hw : o.fieldsWf = true) (hd : o.depth ≤ n) (stack : List Follow) {obj : BSONObj}
    (hbefore : obj.Before o) {fuel : ℕ} (hfuel : o.length < fuel) (text : List UInt8)
    (rest : List Token) :
    fields antlr atof inner stack fuel obj (o.fieldsTokens false ++ ⟨.RBRAN, text⟩ :: rest) =
      some (obj.append o.narrow, ⟨.RBRAN, text⟩ :: rest) := by
  induction o generalizing obj fuel with
  | empty =>
    cases fuel with
    | zero => exact absurd hfuel (Nat.not_lt_zero _)
    | succ fuel =>
      rw [BSONObj.narrow, BSONObj.append_empty]
      rfl
  | field key c o ih =>
    cases fuel with
    | zero => exact absurd hfuel (Nat.not_lt_zero _)
    | succ fuel =>
      rcases Bool.and_eq_true_iff.1 hplain with ⟨hc, ho⟩
      rcases Bool.and_eq_true_iff.1 hreadable with ⟨hreadable, ho'⟩
      rcases Bool.and_eq_true_iff.1 hreadable with ⟨-, hc'⟩
      rcases BSONObj.fieldsWf_field.1 hw with ⟨hlt, -, hcw, how⟩
      rcases max_le_iff.1 hd with ⟨hcd, hod⟩
      have hadd : obj.add key c.narrow = obj.append (.field key c.narrow .empty) :=
        obj.add_last key _ fun k hk => hbefore k hk key List.mem_cons_self
      have hbefore' : obj.Before (.field key c.narrow o) := hbefore
      have hvalue := jsonConst_tokens antlr atof hin c hc hc' hcw hcd
        (.json_const_in_json_expr238 :: stack) (o.fieldsTokens false ++ ⟨.RBRAN, text⟩ :: rest)
      have hrest := ih ho ho' how hod (BSONObj.before_snoc hbefore' hlt)
        (Nat.lt_of_succ_lt_succ hfuel)
      rw [BSONObj.append_assoc, ← hadd] at hrest
      have htokens : (BSONObj.field key c o).fieldsTokens false ++ ⟨.RBRAN, text⟩ :: rest =
          ⟨.COMMA, [44]⟩ :: ⟨.STRING, quoted key⟩ :: ⟨.COLON, [58]⟩ ::
            (c.tokens ++ (o.fieldsTokens false ++ ⟨.RBRAN, text⟩ :: rest)) := by
        rw [BSONObj.fieldsTokens]
        simp
      rw [htokens]
      exact fields_comma (field_string hvalue) hrest

end

/-- The first field and the loop over the others. -/
theorem fields_of_below {inner : ExprRule} {n : ℕ} (hin : ParsesBelow inner n) (o : BSONObj)
    (hplain : o.plain = true) (hreadable : o.readable = true) (hw : o.fieldsWf = true)
    (hd : o.depth ≤ n) (stack : List Follow) (rest : List Token) :
    ∃ obj tokens, firstField antlr atof inner stack
        (o.fieldsTokens true ++ ⟨.RBRAN, [125]⟩ :: rest) = some (obj, tokens) ∧
      fields antlr atof inner stack (tokens.length + 1) obj tokens =
        some (o.narrow, ⟨.RBRAN, [125]⟩ :: rest) := by
  cases o with
  | empty => exact ⟨.empty, _, rfl, rfl⟩
  | field key c o =>
    rcases Bool.and_eq_true_iff.1 hplain with ⟨hc, ho⟩
    rcases Bool.and_eq_true_iff.1 hreadable with ⟨hreadable, ho'⟩
    rcases Bool.and_eq_true_iff.1 hreadable with ⟨-, hc'⟩
    rcases BSONObj.fieldsWf_field.1 hw with ⟨hlt, -, hcw, how⟩
    rcases max_le_iff.1 hd with ⟨hcd, hod⟩
    have hvalue := jsonConst_tokens antlr atof hin c hc hc' hcw hcd
      (.json_const_in_json_expr217 :: stack) (o.fieldsTokens false ++ ⟨.RBRAN, [125]⟩ :: rest)
    have hbefore : (BSONObj.field key c.narrow .empty).Before o := by
      intro k hk k' hk'
      rw [List.mem_singleton.1 hk]
      exact hlt k' hk'
    have hfuel : o.length < (o.fieldsTokens false ++ ⟨.RBRAN, [125]⟩ :: rest).length + 1 := by
      have hle := o.length_le_fieldsTokens
      rw [List.length_append]
      omega
    have hfields := fields_tokens antlr atof hin o ho ho' how hod stack hbefore
      hfuel [125] rest
    refine ⟨.field key c.narrow .empty, _, ?_, hfields⟩
    have htokens : (BSONObj.field key c o).fieldsTokens true ++ ⟨.RBRAN, [125]⟩ :: rest =
        ⟨.STRING, quoted key⟩ :: ⟨.COLON, [58]⟩ ::
          (c.tokens ++ (o.fieldsTokens false ++ ⟨.RBRAN, [125]⟩ :: rest)) := by
      rw [BSONObj.fieldsTokens]
      simp
    rw [htokens]
    exact field_string hvalue

theorem jsonExpr_below (depth : ℕ) : ParsesBelow (jsonExpr antlr atof depth) depth := by
  induction depth with
  | zero => exact fun _ _ _ _ hd => absurd hd (Nat.not_lt_zero _)
  | succ depth ih =>
    intro o hplain hreadable hw hd stack rest
    rcases fields_of_below antlr atof ih o hplain hreadable hw
      (Nat.lt_succ_iff.1 hd) stack rest with ⟨obj, tokens, hfirst, hfields⟩
    have htokens : o.tokens ++ rest =
        ⟨.LBRAN, [123]⟩ :: (o.fieldsTokens true ++ ⟨.RBRAN, [125]⟩ :: rest) := by
      simp [BSONObj.tokens]
    rw [htokens, jsonExpr, matchT_cons, Option.bind_eq_bind, Option.bind_some, hfirst,
      Option.bind_eq_bind, Option.bind_some]
    dsimp only
    rw [hfields, Option.bind_some]
    dsimp only
    rw [matchT_cons]
    rfl

end below
end rules

/-! ## The round trip -/

mutual

theorem BSONContent.depth_le_tokens (c : BSONContent) : c.depth ≤ c.tokens.length := by
  cases c with
  | bson o =>
    have h := o.depth_le_fieldsTokens true
    simp only [BSONContent.depth, BSONContent.tokens, List.length_cons, List.length_append]
    omega
  | array a =>
    have h := a.depth_le_itemsTokens true
    simp only [BSONContent.depth, BSONContent.tokens, List.length_cons, List.length_append]
    omega
  | _ => exact Nat.zero_le _

theorem BSONObj.depth_le_fieldsTokens (o : BSONObj) (first : Bool) :
    o.depth ≤ (o.fieldsTokens first).length := by
  cases o with
  | empty => exact Nat.zero_le _
  | field key c rest =>
    have hc := c.depth_le_tokens
    have hrest := rest.depth_le_fieldsTokens false
    simp only [BSONObj.depth, BSONObj.fieldsTokens, List.length_append]
    omega

theorem BSONArrayObj.depth_le_itemsTokens (a : BSONArrayObj) (first : Bool) :
    a.depth ≤ (a.itemsTokens first).length := by
  cases a with
  | empty => exact Nat.zero_le _
  | item o rest =>
    have ho := o.depth_le_fieldsTokens true
    have hrest := rest.depth_le_itemsTokens false
    simp only [BSONArrayObj.depth, BSONArrayObj.itemsTokens, List.length_append, List.length_cons]
    omega

end

theorem startPoint_tokens {antlr : Antlr} {atof : CString → UInt64} {o : BSONObj}
    (hplain : o.plain = true) (hreadable : o.readable = true) (hw : o.fieldsWf = true) :
    startPoint antlr atof o.tokens = .value o.narrow := by
  have hdepth : o.depth < o.tokens.length + 1 := by
    have hle := o.depth_le_fieldsTokens true
    unfold BSONObj.tokens
    rw [List.length_cons, List.length_append]
    omega
  have hexpr := jsonExpr_below antlr atof _ o hplain hreadable hw hdepth
    [.json_expr_in_start_point69] []
  rw [List.append_nil] at hexpr
  unfold startPoint
  rw [hexpr]
  rfl

/-! ### The text is a C string -/

theorem noNul_formatInt (v : ℤ) : 0 ∉ formatInt v := by
  unfold formatInt
  split_ifs
  · intro h
    rcases List.mem_cons.1 h with h | h
    · cases h
    · exact noNul_decimal _ h
  · exact noNul_decimal _

theorem noNul_quoted (s : CString) : 0 ∉ quoted s := by
  intro h
  rcases List.mem_cons.1 h with h | h
  · cases h
  · rcases List.mem_append.1 h with h | h
    · exact s.noNul h
    · cases List.mem_singleton.1 h

theorem noNul_formatBool (v : Bool) : 0 ∉ formatBool v := by
  cases v <;> decide

section noNul
variable {formatDouble : UInt64 → List UInt8}

theorem noNul_append {a b : List UInt8} (ha : 0 ∉ a) (hb : 0 ∉ b) : 0 ∉ a ++ b := by
  rw [List.mem_append]
  exact not_or_intro ha hb

theorem noNul_cons {b : UInt8} {bs : List UInt8} (hb : 0 ≠ b) (hbs : 0 ∉ bs) : 0 ∉ b :: bs := by
  rw [List.mem_cons]
  exact not_or_intro hb hbs

theorem noNul_keyText (key : CString) : 0 ∉ keyText key :=
  noNul_cons (by decide) (noNul_append (noNul_quoted key) (by decide))

mutual

theorem BSONContent.noNul_text : ∀ c : BSONContent, c.plain = true → 0 ∉ c.text formatDouble
  | .boolean v, _ => noNul_formatBool v
  | .int v, _ => noNul_formatInt v.toInt
  | .long v, _ => noNul_formatInt v.toInt
  | .double _, h => nomatch h
  | .string s, _ => noNul_quoted s
  | .bson o, h =>
    noNul_cons (by decide) (noNul_append (o.noNul_fieldsText h true) (by decide))
  | .array .empty, h => nomatch h
  | .array (.item o a), h =>
    noNul_cons (by decide)
      (noNul_append ((BSONArrayObj.item o a).noNul_itemsText h true) (by decide))

theorem BSONObj.noNul_fieldsText : ∀ o : BSONObj, o.plain = true → ∀ first,
    0 ∉ o.fieldsText formatDouble first
  | .empty, _, _ => List.not_mem_nil
  | .field key c o, h, first => by
    rcases Bool.and_eq_true_iff.1 h with ⟨hc, ho⟩
    have hfield := noNul_append (noNul_keyText key)
      (noNul_append (c.noNul_text hc) (o.noNul_fieldsText ho false))
    rw [BSONObj.fieldsText]
    cases first with
    | false => exact noNul_append (by decide) hfield
    | true => exact hfield

theorem BSONArrayObj.noNul_itemsText : ∀ a : BSONArrayObj, a.itemsPlain = true → ∀ first,
    0 ∉ a.itemsText formatDouble first
  | .empty, _, _ => List.not_mem_nil
  | .item o a, h, first => by
    rcases Bool.and_eq_true_iff.1 h with ⟨ho, ha⟩
    have hitem := noNul_append (noNul_cons (by decide : (0 : UInt8) ≠ 123)
      (noNul_append (o.noNul_fieldsText ho true) (by decide : (0 : UInt8) ∉ [125])))
      (a.noNul_itemsText ha false)
    rw [BSONArrayObj.itemsText]
    cases first with
    | false => exact noNul_append (by decide) hitem
    | true => exact hitem

end

theorem BSONObj.ofBytes_text {o : BSONObj} (h : o.plain = true) :
    (CString.ofBytes (o.text formatDouble)).bytes = o.text formatDouble := by
  have hnoNul : 0 ∉ o.text formatDouble :=
    noNul_cons (by decide) (noNul_append (o.noNul_fieldsText h true) (by decide))
  exact congrArg CString.bytes (CString.ofBytes_bytes ⟨o.text formatDouble, hnoNul⟩)

end noNul

/-- `BSONParser::parse(d.toChar())`. -/
def reparse (formatDouble : UInt64 → List UInt8) (antlr : Antlr) (atof : CString → UInt64)
    (d : BSONObj) : Outcome (Option BSONObj) := do
  let chars ← d.toChar formatDouble
  BSONParser.parse antlr atof (CString.ofBytes chars)

/-- `{"a" : 5000000000, "b" : [{}, {"c" : true}], "s" : "x\"y"}`. -/
def printedDocument : Document where
  obj := .field (CString.ofBytes [97]) (.long 5000000000)
    (.field (CString.ofBytes [98])
      (.array (.item .empty (.item (.field (CString.ofBytes [99]) (.boolean true) .empty) .empty)))
      (.field (CString.ofBytes [115]) (.string (CString.ofBytes [120, 92, 34, 121])) .empty))
  wf := by decide

/-- A runtime that gives up at the first error. -/
def strictAntlr : Antlr := ⟨fun _ => 0, fun _ _ _ _ => none⟩

end Djondb
