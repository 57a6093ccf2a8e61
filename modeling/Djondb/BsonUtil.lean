import Djondb.BSONBufferedObj
import Djondb.LibTokens
import Mathlib.Data.List.DropRight

set_option autoImplicit false

/-!
# Select lists

A select list is a text: paths such as `$"name.first"`, with commas between them, or `*`.
`bson_splitSelect` takes the first name of every path, `bson_subselect` the paths below one name,
as a text again. Strings are their bytes before the terminator.
-/
namespace Djondb

/-! ## String functions -/

def comma : UInt8 := 44
def blank : UInt8 := 32
def dollar : UInt8 := 36
def quote : UInt8 := 34
def dot : UInt8 := 46

/-- `split`: the words that `strtok` finds. -/
def split (str token : List UInt8) : List (List UInt8) :=
  Tokens.tokens (fun b => token.contains b) str

def startsWith (source check : List UInt8) : Bool := check.isPrefixOf source

/-- `trim`. -/
def trim (str : List UInt8) : Outcome (List UInt8) :=
  let result := str.dropWhile (· = blank)
  -- the loop at the end starts at `strlen(result) - 1` and has no lower bound
  if result = [] then .undefined else .value (result.rdropWhile (· = blank))

/-- `std::string(str, pos, n)`; a larger `n` takes what is there. -/
def stdString (str : List UInt8) (pos n : ℕ) : Outcome (List UInt8) :=
  if str.length < pos then .exception .outOfRange else .value ((str.drop pos).take n)

/-- `strcpy(str, offset, len)`, which copies `len` bytes whatever they are. -/
def strcpy (str : List UInt8) (offset : ℕ) (len : ℤ) : Outcome (List UInt8) :=
  if len < 0 ∨ str.length + 1 < offset + len then .undefined
  else .value ((str.drop offset).take len.toNat)

/-- `format("%s.", name)`: the buffer has 1000 bytes. -/
def formatStart (name : CString) : Outcome (List UInt8) :=
  if 1000 < name.length + 2 then .undefined else .value (name.bytes ++ [dot])

/-- `memcpy` to the end of what a buffer of `size` bytes holds. -/
def memcpy (size : ℕ) (result source : List UInt8) : Outcome (List UInt8) :=
  if size < result.length + source.length then .undefined else .value (result ++ source)

/-! ## `bson_splitSelect` -/

/-- The first name of one path. -/
def splitElement (s : List UInt8) : Outcome CString := do
  let cs ← trim s
  -- for two characters the count wraps around, but there are no more of them to take
  let s ← if startsWith cs [dollar] then stdString cs 2 (cs.length - 3) else .value cs
  .value (CString.ofBytes (s.takeWhile (· ≠ dot)))

/-- The elements of the set; only `find` is called on it. -/
def splitElements : List (List UInt8) → Outcome (List CString)
  | [] => .value []
  | s :: elements => do
    let s ← splitElement s
    let result ← splitElements elements
    .value (s :: result)

def bsonSplitSelect (select : CString) : Outcome (List CString) :=
  splitElements (split select.bytes [comma])

/-! ## `bson_subselect` -/

def subselectLoop (size : ℕ) (startXpath : List UInt8) :
    List (List UInt8) → Bool → List UInt8 → Outcome (List UInt8)
  | [], _, result => .value result
  | selement :: elements, first, result => do
    let element ← trim selement
    if startsWith element [dollar] then
      let element ← strcpy element 2 (element.length - 3)
      if startsWith element startXpath then
        let result ← memcpy size result (if first then [] else [comma, blank])
        let suffix ← strcpy element startXpath.length (element.length - startXpath.length)
        let result ← memcpy size result [dollar, quote]
        let result ← memcpy size result suffix
        let result ← memcpy size result [quote]
        subselectLoop size startXpath elements false result
      else subselectLoop size startXpath elements first result
    else subselectLoop size startXpath elements first result

/-- The result is the zeroed buffer: what fills it whole has no terminator. -/
def bsonSubselect (select name : CString) : Outcome CString := do
  let startXpath ← formatStart name
  let size := select.length + 1
  let result ← subselectLoop size startXpath (split select.bytes [comma, blank]) true []
  if result.length < size then .value (CString.ofBytes result) else .undefined

/-! ## The elements of a list -/

/-- The text of an element without its blanks at both ends. -/
def trimmed (s : List UInt8) : List UInt8 := (s.dropWhile (· = blank)).rdropWhile (· = blank)

/-- An element that is taken: it is no blank, and more than a dollar. -/
def Splittable (s : List UInt8) : Prop := s.dropWhile (· = blank) ≠ [] ∧ trimmed s ≠ [dollar]

instance (s : List UInt8) : Decidable (Splittable s) := inferInstanceAs (Decidable (_ ∧ _))

theorem trim_eq_value_iff {s cs : List UInt8} :
    trim s = .value cs ↔ s.dropWhile (· = blank) ≠ [] ∧ cs = trimmed s := by
  unfold trim trimmed
  by_cases h : s.dropWhile (· = blank) = []
  · simp [h]
  · simp [h, eq_comm]

/-- A word without blanks is not changed. -/
theorem trim_word {s : List UInt8} (hne : s ≠ []) (h : blank ∉ s) : trim s = .value s := by
  have hall : ∀ x ∈ s, ¬ x = blank := fun x hx hb => h (hb ▸ hx)
  have hdrop : s.dropWhile (· = blank) = s := by
    apply List.dropWhile_eq_self_iff.2
    intro hl
    simpa using hall _ (List.getElem_mem _)
  have hlast : s.rdropWhile (· = blank) = s := by
    apply List.rdropWhile_eq_self_iff.2
    intro hl
    simpa using hall _ (List.getLast_mem hl)
  rw [trim, hdrop]
  simp [hne, hlast]

theorem startsWith_dollar {s : List UInt8} (h : startsWith s [dollar] = true) :
    ∃ rest, s = dollar :: rest := by
  rw [startsWith, List.isPrefixOf_iff_prefix] at h
  obtain ⟨rest, rfl⟩ := h
  exact ⟨rest, rfl⟩

/-- The name of an element that is taken. -/
def elementName (s : List UInt8) : CString :=
  let cs := trimmed s
  CString.ofBytes ((if startsWith cs [dollar] then (cs.drop 2).take (cs.length - 3) else cs).takeWhile
    (· ≠ dot))

theorem splitElement_of_splittable {s : List UInt8} (h : Splittable s) :
    splitElement s = .value (elementName s) := by
  rw [splitElement, trim_eq_value_iff.2 ⟨h.1, rfl⟩, Outcome.value_bind, elementName]
  by_cases hd : startsWith (trimmed s) [dollar] = true
  · have hlen : ¬ (trimmed s).length < 2 := by
      intro hlt
      obtain ⟨rest, hrest⟩ := startsWith_dollar hd
      apply h.2
      rw [hrest] at hlt ⊢
      rw [List.length_cons] at hlt
      have hnil : rest = [] := List.length_eq_zero_iff.1 (by omega)
      rw [hnil]
    simp only [if_pos hd, stdString, if_neg hlen, Outcome.value_bind]
  · simp only [if_neg hd, Outcome.value_bind]

theorem splittable_of_splitElement {s : List UInt8} {name : CString}
    (h : splitElement s = .value name) : Splittable s := by
  rw [splitElement, Outcome.bind_eq_value] at h
  obtain ⟨cs, htrim, h⟩ := h
  obtain ⟨hne, rfl⟩ := trim_eq_value_iff.1 htrim
  refine ⟨hne, fun hdollar => ?_⟩
  rw [hdollar] at h
  cases h

theorem splitElements_eq {elements : List (List UInt8)} (h : ∀ s ∈ elements, Splittable s) :
    splitElements elements = .value (elements.map elementName) := by
  induction elements with
  | nil => rfl
  | cons s elements ih =>
    rw [splitElements, splitElement_of_splittable (h s List.mem_cons_self),
      ih fun x hx => h x (List.mem_cons_of_mem s hx)]
    rfl

theorem splittable_of_splitElements {elements : List (List UInt8)} {names : List CString}
    (h : splitElements elements = .value names) : ∀ s ∈ elements, Splittable s := by
  induction elements generalizing names with
  | nil => intro s hs; cases hs
  | cons s elements ih =>
    rw [splitElements, Outcome.bind_eq_value] at h
    obtain ⟨name, hs, h⟩ := h
    rw [Outcome.bind_eq_value] at h
    obtain ⟨rest, hrest, -⟩ := h
    intro x hx
    cases List.mem_cons.1 hx with
    | inl hx => exact hx ▸ splittable_of_splitElement hs
    | inr hx => exact ih hrest x hx

/-- Between two commas of a list that can be split stands more than blanks or a lone dollar. -/
def SplitsSelect (select : CString) : Prop := ∀ s ∈ split select.bytes [comma], Splittable s

instance (select : CString) : Decidable (SplitsSelect select) :=
  inferInstanceAs (Decidable (∀ s ∈ split select.bytes [comma], Splittable s))

theorem bsonSplitSelect_eq {select : CString} (h : SplitsSelect select) :
    bsonSplitSelect select = .value ((split select.bytes [comma]).map elementName) :=
  splitElements_eq h

theorem bsonSplitSelect_eq_value_iff {select : CString} :
    (∃ names, bsonSplitSelect select = .value names) ↔ SplitsSelect select :=
  ⟨fun ⟨_, h⟩ => splittable_of_splitElements h, fun h => ⟨_, bsonSplitSelect_eq h⟩⟩

/-! ## The paths below a name -/

theorem split_word {select : List UInt8} {s : List UInt8} (h : s ∈ split select [comma, blank]) :
    s ≠ [] ∧ comma ∉ s ∧ blank ∉ s := by
  have hw := Tokens.word_of_mem h
  refine ⟨hw.ne_nil, fun hc => ?_, fun hb => ?_⟩
  · simpa using hw.clear comma hc
  · simpa using hw.clear blank hb

/-- What an element has below the name, without the dollar and the quotes. -/
def subPath (startXpath s : List UInt8) : Option (List UInt8) :=
  let element := (s.drop 2).take (s.length - 3)
  if startsWith s [dollar] && startsWith element startXpath then
    some (element.drop startXpath.length)
  else none

def quotedPath (path : List UInt8) : List UInt8 := [dollar, quote] ++ path ++ [quote]

/-- The quoted paths with commas before all but the first. -/
def joinPaths : Bool → List (List UInt8) → List UInt8
  | _, [] => []
  | first, path :: paths =>
    (if first then [] else [comma, blank]) ++ quotedPath path ++ joinPaths false paths

theorem strcpy_suffix {s : List UInt8} {offset : ℕ} (h : offset ≤ s.length) :
    strcpy s offset (s.length - offset) = .value (s.drop offset) := by
  rw [strcpy, if_neg (by omega)]
  congr 1
  apply List.take_of_length_le
  rw [List.length_drop]
  omega

theorem strcpy_inner {s : List UInt8} (h : 3 ≤ s.length) :
    strcpy s 2 (s.length - 3) = .value ((s.drop 2).take (s.length - 3)) := by
  rw [strcpy, if_neg (by omega)]
  congr 2
  omega

theorem subPath_eq {startXpath s : List UInt8} (hd : startsWith s [dollar] = true) :
    subPath startXpath s =
      if startsWith ((s.drop 2).take (s.length - 3)) startXpath then
        some (((s.drop 2).take (s.length - 3)).drop startXpath.length) else none := by
  simp [subPath, hd]

theorem memcpy_fits {size : ℕ} {result source : List UInt8}
    (h : result.length + source.length ≤ size) :
    memcpy size result source = .value (result ++ source) := if_neg (by omega)

/-- The loop writes the joined paths, if the buffer is large enough for all of them. -/
theorem subselectLoop_eq {size : ℕ} {startXpath : List UInt8} {ws : List (List UInt8)}
    {first : Bool} {result : List UInt8} (hword : ∀ w ∈ ws, w ≠ [] ∧ blank ∉ w)
    (hlong : ∀ w ∈ ws, startsWith w [dollar] = true → 3 ≤ w.length)
    (hfits : result.length + (joinPaths first (ws.filterMap (subPath startXpath))).length ≤ size) :
    subselectLoop size startXpath ws first result =
      .value (result ++ joinPaths first (ws.filterMap (subPath startXpath))) := by
  induction ws generalizing first result with
  | nil => simp [subselectLoop, joinPaths]
  | cons w ws ih =>
    obtain ⟨hne, hb⟩ := hword w List.mem_cons_self
    have hrest : ∀ first result, result.length +
        (joinPaths first (ws.filterMap (subPath startXpath))).length ≤ size →
        subselectLoop size startXpath ws first result =
          .value (result ++ joinPaths first (ws.filterMap (subPath startXpath))) :=
      fun _ _ => ih (fun x hx => hword x (List.mem_cons_of_mem w hx))
        (fun x hx => hlong x (List.mem_cons_of_mem w hx))
    rw [subselectLoop, trim_word hne hb, Outcome.value_bind]
    by_cases hd : startsWith w [dollar] = true
    · rw [if_pos hd, strcpy_inner (hlong w List.mem_cons_self hd), Outcome.value_bind]
      have hsub := @subPath_eq startXpath w hd
      by_cases hstart : startsWith ((w.drop 2).take (w.length - 3)) startXpath = true
      · rw [if_pos hstart] at hsub
        have hle : startXpath.length ≤ ((w.drop 2).take (w.length - 3)).length :=
          (List.isPrefixOf_iff_prefix.1 hstart).length_le
        rw [List.filterMap_cons_some hsub] at hfits ⊢
        rw [joinPaths] at hfits ⊢
        simp only [quotedPath, List.length_append, List.length_cons, List.length_nil] at hfits
        rw [if_pos hstart, strcpy_suffix hle]
        generalize ((w.drop 2).take (w.length - 3)).drop startXpath.length = suffix at hfits ⊢
        generalize (if first = true then [] else [comma, blank]) = separator at hfits ⊢
        rw [memcpy_fits (by omega), Outcome.value_bind, Outcome.value_bind,
          memcpy_fits (by simp; omega), Outcome.value_bind, memcpy_fits (by simp; omega),
          Outcome.value_bind, memcpy_fits (by simp; omega), Outcome.value_bind,
          hrest false _ (by simp; omega)]
        simp [quotedPath]
      · rw [if_neg hstart] at hsub
        rw [List.filterMap_cons_none hsub] at hfits ⊢
        rw [if_neg hstart]
        exact hrest first result hfits
    · have hsub : subPath startXpath w = none := by simp [subPath, hd]
      rw [List.filterMap_cons_none hsub] at hfits ⊢
      rw [if_neg hd]
      exact hrest first result hfits

/-- A word that failed the length test ends the loop. -/
theorem long_of_subselectLoop {size : ℕ} {startXpath : List UInt8} {ws : List (List UInt8)}
    {first : Bool} {result final : List UInt8} (hword : ∀ w ∈ ws, w ≠ [] ∧ blank ∉ w)
    (h : subselectLoop size startXpath ws first result = .value final) :
    ∀ w ∈ ws, startsWith w [dollar] = true → 3 ≤ w.length := by
  induction ws generalizing first result with
  | nil => intro w hw; cases hw
  | cons w ws ih =>
    obtain ⟨hne, hb⟩ := hword w List.mem_cons_self
    have hrest : ∀ {first result}, subselectLoop size startXpath ws first result = .value final →
        ∀ x ∈ ws, startsWith x [dollar] = true → 3 ≤ x.length := fun hx =>
      ih (fun x hx => hword x (List.mem_cons_of_mem w hx)) hx
    rw [subselectLoop, trim_word hne hb, Outcome.value_bind] at h
    suffices hw : (startsWith w [dollar] = true → 3 ≤ w.length) ∧
        ∀ x ∈ ws, startsWith x [dollar] = true → 3 ≤ x.length from List.forall_mem_cons.2 hw
    by_cases hd : startsWith w [dollar] = true
    · rw [if_pos hd, Outcome.bind_eq_value] at h
      obtain ⟨element, hcopy, h⟩ := h
      have hlen : 3 ≤ w.length := by
        by_contra hlt
        rw [strcpy, if_pos (Or.inl (by omega))] at hcopy
        cases hcopy
      refine ⟨fun _ => hlen, ?_⟩
      by_cases hstart : startsWith element startXpath = true
      · simp only [if_pos hstart, Outcome.bind_eq_value] at h
        obtain ⟨_, -, _, -, _, -, _, -, _, -, h⟩ := h
        exact hrest h
      · rw [if_neg hstart] at h
        exact hrest h
    · rw [if_neg hd] at h
      exact ⟨fun hd' => absurd hd' hd, hrest h⟩

/-! The buffer is as long as the list: a path loses the name and its dot, and gains a blank. -/

theorem length_joinPaths_subPath {startXpath : List UInt8} (hpos : 0 < startXpath.length)
    (ws : List (List UInt8))
    (hlong : ∀ w ∈ ws, startsWith w [dollar] = true → 3 ≤ w.length) :
    (joinPaths false (ws.filterMap (subPath startXpath))).length ≤
      (ws.map fun w => w.length + 1).sum := by
  induction ws with
  | nil => simp [joinPaths]
  | cons w ws ih =>
    have hrest := ih fun x hx => hlong x (List.mem_cons_of_mem w hx)
    rw [List.map_cons, List.sum_cons]
    cases hsub : subPath startXpath w with
    | none =>
      rw [List.filterMap_cons_none hsub]
      omega
    | some path =>
      rw [List.filterMap_cons_some hsub, joinPaths]
      have hpath : path.length + 4 ≤ w.length := by
        unfold subPath at hsub
        dsimp only at hsub
        split_ifs at hsub with hcond
        rw [Bool.and_eq_true] at hcond
        have h3 := hlong w List.mem_cons_self hcond.1
        have hle := (List.isPrefixOf_iff_prefix.1 hcond.2).length_le
        rw [← Option.some.inj hsub]
        simp only [List.length_drop, List.length_take] at hle ⊢
        omega
      simp only [quotedPath, List.length_append, List.length_cons, List.length_nil,
        Bool.false_eq_true, if_false]
      omega

theorem length_joinPaths_true (paths : List (List UInt8)) :
    joinPaths true paths = [] ∨
      (joinPaths true paths).length + 2 = (joinPaths false paths).length := by
  cases paths with
  | nil => exact Or.inl rfl
  | cons path paths =>
    right
    simp [joinPaths]

/-- A list whose words can be stripped: one with a dollar has two quotes as well. -/
def StripsSelect (select : CString) : Prop :=
  ∀ w ∈ split select.bytes [comma, blank], startsWith w [dollar] = true → 3 ≤ w.length

instance (select : CString) : Decidable (StripsSelect select) :=
  inferInstanceAs (Decidable (∀ w ∈ split select.bytes [comma, blank], _ → _))

/-- The paths of the list that lie below the name. -/
def subPaths (select name : CString) : List (List UInt8) :=
  (split select.bytes [comma, blank]).filterMap (subPath (name.bytes ++ [dot]))

theorem bsonSubselect_eq {select name : CString} (hselect : StripsSelect select)
    (hname : name.length ≤ 998) :
    bsonSubselect select name = .value (CString.ofBytes (joinPaths true (subPaths select name))) := by
  have hstart : formatStart name = .value (name.bytes ++ [dot]) := if_neg (by omega)
  have hword : ∀ w ∈ split select.bytes [comma, blank], w ≠ [] ∧ blank ∉ w := fun w hw =>
    ⟨(split_word hw).1, (split_word hw).2.2⟩
  have hsum : ((split select.bytes [comma, blank]).map fun w => w.length + 1).sum ≤
      select.length + 1 := Tokens.sum_length_tokens select.bytes
  have hlen := @length_joinPaths_subPath (name.bytes ++ [dot]) (by simp) _ hselect
  have hfits : (joinPaths true (subPaths select name)).length < select.length + 1 := by
    cases length_joinPaths_true (subPaths select name) with
    | inl h => rw [h]; exact Nat.succ_pos _
    | inr h =>
      unfold subPaths at h ⊢
      omega
  have hloop : subselectLoop (select.length + 1) (name.bytes ++ [dot])
      (split select.bytes [comma, blank]) true [] =
        .value ([] ++ joinPaths true (subPaths select name)) :=
    subselectLoop_eq hword hselect (by simpa [subPaths] using hfits.le)
  rw [bsonSubselect, hstart, Outcome.value_bind]
  dsimp only
  rw [hloop, Outcome.value_bind]
  exact if_pos hfits

theorem bsonSubselect_eq_value_iff {select name : CString} :
    (∃ sub, bsonSubselect select name = .value sub) ↔
      StripsSelect select ∧ name.length ≤ 998 := by
  constructor
  · rintro ⟨sub, h⟩
    rw [bsonSubselect, Outcome.bind_eq_value] at h
    obtain ⟨start, hstart, h⟩ := h
    rw [Outcome.bind_eq_value] at h
    obtain ⟨result, hloop, -⟩ := h
    refine ⟨long_of_subselectLoop (fun w hw => ⟨(split_word hw).1, (split_word hw).2.2⟩) hloop, ?_⟩
    by_contra hlt
    rw [formatStart, if_pos (by omega)] at hstart
    cases hstart
  · rintro ⟨hselect, hname⟩
    exact ⟨_, bsonSubselect_eq hselect hname⟩

/-- A select list is read inside its bounds exactly where no element between two commas is only
blanks or a lone dollar, no word behind a dollar is shorter than its two quotes, and the name
fits into the buffer of `format`. -/
theorem select_in_range_iff (select name : CString) :
    ((∃ names, bsonSplitSelect select = .value names) ∧
      ∃ sub, bsonSubselect select name = .value sub) ↔
    SplitsSelect select ∧ StripsSelect select ∧ name.length ≤ 998 := by
  rw [bsonSplitSelect_eq_value_iff, bsonSubselect_eq_value_iff]

/-- `$`, `$"` and a blank: the first two are stripped past their end, the last one is trimmed
before its start. -/
theorem select_out_of_range :
    let name : CString := ⟨[97], by decide⟩
    bsonSplitSelect ⟨[dollar], by decide⟩ = .exception .outOfRange ∧
    bsonSubselect ⟨[dollar, quote], by decide⟩ name = .undefined ∧
    bsonSplitSelect ⟨[blank], by decide⟩ = .undefined := by
  decide

end Djondb
