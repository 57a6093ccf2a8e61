import Djondb.BsonSelect

set_option autoImplicit false

/-!
# Selected paths

A select list that is written from paths, against the projection of a document to these paths.
-/
namespace Djondb

/-! ## Paths -/

/-- A field name that can stand in a path. -/
def PlainName (k : CString) : Prop :=
  quote ∉ k.bytes ∧ comma ∉ k.bytes ∧ blank ∉ k.bytes ∧ dot ∉ k.bytes

instance (k : CString) : Decidable (PlainName k) := inferInstanceAs (Decidable (_ ∧ _))

/-- A path is the list of its field names. -/
def IsXpath (p : List CString) : Prop := p ≠ [] ∧ ∀ k ∈ p, PlainName k

instance (p : List CString) : Decidable (IsXpath p) := inferInstanceAs (Decidable (_ ∧ _))

/-- The names with dots between them. -/
def xpathText (p : List CString) : List UInt8 := [dot].intercalate (p.map CString.bytes)

/-- `$"p1", $"p2"` and so on. -/
def selectList (ps : List (List CString)) : CString :=
  CString.ofBytes ([comma, blank].intercalate (ps.map fun p => quotedPath (xpathText p)))

/-- The first names of the paths. -/
def heads (ps : List (List CString)) : List CString := ps.filterMap List.head?

/-- What a path has below the field `k`. -/
def tailBelow (k : CString) : List CString → Option (List CString)
  | k' :: k'' :: rest => if k' = k then some (k'' :: rest) else none
  | _ => none

def tails (k : CString) (ps : List (List CString)) : List (List CString) :=
  ps.filterMap (tailBelow k)

/-- What the paths have below a path. -/
def below : List CString → List (List CString) → List (List CString)
  | [], ps => ps
  | k :: rest, ps => below rest (tails k ps)

/-! ## Projection -/

mutual

def BSONContent.project (ps : List (List CString)) : BSONContent → BSONContent
  | .bson o => .bson (o.project ps)
  | .array a => .array (a.project ps)
  | c => c

/-- The document with the fields that some path leads to or through. -/
def BSONObj.project (ps : List (List CString)) : BSONObj → BSONObj
  | .empty => .empty
  | .field k c rest =>
    if k ∈ heads ps then .field k (c.project (tails k ps)) (rest.project ps) else rest.project ps

def BSONArrayObj.project (ps : List (List CString)) : BSONArrayObj → BSONArrayObj
  | .empty => .empty
  | .item o rest => .item (o.project ps) (rest.project ps)

end

mutual

def BSONContent.namesFit (k : CString) (ps : List (List CString)) : BSONContent → Bool
  | .bson o => decide (k.length ≤ 998) && o.namesFit ps
  | .array a => decide (k.length ≤ 998) && a.namesFit ps
  | _ => true

/-- The names of the nested fields on the paths fit into the buffer of `format`. -/
def BSONObj.namesFit (ps : List (List CString)) : BSONObj → Bool
  | .empty => true
  | .field k c rest => (!decide (k ∈ heads ps) || c.namesFit k (tails k ps)) && rest.namesFit ps

def BSONArrayObj.namesFit (ps : List (List CString)) : BSONArrayObj → Bool
  | .empty => true
  | .item o rest => o.namesFit ps && rest.namesFit ps

end

mutual

def BSONContent.covered (ps : List (List CString)) : BSONContent → Bool
  | .bson o => o.covered ps
  | .array a => a.covered ps
  | _ => true

/-- The paths lead to every field, and in nested values to every field of these. -/
def BSONObj.covered (ps : List (List CString)) : BSONObj → Bool
  | .empty => true
  | .field k c rest => decide (k ∈ heads ps) && c.covered (tails k ps) && rest.covered ps

def BSONArrayObj.covered (ps : List (List CString)) : BSONArrayObj → Bool
  | .empty => true
  | .item o rest => o.covered ps && rest.covered ps

end

/-! ## Values at a path -/

def BSONArrayObj.items : BSONArrayObj → List BSONObj
  | .empty => []
  | .item o rest => o :: rest.items

/-- The values at a path, each with the positions that the path takes in the arrays on its way. -/
def BSONObj.reach : List CString → BSONObj → List (List ℕ × BSONContent)
  | [], _ => []
  | [k], o => (o.getContent k).toList.map fun c => ([], c)
  | k :: k' :: rest, o =>
    match o.getContent k with
    | some (.bson inner) => inner.reach (k' :: rest)
    | some (.array a) =>
      a.items.zipIdx.flatMap fun item =>
        (item.1.reach (k' :: rest)).map fun found => (item.2 :: found.1, found.2)
    | _ => []

mutual

def BSONContent.onPaths (ps : List (List CString)) : BSONContent → Bool
  | .bson o => o.onPaths ps
  | .array a => a.onPaths ps
  | _ => true

/-- Every field lies on a path, or below its end. -/
def BSONObj.onPaths (ps : List (List CString)) : BSONObj → Bool
  | .empty => true
  | .field k c rest =>
    (decide ([k] ∈ ps) || decide (k ∈ heads ps) && c.onPaths (tails k ps)) && rest.onPaths ps

def BSONArrayObj.onPaths (ps : List (List CString)) : BSONArrayObj → Bool
  | .empty => true
  | .item o rest => o.onPaths ps && rest.onPaths ps

end

/-- The projection keeps the values at every path, and has no other fields. -/
def SelectsPaths (d : BSONObj) (ps : List (List CString)) : Prop :=
  ∃ r, d.selectWith (selectList ps) = .value r ∧ (∀ p ∈ ps, r.reach p = d.reach p) ∧
    r.onPaths ps = true

/-- Where a path ends at a nested value, the longer paths name everything in it. -/
def EndsCovered (d : BSONObj) (ps : List (List CString)) : Prop :=
  ∀ p ∈ ps, ∀ found ∈ d.reach p, found.2.covered (below p ps) = true

instance (d : BSONObj) (ps : List (List CString)) : Decidable (EndsCovered d ps) :=
  inferInstanceAs (Decidable (∀ p ∈ ps, ∀ found ∈ d.reach p, _))

/-! ## The text of a list -/

theorem ofBytes_of_noNul {bs : List UInt8} (h : 0 ∉ bs) : (CString.ofBytes bs).bytes = bs := by
  unfold CString.ofBytes
  apply List.takeWhile_eq_self_iff.2
  intro b hb
  simpa using fun h0 : b = 0 => h (h0 ▸ hb)

theorem xpathText_cons (k : CString) {p : List CString} (h : p ≠ []) :
    xpathText (k :: p) = k.bytes ++ dot :: xpathText p := by
  cases p with
  | nil => exact absurd rfl h
  | cons k' p => simp [xpathText, List.intercalate_cons_cons]

theorem xpathText_single (k : CString) : xpathText [k] = k.bytes := List.intercalate_singleton

/-- A byte that is neither the dot nor in a name is not in the text of the path. -/
theorem not_mem_xpathText {b : UInt8} (hdot : b ≠ dot) {p : List CString}
    (h : ∀ k ∈ p, b ∉ k.bytes) : b ∉ xpathText p := by
  induction p with
  | nil => simp [xpathText, List.intercalate]
  | cons k p ih =>
    have hk := h k List.mem_cons_self
    have hp := ih fun k' hk' => h k' (List.mem_cons_of_mem k hk')
    by_cases hne : p = []
    · rw [hne, xpathText_single]
      exact hk
    · rw [xpathText_cons k hne]
      simp [hk, hp, hdot]

theorem word_quotedPath {seps : List UInt8} (hd : dollar ∉ seps) (hq : quote ∉ seps)
    {path : List UInt8} (hpath : ∀ b ∈ path, b ∉ seps) :
    Tokens.Word (fun b => seps.contains b) (quotedPath path) := by
  refine ⟨by simp [quotedPath], ?_⟩
  intro x hx
  simp only [quotedPath, List.mem_append, List.mem_cons, List.not_mem_nil, or_false] at hx
  simp only [List.contains_eq_mem, decide_eq_false_iff_not]
  rcases hx with ((hx | hx) | hx) | hx
  · exact hx ▸ hd
  · exact hx ▸ hq
  · exact hpath x hx
  · exact hx ▸ hq

theorem selectList_bytes (ps : List (List CString)) : (selectList ps).bytes =
    [comma, blank].intercalate (ps.map fun p => quotedPath (xpathText p)) := by
  apply ofBytes_of_noNul
  induction ps with
  | nil => simp [List.intercalate]
  | cons p ps ih =>
    have hp : 0 ∉ quotedPath (xpathText p) := by
      have hx : 0 ∉ xpathText p := not_mem_xpathText (by decide) fun k _ => k.noNul
      simp [quotedPath, hx, dollar, quote]
    cases ps with
    | nil => simpa using hp
    | cons p' ps =>
      rw [List.map_cons, List.map_cons, List.intercalate_cons_cons]
      simp only [List.mem_append, not_or]
      exact ⟨⟨hp, by decide⟩, ih⟩

section text
variable {ps : List (List CString)} (hps : ∀ p ∈ ps, IsXpath p)
include hps

theorem word_of_xpath {seps : List UInt8} (hseps : ∀ b ∈ seps, b = comma ∨ b = blank)
    {p : List CString} (hp : p ∈ ps) :
    Tokens.Word (fun b => seps.contains b) (quotedPath (xpathText p)) := by
  have hno : ∀ b, b ≠ comma → b ≠ blank → b ∉ seps := fun b hc hb hmem =>
    (hseps b hmem).elim hc hb
  apply word_quotedPath (hno dollar (by decide) (by decide)) (hno quote (by decide) (by decide))
  intro b hb hmem
  cases hseps b hmem with
  | inl h => exact not_mem_xpathText (by decide) (fun k hk => ((hps p hp).2 k hk).2.1) (h ▸ hb)
  | inr h => exact not_mem_xpathText (by decide) (fun k hk => ((hps p hp).2 k hk).2.2.1) (h ▸ hb)

/-- The words of the list are its quoted paths. -/
theorem split_selectList : split (selectList ps).bytes [comma, blank] =
    ps.map fun p => quotedPath (xpathText p) := by
  rw [selectList_bytes]
  apply Tokens.tokens_intercalate (by simp) (by simp)
  intro t ht
  obtain ⟨p, hp, rfl⟩ := List.mem_map.1 ht
  exact word_of_xpath hps (by simp) hp

/-- Between commas most of the quoted paths have a blank before them. -/
theorem split_comma_selectList {p : List CString} {rest : List (List CString)}
    (h : ps = p :: rest) : split (selectList ps).bytes [comma] = quotedPath (xpathText p) ::
      rest.map fun p => blank :: quotedPath (xpathText p) := by
  rw [selectList_bytes, h, List.map_cons, split,
    Tokens.tokens_intercalate_cons (by decide)
      (fun b hb => by rw [List.mem_singleton.1 hb]; rfl), List.map_map]
  · rfl
  · intro t ht
    rw [← List.map_cons (f := fun p => quotedPath (xpathText p)), ← h] at ht
    obtain ⟨p, hp, rfl⟩ := List.mem_map.1 ht
    exact word_of_xpath hps (by simp) hp

end text

theorem trimmed_word {s : List UInt8} (hne : s ≠ []) (h : blank ∉ s) :
    s.dropWhile (· = blank) ≠ [] ∧ trimmed s = s := by
  have ht := trim_eq_value_iff.1 (trim_word hne h)
  exact ⟨ht.1, ht.2.symm⟩

/-- Blanks before an element are not part of its name. -/
theorem element_blank (s : List UInt8) : (Splittable (blank :: s) ↔ Splittable s) ∧
    elementName (blank :: s) = elementName s := by
  have htrim : trimmed (blank :: s) = trimmed s := by simp [trimmed]
  refine ⟨?_, by rw [elementName, elementName, htrim]⟩
  rw [Splittable, Splittable, htrim]
  simp

theorem quotedPath_inner (path : List UInt8) :
    ((quotedPath path).drop 2).take ((quotedPath path).length - 3) = path := by
  simp [quotedPath]

theorem startsWith_quotedPath (path : List UInt8) :
    startsWith (quotedPath path) [dollar] = true := rfl

/-- The name before the first dot. -/
theorem takeWhile_xpathText {k : CString} (hk : PlainName k) (rest : List CString) :
    (xpathText (k :: rest)).takeWhile (· ≠ dot) = k.bytes := by
  have hall : ∀ b ∈ k.bytes, (decide (b ≠ dot)) = true := fun b hb => by
    simpa using fun h : b = dot => hk.2.2.2 (h ▸ hb)
  by_cases hne : rest = []
  · rw [hne, xpathText_single]
    exact List.takeWhile_eq_self_iff.2 hall
  · rw [xpathText_cons k hne, List.takeWhile_append_of_pos hall]
    simp

theorem blank_not_mem_quotedPath {p : List CString} (hp : IsXpath p) :
    blank ∉ quotedPath (xpathText p) := by
  have h := not_mem_xpathText (b := blank) (by decide) fun k hk => (hp.2 k hk).2.2.1
  have hne : blank ≠ dollar ∧ blank ≠ quote := by decide
  simp [quotedPath, h, hne]

theorem element_quotedPath {k : CString} {rest : List CString} (hp : IsXpath (k :: rest)) :
    Splittable (quotedPath (xpathText (k :: rest))) ∧
      elementName (quotedPath (xpathText (k :: rest))) = k := by
  have ht := trimmed_word (by simp [quotedPath]) (blank_not_mem_quotedPath hp)
  refine ⟨⟨ht.1, ?_⟩, ?_⟩
  · rw [ht.2]
    simp [quotedPath]
  · rw [elementName, ht.2, if_pos (startsWith_quotedPath _), quotedPath_inner,
      takeWhile_xpathText (hp.2 k List.mem_cons_self), CString.ofBytes_bytes]

theorem bsonSplitSelect_selectList {ps : List (List CString)} (hps : ∀ p ∈ ps, IsXpath p) :
    bsonSplitSelect (selectList ps) = .value (heads ps) := by
  cases ps with
  | nil => decide
  | cons p rest =>
    have helement : ∀ q ∈ p :: rest, Splittable (quotedPath (xpathText q)) ∧
        some (elementName (quotedPath (xpathText q))) = q.head? := by
      intro q hq
      have hx := hps q hq
      cases q with
      | nil => exact absurd rfl hx.1
      | cons k q => exact ⟨(element_quotedPath hx).1, congrArg some (element_quotedPath hx).2⟩
    have hsplit := split_comma_selectList hps rfl
    have hnames : (split (selectList (p :: rest)).bytes [comma]).map elementName =
        heads (p :: rest) := by
      rw [hsplit, List.map_cons, List.map_map, heads, List.filterMap_cons,
        ← (helement p List.mem_cons_self).2]
      dsimp only
      congr 1
      rw [← List.filterMap_eq_map]
      apply List.filterMap_congr
      intro q hq
      rw [← (helement q (List.mem_cons_of_mem p hq)).2]
      exact congrArg some (element_blank _).2
    rw [← hnames]
    apply bsonSplitSelect_eq
    intro s hs
    rw [hsplit] at hs
    cases List.mem_cons.1 hs with
    | inl hs => exact hs ▸ (helement p List.mem_cons_self).1
    | inr hs =>
      obtain ⟨q, hq, rfl⟩ := List.mem_map.1 hs
      exact (element_blank _).1.2 (helement q (List.mem_cons_of_mem p hq)).1

/-! ## What is left below a name -/

theorem head_of_dots {k k' t t' : List UInt8} (hk : dot ∉ k) (hk' : dot ∉ k')
    (h : k ++ dot :: t = k' ++ dot :: t') : k = k' ∧ t = t' := by
  have htake : ∀ {n r : List UInt8}, dot ∉ n → (n ++ dot :: r).takeWhile (· ≠ dot) = n := by
    intro n r hn
    rw [List.takeWhile_append_of_pos fun b hb => by simpa using fun hd : b = dot => hn (hd ▸ hb)]
    simp
  have hkk : k = k' := by rw [← htake hk, h, htake hk']
  subst hkk
  exact ⟨rfl, by simpa using h⟩

theorem subPath_quotedPath {k : CString} (hk : dot ∉ k.bytes) {p : List CString}
    (hp : IsXpath p) :
    subPath (k.bytes ++ [dot]) (quotedPath (xpathText p)) = (tailBelow k p).map xpathText := by
  rw [subPath, startsWith_quotedPath, quotedPath_inner, Bool.true_and, startsWith]
  cases p with
  | nil => exact absurd rfl hp.1
  | cons k' p =>
  cases p with
  | nil =>
    have hno : ¬ (k.bytes ++ [dot]).isPrefixOf (xpathText [k']) = true := by
      rw [List.isPrefixOf_iff_prefix, xpathText_single]
      intro hpre
      exact (hp.2 k' List.mem_cons_self).2.2.2 (hpre.subset (by simp))
    rw [if_neg hno]
    rfl
  | cons k'' rest =>
    have hk' := (hp.2 k' List.mem_cons_self).2.2.2
    rw [xpathText_cons k' (by simp), tailBelow]
    by_cases heq : k' = k
    · subst heq
      have hpre : (k'.bytes ++ [dot]).isPrefixOf (k'.bytes ++ dot :: xpathText (k'' :: rest)) =
          true := by
        rw [List.isPrefixOf_iff_prefix]
        exact ⟨xpathText (k'' :: rest), by simp⟩
      rw [if_pos hpre, if_pos rfl]
      simp
    · have hno : ¬ (k.bytes ++ [dot]).isPrefixOf (k'.bytes ++ dot :: xpathText (k'' :: rest)) =
          true := by
        rw [List.isPrefixOf_iff_prefix]
        rintro ⟨t, ht⟩
        rw [List.append_assoc] at ht
        have hbytes := (head_of_dots hk hk' ht).1
        cases k
        cases k'
        exact heq (by simpa using hbytes.symm)
      rw [if_neg hno, if_neg heq]
      rfl

theorem isXpath_tails {ps : List (List CString)} (hps : ∀ p ∈ ps, IsXpath p) (k : CString) :
    ∀ q ∈ tails k ps, IsXpath q := by
  intro q hq
  obtain ⟨p, hp, htail⟩ := List.mem_filterMap.1 hq
  match p, htail with
  | k' :: k'' :: rest, htail =>
    rw [tailBelow] at htail
    split_ifs at htail
    rw [← Option.some.inj htail]
    refine ⟨by simp, fun x hx => (hps _ hp).2 x (List.mem_cons_of_mem k' hx)⟩

theorem joinPaths_eq (paths : List (List UInt8)) :
    joinPaths true paths = [comma, blank].intercalate (paths.map quotedPath) := by
  have hfalse : ∀ (path : List UInt8) (paths : List (List UInt8)),
      quotedPath path ++ joinPaths false paths =
        [comma, blank].intercalate ((path :: paths).map quotedPath) := by
    intro path paths
    induction paths generalizing path with
    | nil => simp [joinPaths]
    | cons path' paths ih =>
      rw [List.map_cons, List.map_cons, List.intercalate_cons_cons, ← List.map_cons, ← ih,
        joinPaths]
      simp
  cases paths with
  | nil => simp [joinPaths, List.intercalate]
  | cons path paths =>
    rw [← hfalse, joinPaths]
    simp

theorem stripsSelect_selectList {ps : List (List CString)} (hps : ∀ p ∈ ps, IsXpath p) :
    StripsSelect (selectList ps) := by
  intro w hw
  rw [split_selectList hps] at hw
  obtain ⟨p, -, rfl⟩ := List.mem_map.1 hw
  simp [quotedPath]

theorem bsonSubselect_selectList {ps : List (List CString)} (hps : ∀ p ∈ ps, IsXpath p)
    {k : CString} (hk : dot ∉ k.bytes) :
    bsonSubselect (selectList ps) k =
      if k.length ≤ 998 then .value (selectList (tails k ps)) else .undefined := by
  split_ifs with hlen
  · rw [bsonSubselect_eq (stripsSelect_selectList hps) hlen, joinPaths_eq, subPaths,
      split_selectList hps, List.filterMap_map, selectList, tails, List.map_filterMap]
    congr 4
    rw [List.map_filterMap]
    apply List.filterMap_congr
    intro p hp
    rw [Function.comp_apply, subPath_quotedPath hk (hps p hp), Option.map_map]
    rfl
  · have hstart : formatStart k = .undefined := if_pos (by omega)
    rw [bsonSubselect, hstart]
    rfl

theorem selectList_ne_star (ps : List (List CString)) : selectList ps ≠ star := by
  intro h
  have hb : (selectList ps).bytes = star.bytes := congrArg CString.bytes h
  rw [selectList_bytes] at hb
  match ps, hb with
  | [], hb => cases hb
  | [p], hb => simp [quotedPath, star, dollar] at hb
  | p :: p' :: ps, hb =>
    rw [List.map_cons, List.map_cons, List.intercalate_cons_cons] at hb
    simp [quotedPath, star, dollar] at hb

/-! ## The code projects to the paths -/

mutual

theorem selectValue_selectList {ps : List (List CString)} (hps : ∀ p ∈ ps, IsXpath p)
    {k : CString} (hk : dot ∉ k.bytes) : ∀ c : BSONContent, c.wf = true →
    c.selectValue (selectList ps) k false =
      if c.namesFit k (tails k ps) then .value (c.project (tails k ps)) else .undefined
  | .boolean _, _ => rfl
  | .int _, _ => rfl
  | .long _, _ => rfl
  | .double _, _ => rfl
  | .string _, _ => rfl
  | .bson o, hw => by
    have hfields : o.fieldsWf = true := (BSONObj.wf_iff.1 hw).2
    have hinner := selectFields_selectList (isXpath_tails hps k) o .empty hfields o.empty_before
    have hin := bsonSplitSelect_selectList (isXpath_tails hps k)
    rw [selectValue_bson, bsonSubselect_selectList hps hk, BSONContent.namesFit,
      BSONContent.project]
    by_cases hlen : k.length ≤ 998
    · rw [if_pos hlen, Outcome.value_bind, BSONObj.selectWith, hin, Outcome.value_bind,
        decide_eq_false (selectList_ne_star _), hinner]
      cases hfit : o.namesFit (tails k ps) <;> simp [hlen, BSONObj.append]
    · simp [hlen]
  | .array a, hw => by
    have hitems : a.itemsWf = true := by
      simp only [BSONContent.wf, Bool.and_eq_true] at hw
      exact hw.2
    rw [BSONContent.selectValue, if_neg Bool.false_ne_true, bsonSubselect_selectList hps hk,
      BSONContent.namesFit, BSONContent.project]
    by_cases hlen : k.length ≤ 998
    · rw [if_pos hlen, Outcome.value_bind, selectItems_selectList (isXpath_tails hps k) a hitems]
      cases hfit : a.namesFit (tails k ps) <;> simp [hlen]
    · simp [hlen]

theorem selectFields_selectList {ps : List (List CString)} (hps : ∀ p ∈ ps, IsXpath p) :
    ∀ o acc : BSONObj, o.fieldsWf = true → acc.Before o →
    o.selectFields (selectList ps) (heads ps) false acc =
      if o.namesFit ps then .value (acc.append (o.project ps)) else .undefined
  | .empty, acc, _, _ => by simp [BSONObj.selectFields, BSONObj.namesFit, BSONObj.project]
  | .field k c rest, acc, hw, hb => by
    rcases BSONObj.fieldsWf_field.1 hw with ⟨hlt, -, hc, how⟩
    rw [BSONObj.selectFields, BSONObj.namesFit, BSONObj.project, Bool.false_or]
    by_cases hmem : k ∈ heads ps
    · obtain ⟨p, hp, hhead⟩ := List.mem_filterMap.1 hmem
      have hkp : k ∈ p := List.mem_of_head? hhead
      have hk := ((hps p hp).2 k hkp).2.2.2
      have hvalue := selectValue_selectList hps hk c hc
      rw [if_pos (by simpa using hmem), hvalue, if_pos hmem]
      cases hfit : c.namesFit k (tails k ps) with
      | false => simp [hmem]
      | true =>
        obtain ⟨hadd, hbefore⟩ := BSONObj.before_added (c.project (tails k ps)) hb hlt
        rw [if_pos rfl, Outcome.value_bind, hadd,
          selectFields_selectList hps rest _ how hbefore, BSONObj.append_assoc]
        simp [hmem, BSONObj.append]
    · rw [if_neg (by simpa using hmem), if_neg hmem,
        selectFields_selectList hps rest acc how (BSONObj.before_rest hb)]
      simp [hmem]

theorem selectItems_selectList {ps : List (List CString)} (hps : ∀ p ∈ ps, IsXpath p) :
    ∀ a : BSONArrayObj, a.itemsWf = true →
    a.selectItems (selectList ps) =
      if a.namesFit ps then .value (a.project ps) else .undefined
  | .empty, _ => by simp [BSONArrayObj.selectItems, BSONArrayObj.namesFit, BSONArrayObj.project]
  | .item o rest, hw => by
    simp only [BSONArrayObj.itemsWf, Bool.and_eq_true] at hw
    have hinner := selectFields_selectList hps o .empty hw.1.2 o.empty_before
    rw [selectItems_item (selectList_ne_star ps), BSONObj.selectWith,
      bsonSplitSelect_selectList hps, Outcome.value_bind,
      decide_eq_false (selectList_ne_star ps), hinner, selectItems_selectList hps rest hw.2,
      BSONArrayObj.namesFit, BSONArrayObj.project]
    cases o.namesFit ps <;> cases rest.namesFit ps <;> simp [BSONObj.append]

end

theorem selectWith_selectList {ps : List (List CString)} (hps : ∀ p ∈ ps, IsXpath p)
    {o : BSONObj} (hw : o.fieldsWf = true) : o.selectWith (selectList ps) =
      if o.namesFit ps then .value (o.project ps) else .undefined := by
  rw [BSONObj.selectWith, bsonSplitSelect_selectList hps, Outcome.value_bind,
    decide_eq_false (selectList_ne_star ps), selectFields_selectList hps o .empty hw o.empty_before]
  rfl

/-! ## What the projection keeps -/

theorem BSONObj.length_project_le (ps : List (List CString)) (o : BSONObj) :
    (o.project ps).length ≤ o.length := by
  induction o with
  | empty => exact Nat.le_refl 0
  | field k c rest ih =>
    rw [project]
    split_ifs <;> simp only [length] <;> omega

mutual

theorem BSONContent.project_eq_iff (ps : List (List CString)) :
    ∀ c : BSONContent, c.project ps = c ↔ c.covered ps = true
  | .boolean _ => iff_of_true rfl rfl
  | .int _ => iff_of_true rfl rfl
  | .long _ => iff_of_true rfl rfl
  | .double _ => iff_of_true rfl rfl
  | .string _ => iff_of_true rfl rfl
  | .bson o => by
    rw [BSONContent.project, BSONContent.covered, BSONContent.bson.injEq]
    exact BSONObj.project_eq_iff ps o
  | .array a => by
    rw [BSONContent.project, BSONContent.covered, BSONContent.array.injEq]
    exact BSONArrayObj.project_eq_iff ps a

/-- The projection changes nothing exactly where the paths lead to everything. -/
theorem BSONObj.project_eq_iff (ps : List (List CString)) :
    ∀ o : BSONObj, o.project ps = o ↔ o.covered ps = true
  | .empty => iff_of_true rfl rfl
  | .field k c rest => by
    have hc := BSONContent.project_eq_iff (tails k ps) c
    have hrest := BSONObj.project_eq_iff ps rest
    rw [BSONObj.project, BSONObj.covered]
    by_cases hk : k ∈ heads ps
    · simp [hk, hc, hrest]
    · have hlen : rest.project ps ≠ .field k c rest := by
        intro h
        have hle := rest.length_project_le ps
        rw [h, BSONObj.length] at hle
        omega
      simp [hk, hlen]

theorem BSONArrayObj.project_eq_iff (ps : List (List CString)) :
    ∀ a : BSONArrayObj, a.project ps = a ↔ a.covered ps = true
  | .empty => iff_of_true rfl rfl
  | .item o rest => by
    have ho := BSONObj.project_eq_iff ps o
    have hrest := BSONArrayObj.project_eq_iff ps rest
    simp [BSONArrayObj.project, BSONArrayObj.covered, ho, hrest]

end

mutual

theorem BSONContent.onPaths_project (ps : List (List CString)) :
    ∀ c : BSONContent, (c.project ps).onPaths ps = true
  | .boolean _ => rfl
  | .int _ => rfl
  | .long _ => rfl
  | .double _ => rfl
  | .string _ => rfl
  | .bson o => BSONObj.onPaths_project ps o
  | .array a => BSONArrayObj.onPaths_project ps a

theorem BSONObj.onPaths_project (ps : List (List CString)) :
    ∀ o : BSONObj, (o.project ps).onPaths ps = true
  | .empty => rfl
  | .field k c rest => by
    have hc := BSONContent.onPaths_project (tails k ps) c
    have hrest := BSONObj.onPaths_project ps rest
    rw [BSONObj.project]
    split_ifs with hk
    · simp [BSONObj.onPaths, hk, hc, hrest]
    · exact hrest

theorem BSONArrayObj.onPaths_project (ps : List (List CString)) :
    ∀ a : BSONArrayObj, (a.project ps).onPaths ps = true
  | .empty => rfl
  | .item o rest => by
    simp [BSONArrayObj.project, BSONArrayObj.onPaths, BSONObj.onPaths_project ps o,
      BSONArrayObj.onPaths_project ps rest]

end

theorem BSONObj.getContent_project (ps : List (List CString)) {key : CString}
    (hkey : key ∈ heads ps) (o : BSONObj) :
    (o.project ps).getContent key = (o.getContent key).map (BSONContent.project (tails key ps)) := by
  induction o with
  | empty => rfl
  | field k c rest ih =>
    rw [project]
    by_cases heq : k = key
    · subst heq
      simp [hkey, getContent]
    · split_ifs with hk <;> simp [getContent, heq, ih]

theorem BSONArrayObj.items_project (ps : List (List CString)) (a : BSONArrayObj) :
    (a.project ps).items = a.items.map (BSONObj.project ps) := by
  induction a with
  | empty => rfl
  | item o rest ih => rw [project, items, ih, items, List.map_cons]

theorem head_mem_heads {ps : List (List CString)} {k : CString} {rest : List CString}
    (h : k :: rest ∈ ps) : k ∈ heads ps := List.mem_filterMap.2 ⟨_, h, rfl⟩

theorem rest_mem_tails {ps : List (List CString)} {k k' : CString} {rest : List CString}
    (h : k :: k' :: rest ∈ ps) : k' :: rest ∈ tails k ps :=
  List.mem_filterMap.2 ⟨_, h, if_pos rfl⟩

/-- At one of the paths stands what was there, projected to the paths below it. -/
theorem BSONObj.reach_project {ps : List (List CString)} :
    ∀ {p : List CString} (o : BSONObj), p ∈ ps → (o.project ps).reach p =
      (o.reach p).map fun found => (found.1, found.2.project (below p ps))
  | [], _, _ => rfl
  | [k], o, hp => by
    rw [reach, reach, getContent_project ps (head_mem_heads hp)]
    cases o.getContent k <;> rfl
  | k :: k' :: rest, o, hp => by
    have hin : ∀ inner : BSONObj, (inner.project (tails k ps)).reach (k' :: rest) =
        (inner.reach (k' :: rest)).map fun found =>
          (found.1, found.2.project (below (k' :: rest) (tails k ps))) := fun inner =>
      reach_project inner (rest_mem_tails hp)
    rw [reach, reach, getContent_project ps (head_mem_heads hp)]
    cases o.getContent k with
    | none => rfl
    | some c =>
      cases c with
      | bson inner => exact hin inner
      | array a =>
        simp only [Option.map_some, BSONContent.project]
        rw [BSONArrayObj.items_project, List.zipIdx_map, List.flatMap_map, List.map_flatMap]
        apply List.flatMap_congr
        intro item hitem
        simp only [Prod.map, hin, List.map_map]
        rfl
      | _ => rfl

/-- The projection to a list of paths keeps the value at each path, nested or not, and has no
field beside them, exactly where the longer paths of the list name everything in the nested
values that paths end at. -/
theorem selected_paths_kept_iff (d : Document) (ps : List (List CString))
    (hps : ∀ p ∈ ps, IsXpath p) :
    SelectsPaths d.obj ps ↔ d.obj.namesFit ps = true ∧ EndsCovered d.obj ps := by
  have hselect := selectWith_selectList hps (BSONObj.wf_iff.1 d.wf).2
  have hreach : ∀ p ∈ ps, (d.obj.project ps).reach p = d.obj.reach p ↔
      ∀ found ∈ d.obj.reach p, found.2.covered (below p ps) = true := by
    intro p hp
    rw [BSONObj.reach_project d.obj hp]
    conv => lhs; rhs; rw [← List.map_id (d.obj.reach p)]
    rw [List.map_inj_left]
    apply forall₂_congr
    intro found _
    rw [← BSONContent.project_eq_iff, id, Prod.ext_iff]
    simp
  constructor
  · rintro ⟨r, hr, hkeep, -⟩
    rw [hselect] at hr
    split_ifs at hr with hfit
    obtain rfl := Outcome.value.inj hr
    exact ⟨hfit, fun p hp => (hreach p hp).1 (hkeep p hp)⟩
  · rintro ⟨hfit, hcovered⟩
    refine ⟨d.obj.project ps, by rw [hselect, if_pos hfit], ?_, d.obj.onPaths_project ps⟩
    exact fun p hp => (hreach p hp).2 (hcovered p hp)

/-- `$"name", $"one.data"` of `{"age": 3, "name": "J", "one": {"data": 1}}`. -/
theorem selected_paths_kept_data :
    let age : CString := ⟨[97, 103, 101], by decide⟩
    let name : CString := ⟨[110, 97, 109, 101], by decide⟩
    let one : CString := ⟨[111, 110, 101], by decide⟩
    let data : CString := ⟨[100, 97, 116, 97], by decide⟩
    let d : BSONObj := .field age (.int 3) (.field name (.string ⟨[74], by decide⟩)
      (.field one (.bson (.field data (.int 1) .empty)) .empty))
    SelectsPaths d [[name], [one, data]] := by
  intro age name one data d
  exact (selected_paths_kept_iff ⟨d, by decide⟩ [[name], [one, data]] (by decide)).2 (by decide)

/-- `$"one"` of `{"one": {"data": 1}}`: nothing is listed below `one`. -/
theorem selected_document_emptied :
    let one : CString := ⟨[111, 110, 101], by decide⟩
    let d : BSONObj :=
      .field one (.bson (.field ⟨[100, 97, 116, 97], by decide⟩ (.int 1) .empty)) .empty
    d.wf = true ∧ IsXpath [one] ∧
      d.selectWith (selectList [[one]]) = .value (.field one (.bson .empty) .empty) ∧
      ¬ SelectsPaths d [[one]] := by
  intro one d
  have hselect : d.selectWith (selectList [[one]]) = .value (.field one (.bson .empty) .empty) := by
    decide
  refine ⟨by decide, by decide, hselect, ?_⟩
  rintro ⟨r, hr, hkeep, -⟩
  rw [hselect] at hr
  have hlost := hkeep [one] List.mem_cons_self
  rw [← Outcome.value.inj hr] at hlost
  revert hlost
  decide

end Djondb
