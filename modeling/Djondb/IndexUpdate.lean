import Djondb.IndexSearch

set_option autoImplicit false

/-!
# `BPlusIndexP::update` and `setKeys`

An update gives the leaf entry of a key another position. Copies of the entry that splits have
put into inner pages keep the old one.
-/
namespace Djondb
namespace BPlusIndexP
open Bytes SearchPage SearchTree

theorem shape_set {page : IndexPage} {es : List Index} {ps : List ℕ} (h : page.Shape es ps) {x : ℕ}
    (hx : x < es.length) (e : Index) :
    ({ page with elements := page.elements.set x (some e) } : IndexPage).Shape (es.set x e) ps := by
  refine ⟨?_, h.pointers, ?_, ?_, ?_⟩
  · rw [h.elements, List.set_append_left _ _ (by simpa using hx), ← List.map_set, List.length_set]
  · rw [List.length_set]
    exact h.size
  · rw [List.length_set]
    exact h.le
  · rw [List.length_set]
    exact h.children

/-- The index `s'` with tree `T'` is `s` with `e` in place of the leaf entry of its key. -/
structure Updated (T : PageTree) (e : Index) (s' : BPlusIndexP) (T' : PageTree) : Prop where
  ready : Ready s' T'
  leaves : ∀ a, T'.InLeaf a ↔ a = e ∨ T.InLeaf a ∧ a.key ≠ e.key
  entries : ∀ q, T'.live q → ∀ a ∈ T'.entries q, a = e ∨ ∃ q', T.live q' ∧ a ∈ T.entries q'

section update
variable {s : BPlusIndexP} {T : PageTree}

/-- The entry with the key of a leaf entry is found in the leaf that owns the key. -/
theorem Ready.findIndex_leaf (h : Ready s T) {e : Index} (he : T.InLeaf e) {leaf : ℕ}
    (hleaf : T.live leaf) (h0 : T.level leaf = 0) (ho : T.Owns leaf e.key.rank) :
    ∃ x, (T.entries leaf)[x]? = some e ∧
      BPlusIndexP.findIndex s.fuel s leaf e.key = some (s, some (leaf, x)) := by
  obtain ⟨n, hn⟩ : ∃ n, s.fuel = n + 1 := ⟨s.fuel - 1, by have := h.root_lt_fuel; omega⟩
  obtain ⟨x, e', he', hkey, hstep⟩ | ⟨hne, -⟩ :=
    findIndex_step e.key n (h.visit hleaf) (h.shape hleaf) (h.inv.sorted leaf hleaf)
  · have hmem : T.InLeaf e' := ⟨leaf, hleaf, h0, List.mem_of_getElem? he'⟩
    obtain rfl := h.inv.leaf_unique hmem he (congrArg CString.rank hkey)
    exact ⟨x, he', by rw [hn, hstep]⟩
  · exact absurd rfl (hne e (h.inv.mem_owner hleaf h0 ho he))

/-- Other entries of a leaf do not have the key of entry `x`. -/
theorem Ready.mem_set_iff (h : Ready s T) {leaf x : ℕ} {e e' : Index} (hleaf : T.live leaf)
    (hx : (T.entries leaf)[x]? = some e) (hkey : e'.key = e.key) (a : Index) :
    a ∈ (T.entries leaf).set x e' ↔ a = e' ∨ a ∈ T.entries leaf ∧ a.key ≠ e.key := by
  obtain ⟨hlt, hget⟩ := List.getElem?_eq_some_iff.1 hx
  have hd := List.pairwise_iff_getElem.1 (h.inv.sorted leaf hleaf)
  have hne : ∀ i (hi : i < (T.entries leaf).length), i ≠ x → (T.entries leaf)[i].key ≠ e.key := by
    intro i hi hix heq
    have hrank : Index.rank (T.entries leaf)[i] = Index.rank (T.entries leaf)[x] := by
      rw [hget]
      exact congrArg CString.rank heq
    obtain hlt' | hlt' := Nat.lt_or_gt_of_ne hix
    · exact (hd i x hi hlt hlt').ne' hrank
    · exact (hd x i hlt hi hlt').ne hrank
  rw [List.mem_iff_getElem]
  constructor
  · rintro ⟨i, hi, rfl⟩
    rw [List.length_set] at hi
    rw [List.getElem_set]
    split_ifs with hxi
    · exact Or.inl rfl
    · exact Or.inr ⟨List.getElem_mem hi, hne i hi (Ne.symm hxi)⟩
  · rintro (rfl | ⟨ha, hak⟩)
    · exact ⟨x, by rw [List.length_set]; exact hlt, List.getElem_set_self _⟩
    · obtain ⟨i, hi, rfl⟩ := List.mem_iff_getElem.1 ha
      have hix : x ≠ i := by
        rintro rfl
        exact hak (by rw [hget])
      exact ⟨i, by rw [List.length_set]; exact hi, List.getElem_set_ne hix _⟩

/-- One entry of one leaf is replaced. -/
theorem Ready.update_leaf (h : Ready s T) {e : Index} (he : T.InLeaf e) (filePos : ℤ) :
    ∃ leaf x s', T.live leaf ∧ T.level leaf = 0 ∧
      BPlusIndexP.update s e.key filePos = some (s', true) ∧
      Updated T { e with posData := filePos } s'
        (T.setEntries leaf ((T.entries leaf).set x { e with posData := filePos })) := by
  obtain ⟨leaf, hfind, hleaf, h0, ho⟩ := h.findIndexPage e.key s.fuel h.inv.root h.root_lt_fuel
    (h.inv.root_owns _)
  rw [← h.represents.head] at hfind
  obtain ⟨x, hx, hindex⟩ := h.findIndex_leaf he hleaf h0 ho
  obtain ⟨e', he'⟩ : ∃ e' : Index, e' = { e with posData := filePos } := ⟨_, rfl⟩
  have hkey : e'.key = e.key := by rw [he']
  obtain ⟨hlt, hget⟩ := List.getElem?_eq_some_iff.1 hx
  have hlive := (h.represents.live leaf).1 hleaf
  obtain ⟨T', hT'⟩ : ∃ T', T' = T.setEntries leaf ((T.entries leaf).set x e') := ⟨_, rfl⟩
  have hself : T'.entries leaf = (T.entries leaf).set x e' := by simp [hT', Tree.setEntries]
  have hother : ∀ q, q ≠ leaf → T'.entries q = T.entries q := fun q hq => by
    simp [hT', Tree.setEntries, hq]
  have hinv : T'.Inv Index.rank none := by
    rw [hT']
    refine h.inv.replaceEntries (List.ext_getElem? fun i => ?_)
    rw [List.map_set, List.getElem?_set, List.getElem?_map]
    split_ifs with hxi hlen
    · rw [← hxi, hx]
      exact congrArg (fun k => some (CString.rank k)) hkey
    · rw [List.length_map] at hlen
      omega
    · rfl
  obtain ⟨s1, hs1⟩ : ∃ s1, s1 = s.setPosData (leaf, x) filePos := ⟨_, rfl⟩
  have hset : s1 = s.setPage leaf
      { s.page leaf with elements := (s.page leaf).elements.set x (some e') } := by
    rw [hs1, setPosData, (h.shape hleaf).element_eq, hx, he']
    rfl
  have hpage : s1.page leaf =
      { s.page leaf with elements := (s.page leaf).elements.set x (some e') } := by
    rw [hset, page_setPage_self hlive]
  have hpage' : ∀ q, q ≠ leaf → s1.page q = s.page q := fun q hq => by
    rw [hset, page_setPage_of_ne hq]
  -- a field of the pages that `setPosData` does not touch
  have hkeep : ∀ {α : Type} (f : IndexPage → α), (∀ pg es, f { pg with elements := es } = f pg) →
      ∀ q, f (s1.page q) = f (s.page q) := by
    intro α f hf q
    by_cases hq : q = leaf
    · rw [hq, hpage]
      exact hf _ _
    · rw [hpage' q hq]
  have hrest : SameRest s s1 := hset ▸ sameRest_setPage _ _ _
  have hr1 : Represents s1 T' 0 := by
    rw [hT']
    refine ⟨fun q => ?_, hrest.head.trans h.represents.head, ?_, fun q hq => ?_, fun q hq => ?_,
      fun q hq _ => ?_⟩
    · rw [hrest.length]
      exact h.represents.live q
    · rw [hrest.length]
      exact h.represents.height
    · rw [hkeep IndexPage.parentElement (fun _ _ => rfl)]
      exact h.represents.parent q hq
    · rw [hkeep IndexPage.leftSibling (fun _ _ => rfl), hkeep IndexPage.rightSibling (fun _ _ => rfl)]
      exact h.represents.siblings q hq
    · rw [← hT']
      have hchildren : T'.children = T.children := by
        rw [hT']
        rfl
      rw [hchildren]
      by_cases hql : q = leaf
      · rw [hql, hpage, hself]
        exact shape_set (h.shape hleaf) hlt e'
      · rw [hpage' q hql, hother q hql]
        exact h.shape hq
  have hpl1 : s1.Placed := by
    refine h.placed.of_sameManager (fun q hq => Or.inr ⟨?_, ?_, ?_⟩) hrest.bufferManager hrest.keys
    · rw [← hrest.length]
      exact hq
    · exact hkeep IndexPage.bufferIndex (fun _ _ => rfl) q
    · exact hkeep IndexPage.bufferPos (fun _ _ => rfl) q
  obtain ⟨i, s', hs', h'⟩ := hpl1.persistPage (p := leaf) (by
    rw [hrest.length]
    exact hlive)
  have hlive' : T'.live = T.live := by
    rw [hT']
    rfl
  have hlevel' : T'.level = T.level := by
    rw [hT']
    rfl
  have hcall : BPlusIndexP.update s e.key filePos = some (s', true) := by
    simp only [BPlusIndexP.update, hfind, hindex, Option.bind_eq_bind, Option.bind_some, ← hs1, hs']
  have hupdated : Updated T e' s' T' := by
    refine ⟨⟨hinv, h'.represents hr1, h'.placed, fun q hq => h'.isLoaded ?_⟩,
      fun a => ?_, fun q hq a ha => ?_⟩
    · rw [hkeep IndexPage.isLoaded (fun _ _ => rfl)]
      exact Or.inr (h.loaded q (hlive' ▸ hq))
    · rw [hkey]
      constructor
      · rintro ⟨q, hq, hq0, ha⟩
        rw [hlive'] at hq
        rw [hlevel'] at hq0
        by_cases hql : q = leaf
        · rw [hql, hself, h.mem_set_iff hleaf hx hkey] at ha
          exact ha.imp_right fun ha => ⟨⟨leaf, hleaf, h0, ha.1⟩, ha.2⟩
        · rw [hother q hql] at ha
          refine Or.inr ⟨⟨q, hq, hq0, ha⟩, fun hak => hql ?_⟩
          have hoq : T.Owns q e.key.rank := hak ▸ h.inv.entry_owned hq ha
          exact h.inv.owner_unique hq hleaf (by rw [hq0, h0]) hoq ho
      · rintro (rfl | ⟨⟨q, hq, hq0, ha⟩, hak⟩)
        · refine ⟨leaf, hlive' ▸ hleaf, by rw [hlevel', h0], ?_⟩
          rw [hself, h.mem_set_iff hleaf hx hkey]
          exact Or.inl rfl
        · refine ⟨q, hlive' ▸ hq, by rw [hlevel', hq0], ?_⟩
          by_cases hql : q = leaf
          · rw [hql] at ha ⊢
            rw [hself, h.mem_set_iff hleaf hx hkey]
            exact Or.inr ⟨ha, hak⟩
          · rw [hother q hql]
            exact ha
    · rw [hlive'] at hq
      by_cases hql : q = leaf
      · rw [hql, hself, h.mem_set_iff hleaf hx hkey] at ha
        exact ha.imp_right fun ha => ⟨leaf, hleaf, ha.1⟩
      · rw [hother q hql] at ha
        exact Or.inr ⟨q, hq, ha⟩
  refine ⟨leaf, x, s', hleaf, h0, hcall, ?_⟩
  rw [← he', ← hT']
  exact hupdated

theorem Ready.update (h : Ready s T) {e : Index} (he : T.InLeaf e) (filePos : ℤ) :
    ∃ s' T', BPlusIndexP.update s e.key filePos = some (s', true) ∧
      Updated T { e with posData := filePos } s' T' := by
  rcases h.update_leaf he filePos with ⟨leaf, x, s', -, -, hcall, hupdated⟩
  exact ⟨s', _, hcall, hupdated⟩

/-- Nothing is written for a key that no leaf has. -/
theorem Ready.update_absent (h : Ready s T) {key : CString} (hnone : ∀ a, T.InLeaf a → a.key ≠ key)
    (filePos : ℤ) : BPlusIndexP.update s key filePos = some (s, false) := by
  rcases h.findIndexPage key s.fuel h.inv.root h.root_lt_fuel (h.inv.root_owns _) with
    ⟨leaf, hfind, hleaf, h0, -⟩
  rw [← h.represents.head] at hfind
  obtain ⟨n, hn⟩ : ∃ n, s.fuel = n + 1 := ⟨s.fuel - 1, by have := h.root_lt_fuel; omega⟩
  have hindex : BPlusIndexP.findIndex s.fuel s leaf key = some (s, none) := by
    rcases findIndex_step key n (h.visit hleaf) (h.shape hleaf) (h.inv.sorted leaf hleaf) with
      ⟨x, e, he, hek, -⟩ | ⟨-, hstep⟩
    · exact absurd hek (hnone e ⟨leaf, hleaf, h0, List.mem_of_getElem? he⟩)
    · rw [hn, hstep, h.inv.leaf hleaf h0]
      rfl
  unfold BPlusIndexP.update
  rw [hfind, Option.bind_eq_bind, Option.bind_some]
  dsimp only
  rw [hindex]
  rfl

end update

/-! ## Keys -/

/-- Strings written one after another are written from the stream's position on. -/
theorem foldl_writeString (keys : List CString) (b : Buffer) (hb : b.pos ≤ b.content.length) :
    (keys.foldl Buffer.writeString b).content =
        overwrite b.content b.pos (keys.flatMap writeString) ∧
      (keys.foldl Buffer.writeString b).bufferIndex = b.bufferIndex ∧
      (keys.foldl Buffer.writeString b).maxLength = b.maxLength := by
  induction keys generalizing b with
  | nil => exact ⟨(overwrite_nil b.content hb).symm, rfl, rfl⟩
  | cons key keys ih =>
    have hpos : (b.writeString key).pos = b.pos + (writeString key).length := rfl
    have hput : (b.writeString key).content = overwrite b.content b.pos (writeString key) := rfl
    obtain ⟨hcontent, hidx, hmax⟩ := ih (b.writeString key) (by
      rw [hpos, hput, overwrite_length]
      exact le_max_right _ _)
    refine ⟨?_, hidx, hmax⟩
    rw [List.foldl_cons, hcontent, hpos, hput, overwrite_overwrite]
    rfl

/-- `setKeys` writes behind the head position only. -/
theorem Ready.setKeys {s : BPlusIndexP} {T : PageTree} (h : Ready s T)
    (h0 : 0 < s.bufferManager.buffers.length) (keys : List CString) :
    ∃ s', BPlusIndexP.setKeys s keys = some s' ∧ Ready s' T := by
  obtain ⟨b, hget, hbi, hbm, -⟩ := h.placed.wf.getBuffer h0
  have hget' : s.bufferManager.getBuffer 0 = some b := hget
  obtain ⟨b', hb'⟩ : ∃ b', b' = keys.foldl Buffer.writeString ((b.seek 16).writeInt keys.length) :=
    ⟨_, rfl⟩
  have hpos : ((b.seek 16).writeInt keys.length).pos = 16 + (writeInt keys.length).length := rfl
  have hput : ((b.seek 16).writeInt keys.length).content =
      overwrite b.content 16 (writeInt keys.length) := rfl
  obtain ⟨hcontent, hidx, hmax⟩ := foldl_writeString keys ((b.seek 16).writeInt keys.length) (by
    rw [hpos, hput, overwrite_length]
    exact le_max_right _ _)
  rw [← hb'] at hcontent hidx hmax
  have hkeysImage : b'.content.drop 16 = writeInt keys.length ++ (keys.flatMap writeString ++
      b.content.drop (16 + (writeInt keys.length ++ keys.flatMap writeString).length)) := by
    rw [hcontent, hpos, hput, overwrite_overwrite, overwrite_drop, List.append_assoc]
  refine ⟨({ s with keys := keys } : BPlusIndexP).withManager (s.bufferManager.setBuffer 0 b'), ?_,
    h.inv, ?_, ?_, fun q hq => h.loaded q hq⟩
  · simp only [BPlusIndexP.setKeys, hget', Option.bind_eq_bind, Option.bind_some, ← hb']
  · exact ⟨h.represents.live, h.represents.head, h.represents.height, h.represents.parent,
      h.represents.siblings, h.represents.shape⟩
  · refine h.placed.of_same (fun q hq => Or.inr ⟨hq, rfl, rfl⟩)
      (h.placed.wf.setBuffer (j := 0) (hidx.trans hbi) (hmax.trans hbm))
      (BufferManager.setBuffer_length _ _) (Or.inr ⟨b.content.drop
        (16 + (writeInt keys.length ++ keys.flatMap writeString).length), ?_⟩)
    have hset := BufferManager.content_setBuffer h0 b' 0
    rw [if_pos rfl] at hset
    exact (congrArg (List.drop 16) hset).trans hkeysImage

end BPlusIndexP
end Djondb
