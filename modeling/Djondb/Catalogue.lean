import Djondb.StreamManager

set_option autoImplicit false

/-!
# The catalogue of open streams

When `djondb.dat` lists the streams that are open, and when a new process opens the same ones.
-/
namespace Djondb
open Bytes

/-! ## The maps -/

section maps
variable {β : Type}

theorem get_insert (t : Std.TreeMap CString β) (k a : CString) (v : β) :
    (t.insert k v)[a]? = if a = k then some v else t[a]? := by
  rw [Std.TreeMap.getElem?_insert]
  by_cases h : a = k
  · rw [if_pos h, if_pos (compare_eq_iff_eq.2 h.symm)]
  · rw [if_neg h, if_neg (mt compare_eq_iff_eq.1 (Ne.symm h))]

theorem get_erase (t : Std.TreeMap CString β) (k a : CString) :
    (t.erase k)[a]? = if a = k then none else t[a]? := by
  rw [Std.TreeMap.getElem?_erase]
  by_cases h : a = k
  · rw [if_pos h, if_pos (compare_eq_iff_eq.2 h.symm)]
  · rw [if_neg h, if_neg (mt compare_eq_iff_eq.1 (Ne.symm h))]

theorem get_empty (a : CString) : (∅ : Std.TreeMap CString β)[a]? = none :=
  Std.TreeMap.getElem?_emptyc

end maps

/-! ## The format -/

theorem FILE_TYPE.code_word (type : FILE_TYPE) : Word 4 type.code := by
  cases type <;> decide

namespace SpaceEntry

theorem readTypes_reads (types : List FILE_TYPE) :
    Reads (readTypes types.length) (types.flatMap fun type => writeInt type.code) types := by
  induction types with
  | nil => exact Reads.pure _
  | cons type types ih =>
    have hrest := ih.bind_pure fun types => type :: types
    rw [List.flatMap_cons]
    refine (readInt_reads type.code_word).bind ?_
    rw [FILE_TYPE.ofCode_code]
    exact hrest

/-- The names fit their length prefixes. -/
def Fits (e : SpaceEntry) : Prop :=
  e.db.length < 2 ^ 31 ∧ e.ns.length < 2 ^ 31 ∧ e.types.length < 2 ^ 31

theorem Fits.reads {e : SpaceEntry} (h : e.Fits) : Reads read e.write e := by
  rcases h with ⟨hdb, hns, htypes⟩
  have hlast := (readTypes_reads e.types).bind_pure fun types => SpaceEntry.mk e.db e.ns types
  refine (readString_reads hdb).bind ((readString_reads hns).bind
    ((readInt_reads (word_four_natCast htypes)).bind ?_))
  rw [Int.toNat_natCast]
  exact hlast

theorem write_ne_nil (e : SpaceEntry) : e.write ≠ [] := by
  intro h
  have hlen := congrArg List.length h
  have hint : (writeInt (e.types.length : ℤ)).length = 4 := encodeWord_length 4 _
  unfold write at hlen
  rw [List.length_append, List.length_append, List.length_append, hint, List.length_nil] at hlen
  omega

/-- The file is read back entry by entry. -/
theorem readAll_write {entries : List SpaceEntry} (h : ∀ e ∈ entries, e.Fits) :
    Records.readAll read (Records.bytes write entries).length (Records.bytes write entries) =
      some entries := by
  have hne : ∀ e ∈ entries, write e ≠ [] := fun e _ => write_ne_nil e
  exact Records.readAll_bytes (fun e he => (h e he).reads) hne (Records.length_le_bytes hne)

end SpaceEntry

namespace StreamManager

section lookups
variable (m : StreamManager) (db ns db' ns' : CString)

theorem streams_insert (file : List UInt8) (s : Streams) :
    (StreamManager.mk (m.spaces.insert db ((m.space db).insert ns s)) file).streams db' ns' =
      if db' = db ∧ ns' = ns then some s else m.streams db' ns' := by
  unfold streams space
  rw [get_insert]
  by_cases hdb : db' = db
  · subst hdb
    rw [if_pos rfl, Option.getD_some, get_insert]
    by_cases hns : ns' = ns
    · rw [if_pos hns, if_pos ⟨rfl, hns⟩]
    · rw [if_neg hns, if_neg fun h => hns h.2]
  · rw [if_neg hdb, if_neg fun h => hdb h.1]

theorem streams_erase : (m.erase db ns).streams db' ns' =
    if db' = db ∧ ns' = ns then none else m.streams db' ns' := by
  unfold erase
  cases hspaces : m.spaces[db]? with
  | none =>
    by_cases h : db' = db ∧ ns' = ns
    · rw [if_pos h, h.1]
      change ((m.spaces[db]?).getD ∅)[ns']? = none
      rw [hspaces, Option.getD_none, get_empty]
    · rw [if_neg h]
  | some spaces =>
    change (((m.spaces.insert db (spaces.erase ns))[db']?).getD ∅)[ns']? =
      if _ then _ else ((m.spaces[db']?).getD ∅)[ns']?
    rw [get_insert]
    by_cases hdb : db' = db
    · subst hdb
      rw [if_pos rfl, Option.getD_some, get_erase, hspaces, Option.getD_some]
      by_cases hns : ns' = ns
      · rw [if_pos hns, if_pos ⟨rfl, hns⟩]
      · rw [if_neg hns, if_neg fun h => hns h.2]
    · rw [if_neg hdb, if_neg fun h => hdb h.1]

/-- An open stream adds its type only. -/
theorem isOpen_openStream (initializing : Bool) (type type' : FILE_TYPE) :
    (m.openStream initializing db ns type).isOpen db' ns' type' =
      (m.isOpen db' ns' type' || decide (db' = db ∧ ns' = ns ∧ type' = type)) := by
  unfold openStream
  split_ifs with hopen hinit
  · by_cases h : db' = db ∧ ns' = ns ∧ type' = type
    · rcases h with ⟨rfl, rfl, rfl⟩
      rw [hopen]
      rfl
    · rw [decide_eq_false h, Bool.or_false]
  all_goals
    change ((StreamManager.mk _ _).streams db' ns').any _ = ((m.streams db' ns').any _ || _)
    rw [streams_insert]
    by_cases h : db' = db ∧ ns' = ns
    · rcases h with ⟨rfl, rfl⟩
      rw [if_pos ⟨rfl, rfl⟩, Option.any_some]
      by_cases htype : type' = type
      · subst htype
        simp
      · rw [Function.update_of_ne htype]
        cases m.streams db' ns' <;> simp [htype]
    · have hne : ¬ (db' = db ∧ ns' = ns ∧ type' = type) := fun h' => h ⟨h'.1, h'.2.1⟩
      rw [if_neg h, decide_eq_false hne, Bool.or_false]

/-- Each namespace has one entry, with the types that are open. -/
theorem mem_entries {m : StreamManager} {e : SpaceEntry} : e ∈ m.spaces.entries ↔
    ∃ s, m.streams e.db e.ns = some s ∧ e.types = FILE_TYPE.all.filter s := by
  unfold Spaces.entries streams space
  rw [List.mem_flatMap]
  constructor
  · rintro ⟨⟨db, spaces⟩, hdb, he⟩
    rcases List.mem_map.1 he with ⟨⟨ns, s⟩, hns, rfl⟩
    have hdb' := Std.TreeMap.mem_toList_iff_getElem?_eq_some.1 hdb
    have hns' := Std.TreeMap.mem_toList_iff_getElem?_eq_some.1 hns
    refine ⟨s, ?_, rfl⟩
    rw [hdb', Option.getD_some, hns']
  · rintro ⟨s, hs, htypes⟩
    cases hspaces : m.spaces[e.db]? with
    | none =>
      rw [hspaces, Option.getD_none, get_empty] at hs
      cases hs
    | some spaces =>
      rw [hspaces, Option.getD_some] at hs
      refine ⟨(e.db, spaces), Std.TreeMap.mem_toList_iff_getElem?_eq_some.2 hspaces, ?_⟩
      apply List.mem_map.2
      refine ⟨(e.ns, s), Std.TreeMap.mem_toList_iff_getElem?_eq_some.2 hs, ?_⟩
      cases e
      cases htypes
      rfl

theorem isOpen_iff {m : StreamManager} {db ns : CString} {type : FILE_TYPE} :
    m.isOpen db ns type = true ↔ ∃ e ∈ m.spaces.entries, e.db = db ∧ e.ns = ns ∧ type ∈ e.types := by
  unfold isOpen
  rw [Option.any_eq_true]
  constructor
  · rintro ⟨s, hs, htype⟩
    refine ⟨⟨db, ns, FILE_TYPE.all.filter s⟩, mem_entries.2 ⟨s, hs, rfl⟩, rfl, rfl, ?_⟩
    exact List.mem_filter.2 ⟨type.mem_all, htype⟩
  · rintro ⟨e, he, rfl, rfl, htype⟩
    rcases mem_entries.1 he with ⟨s, hs, htypes⟩
    rw [htypes] at htype
    exact ⟨s, hs, (List.mem_filter.1 htype).2⟩

/-! ## Opening what is listed -/

theorem isOpen_openTypes (e : SpaceEntry) (db ns : CString) (type : FILE_TYPE)
    (types : List FILE_TYPE) (m : StreamManager) :
    (types.foldl (fun m type =>
      let m := m.openStream true e.db e.ns type
      if type = .INDEX_FTYPE then m.openStream true e.db e.ns .DATA_FTYPE else m) m).isOpen
        db ns type = true ↔ m.isOpen db ns type = true ∨ db = e.db ∧ ns = e.ns ∧
          (type ∈ types ∨ type = .DATA_FTYPE ∧ FILE_TYPE.INDEX_FTYPE ∈ types) := by
  induction types generalizing m with
  | nil => simp
  | cons t types ih =>
    rw [List.foldl_cons, ih]
    dsimp only
    split_ifs with ht
    · subst ht
      rw [isOpen_openStream, isOpen_openStream]
      simp only [Bool.or_eq_true, decide_eq_true_eq, List.mem_cons]
      tauto
    · rw [isOpen_openStream]
      simp only [Bool.or_eq_true, decide_eq_true_eq, List.mem_cons, Ne.symm ht, false_or]
      tauto

theorem isOpen_openEntries (entries : List SpaceEntry) (m : StreamManager) (db ns : CString)
    (type : FILE_TYPE) : (entries.foldl openEntry m).isOpen db ns type = true ↔
      m.isOpen db ns type = true ∨ ∃ e ∈ entries, e.db = db ∧ e.ns = ns ∧
        (type ∈ e.types ∨ type = .DATA_FTYPE ∧ FILE_TYPE.INDEX_FTYPE ∈ e.types) := by
  induction entries generalizing m with
  | nil => simp
  | cons e entries ih =>
    rw [List.foldl_cons, ih, openEntry, isOpen_openTypes, List.exists_mem_cons_iff, or_assoc]
    apply or_congr_right
    apply or_congr_left
    rw [eq_comm, @eq_comm _ ns]

end lookups

/-! ## Runs -/

inductive Call where
  | openStream (db ns : CString) (type : FILE_TYPE)
  | close (db ns : CString)
  | dropNamespace (db ns : CString)

/-- Outside initialisation. -/
def call (m : StreamManager) : Call → StreamManager
  | .openStream db ns type => m.openStream false db ns type
  | .close db ns => m.close db ns
  | .dropNamespace db ns => m.dropNamespace db ns

def callAll (m : StreamManager) (calls : List Call) : StreamManager := calls.foldl call m

/-- Nothing is open and there is no file. -/
def empty : StreamManager := ⟨∅, []⟩

/-- Whether the file is up to date after a call: a stream that was not open has been opened, or
nothing has changed. -/
def Call.settles (m : StreamManager) (settled : Bool) : Call → Bool
  | openStream db ns type => settled || !m.isOpen db ns type
  | close db ns => settled && (m.streams db ns).isNone
  | dropNamespace _ _ => false

def settles (m : StreamManager) (settled : Bool) : List Call → Bool
  | [] => settled
  | c :: calls => (m.call c).settles (c.settles m settled) calls

/-- The database and the namespace of a call fit their length prefixes. -/
def Call.Fits : Call → Prop
  | openStream db ns _ => db.length < 2 ^ 31 ∧ ns.length < 2 ^ 31
  | close _ _ => True
  | dropNamespace db ns => db.length < 2 ^ 31 ∧ ns.length < 2 ^ 31

/-- The file lists the streams that are open. -/
def Lists (m : StreamManager) : Prop :=
  Records.readAll SpaceEntry.read m.file.length m.file = some m.spaces.entries

/-- A new process opens the streams that are open now. -/
def Restores (m : StreamManager) : Prop :=
  ∃ m', initializeFrom m.file = some m' ∧
    ∀ db ns type, m'.isOpen db ns type = m.isOpen db ns type

/-- An index stream is open only together with its data stream. -/
def DataWithIndex (m : StreamManager) : Prop :=
  ∀ db ns, m.isOpen db ns .INDEX_FTYPE = true → m.isOpen db ns .DATA_FTYPE = true

/-- Namespaces have names that fit, and a stream. -/
def Named (m : StreamManager) : Prop :=
  ∀ db ns s, m.streams db ns = some s →
    db.length < 2 ^ 31 ∧ ns.length < 2 ^ 31 ∧ ∃ type, s type = true

/-- The file holds what was open when it was written; if that is not up to date, some stream is
not open any more. -/
structure Tracks (m : StreamManager) (settled : Bool) : Prop where
  named : m.Named
  file : ∃ m0 : StreamManager, m0.Named ∧ m.file = Records.bytes SpaceEntry.write m0.spaces.entries ∧
    if settled then m0.spaces = m.spaces
    else ∃ db ns type, m0.isOpen db ns type = true ∧ m.isOpen db ns type = false

section invariant
variable {m : StreamManager} {db ns : CString} {settled : Bool}

theorem streams_nothing (file : List UInt8) (db ns : CString) :
    (StreamManager.mk ∅ file).streams db ns = none := by
  unfold streams space
  rw [get_empty, Option.getD_none, get_empty]

theorem isOpen_nothing (file : List UInt8) (db ns : CString) (type : FILE_TYPE) :
    (StreamManager.mk ∅ file).isOpen db ns type = false := by
  unfold isOpen
  rw [streams_nothing]
  rfl

theorem named_nothing (file : List UInt8) : (StreamManager.mk ∅ file).Named := by
  intro db ns s hs
  rw [streams_nothing] at hs
  cases hs

theorem Named.fits (h : m.Named) : ∀ e ∈ m.spaces.entries, e.Fits := by
  intro e he
  rcases mem_entries.1 he with ⟨s, hs, htypes⟩
  rcases h _ _ _ hs with ⟨hdb, hns, -⟩
  refine ⟨hdb, hns, ?_⟩
  rw [htypes]
  have hle := List.length_filter_le s FILE_TYPE.all
  have hall : FILE_TYPE.all.length = 3 := rfl
  omega

theorem Named.openStream (h : m.Named) (hdb : db.length < 2 ^ 31) (hns : ns.length < 2 ^ 31)
    (initializing : Bool) (type : FILE_TYPE) : (m.openStream initializing db ns type).Named := by
  unfold StreamManager.openStream
  split_ifs
  · exact h
  all_goals
    intro db' ns' s hs
    change (StreamManager.mk _ _).streams db' ns' = some s at hs
    rw [streams_insert] at hs
    split_ifs at hs with hsame
    · cases hs
      rcases hsame with ⟨rfl, rfl⟩
      exact ⟨hdb, hns, type, Function.update_self ..⟩
    · exact h db' ns' s hs

theorem Named.erase (h : m.Named) : (m.erase db ns).Named := by
  intro db' ns' s hs
  rw [streams_erase] at hs
  split_ifs at hs
  exact h db' ns' s hs

theorem file_erase : (m.erase db ns).file = m.file := by
  unfold StreamManager.erase
  split <;> rfl

theorem isOpen_erase (db' ns' : CString) (type : FILE_TYPE) : (m.erase db ns).isOpen db' ns' type =
    (m.isOpen db' ns' type && !decide (db' = db ∧ ns' = ns)) := by
  unfold isOpen
  rw [streams_erase]
  by_cases h : db' = db ∧ ns' = ns
  · rw [if_pos h, decide_eq_true h]
    simp
  · rw [if_neg h, decide_eq_false h]
    simp

theorem Tracks.openStream (h : m.Tracks settled) (hdb : db.length < 2 ^ 31)
    (hns : ns.length < 2 ^ 31) (type : FILE_TYPE) :
    (m.openStream false db ns type).Tracks (settled || !m.isOpen db ns type) := by
  have hnamed := h.named.openStream hdb hns false type
  by_cases hopen : m.isOpen db ns type = true
  · have hsame : m.openStream false db ns type = m := if_pos hopen
    rw [hopen, hsame, Bool.not_true, Bool.or_false]
    exact h
  · have hsaved : (m.openStream false db ns type).file =
        Records.bytes SpaceEntry.write (m.openStream false db ns type).spaces.entries := by
      unfold StreamManager.openStream
      rw [if_neg hopen]
      rfl
    rw [Bool.eq_false_iff.2 hopen, Bool.not_false, Bool.or_true]
    exact ⟨hnamed, _, hnamed, hsaved, rfl⟩

/-- A namespace with a stream is taken out, and the file is not written. -/
theorem Tracks.erase (h : m.Tracks settled) {type : FILE_TYPE} (hopen : m.isOpen db ns type = true) :
    (m.erase db ns).Tracks false := by
  rcases h.file with ⟨m0, hnamed, hfile, hsettled⟩
  refine ⟨h.named.erase, m0, hnamed, file_erase.trans hfile, ?_⟩
  cases settled with
  | true =>
    have hspaces : m0.spaces = m.spaces := hsettled
    refine ⟨db, ns, type, ?_, ?_⟩
    · unfold isOpen streams space at hopen ⊢
      rw [hspaces]
      exact hopen
    · rw [isOpen_erase, decide_eq_true ⟨rfl, rfl⟩, Bool.not_true, Bool.and_false]
  | false =>
    rcases hsettled with ⟨db', ns', type', h0, hm⟩
    refine ⟨db', ns', type', h0, ?_⟩
    rw [isOpen_erase, hm, Bool.false_and]

theorem Tracks.call (h : m.Tracks settled) {c : Call} (hc : c.Fits) :
    (m.call c).Tracks (c.settles m settled) := by
  cases c with
  | openStream db ns type => exact h.openStream hc.1 hc.2 type
  | close db ns =>
    change (m.close db ns).Tracks (settled && (m.streams db ns).isNone)
    unfold StreamManager.close
    cases hs : m.streams db ns with
    | none =>
      rw [Option.isSome_none, Option.isNone_none, Bool.and_true]
      exact h
    | some s =>
      rcases (h.named db ns s hs).2.2 with ⟨type, htype⟩
      have hopen : m.isOpen db ns type = true := by
        unfold isOpen
        rw [hs]
        exact htype
      rw [Option.isNone_some, Bool.and_false]
      exact h.erase hopen
  | dropNamespace db ns =>
    have hdata := h.openStream hc.1 hc.2 .DATA_FTYPE
    have hindex := hdata.openStream hc.1 hc.2 .INDEX_FTYPE
    have hopen : ((m.openStream false db ns .DATA_FTYPE).openStream false db ns .INDEX_FTYPE).isOpen
        db ns .INDEX_FTYPE = true := by
      rw [isOpen_openStream, decide_eq_true ⟨rfl, rfl, rfl⟩, Bool.or_true]
    exact hindex.erase hopen

theorem Tracks.callAll (h : m.Tracks settled) {calls : List Call} (hcalls : ∀ c ∈ calls, c.Fits) :
    (m.callAll calls).Tracks (m.settles settled calls) := by
  induction calls generalizing m settled with
  | nil => exact h
  | cons c calls ih =>
    rcases List.forall_mem_cons.1 hcalls with ⟨hc, hcalls⟩
    exact ih (h.call hc) hcalls

theorem Named.readAll (h : m.Named) (file : List UInt8)
    (hfile : file = Records.bytes SpaceEntry.write m.spaces.entries) :
    Records.readAll SpaceEntry.read file.length file = some m.spaces.entries := by
  rw [hfile]
  exact SpaceEntry.readAll_write h.fits

/-- What a new process opens. -/
theorem Named.initializeFrom (h : m.Named) {file : List UInt8}
    (hfile : file = Records.bytes SpaceEntry.write m.spaces.entries) :
    ∃ m', initializeFrom file = some m' ∧ ∀ db ns type, m'.isOpen db ns type = true ↔
      m.isOpen db ns type = true ∨
        type = .DATA_FTYPE ∧ m.isOpen db ns .INDEX_FTYPE = true := by
  refine ⟨m.spaces.entries.foldl openEntry ⟨∅, file⟩, ?_, ?_⟩
  · unfold StreamManager.initializeFrom
    rw [h.readAll file hfile]
    rfl
  · intro db ns type
    rw [isOpen_openEntries, isOpen_nothing, isOpen_iff, isOpen_iff]
    constructor
    · rintro (hfalse | ⟨e, he, hdb, hns, htype | ⟨htype, hindex⟩⟩)
      · cases hfalse
      · exact Or.inl ⟨e, he, hdb, hns, htype⟩
      · exact Or.inr ⟨htype, e, he, hdb, hns, hindex⟩
    · rintro (⟨e, he, hdb, hns, htype⟩ | ⟨htype, e, he, hdb, hns, hindex⟩)
      · exact Or.inr ⟨e, he, hdb, hns, Or.inl htype⟩
      · exact Or.inr ⟨e, he, hdb, hns, Or.inr ⟨htype, hindex⟩⟩

theorem isOpen_of_spaces {m0 : StreamManager} (h : m0.spaces = m.spaces) (db ns : CString)
    (type : FILE_TYPE) : m0.isOpen db ns type = m.isOpen db ns type := by
  unfold isOpen streams space
  rw [h]

theorem Tracks.lists_and_restores_iff (h : m.Tracks settled) :
    m.Lists ∧ m.Restores ↔ settled = true ∧ m.DataWithIndex := by
  rcases h.file with ⟨m0, hnamed, hfile, hsettled⟩
  rcases hnamed.initializeFrom hfile with ⟨m1, hm1, hopen⟩
  cases settled with
  | true =>
    have hspaces : m0.spaces = m.spaces := hsettled
    have hlists : m.Lists := by
      unfold Lists
      rw [hnamed.readAll m.file hfile, hspaces]
    constructor
    · rintro ⟨-, m2, hm2, hsame⟩
      cases hm1.symm.trans hm2
      refine ⟨rfl, fun db ns hindex => ?_⟩
      rw [← hsame, hopen, isOpen_of_spaces hspaces]
      exact Or.inr ⟨rfl, by rwa [isOpen_of_spaces hspaces]⟩
    · rintro ⟨-, hdata⟩
      refine ⟨hlists, m1, hm1, fun db ns type => ?_⟩
      rw [Bool.eq_iff_iff, hopen, isOpen_of_spaces hspaces, isOpen_of_spaces hspaces]
      constructor
      · rintro (htype | ⟨rfl, hindex⟩)
        · exact htype
        · exact hdata db ns hindex
      · exact Or.inl
  | false =>
    rcases hsettled with ⟨db, ns, type, h0, hm⟩
    refine iff_of_false ?_ fun hfalse => nomatch hfalse.1
    rintro ⟨-, m2, hm2, hsame⟩
    cases hm1.symm.trans hm2
    have htrue := (hopen db ns type).2 (Or.inl h0)
    rw [hsame, hm] at htrue
    cases htrue

/-- The file is up to date. -/
structure UpToDate (m : StreamManager) : Prop where
  named : m.Named
  file : m.file = Records.bytes SpaceEntry.write m.spaces.entries

theorem empty_upToDate : empty.UpToDate := ⟨named_nothing [], rfl⟩

theorem UpToDate.tracks (h : m.UpToDate) : m.Tracks true := ⟨h.named, m, h.named, h.file, rfl⟩

/-! ## The order of the entries -/

def Before (a b : SpaceEntry) : Prop := a.db < b.db ∨ a.db = b.db ∧ a.ns < b.ns

theorem toList_ordered {β : Type} (t : Std.TreeMap CString β) :
    t.toList.Pairwise fun a b => a.1 < b.1 := by
  apply t.ordered_keys_toList.imp
  intro a b h
  exact compare_lt_iff_lt.1 h

theorem entries_ordered (spaces : Spaces) : spaces.entries.Pairwise Before := by
  unfold Spaces.entries
  apply List.pairwise_flatMap.2
  constructor
  · intro d _
    rw [List.pairwise_map]
    apply (toList_ordered d.2).imp
    intro a b h
    exact Or.inr ⟨rfl, h⟩
  · apply (toList_ordered spaces).imp
    intro d d' h a ha b hb
    rcases List.mem_map.1 ha with ⟨_, _, rfl⟩
    rcases List.mem_map.1 hb with ⟨_, _, rfl⟩
    exact Or.inl h

theorem before_asymm {a b : SpaceEntry} (h : Before a b) : ¬ Before b a := by
  rcases h with h | ⟨hdb, h⟩
  · rintro (h' | ⟨hdb', -⟩)
    · exact lt_asymm h h'
    · exact h.ne hdb'.symm
  · rintro (h' | ⟨-, h'⟩)
    · exact h'.ne hdb.symm
    · exact lt_asymm h h'

theorem entries_nodup (spaces : Spaces) : spaces.entries.Nodup := by
  apply (entries_ordered spaces).imp
  intro a b h hab
  subst hab
  exact before_asymm h h

theorem Named.mem_entries_iff (h : m.Named) {e : SpaceEntry} : e ∈ m.spaces.entries ↔
    e.types = FILE_TYPE.all.filter (fun type => m.isOpen e.db e.ns type) ∧ e.types ≠ [] := by
  rw [mem_entries]
  constructor
  · rintro ⟨s, hs, htypes⟩
    rcases (h _ _ s hs).2.2 with ⟨type, htype⟩
    have hopen : ∀ type, m.isOpen e.db e.ns type = s type := by
      intro type
      unfold isOpen
      rw [hs, Option.any_some]
    refine ⟨?_, ?_⟩
    · rw [htypes]
      exact congrArg (fun p => FILE_TYPE.all.filter p) (funext fun type => (hopen type).symm)
    · rw [htypes]
      exact List.ne_nil_of_mem (List.mem_filter.2 ⟨type.mem_all, htype⟩)
  · rintro ⟨htypes, hne⟩
    cases hs : m.streams e.db e.ns with
    | none =>
      have hclosed : ∀ type, m.isOpen e.db e.ns type = false := by
        intro type
        unfold isOpen
        rw [hs]
        rfl
      simp [hclosed] at htypes
      exact absurd htypes hne
    | some s =>
      refine ⟨s, rfl, ?_⟩
      rw [htypes]
      apply congrArg (fun p => FILE_TYPE.all.filter p)
      funext type
      unfold isOpen
      rw [hs, Option.any_some]

theorem entries_eq_of_isOpen {m m' : StreamManager} (h : m.Named) (h' : m'.Named)
    (hopen : ∀ db ns type, m'.isOpen db ns type = m.isOpen db ns type) :
    m'.spaces.entries = m.spaces.entries := by
  have hmem : ∀ e, e ∈ m'.spaces.entries ↔ e ∈ m.spaces.entries := by
    intro e
    rw [h.mem_entries_iff, h'.mem_entries_iff]
    simp only [hopen]
  have hperm := (List.perm_ext_iff_of_nodup (entries_nodup _) (entries_nodup _)).2 hmem
  refine List.Perm.eq_of_pairwise ?_ (entries_ordered _) (entries_ordered _) hperm
  intro a b _ _ hab hba
  exact absurd hba (before_asymm hab)

theorem file_openStream (m : StreamManager) (db ns : CString) (type : FILE_TYPE) :
    (m.openStream true db ns type).file = m.file := by
  unfold StreamManager.openStream
  split_ifs with hopen hinit
  · rfl
  · rfl
  · exact absurd rfl hinit

theorem openTypes_named {e : SpaceEntry} (he : e.Fits) (types : List FILE_TYPE) (h : m.Named) :
    (types.foldl (fun m type =>
      let m := m.openStream true e.db e.ns type
      if type = .INDEX_FTYPE then m.openStream true e.db e.ns .DATA_FTYPE else m) m).Named ∧
    (types.foldl (fun m type =>
      let m := m.openStream true e.db e.ns type
      if type = .INDEX_FTYPE then m.openStream true e.db e.ns .DATA_FTYPE else m) m).file =
        m.file := by
  induction types generalizing m with
  | nil => exact ⟨h, rfl⟩
  | cons type types ih =>
    have h1 := h.openStream he.1 he.2.1 true type
    rw [List.foldl_cons]
    dsimp only
    split_ifs
    · rcases ih (h1.openStream he.1 he.2.1 true .DATA_FTYPE) with ⟨hnamed, hfile⟩
      exact ⟨hnamed, by rw [hfile, file_openStream, file_openStream]⟩
    · rcases ih h1 with ⟨hnamed, hfile⟩
      exact ⟨hnamed, by rw [hfile, file_openStream]⟩

theorem openEntries_named {entries : List SpaceEntry} (hentries : ∀ e ∈ entries, e.Fits)
    (h : m.Named) : (entries.foldl openEntry m).Named ∧
      (entries.foldl openEntry m).file = m.file := by
  induction entries generalizing m with
  | nil => exact ⟨h, rfl⟩
  | cons e entries ih =>
    rcases List.forall_mem_cons.1 hentries with ⟨he, hentries⟩
    rcases openTypes_named he e.types h with ⟨hnamed, hfile⟩
    rcases ih hentries hnamed with ⟨hnamed', hfile'⟩
    exact ⟨hnamed', hfile'.trans hfile⟩

/-- What is restored can be restored again. -/
theorem initializeFrom_upToDate (h : m.UpToDate) (hdata : m.DataWithIndex) :
    ∃ m', initializeFrom m.file = some m' ∧ m'.UpToDate := by
  rcases h.named.initializeFrom h.file with ⟨m', hm', hopen⟩
  have hsame : ∀ db ns type, m'.isOpen db ns type = m.isOpen db ns type := by
    intro db ns type
    rw [Bool.eq_iff_iff, hopen]
    constructor
    · rintro (htype | ⟨rfl, hindex⟩)
      · exact htype
      · exact hdata db ns hindex
    · exact Or.inl
  have hnamed : m'.Named ∧ m'.file = m.file := by
    unfold StreamManager.initializeFrom at hm'
    rw [h.named.readAll m.file h.file] at hm'
    cases hm'
    exact openEntries_named h.named.fits (named_nothing m.file)
  refine ⟨m', hm', hnamed.1, ?_⟩
  rw [hnamed.2, h.file, entries_eq_of_isOpen h.named hnamed.1 hsame]

/-- In every state that calls lead to, the file lists the open streams and a new process opens the
same ones exactly if the last change was a stream that has been opened, and no index stream is open
without its data stream. -/
theorem catalogue_iff (h : m.UpToDate) {calls : List Call} (hcalls : ∀ c ∈ calls, c.Fits) :
    (m.callAll calls).Lists ∧ (m.callAll calls).Restores ↔
      m.settles true calls = true ∧ (m.callAll calls).DataWithIndex :=
  (h.tracks.callAll hcalls).lists_and_restores_iff

end invariant

/-- `a`. -/
def nameA : CString := ⟨[97], noNul_a⟩

theorem catalogue_opened : (empty.callAll [.openStream nameA nameA .DATA_FTYPE]).Lists ∧
    (empty.callAll [.openStream nameA nameA .DATA_FTYPE]).Restores := by
  apply (catalogue_iff empty_upToDate ?_).2
  · refine ⟨by decide +kernel, ?_⟩
    intro db ns hindex
    change (empty.openStream false nameA nameA .DATA_FTYPE).isOpen db ns .INDEX_FTYPE = true at hindex
    rw [isOpen_openStream, empty, isOpen_nothing, Bool.false_or] at hindex
    exact nomatch (of_decide_eq_true hindex).2.2
  · intro c hc
    rw [List.mem_singleton.1 hc]
    exact ⟨by decide, by decide⟩

/-- The dropped namespace is still in the file. -/
theorem not_catalogue : ¬ ∀ calls : List Call,
    (empty.callAll calls).Lists ∧ (empty.callAll calls).Restores := by
  intro h
  have hlists := (h [.dropNamespace nameA nameA]).1
  unfold Lists at hlists
  have hread : (Records.readAll SpaceEntry.read (empty.callAll [.dropNamespace nameA nameA]).file.length
    (empty.callAll [.dropNamespace nameA nameA]).file).map List.length = some 1 := by
    decide +kernel
  rw [hlists] at hread
  have hentries : (empty.callAll [.dropNamespace nameA nameA]).spaces.entries.length = 0 := by
    decide +kernel
  rw [Option.map_some, hentries] at hread
  cases hread

end StreamManager
end Djondb
