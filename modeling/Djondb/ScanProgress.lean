import Djondb.NamespaceFind
import Djondb.ScanBounds
import Mathlib.Data.List.Chain

set_option autoImplicit false

/-!
# The positions of a scan

`findFullScan` and `findFirst` go on behind a record by the length that its own bytes add up to.
What the filter and the select make of a record is a parameter; the positions do not depend on it,
but where the scan stops does.
-/
namespace Djondb
open Bytes

/-- The mapping of a file goes on with zeros to the end of its last page. -/
def mapped (file : List UInt8) : List UInt8 :=
  file ++ List.replicate ((file.length + pageSize - 1) / pageSize * pageSize - file.length) 0

/-- What the loop makes of a record: it goes on, it has found a match, or an exception leaves it. -/
inductive Verdict where
  | passed
  | found
  | thrown
  deriving DecidableEq

section scan
variable (memory : List UInt8)

/-- An element of this key size with the key `"_status"`, at `p`. -/
def isStatus (keySize p : ℤ) : Bool :=
  keySize = statusField.length ∧
    strncmp (memory.drop (p + 4).toNat) statusField.bytes statusField.length = .eq

/-- `getValue("_status")`: where the value is, and its tag. -/
def findStatus (inner : ℤ → Walk ℤ) : ℕ → ℤ → Walk (Option (ℤ × BSONTYPE))
  | 0, _ => .ended none
  | n + 1, p => do
    let keySize ← readWordAt memory 4 p
    let type ← readWordAt memory 8 (p + 4 + keySize)
    if isStatus memory keySize p then .ended (some (p + 12 + keySize, tagOf type))
    else do
      let size ← walkValue memory inner (p + 12 + keySize) (tagOf type)
      findStatus inner n (p + 12 + keySize + size)

/-- `getInt("_status")`, `none` if it throws. The value of a nested document or an array is a
pointer to an object. -/
def getStatus (inner : ℤ → Walk ℤ) (p : ℤ) : Walk (Option ℤ) := do
  let elements ← readWordAt memory 8 p
  let found ← findStatus memory inner elements.toNat (p + 8)
  match found with
  | none => .ended none
  | some (v, tag) =>
    if tag = .BSON_TYPE ∨ tag = .BSONARRAY_TYPE then .outside
    else do
      let status ← readWordAt memory 4 v
      .ended (some status)

variable (judge : ℤ → Verdict)

/-- What the loop makes of the record at `p`, if it has this status. -/
def verdict (p : ℤ) : Option ℤ → Verdict
  | none => .thrown
  | some status => if status = statusActive.toInt then judge p else .passed

/-- A round of the loop on the record at `p`: its length, and what becomes of it. -/
def scanStep (depth : ℕ) (p : ℤ) : Walk (ℤ × Verdict) := do
  let size ← walkObj memory (depth + 1) p
  let status ← getStatus memory (walkObj memory depth) p
  .ended (size, verdict judge p status)

end scan

/-- The loop, with the positions that it comes to. -/
def scanFrom (length limit : ℤ) (step : ℤ → Walk (ℤ × Verdict)) : ℕ → ℤ → ℤ → Walk (List ℤ)
  | 0, _, _ => .deeper
  | fuel + 1, p, count =>
    if length ≤ p ∨ limit ≤ count then .ended [p]
    else do
      let (size, verdict) ← step p
      match verdict with
      | .passed => do
        let rest ← scanFrom length limit step fuel (p + size) count
        .ended (p :: rest)
      | .found => do
        let rest ← scanFrom length limit step fuel (p + size) (count + 1)
        .ended (p :: rest)
      | .thrown => .ended [p, p + size]

namespace FileScan
variable (file : List UInt8) (judge : ℤ → Verdict)

/-- The loop of `findFullScan`, to a depth of nesting and a number of rounds. -/
def findFullScan (maxResults : ℤ) (depth fuel : ℕ) : Walk (List ℤ) :=
  scanFrom file.length maxResults (scanStep (mapped file) judge depth) fuel Space.recordsStart 0

/-- The loop of `findFirst`, which stops at the first match. -/
def findFirst (depth fuel : ℕ) : Walk (List ℤ) :=
  scanFrom file.length 1 (scanStep (mapped file) judge depth) fuel Space.recordsStart 0

end FileScan

/-- The loop ends, and each round has moved the position forward. -/
def Progresses (scan : ℕ → ℕ → Walk (List ℤ)) : Prop :=
  ∃ depth fuel positions, scan depth fuel = .ended positions ∧ positions.IsChain (· < ·)

/-! ## Records -/

section record
variable (memory : List UInt8)

/-- The value of the first element with the key `"_status"`, and its tag. -/
def LaidElements.status : ℤ → LaidElements → Option (ℤ × BSONTYPE)
  | _, .empty => none
  | p, .element keySize type value rest =>
    if isStatus memory keySize p then some (p + 12 + keySize, tagOf type)
    else rest.status (p + 12 + keySize + value.size (tagOf type))

def LaidObj.status (p : ℤ) : LaidObj → Option (ℤ × BSONTYPE)
  | .mk elements => elements.status memory (p + 8)

/-- A status that is there is four bytes in the mapping. -/
def LaidObj.StatusRead (p : ℤ) (obj : LaidObj) : Prop :=
  ∀ v tag, obj.status memory p = some (v, tag) →
    tag ≠ .BSON_TYPE ∧ tag ≠ .BSONARRAY_TYPE ∧ Inside memory 4 v

def LaidObj.verdict (judge : ℤ → Verdict) (p : ℤ) (obj : LaidObj) : Verdict :=
  Djondb.verdict judge p ((obj.status memory p).map fun v => wordAt memory 4 v.1)

end record

def Verdict.count : Verdict → ℤ
  | passed => 0
  | found => 1
  | thrown => 0

/-- Where a scan comes to, with how many matches: behind the records that are laid out one after
another. -/
inductive Comes (file : List UInt8) (judge : ℤ → Verdict) (limit : ℤ) : ℤ → ℤ → Prop
  | start : Comes file judge limit Space.recordsStart 0
  | next {p count : ℤ} {obj : LaidObj} (h : Comes file judge limit p count) (hp : p < file.length)
    (hcount : count < limit) (hlies : obj.LiesAt (mapped file) p)
    (hread : obj.StatusRead (mapped file) p)
    (hverdict : obj.verdict (mapped file) judge p ≠ .thrown) :
    Comes file judge limit (p + obj.size) (count + (obj.verdict (mapped file) judge p).count)

/-- Every record that the scan comes to is laid out in the mapping, and its lengths add up to a
positive one. -/
def RecordsForward (file : List UInt8) (judge : ℤ → Verdict) (limit : ℤ) : Prop :=
  ∀ p count, Comes file judge limit p count → p < file.length → count < limit →
    ∃ obj : LaidObj, obj.LiesAt (mapped file) p ∧ obj.StatusRead (mapped file) p ∧ 0 < obj.size

/-! ## A round on a record -/

section round
variable {memory : List UInt8} {judge : ℤ → Verdict}

theorem LaidElements.findStatus (elements : LaidElements) (p : ℤ) (depth : ℕ)
    (h : elements.LieAt memory p) (hdepth : elements.depth ≤ depth) :
    Djondb.findStatus memory (walkObj memory depth) elements.count p =
      .ended (elements.status memory p) := by
  cases elements with
  | empty => rfl
  | element keySize type value rest =>
    rcases h with ⟨hkey, htype, hfits, hlies, hlie⟩
    have hdepths := max_le_iff.1 hdepth
    refine Walk.bind_eq_ended.2 ⟨keySize, (readWordAt_eq_ended memory).2 hkey, ?_⟩
    refine Walk.bind_eq_ended.2 ⟨type, (readWordAt_eq_ended memory).2 htype, ?_⟩
    unfold LaidElements.status
    split_ifs with hstatus
    · rfl
    · have hvalue := value.walk (p + 12 + keySize) depth (tagOf type) hfits hlies hdepths.1
      have hrest :=
        rest.findStatus (p + 12 + keySize + value.size (tagOf type)) depth hlie hdepths.2
      exact Walk.bind_eq_ended.2 ⟨_, hvalue, hrest⟩

theorem LaidObj.getStatus {obj : LaidObj} {p : ℤ} {depth : ℕ} (hlies : obj.LiesAt memory p)
    (hread : obj.StatusRead memory p) (hdepth : obj.depth ≤ depth + 1) :
    Djondb.getStatus memory (walkObj memory depth) p =
      .ended ((obj.status memory p).map fun v => wordAt memory 4 v.1) := by
  obtain ⟨elements⟩ := obj
  rcases hlies with ⟨hinside, -, hcount, hlie⟩
  have hfound := elements.findStatus (p + 8) depth hlie (Nat.le_of_succ_le_succ hdepth)
  refine Walk.bind_eq_ended.2 ⟨_, (readWordAt_eq_ended memory).2 ⟨hinside, rfl⟩, ?_⟩
  refine Walk.bind_eq_ended.2 ⟨_, hcount ▸ hfound, ?_⟩
  change (match elements.status memory (p + 8) with
    | none => _
    | some (v, tag) => _) = Walk.ended ((elements.status memory (p + 8)).map _)
  cases hstatus : elements.status memory (p + 8) with
  | none => rfl
  | some v =>
    rcases hread v.1 v.2 hstatus with ⟨hbson, harray, hvalue⟩
    dsimp only
    rw [if_neg (not_or.2 ⟨hbson, harray⟩)]
    exact Walk.bind_eq_ended.2 ⟨_, (readWordAt_eq_ended memory).2 ⟨hvalue, rfl⟩, rfl⟩

/-- A record that is laid out is gone over in a round that goes deep enough. -/
theorem LaidObj.scanStep {obj : LaidObj} {p : ℤ} {depth : ℕ} (hlies : obj.LiesAt memory p)
    (hread : obj.StatusRead memory p) (hdepth : obj.depth ≤ depth + 1) :
    Djondb.scanStep memory judge depth p = .ended (obj.size, obj.verdict memory judge p) := by
  refine Walk.bind_eq_ended.2 ⟨_, obj.walk p (depth + 1) hlies hdepth, ?_⟩
  exact Walk.bind_eq_ended.2 ⟨_, LaidObj.getStatus hlies hread hdepth, rfl⟩

/-! ## More depth and more rounds change nothing -/

theorem findStatus_below {inner inner' : ℤ → Walk ℤ} (h : ∀ p, (inner p).Below (inner' p)) (n : ℕ)
    (p : ℤ) : (findStatus memory inner n p).Below (findStatus memory inner' n p) := by
  induction n generalizing p with
  | zero => exact .refl _
  | succ n ih =>
    refine (Walk.Below.refl _).bind fun keySize => ?_
    refine (Walk.Below.refl _).bind fun type => ?_
    split_ifs
    · exact .refl _
    · exact (walkValue_below memory h _ _).bind fun size => ih _

theorem scanStep_below {depth depth' : ℕ} (h : depth ≤ depth') (p : ℤ) :
    (scanStep memory judge depth p).Below (scanStep memory judge depth' p) := by
  have hinner := walkObj_below_of_le memory h
  refine (walkObj_below_of_le memory (Nat.succ_le_succ h) p).bind fun size => ?_
  refine Walk.Below.bind ?_ fun status => .refl _
  refine (Walk.Below.refl _).bind fun elements => ?_
  exact (findStatus_below hinner _ _).bind fun found => .refl _

theorem scanFrom_below {length limit : ℤ} {step step' : ℤ → Walk (ℤ × Verdict)}
    (h : ∀ p, (step p).Below (step' p)) {fuel fuel' : ℕ} (hfuel : fuel ≤ fuel') (p count : ℤ) :
    (scanFrom length limit step fuel p count).Below
      (scanFrom length limit step' fuel' p count) := by
  induction fuel generalizing fuel' p count with
  | zero => exact .inl rfl
  | succ fuel ih =>
    obtain ⟨fuel', rfl⟩ : ∃ n, fuel' = n + 1 := ⟨fuel' - 1, by omega⟩
    have hrest := fun p count => ih (Nat.le_of_succ_le_succ hfuel) p count
    unfold scanFrom
    split_ifs
    · exact .refl _
    · refine (h p).bind fun result => ?_
      obtain ⟨size, verdict⟩ := result
      cases verdict with
      | passed => exact (hrest _ _).bind fun rest => .refl _
      | found => exact (hrest _ _).bind fun rest => .refl _
      | thrown => exact .refl _

theorem Walk.Below.ended {α : Type} {x y : Walk α} {a : α} (h : x.Below y) (hx : x = .ended a) :
    y = .ended a := by
  rcases h with hdeeper | heq
  · nomatch hdeeper.symm.trans hx
  · exact heq.symm.trans hx

theorem LaidObj.scanStep_eq {obj : LaidObj} {p : ℤ} {depth : ℕ} {result : ℤ × Verdict}
    (hlies : obj.LiesAt memory p) (hread : obj.StatusRead memory p)
    (h : Djondb.scanStep memory judge depth p = .ended result) :
    result = (obj.size, obj.verdict memory judge p) := by
  have hsame := (scanStep_below (le_max_left depth obj.depth) p).ended h
  rw [LaidObj.scanStep hlies hread (Nat.le_succ_of_le (le_max_right _ _))] at hsame
  exact (Walk.ended.inj hsame).symm

/-! ## A round that ends has a record -/

theorem exists_record {depth : ℕ} {p size : ℤ} {v : Verdict}
    (h : scanStep memory judge depth p = .ended (size, v)) : ∃ obj : LaidObj,
      obj.LiesAt memory p ∧ obj.StatusRead memory p ∧ obj.size = size ∧
        obj.verdict memory judge p = v := by
  rcases Walk.bind_eq_ended.1 h with ⟨walked, hwalk, hrest⟩
  rcases Walk.bind_eq_ended.1 hrest with ⟨status, hstatus, hlast⟩
  cases hlast
  rcases walkObj_layout (depth + 1) p size hwalk with ⟨obj, hlies, hsize⟩
  have hread : obj.StatusRead memory p := by
    obtain ⟨elements⟩ := obj
    rcases Walk.bind_eq_ended.1 hstatus with ⟨count, hcount, hfind⟩
    rcases Walk.bind_eq_ended.1 hfind with ⟨found, hfound, hvalue⟩
    rcases (readWordAt_eq_ended memory).1 hcount with ⟨-, rfl⟩
    have hdeep := hlies.2.2.1 ▸ elements.findStatus (p + 8) (max depth elements.depth)
      hlies.2.2.2 (le_max_right _ _)
    have hbelow := walkObj_below_of_le memory (le_max_left depth elements.depth)
    have hsame := (findStatus_below hbelow _ _).ended hfound
    cases hsame.symm.trans hdeep
    intro v tag heq
    change elements.status memory (p + 8) = some (v, tag) at heq
    rw [heq] at hvalue
    dsimp only at hvalue
    split_ifs at hvalue with htag
    rcases Walk.bind_eq_ended.1 hvalue with ⟨word, hword, -⟩
    have hinside := ((readWordAt_eq_ended memory).1 hword).1
    exact ⟨fun hbson => htag (.inl hbson), fun harray => htag (.inr harray), hinside⟩
  exact ⟨obj, hlies, hread, hsize, (congrArg Prod.snd (LaidObj.scanStep_eq hlies hread h)).symm⟩

end round

/-! ## Rounds one after another -/

section rounds
variable {length limit : ℤ} {step : ℤ → Walk (ℤ × Verdict)} {fuel : ℕ} {p count size : ℤ}
variable {v : Verdict} {rest positions : List ℤ}

theorem scanFrom_on (hgo : ¬ (length ≤ p ∨ limit ≤ count)) (hstep : step p = .ended (size, v))
    (hv : v ≠ .thrown)
    (hrest : scanFrom length limit step fuel (p + size) (count + v.count) = .ended rest) :
    scanFrom length limit step (fuel + 1) p count = .ended (p :: rest) := by
  unfold scanFrom
  rw [if_neg hgo]
  refine Walk.bind_eq_ended.2 ⟨_, hstep, ?_⟩
  cases v with
  | passed =>
    rw [Verdict.count, Int.add_zero] at hrest
    exact Walk.bind_eq_ended.2 ⟨_, hrest, rfl⟩
  | found => exact Walk.bind_eq_ended.2 ⟨_, hrest, rfl⟩
  | thrown => exact absurd rfl hv

theorem scanFrom_thrown (hgo : ¬ (length ≤ p ∨ limit ≤ count))
    (hstep : step p = .ended (size, .thrown)) :
    scanFrom length limit step (fuel + 1) p count = .ended [p, p + size] := by
  unfold scanFrom
  rw [if_neg hgo]
  exact Walk.bind_eq_ended.2 ⟨_, hstep, rfl⟩

/-- How a loop that ends goes on from a position. -/
theorem scanFrom_cases (h : scanFrom length limit step fuel p count = .ended positions) :
    (length ≤ p ∨ limit ≤ count) ∧ positions = [p] ∨
      ∃ size v rest, ¬ (length ≤ p ∨ limit ≤ count) ∧ step p = .ended (size, v) ∧
        positions = p :: (p + size) :: rest ∧ (v ≠ .thrown → ∃ fuel',
          scanFrom length limit step fuel' (p + size) (count + v.count) =
            .ended ((p + size) :: rest)) := by
  induction fuel generalizing p count positions with
  | zero => nomatch h
  | succ fuel ih =>
    unfold scanFrom at h
    split_ifs at h with hstop
    · cases h
      exact .inl ⟨hstop, rfl⟩
    · right
      rcases Walk.bind_eq_ended.1 h with ⟨⟨size, v⟩, hstep, hnext⟩
      have hhead : ∀ {q count rest}, scanFrom length limit step fuel q count = .ended rest →
          ∃ rest', rest = q :: rest' := by
        intro q count rest hq
        rcases ih hq with ⟨-, heq⟩ | ⟨size, v, rest', -, -, heq, -⟩
        · exact ⟨[], heq⟩
        · exact ⟨_, heq⟩
      cases v with
      | thrown =>
        cases hnext
        exact ⟨size, .thrown, [], hstop, hstep, rfl, fun hv => absurd rfl hv⟩
      | passed =>
        rcases Walk.bind_eq_ended.1 hnext with ⟨rest, hrest, hcons⟩
        cases hcons
        rcases hhead hrest with ⟨rest', rfl⟩
        refine ⟨size, .passed, rest', hstop, hstep, rfl, fun _ => ⟨fuel, ?_⟩⟩
        rw [Verdict.count, Int.add_zero]
        exact hrest
      | found =>
        rcases Walk.bind_eq_ended.1 hnext with ⟨rest, hrest, hcons⟩
        cases hcons
        rcases hhead hrest with ⟨rest', rfl⟩
        exact ⟨size, .found, rest', hstop, hstep, rfl, fun _ => ⟨fuel, hrest⟩⟩

end rounds

section run
variable {file : List UInt8} {judge : ℤ → Verdict} {limit : ℤ}

def scanOn (file : List UInt8) (judge : ℤ → Verdict) (limit : ℤ) (depth fuel : ℕ) (p count : ℤ) :
    Walk (List ℤ) :=
  scanFrom file.length limit (scanStep (mapped file) judge depth) fuel p count

/-- Where records have a positive length the position runs up to the end of the file. -/
theorem RecordsForward.ends (h : RecordsForward file judge limit) {p count : ℤ}
    (hcomes : Comes file judge limit p count) : ∃ depth fuel rest,
      scanOn file judge limit depth fuel p count = .ended (p :: rest) ∧
        (p :: rest).IsChain (· < ·) := by
  obtain ⟨left, hleft⟩ : ∃ left, left = (file.length - p).toNat := ⟨_, rfl⟩
  induction left using Nat.strong_induction_on generalizing p count with
  | _ left ih =>
    by_cases hstop : (file.length : ℤ) ≤ p ∨ limit ≤ count
    · exact ⟨0, 1, [], if_pos hstop, .singleton p⟩
    · have hgo := not_or.1 hstop
      have hp := not_le.1 hgo.1
      have hcount := not_le.1 hgo.2
      rcases h p count hcomes hp hcount with ⟨obj, hlies, hread, hpos⟩
      have hforward : p < p + obj.size := by omega
      by_cases hv : obj.verdict (mapped file) judge p = .thrown
      · have hstep : scanStep (mapped file) judge obj.depth p = _ :=
          LaidObj.scanStep hlies hread (Nat.le_succ obj.depth)
        rw [hv] at hstep
        refine ⟨obj.depth, 1, [p + obj.size], scanFrom_thrown hstop hstep, ?_⟩
        exact .cons_cons hforward (.singleton _)
      · have hnext := Comes.next hcomes hp hcount hlies hread hv
        rcases ih _ (by omega) hnext rfl with ⟨depth, fuel, rest, hrest, hchain⟩
        have hstep : scanStep (mapped file) judge (max depth obj.depth) p = _ :=
          LaidObj.scanStep hlies hread (Nat.le_succ_of_le (le_max_right depth obj.depth))
        have hdeep := (scanFrom_below (scanStep_below (le_max_left depth obj.depth)) le_rfl _ _
          ).ended hrest
        exact ⟨max depth obj.depth, fuel + 1, _, scanFrom_on hstop hstep hv hdeep,
          .cons_cons hforward hchain⟩

/-- A loop that ends with rising positions does so from every record that it comes to. -/
theorem Comes.ends {depth fuel : ℕ} {positions : List ℤ}
    (h : scanOn file judge limit depth fuel Space.recordsStart 0 = .ended positions)
    (hchain : positions.IsChain (· < ·)) {p count : ℤ} (hcomes : Comes file judge limit p count) :
    ∃ fuel positions, scanOn file judge limit depth fuel p count = .ended positions ∧
      positions.IsChain (· < ·) := by
  induction hcomes with
  | start => exact ⟨fuel, positions, h, hchain⟩
  | @next p count obj _ hp hcount hlies hread hv ih =>
    rcases ih with ⟨fuel, positions, hscan, hchain⟩
    rcases scanFrom_cases hscan with ⟨hstop, -⟩ | ⟨size, v, rest, -, hstep, rfl, hrest⟩
    · omega
    · cases LaidObj.scanStep_eq hlies hread hstep
      rcases hrest hv with ⟨fuel', hnext⟩
      exact ⟨fuel', _, hnext, hchain.tail⟩

theorem progresses_iff_forward : Progresses (fun depth fuel =>
    scanOn file judge limit depth fuel Space.recordsStart 0) ↔ RecordsForward file judge limit := by
  constructor
  · rintro ⟨depth, fuel, positions, h, hchain⟩ p count hcomes hp hcount
    rcases hcomes.ends h hchain with ⟨fuel', positions', hscan, hchain'⟩
    rcases scanFrom_cases hscan with ⟨hstop, -⟩ | ⟨size, v, rest, -, hstep, rfl, -⟩
    · omega
    · rcases exists_record hstep with ⟨obj, hlies, hread, hsize, -⟩
      have hforward := (List.isChain_cons_cons.1 hchain').1
      exact ⟨obj, hlies, hread, by omega⟩
  · intro h
    rcases h.ends .start with ⟨depth, fuel, rest, hscan, hchain⟩
    exact ⟨depth, fuel, _, hscan, hchain⟩

end run

/-- Both loops end, always moving forward, exactly if every record that they come to is laid out in
the mapping with a positive length. -/
theorem scans_progress_iff (file : List UInt8) (judge : ℤ → Verdict) (maxResults : ℤ) :
    (Progresses (FileScan.findFullScan file judge maxResults) ↔
      RecordsForward file judge maxResults) ∧
    (Progresses (FileScan.findFirst file judge) ↔ RecordsForward file judge 1) :=
  ⟨progresses_iff_forward, progresses_iff_forward⟩

/-! ## Stored records -/

section stored
variable {memory : List UInt8} {judge : ℤ → Verdict}

/-- The comparison of the view is the one at the place of the element. -/
theorem isStatus_iff {p : ℕ} {keySize : ℤ} (hlen : p + 4 + keySize ≤ memory.length) :
    isStatus memory keySize p = true ↔
      statusField.length = ((memory.drop (p + 4)).take keySize.toNat).length ∧
        strncmp ((memory.drop (p + 4)).take keySize.toNat) statusField.bytes
          ((memory.drop (p + 4)).take keySize.toNat).length = .eq := by
  have hkeyLen : ((memory.drop (p + 4)).take keySize.toNat).length =
      min keySize.toNat (memory.length - (p + 4)) := by
    rw [List.length_take, List.length_drop]
  have hseven : statusField.length = 7 := rfl
  have hplace : ((p : ℤ) + 4).toNat = p + 4 := rfl
  unfold isStatus
  rw [decide_eq_true_iff, hplace]
  constructor
  · rintro ⟨hsize, heq⟩
    have hlength : ((memory.drop (p + 4)).take keySize.toNat).length = statusField.length := by omega
    have hnat : keySize.toNat = statusField.length := by omega
    rw [hlength, hnat, strncmp_take]
    exact ⟨rfl, heq⟩
  · rintro ⟨hlength, heq⟩
    have hnat : keySize.toNat = statusField.length := by omega
    rw [← hlength, hnat, strncmp_take] at heq
    exact ⟨by omega, heq⟩

theorem pointer_of_initializeValue {inner : List UInt8 → Option BSONBufferedObj} {m m' : List UInt8}
    {tag : BSONTYPE} {size : ℤ} (h : initializeValue inner m' tag = some (.pointer m, size)) :
    m = m' ∧ tag ≠ .BSON_TYPE ∧ tag ≠ .BSONARRAY_TYPE := by
  cases tag with
  | BSON_TYPE =>
    rcases Option.map_eq_some_iff.1 h with ⟨obj, -, heq⟩
    cases heq
  | BSONARRAY_TYPE =>
    rcases Option.map_eq_some_iff.1 h with ⟨array, -, heq⟩
    cases heq
  | PTRCHAR_TYPE =>
    rcases Option.map_eq_some_iff.1 h with ⟨len, -, heq⟩
    cases heq
    exact ⟨rfl, by decide, by decide⟩
  | STRING_TYPE =>
    rcases Option.map_eq_some_iff.1 h with ⟨len, -, heq⟩
    cases heq
    exact ⟨rfl, by decide, by decide⟩
  | _ =>
    cases h
    exact ⟨rfl, by decide, by decide⟩

/-- Where the view of a document finds the status. -/
theorem findStatus_of_initializeElements {inner : List UInt8 → Option BSONBufferedObj}
    {walk : ℤ → Walk ℤ} (hin : WalksAs memory inner walk) (n : ℕ) {p : ℕ} {len size : ℤ}
    {elements : BufferedElements} {m : List UInt8} (hp : p ≤ memory.length)
    (h : initializeElements inner n (memory.drop p) len = some (elements, size))
    (hvalue : elements.getValue statusField = some (.pointer m)) :
    ∃ (q : ℕ) (tag : BSONTYPE), findStatus memory walk n p = .ended (some (q, tag)) ∧
      q ≤ memory.length ∧ m = memory.drop q ∧ tag ≠ .BSON_TYPE ∧ tag ≠ .BSONARRAY_TYPE := by
  induction n generalizing p len elements with
  | zero =>
    cases h
    cases hvalue
  | succ n ih =>
    rcases initializeElements_succ hp h with ⟨keySize, type, valueSize, value, rest, q, q', hkey,
      htype, hlen, hq, hqlen, hinit, hq', hqlen', hrest, rfl⟩
    have hwords : ∀ {found}, (if isStatus memory keySize p then
        Walk.ended (some ((q : ℤ), tagOf type)) else do
          let size ← walkValue memory walk q (tagOf type)
          findStatus memory walk n (q + size)) = .ended found →
        findStatus memory walk (n + 1) p = .ended found := by
      intro found hfound
      refine Walk.bind_eq_ended.2 ⟨keySize, hkey, ?_⟩
      refine Walk.bind_eq_ended.2 ⟨type, htype, ?_⟩
      rw [← hq]
      exact hfound
    have hsame := isStatus_iff hlen
    by_cases hstatus : isStatus memory keySize p = true
    · rw [BufferedElements.getValue, if_pos (hsame.1 hstatus)] at hvalue
      cases hvalue
      rcases pointer_of_initializeValue hinit with ⟨hm, hbson, harray⟩
      exact ⟨q, tagOf type, hwords (if_pos hstatus), hqlen, hm, hbson, harray⟩
    · rw [BufferedElements.getValue, if_neg (mt hsame.2 hstatus)] at hvalue
      rcases ih hqlen' hrest hvalue with ⟨v, tag, hfound, hv, hm, htag⟩
      refine ⟨v, tag, hwords ?_, hv, hm, htag⟩
      rw [if_neg hstatus]
      refine Walk.bind_eq_ended.2 ⟨valueSize, walkValue_of_initializeValue hin hqlen hinit, ?_⟩
      rw [← hq']
      exact hfound

theorem exists_stored {r : BSONObj} (hr : StoredRecord r) (hfit : r.arraysFit = true) {p : ℕ}
    {tail : List UInt8} (hp : p ≤ memory.length) (hdrop : memory.drop p = writeBSON r ++ tail) :
    ∃ obj : LaidObj, obj.LiesAt memory p ∧ obj.StatusRead memory p ∧
      obj.size = (writeBSON r).length := by
  have hnew := BSONBufferedObj.new_writeBSON r tail hr.wf hfit
  rw [← hdrop] at hnew
  unfold BSONBufferedObj.new at hnew
  generalize (memory.drop p).length = depth at hnew
  have hwalk : walkObj memory (depth + 1) p = .ended (writeBSON r).length :=
    walkObj_of_initializeObj memory (depth + 1) p _ hp hnew
  rcases Option.bind_eq_some_iff.1 hnew with ⟨elements, helements, hrest⟩
  split_ifs at hrest
  rcases Option.bind_eq_some_iff.1 hrest with ⟨⟨laid, len⟩, hlaid, hview⟩
  have hread := readWordAt_of_readAt helements hp
  have hinside := ((readWordAt_eq_ended memory).1 hread).1.2
  rw [List.drop_drop] at hlaid
  rcases hr.status with ⟨status, hstatus⟩
  rcases getValue_of_some tail hstatus with ⟨tail', hvalue⟩
  have hlaidEq : laid = r.buffered tail := congrArg BSONBufferedObj.elements (Option.some.inj hview)
  rw [← hlaidEq] at hvalue
  rcases findStatus_of_initializeElements (walkObj_of_initializeObj memory depth) _ (by omega)
    hlaid hvalue with ⟨q, tag, hfound, hq, hm, hbson, harray⟩
  have hlong : 4 ≤ memory.length - q := by
    have hlength := congrArg List.length hm
    rw [BSONContent.write, List.length_append, writeInt_length, List.length_drop] at hlength
    omega
  have hword : readWordAt memory 4 q = .ended (wordAt memory 4 q) :=
    (readWordAt_eq_ended memory).2 ⟨⟨by omega, by omega⟩, rfl⟩
  have hget : getStatus memory (walkObj memory depth) p = .ended (some (wordAt memory 4 q)) := by
    refine Walk.bind_eq_ended.2 ⟨elements, hread, ?_⟩
    refine Walk.bind_eq_ended.2 ⟨_, hfound, ?_⟩
    dsimp only
    rw [if_neg (not_or.2 ⟨hbson, harray⟩)]
    exact Walk.bind_eq_ended.2 ⟨_, hword, rfl⟩
  have hstep : scanStep memory (fun _ => .passed) depth p =
      .ended (((writeBSON r).length : ℤ), _) :=
    Walk.bind_eq_ended.2 ⟨_, hwalk, Walk.bind_eq_ended.2 ⟨_, hget, rfl⟩⟩
  rcases exists_record hstep with ⟨obj, hlies, hstatusRead, hsize, -⟩
  exact ⟨obj, hlies, hstatusRead, hsize⟩

theorem LaidObj.size_unique {obj obj' : LaidObj} {p : ℤ} (h : obj.LiesAt memory p)
    (h' : obj'.LiesAt memory p) : obj.size = obj'.size := by
  have hwalk := obj.walk p (max obj.depth obj'.depth) h (le_max_left _ _)
  have hwalk' := obj'.walk p (max obj.depth obj'.depth) h' (le_max_right _ _)
  exact Walk.ended.inj (hwalk.symm.trans hwalk')

theorem index_lt {recs : List BSONObj} {i : ℕ} (hle : i ≤ recs.length)
    (h : ((header.length + Records.offset writeBSON recs i : ℕ) : ℤ) <
      (header ++ Records.bytes writeBSON recs).length) : i < recs.length := by
  apply lt_of_le_of_ne hle
  rintro rfl
  rw [Records.offset_length, List.length_append] at h
  omega

section file
variable {recs : List BSONObj} (hrecs : ∀ r ∈ recs, StoredRecord r)
variable (hfit : ∀ r ∈ recs, r.arraysFit = true)
include hrecs hfit

theorem exists_stored_at {i : ℕ} {r : BSONObj} (hi : recs[i]? = some r) : ∃ obj : LaidObj,
    obj.LiesAt (mapped (header ++ Records.bytes writeBSON recs))
        (header.length + Records.offset writeBSON recs i : ℕ) ∧
      obj.StatusRead (mapped (header ++ Records.bytes writeBSON recs))
        (header.length + Records.offset writeBSON recs i : ℕ) ∧
      obj.size = (writeBSON r).length := by
  have hmem := List.mem_of_getElem? hi
  rcases Records.drop_offset header hi with ⟨rest, hdrop⟩
  generalize header.length + Records.offset writeBSON recs i = place at hdrop ⊢
  generalize header ++ Records.bytes writeBSON recs = file at hdrop ⊢
  have hplace : place ≤ file.length := by
    by_contra hgt
    rw [List.drop_eq_nil_of_le (not_le.1 hgt).le] at hdrop
    exact List.append_ne_nil_of_left_ne_nil (writeBSON_ne_nil r) _ hdrop.symm
  have hmapped : (mapped file).drop place = _ := List.drop_append_of_le_length hplace
  rw [hdrop, List.append_assoc] at hmapped
  have hlength : file.length ≤ (mapped file).length := (List.prefix_append _ _).length_le
  exact exists_stored (hrecs r hmem) (hfit r hmem) (hplace.trans hlength) hmapped

/-- Behind each stored record a scan comes to the next one. -/
theorem Comes.of_stored {limit p count : ℤ}
    (hcomes : Comes (header ++ Records.bytes writeBSON recs) judge limit p count) :
    ∃ i ≤ recs.length, p = (header.length + Records.offset writeBSON recs i : ℕ) := by
  induction hcomes with
  | start => exact ⟨0, Nat.zero_le _, rfl⟩
  | @next p count obj _ hp _ hlies _ _ ih =>
    rcases ih with ⟨i, hle, rfl⟩
    have hlt := index_lt hle hp
    have hi := List.getElem?_eq_getElem hlt
    rcases exists_stored_at hrecs hfit hi with ⟨obj', hlies', -, hsize⟩
    refine ⟨i + 1, hlt, ?_⟩
    rw [Records.offset_succ hi, LaidObj.size_unique hlies hlies', hsize]
    push_cast
    omega

/-- A file of stored records is scanned forward, to its end or to where the loop stops. -/
theorem RecordsForward.of_stored (judge : ℤ → Verdict) (limit : ℤ) :
    RecordsForward (header ++ Records.bytes writeBSON recs) judge limit := by
  intro p count hcomes hp _
  rcases hcomes.of_stored hrecs hfit with ⟨i, hle, rfl⟩
  have hlt := index_lt hle hp
  rcases exists_stored_at hrecs hfit (List.getElem?_eq_getElem hlt) with
    ⟨obj, hlies, hread, hsize⟩
  have hpos := List.length_pos_of_ne_nil (writeBSON_ne_nil recs[i])
  exact ⟨obj, hlies, hread, by omega⟩

end file

end stored

/-- A record that is not active, with an element whose key size takes back all the others. -/
def emptyRecord : List UInt8 :=
  writeLong 2 ++ writeChars statusField.bytes ++ writeLong BSONTYPE.INT_TYPE.code ++ writeInt 2 ++
    writeInt (-43)

theorem not_scans_progress : ¬ ∀ (file : List UInt8) (judge : ℤ → Verdict) (maxResults : ℤ),
    header <+: file → Progresses (FileScan.findFullScan file judge maxResults) ∧
      Progresses (FileScan.findFirst file judge) := by
  intro h
  have hscan := (h (header ++ emptyRecord) (fun _ => .passed) 1 (List.prefix_append _ _)).2
  have hforward := progresses_iff_forward.1 hscan
  rcases hforward _ _ .start (by decide) (by decide) with ⟨obj, hlies, -, hpos⟩
  have hzero : walkObj (mapped (header ++ emptyRecord)) 2 Space.recordsStart = .ended 0 := by
    decide +kernel
  rcases walkObj_layout 2 _ 0 hzero with ⟨obj', hlies', hsize⟩
  have hsame := LaidObj.size_unique hlies hlies'
  omega

end Djondb
