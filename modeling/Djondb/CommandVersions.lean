import Djondb.Command
import Djondb.VersionMigration
import Mathlib.Data.Prod.Lex

set_option autoImplicit false

/-!
# Senders of other versions

The operators of `Version` are those of a total order, and a command is read with its options from
the version 0.3.0 on. A sender before it writes none, and its commands arrive with empty options.
-/
namespace Djondb
open Bytes

namespace Version

def le (current version : Version) : Bool := decide (current = version) || current.lt version

/-- The parts in the order in which they are compared. -/
def parts (v : Version) : ℤ ×ₗ ℤ ×ₗ ℤ := toLex (v.mayor, toLex (v.minor, v.revision))

variable {a b : Version}

theorem parts_injective : Function.Injective parts := by
  rintro ⟨mayor, minor, revision⟩ ⟨mayor', minor', revision'⟩ h
  cases h
  rfl

theorem lt_iff : a.lt b = true ↔ a.parts < b.parts := by
  unfold lt parts
  rw [Prod.Lex.toLex_lt_toLex, Prod.Lex.toLex_lt_toLex]
  simp only [Bool.or_eq_true, decide_eq_true_eq]
  tauto

theorem gt_iff : a.gt b = true ↔ b.parts < a.parts := by
  unfold gt parts
  rw [Prod.Lex.toLex_lt_toLex, Prod.Lex.toLex_lt_toLex]
  simp only [Bool.or_eq_true, decide_eq_true_eq, gt_iff_lt]
  constructor
  · rintro ((h | ⟨h, h'⟩) | ⟨h, h', h''⟩)
    · exact Or.inl h
    · exact Or.inr ⟨h.symm, Or.inl h'⟩
    · exact Or.inr ⟨h.symm, Or.inr ⟨h'.symm, h''⟩⟩
  · rintro (h | ⟨h, h' | ⟨h', h''⟩⟩)
    · exact Or.inl (Or.inl h)
    · exact Or.inl (Or.inr ⟨h.symm, h'⟩)
    · exact Or.inr ⟨h.symm, h'.symm, h''⟩

theorem le_iff : a.le b = true ↔ a.parts ≤ b.parts := by
  unfold le
  rw [Bool.or_eq_true, decide_eq_true_eq, lt_iff, le_iff_eq_or_lt, parts_injective.eq_iff]

theorem ge_iff : a.ge b = true ↔ b.parts ≤ a.parts := by
  unfold ge
  rw [Bool.or_eq_true, decide_eq_true_eq, gt_iff, le_iff_eq_or_lt, parts_injective.eq_iff,
    eq_comm]

/-- The options are for those that are not before. -/
theorem ge_eq_not_lt (a b : Version) : a.ge b = !a.lt b := by
  rw [Bool.eq_iff_iff, ge_iff, Bool.not_eq_true', Bool.eq_false_iff, Ne, lt_iff, not_lt]

end Version

/-- `Version("0.3.0")`. -/
def optionsVersion : Version := ⟨0, 3, 0⟩

/-- What a sender of a version writes. -/
def writeCommandFrom (sversion : CString) (version : Version) (cmd : Command) : List UInt8 :=
  writeString sversion ++ (writeInt cmd.fields.commandType.code ++
    ((if version.lt optionsVersion then [] else writeBSON (cmd.options.getD .empty)) ++
      cmd.fields.writeCommand))

/-- The command that arrives from a sender of a version. -/
def Command.receivedFrom (version : Version) (cmd : Command) : Command :=
  ⟨cmd.fields.received,
    some (if version.lt optionsVersion then .empty else cmd.options.getD .empty)⟩

section reads
variable {sversion : CString}

theorem readOptions_reads {version : Version} {options : BSONObj} (h : options.wf = true) :
    Reads (readOptions version) (if version.lt optionsVersion then [] else writeBSON options)
      (if version.lt optionsVersion then .empty else options) := by
  unfold readOptions
  rw [version.ge_eq_not_lt]
  cases hlt : version.lt optionsVersion with
  | true =>
    have hold : version.lt ⟨0, 3, 0⟩ = true := hlt
    rw [hold]
    exact Reads.pure _
  | false =>
    have hnew : version.lt ⟨0, 3, 0⟩ = false := hlt
    rw [hnew]
    exact readBSON_reads ⟨options, h⟩

theorem readCommand_reads (hversion : sversion.length < 2 ^ 31) {version : Version}
    (hparse : Version.parse sversion = some version) (cmd : WireCommand) :
    Reads readCommand (writeCommandFrom sversion version cmd.command)
      (cmd.command.receivedFrom version) := by
  have hfits := cmd.fits
  rw [Bool.and_eq_true] at hfits
  unfold readCommand writeCommandFrom
  apply (readString_reads hversion).bind
  rw [hparse]
  apply (readInt_reads (COMMANDTYPE.word_code _)).bind
  apply (readOptions_reads hfits.2).bind
  rw [COMMANDTYPE.ofCode_code]
  exact (CommandFields.reads _ hfits.1).bind_pure _

/-- A sender of this version. -/
theorem readCommand_reads_current (cmd : WireCommand) :
    Reads readCommand (writeCommand cmd.command) cmd.command.received :=
  readCommand_reads (by decide) parse_protocolVersion cmd

theorem noNul_version : 0 ∉ [(48 : UInt8), 46, 49] := by decide

/-- `"0.1"`. -/
def firstVersion : CString := ⟨[48, 46, 49], noNul_version⟩

end reads
end Djondb
