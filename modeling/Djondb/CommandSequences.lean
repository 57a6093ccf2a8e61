import Djondb.BrokenConnection
import Djondb.CommandVersions

set_option autoImplicit false

/-!
# One command after the other

Successive calls of `readCommand` over one connection. Where `recv` cuts the bytes makes no
difference: what is not read yet are the bytes that a flat buffer would have left.
-/
namespace Djondb
open Bytes

/-- Successive calls on one flat buffer. -/
def readCommands : ℕ → Reader (List Command)
  | 0 => pure []
  | n + 1 => do
    let cmd ← readCommand
    let cmds ← readCommands n
    pure (cmd :: cmds)

def writeCommands (cmds : List WireCommand) : List UInt8 :=
  cmds.flatMap fun cmd => writeCommand cmd.command

theorem readCommands_reads (cmds : List WireCommand) : Reads (readCommands cmds.length)
    (writeCommands cmds) (cmds.map fun cmd => cmd.command.received) := by
  induction cmds with
  | nil => exact Reads.pure _
  | cons cmd cmds ih =>
    exact (readCommand_reads_current cmd).bind (ih.bind_pure _)

namespace NetworkInputStream

/-- A connection on which nothing has been read. -/
def connected (chunks : List Chunk) : NetworkInputStream := ⟨[], chunks, true⟩

section sequences
variable (d : UInt64)

/-- Successive calls on one connection; nothing stands for `NULL`. -/
def readCommands : ℕ → NetReader (List (Option Command))
  | 0 => pure []
  | n + 1 => do
    let cmd ← readCommand d
    let cmds ← readCommands n
    pure (cmd :: cmds)

theorem readCommands_whole (cmds : List WireCommand) {s : NetworkInputStream} {rest : List UInt8}
    (hopen : s.isOpen = true) (hbytes : s.bytes = writeCommands cmds ++ rest) :
    ∃ s', readCommands d cmds.length s =
      .ok (cmds.map fun cmd => some cmd.command.received, s') ∧ s'.isOpen = true ∧
        s'.bytes = rest := by
  induction cmds generalizing s with
  | nil => exact ⟨s, rfl, hopen, hbytes⟩
  | cons cmd cmds ih =>
    have hsplit : s.bytes = writeCommand cmd.command ++ (writeCommands cmds ++ rest) := by
      rw [hbytes, ← List.append_assoc]
      rfl
    rcases readCommand_whole d cmd hopen hsplit with ⟨s1, hread, hopen1, hbytes1⟩
    rcases ih hopen1 hbytes1 with ⟨s2, hrest, hs2⟩
    refine ⟨s2, ?_, hs2⟩
    rw [List.length_cons, readCommands, bind_ok hread, bind_ok hrest]
    rfl

/-- However the bytes are cut, the calls give the commands that a flat buffer gives, and leave the
bytes that it leaves: those of the commands that have not been read. -/
theorem readCommands_flat (cmds : List WireCommand) (chunks : List Chunk)
    (hcut : chunks.flatMap Chunk.bytes = writeCommands cmds) {n : ℕ} (hn : n ≤ cmds.length) :
    ∃ read s', readCommands d n (connected chunks) = .ok (read.map some, s') ∧
      Djondb.readCommands n (chunks.flatMap Chunk.bytes) = some (read, s'.bytes) ∧
        read = (cmds.take n).map (fun cmd => cmd.command.received) ∧
          s'.bytes = writeCommands (cmds.drop n) := by
  have hsplit : writeCommands cmds = writeCommands (cmds.take n) ++ writeCommands (cmds.drop n) := by
    unfold writeCommands
    rw [← List.flatMap_append, List.take_append_drop]
  have hlen : (cmds.take n).length = n := by
    rw [List.length_take, Nat.min_eq_left hn]
  have hbytes : (connected chunks).bytes = writeCommands (cmds.take n) ++
      writeCommands (cmds.drop n) := hcut.trans hsplit
  rcases readCommands_whole d (cmds.take n) rfl hbytes with ⟨s', hread, -, hrest⟩
  have hflat := readCommands_reads (cmds.take n) (writeCommands (cmds.drop n))
  rw [hlen] at hread hflat
  refine ⟨_, s', ?_, ?_, rfl, hrest⟩
  · rw [hread, List.map_map]
    rfl
  · rw [hcut, hsplit, hflat, hrest]

/-- A removal in two pieces, the second one with another removal behind it. -/
def cutRemovals : List Chunk :=
  [⟨(writeCommand removeRevision.command).take 20, by decide +kernel, by decide +kernel⟩,
    ⟨(writeCommand removeRevision.command).drop 20 ++ writeCommand removeRevision.command,
      by decide +kernel, by decide +kernel⟩]

theorem cutRemovals_flat : ∃ read s',
    readCommands 0 1 (connected cutRemovals) = .ok (read.map some, s') ∧
      Djondb.readCommands 1 (cutRemovals.flatMap Chunk.bytes) = some (read, s'.bytes) ∧
        read = [removeRevision.command.received] ∧
          s'.bytes = writeCommands [removeRevision] :=
  readCommands_flat 0 [removeRevision, removeRevision] cutRemovals (by decide +kernel) (by decide)

end sequences

end NetworkInputStream
end Djondb
