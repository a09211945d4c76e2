import Narsil.Ordering.Strings
import Narsil.Replication.Entry

/-!
# The lines of an export

`engine/export/lines.ts`: the bytes of an export come in chunks, and a line may begin in
one and end in another. A line that is too long is dropped as it is read.

**Strategy:** one byte after another takes the reader through the same lines as its pieces
do, and what the bytes do does not know of the chunks.
-/
namespace Narsil.Export

open Narsil.Ordering (JsString)

def NEWLINE : UInt8 := 0x0a

inductive ExportLine where
  | text (line : ℕ) (text : JsString)
  | tooLong (line : ℕ)
  | notUtf8 (line : ℕ)

/-- The variables of the generator. -/
structure LineReader where
  parts : List Bytes
  pending : ℕ
  overflowing : Bool
  line : ℕ

namespace LineReader

def start : LineReader := { parts := [], pending := 0, overflowing := false, line := 0 }

section

-- `decode` is the decoder of UTF-8 that fails on what is not well formed.
variable (decode : Bytes → Option JsString) (maxLineBytes : ℕ)

def lineOf (line : ℕ) (bytes : Bytes) : ExportLine :=
  match decode bytes with
  | some text => .text line text
  | none => .notUtf8 line

def finishLine (reader : LineReader) : ExportLine × LineReader :=
  let line := reader.line + 1
  let after : LineReader := { parts := [], pending := 0, overflowing := false, line }
  if reader.overflowing then (.tooLong line, after) else (lineOf decode line reader.parts.flatten, after)

/-- What the body of the loop does with a piece. -/
def takePiece (reader : LineReader) (piece : Bytes) : LineReader :=
  if !reader.overflowing && reader.pending + piece.length ≤ maxLineBytes then
    { reader with
      parts := if piece.length > 0 then reader.parts ++ [piece] else reader.parts
      pending := reader.pending + piece.length }
  else { reader with overflowing := true, parts := [] }

/-- The loop over a chunk, with the bytes it has passed since the last newline. -/
def readPieces : LineReader → Bytes → Bytes → List ExportLine × LineReader
  | reader, piece, [] => ([], reader.takePiece maxLineBytes piece)
  | reader, piece, byte :: chunk =>
    if byte = NEWLINE then
      let (line, reader) := (reader.takePiece maxLineBytes piece).finishLine decode
      let (lines, reader) := readPieces reader [] chunk
      (line :: lines, reader)
    else readPieces reader (piece ++ [byte]) chunk

def readChunks : LineReader → List Bytes → List ExportLine × LineReader
  | reader, [] => ([], reader)
  | reader, chunk :: chunks =>
    let (lines, reader) := readPieces decode maxLineBytes reader [] chunk
    let (later, reader) := readChunks reader chunks
    (lines ++ later, reader)

end

end LineReader

def exportLines (decode : Bytes → Option JsString) (maxLineBytes : ℕ) (chunks : List Bytes) : List ExportLine :=
  let (lines, reader) := LineReader.start.readChunks decode maxLineBytes chunks
  if reader.pending > 0 ∨ reader.overflowing then lines ++ [(reader.finishLine decode).1] else lines

/-- What a reader has of its line: its bytes, or nothing once they are too many. -/
structure Progress where
  content : Option Bytes
  line : ℕ

namespace Progress

variable (decode : Bytes → Option JsString) (maxLineBytes : ℕ)

def endedLine (progress : Progress) : ExportLine :=
  match progress.content with
  | some bytes => LineReader.lineOf decode (progress.line + 1) bytes
  | none => .tooLong (progress.line + 1)

def ended (progress : Progress) : Progress := { content := some [], line := progress.line + 1 }

def takeBytes (progress : Progress) (bytes : Bytes) : Progress :=
  { progress with
    content := progress.content.bind fun content =>
      if content.length + bytes.length ≤ maxLineBytes then some (content ++ bytes) else none }

def readBytes : Progress → Bytes → List ExportLine × Progress
  | progress, [] => ([], progress)
  | progress, byte :: bytes =>
    if byte = NEWLINE then
      let (lines, after) := readBytes progress.ended bytes
      (progress.endedLine decode :: lines, after)
    else readBytes (progress.takeBytes maxLineBytes [byte]) bytes

theorem readBytes_append (progress : Progress) (front back : Bytes) :
    readBytes decode maxLineBytes progress (front ++ back) =
      let (lines, middle) := readBytes decode maxLineBytes progress front
      let (later, after) := readBytes decode maxLineBytes middle back
      (lines ++ later, after) := by
  induction front generalizing progress with
  | nil => rfl
  | cons byte front ih =>
    rw [List.cons_append, readBytes, readBytes]
    split
    · rw [ih]
      rfl
    · exact ih _

end Progress

namespace LineReader

variable {maxLineBytes : ℕ}

/-- The reader has come as far as the bytes. -/
structure Follows (maxLineBytes : ℕ) (reader : LineReader) (progress : Progress) : Prop where
  line : reader.line = progress.line
  content : progress.content = if reader.overflowing then none else some reader.parts.flatten
  pending : reader.overflowing = false → reader.pending = reader.parts.flatten.length
  fits : reader.overflowing = false → reader.pending ≤ maxLineBytes

theorem Follows.takePiece {reader : LineReader} {progress : Progress} (follows : Follows maxLineBytes reader progress)
    (piece : Bytes) : Follows maxLineBytes (reader.takePiece maxLineBytes piece) (progress.takeBytes maxLineBytes piece) := by
  obtain ⟨line, content, pending, fits⟩ := follows
  have parts : (if piece.length > 0 then reader.parts ++ [piece] else reader.parts).flatten =
      reader.parts.flatten ++ piece := by
    cases piece <;> simp
  rw [LineReader.takePiece, Progress.takeBytes, content]
  cases overflowing : reader.overflowing with
  | true => exact ⟨line, by simp, by simp, by simp⟩
  | false =>
    have length := pending overflowing
    simp only [Bool.not_false, Bool.true_and, decide_eq_true_eq]
    split
    next room =>
      refine ⟨line, ?_, fun _ => ?_, fun _ => room⟩
      · simp only [Bool.false_eq_true, if_false, Option.bind_some, parts]
        rw [if_pos (length ▸ room)]
      · dsimp only
        rw [parts, List.length_append, length]
    next full =>
      refine ⟨line, ?_, by simp, by simp⟩
      simp only [Bool.false_eq_true, if_false, Option.bind_some, if_true]
      rw [if_neg (length ▸ full)]

theorem Follows.finishLine (decode : Bytes → Option JsString) {reader : LineReader} {progress : Progress}
    (follows : Follows maxLineBytes reader progress) :
    (reader.finishLine decode).1 = progress.endedLine decode ∧
      Follows maxLineBytes (reader.finishLine decode).2 progress.ended := by
  obtain ⟨line, content, -, -⟩ := follows
  rw [LineReader.finishLine, Progress.endedLine, content, line]
  cases reader.overflowing with
  | true => exact ⟨rfl, rfl, rfl, fun _ => rfl, fun _ => Nat.zero_le _⟩
  | false => exact ⟨rfl, rfl, rfl, fun _ => rfl, fun _ => Nat.zero_le _⟩

theorem takeBytes_append {progress : Progress} (piece : Bytes) (byte : UInt8) :
    (progress.takeBytes maxLineBytes piece).takeBytes maxLineBytes [byte] =
      progress.takeBytes maxLineBytes (piece ++ [byte]) := by
  obtain ⟨content, line⟩ := progress
  cases content with
  | none => rfl
  | some content =>
    simp only [Progress.takeBytes, Option.bind_some, List.length_append, List.length_singleton]
    rcases Nat.lt_or_ge maxLineBytes (content.length + piece.length) with full | room
    · rw [if_neg (by omega), if_neg (by omega)]
      rfl
    · rw [if_pos room, Option.bind_some, List.append_assoc]
      simp only [List.length_append, Nat.add_assoc]

theorem takeBytes_nil (line : ℕ) :
    Progress.takeBytes maxLineBytes { content := some [], line } [] = { content := some [], line } := by
  simp [Progress.takeBytes]

theorem Follows.readPieces (decode : Bytes → Option JsString) {reader : LineReader} {progress : Progress}
    (follows : Follows maxLineBytes reader progress) (piece chunk : Bytes) :
    (LineReader.readPieces decode maxLineBytes reader piece chunk).1 =
        ((progress.takeBytes maxLineBytes piece).readBytes decode maxLineBytes chunk).1 ∧
      Follows maxLineBytes (LineReader.readPieces decode maxLineBytes reader piece chunk).2
        ((progress.takeBytes maxLineBytes piece).readBytes decode maxLineBytes chunk).2 := by
  induction chunk generalizing reader progress piece with
  | nil => exact ⟨rfl, follows.takePiece piece⟩
  | cons byte chunk ih =>
    rw [LineReader.readPieces, Progress.readBytes]
    split
    next =>
      obtain ⟨line, after⟩ := (follows.takePiece piece).finishLine decode
      obtain ⟨lines, follows'⟩ := ih after []
      rw [Progress.ended, takeBytes_nil, ← Progress.ended] at lines follows'
      refine ⟨?_, follows'⟩
      change _ :: _ = _ :: _
      rw [line, lines]
    next =>
      rw [takeBytes_append]
      exact ih follows (piece ++ [byte])

theorem Follows.takeBytes_nil {reader : LineReader} {progress : Progress}
    (follows : Follows maxLineBytes reader progress) : progress.takeBytes maxLineBytes [] = progress := by
  obtain ⟨line, content, pending, fits⟩ := follows
  obtain ⟨bytes, at_line⟩ := progress
  dsimp only at content
  subst content
  cases overflowing : reader.overflowing with
  | true => rfl
  | false =>
    have room : reader.parts.flatten.length ≤ maxLineBytes := pending overflowing ▸ fits overflowing
    simp only [Progress.takeBytes, Bool.false_eq_true, if_false, Option.bind_some, List.length_nil, Nat.add_zero,
      if_pos room, List.append_nil]

theorem Follows.readChunks (decode : Bytes → Option JsString) {reader : LineReader} {progress : Progress}
    (follows : Follows maxLineBytes reader progress) (chunks : List Bytes) :
    (LineReader.readChunks decode maxLineBytes reader chunks).1 =
        (progress.readBytes decode maxLineBytes chunks.flatten).1 ∧
      Follows maxLineBytes (LineReader.readChunks decode maxLineBytes reader chunks).2
        (progress.readBytes decode maxLineBytes chunks.flatten).2 := by
  induction chunks generalizing reader progress with
  | nil => exact ⟨rfl, follows⟩
  | cons chunk chunks ih =>
    obtain ⟨lines, after⟩ := follows.readPieces decode [] chunk
    rw [follows.takeBytes_nil] at lines after
    obtain ⟨later, finished⟩ := ih after
    rw [LineReader.readChunks, List.flatten_cons, Progress.readBytes_append]
    refine ⟨?_, finished⟩
    change _ ++ _ = _ ++ _
    rw [lines, later]

end LineReader

/-- The lines of an export's bytes, whatever its chunks. -/
def linesOf (decode : Bytes → Option JsString) (maxLineBytes : ℕ) (bytes : Bytes) : List ExportLine :=
  let (lines, progress) := Progress.readBytes decode maxLineBytes { content := some [], line := 0 } bytes
  if progress.content = some [] then lines else lines ++ [progress.endedLine decode]

theorem exportLines_eq (decode : Bytes → Option JsString) (maxLineBytes : ℕ) (chunks : List Bytes) :
    exportLines decode maxLineBytes chunks = linesOf decode maxLineBytes chunks.flatten := by
  have begun : LineReader.Follows maxLineBytes .start { content := some [], line := 0 } :=
    ⟨rfl, rfl, fun _ => rfl, fun _ => Nat.zero_le _⟩
  obtain ⟨lines, after⟩ := begun.readChunks decode chunks
  have last := (after.finishLine decode).1
  rw [exportLines, linesOf]
  dsimp only
  rw [lines, last, after.content]
  -- Nothing is left over exactly when the last line has no bytes yet.
  have open_line : (LineReader.readChunks decode maxLineBytes .start chunks).2.pending > 0 ∨
      (LineReader.readChunks decode maxLineBytes .start chunks).2.overflowing = true ↔
      ¬ (if (LineReader.readChunks decode maxLineBytes .start chunks).2.overflowing then none
        else some (LineReader.readChunks decode maxLineBytes .start chunks).2.parts.flatten) = some [] := by
    generalize (LineReader.readChunks decode maxLineBytes .start chunks).2 = reader at after
    cases overflowing : reader.overflowing with
    | true => simp
    | false =>
      rw [after.pending overflowing, gt_iff_lt, List.length_pos_iff]
      simp only [Bool.false_eq_true, or_false, if_false, Option.some.injEq, ne_eq]
  simp only [open_line, ite_not]

end Narsil.Export
