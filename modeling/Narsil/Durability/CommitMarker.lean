import Mathlib.Data.List.Basic

/-!
# The commit marker

The marker file has two slots that are written in turn. A slot is modelled by
what decoding it answers, so a slot that a crash tore holds `none`.
-/
namespace Narsil.Durability

structure CommitMarkerState where
  writeSeq : Nat
  activeSegmentSeqNo : Nat
  durableByteLength : Nat
  highestDurableSeqNo : Nat
  deriving DecidableEq, Repr

/-- What a caller asks the marker to record; the writer adds the write number. -/
structure Frontier where
  activeSegmentSeqNo : Nat
  durableByteLength : Nat
  highestDurableSeqNo : Nat
  deriving DecidableEq, Repr

def Frontier.withWriteSeq (f : Frontier) (writeSeq : Nat) : CommitMarkerState :=
  ⟨writeSeq, f.activeSegmentSeqNo, f.durableByteLength, f.highestDurableSeqNo⟩

def CommitMarkerState.frontier (m : CommitMarkerState) : Frontier :=
  ⟨m.activeSegmentSeqNo, m.durableByteLength, m.highestDurableSeqNo⟩

@[simp] theorem Frontier.frontier_withWriteSeq (f : Frontier) (n : Nat) :
    (f.withWriteSeq n).frontier = f := rfl

@[simp] theorem frontier_activeSegmentSeqNo (m : CommitMarkerState) :
    m.frontier.activeSegmentSeqNo = m.activeSegmentSeqNo := rfl

@[simp] theorem frontier_durableByteLength (m : CommitMarkerState) :
    m.frontier.durableByteLength = m.durableByteLength := rfl

@[simp] theorem frontier_highestDurableSeqNo (m : CommitMarkerState) :
    m.frontier.highestDurableSeqNo = m.highestDurableSeqNo := rfl

structure MarkerFile where
  slot0 : Option CommitMarkerState
  slot1 : Option CommitMarkerState
  deriving DecidableEq, Repr

def MarkerFile.empty : MarkerFile := ⟨none, none⟩

def MarkerFile.slot (file : MarkerFile) (slotIndex : Nat) : Option CommitMarkerState :=
  if slotIndex = 0 then file.slot0 else file.slot1

def MarkerFile.setSlot (file : MarkerFile) (slotIndex : Nat) (content : Option CommitMarkerState) :
    MarkerFile :=
  if slotIndex = 0 then { file with slot0 := content } else { file with slot1 := content }

/-- The slot with the higher write number, and its index. -/
def readCommitMarker (file : MarkerFile) : Option (CommitMarkerState × Nat) :=
  match file.slot0, file.slot1 with
  | none, none => none
  | some a, none => some (a, 0)
  | none, some b => some (b, 1)
  | some a, some b => if b.writeSeq > a.writeSeq then some (b, 1) else some (a, 0)

def nextMarkerSlot (lastWrittenSlot : Option Nat) : Nat :=
  match lastWrittenSlot with
  | none => 0
  | some last => (last + 1) % 2

structure MarkerWriter where
  lastSlot : Option Nat
  writeSeq : Nat
  deriving DecidableEq, Repr

def createMarkerWriter (file : MarkerFile) : MarkerWriter :=
  match readCommitMarker file with
  | none => ⟨none, 0⟩
  | some (state, slotIndex) => ⟨some slotIndex, state.writeSeq⟩

/-- The three things an unfinished slot write may leave behind. -/
inductive SlotOutcome where
  | untouched
  | torn
  | written
  deriving DecidableEq, Repr

/-- The marker file after a crash during the given slot write. -/
def MarkerFile.afterCrash (file : MarkerFile) (write : Option (Nat × CommitMarkerState)) :
    SlotOutcome → MarkerFile
  | .untouched => file
  | .torn => match write with
    | none => file
    | some (slotIndex, _) => file.setSlot slotIndex none
  | .written => match write with
    | none => file
    | some (slotIndex, state) => file.setSlot slotIndex (some state)

/-- The writer knows which slot is current, and the other slot is older. -/
def MarkerWriter.Tracks (w : MarkerWriter) (file : MarkerFile) : Prop :=
  createMarkerWriter file = w

theorem slotIndex_of_read {file : MarkerFile} {state : CommitMarkerState} {slotIndex : Nat}
    (h : readCommitMarker file = some (state, slotIndex)) :
    (slotIndex = 0 ∧ file.slot0 = some state ∧ ∀ b, file.slot1 = some b → b.writeSeq ≤ state.writeSeq) ∨
    (slotIndex = 1 ∧ file.slot1 = some state ∧ ∀ a, file.slot0 = some a → a.writeSeq < state.writeSeq) := by
  obtain ⟨slot0, slot1⟩ := file
  cases slot0 <;> cases slot1 <;> simp only [readCommitMarker] at h
  · cases h
  · cases h
    exact Or.inr ⟨rfl, rfl, by simp⟩
  · cases h
    exact Or.inl ⟨rfl, rfl, by simp⟩
  · split at h <;> cases h
    next newer => exact Or.inr ⟨rfl, rfl, by simpa using newer⟩
    next older => exact Or.inl ⟨rfl, rfl, by simpa using older⟩

theorem read_after_write (file : MarkerFile) (w : MarkerWriter) (tracks : w.Tracks file)
    (f : Frontier) :
    readCommitMarker (file.setSlot (nextMarkerSlot w.lastSlot) (some (f.withWriteSeq (w.writeSeq + 1))))
      = some (f.withWriteSeq (w.writeSeq + 1), nextMarkerSlot w.lastSlot) := by
  subst tracks
  unfold createMarkerWriter
  cases read : readCommitMarker file with
  | none =>
    obtain ⟨slot0, slot1⟩ := file
    cases slot0 <;> cases slot1 <;> simp [readCommitMarker] at read ⊢
    · simp [nextMarkerSlot, MarkerFile.setSlot]
    · split at read <;> cases read
  | some current =>
    obtain ⟨state, slotIndex⟩ := current
    obtain ⟨slot0, slot1⟩ := file
    rcases slotIndex_of_read read with ⟨rfl, here, other⟩ | ⟨rfl, here, other⟩
    · simp only at here
      subst here
      simp [nextMarkerSlot, MarkerFile.setSlot, readCommitMarker, Frontier.withWriteSeq]
    · simp only at here
      subst here
      simp [nextMarkerSlot, MarkerFile.setSlot, readCommitMarker, Frontier.withWriteSeq]

theorem read_after_torn (file : MarkerFile) (w : MarkerWriter) (tracks : w.Tracks file) :
    readCommitMarker (file.setSlot (nextMarkerSlot w.lastSlot) none) = readCommitMarker file := by
  subst tracks
  unfold createMarkerWriter
  cases read : readCommitMarker file with
  | none =>
    obtain ⟨slot0, slot1⟩ := file
    cases slot0 <;> cases slot1 <;> simp [readCommitMarker] at read ⊢
    · simp [nextMarkerSlot, MarkerFile.setSlot]
    · split at read <;> cases read
  | some current =>
    obtain ⟨state, slotIndex⟩ := current
    obtain ⟨slot0, slot1⟩ := file
    rcases slotIndex_of_read read with ⟨rfl, here, other⟩ | ⟨rfl, here, other⟩
    · simp only at here
      subst here
      simp [nextMarkerSlot, MarkerFile.setSlot, readCommitMarker]
    · simp only at here
      subst here
      simp [nextMarkerSlot, MarkerFile.setSlot, readCommitMarker]

end Narsil.Durability
