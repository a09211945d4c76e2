import Narsil.Durability.MarkerSlots
import Narsil.Transition.Run

/-!
# The commit marker over failing and torn writes

A marker file is written slot by slot. A write may complete, or fail and leave
anything at the front of its slot, and the file may be opened again at any time.
What a failed write leaves stays until that slot is written the next time.
-/
namespace Narsil.Durability.Marker

open Serialization

def createMarkerWriter (existing : Bytes) : MarkerWriter :=
  match readCommitMarker existing with
  | none => ⟨none, 0⟩
  | some (state, slotIndex) => ⟨some slotIndex, state.writeSeq⟩

inductive MarkerEvent where
  | commit (frontier : Frontier)
  /-- The write throws or a crash cuts it short; the slot now begins with `left`. -/
  | fail (frontier : Frontier) (left : Bytes)
  | reopen
  deriving DecidableEq, Repr

/-- The file and its writer, and beside them what has happened so far. -/
structure MarkerLog where
  file : Bytes
  writer : MarkerWriter
  /-- The last completed commit; before the first one, what the file held at the start. -/
  held : Option CommitMarkerState
  /-- The states whose write began after `held` and did not complete. -/
  tried : List CommitMarkerState
  accepted : List CommitMarkerState
  /-- What the open writer stands on: its last completed commit, or what it read on opening. -/
  standing : Option CommitMarkerState
  /-- A write failed since. -/
  failed : Bool
  deriving DecidableEq, Repr

def currentState (file : Bytes) : Option CommitMarkerState :=
  (readCommitMarker file).map Prod.fst

/-- A file as it is first opened. -/
def MarkerLog.opened (file : Bytes) : MarkerLog :=
  ⟨file, createMarkerWriter file, currentState file, [], [], currentState file, false⟩

/-- The state a commit asked for now would write. -/
def MarkerLog.stateFor (s : MarkerLog) (frontier : Frontier) : CommitMarkerState :=
  frontier.withWriteSeq (s.writer.writeSeq + 1)

def MarkerLog.target (s : MarkerLog) : Nat := nextMarkerSlot s.writer.lastSlot

def MarkerLog.writeSlot (s : MarkerLog) (bytes : Bytes) : Bytes :=
  overwrite s.file (markerSlotOffset s.target) bytes

/-- `commit` of the writer: the write number goes up before the slot is written,
the last slot is noted only when the write has completed. -/
def next (s : MarkerLog) : MarkerEvent → Option MarkerLog
  | .commit frontier =>
    some { file := s.writeSlot (encodeMarkerSlot (s.stateFor frontier))
           writer := ⟨some s.target, s.writer.writeSeq + 1⟩
           held := some (s.stateFor frontier)
           tried := []
           accepted := s.accepted ++ [s.stateFor frontier]
           standing := some (s.stateFor frontier)
           failed := false }
  | .fail frontier left =>
    some { s with
           file := s.writeSlot left
           writer := ⟨s.writer.lastSlot, s.writer.writeSeq + 1⟩
           tried := s.tried ++ [s.stateFor frontier]
           failed := true }
  | .reopen =>
    some { s with
           writer := createMarkerWriter s.file
           standing := currentState s.file
           failed := false }

/-- What a failed write left in its slot fails the checksum, or is wholly the old
slot or wholly the new one. -/
def CleanTear (s : MarkerLog) (frontier : Frontier) (left : Bytes) : Prop :=
  (slotBytes (s.writeSlot left) s.target).length ≠ commitMarkerSlotSize ∨
  crc32 ((slotBytes (s.writeSlot left) s.target).take crcOffset)
    ≠ getUint32 (slotBytes (s.writeSlot left) s.target) crcOffset ∨
  slotBytes (s.writeSlot left) s.target = slotBytes s.file s.target ∨
  slotBytes (s.writeSlot left) s.target = encodeMarkerSlot (s.stateFor frontier)

/-- The numbers written are safe integers, a write stays inside its slot, and no
half-written slot passes its checksum. -/
def StepSound (s : MarkerLog) : MarkerEvent → Prop
  | .commit frontier => SafeMarker (s.stateFor frontier)
  | .fail frontier left => SafeMarker (s.stateFor frontier) ∧ left.length ≤ commitMarkerSlotSize
      ∧ CleanTear s frontier left
  | .reopen => True

instance (s : MarkerLog) (frontier : Frontier) (left : Bytes) :
    Decidable (CleanTear s frontier left) :=
  inferInstanceAs (Decidable (_ ∨ _))

instance : (s : MarkerLog) → (event : MarkerEvent) → Decidable (StepSound s event)
  | s, .commit frontier => inferInstanceAs (Decidable (SafeMarker (s.stateFor frontier)))
  | _, .fail _ _ => inferInstanceAs (Decidable (_ ∧ _))
  | _, .reopen => isTrue trivial

/-- A state whose write failed, on disk and not yet adopted. -/
structure Unsettled (s : MarkerLog) (state : CommitMarkerState) : Prop where
  tried : state ∈ s.tried
  failed : s.failed = true
  numbered : state.writeSeq ≤ s.writer.writeSeq

/-- Reading prefers the state in slot `slotIndex` to the other one. -/
def Passed (slotIndex : Nat) (other state : CommitMarkerState) : Prop :=
  other.writeSeq < state.writeSeq ∨ slotIndex = 0 ∧ other.writeSeq ≤ state.writeSeq

/-- Nothing was ever committed: at most an unfinished first write is there. -/
structure StandsOnNothing (s : MarkerLog) : Prop where
  lastSlot : s.writer.lastSlot = none
  standing : s.standing = none
  second : decodeSlot s.file 1 = none
  first : ∀ x, decodeSlot s.file 0 = some x → Unsettled s x

/-- The last slot holds the state the writer stands on, the other slot an older one
or an unfinished write. -/
structure StandsOn (s : MarkerLog) (slotIndex : Nat) (state : CommitMarkerState) : Prop where
  isSlot : slotIndex = 0 ∨ slotIndex = 1
  lastSlot : s.writer.lastSlot = some slotIndex
  standing : s.standing = some state
  here : decodeSlot s.file slotIndex = some state
  numbered : state.writeSeq ≤ s.writer.writeSeq
  there : ∀ x, decodeSlot s.file (1 - slotIndex) = some x →
    Passed slotIndex x state ∨ state.writeSeq < x.writeSeq ∧ Unsettled s x

structure Inv (s : MarkerLog) : Prop where
  stands : StandsOnNothing s ∨ ∃ slotIndex state, StandsOn s slotIndex state
  origin : s.standing = s.held ∨ ∃ state ∈ s.tried, s.standing = some state
  accepted : ∀ a ∈ s.accepted, ∃ state, s.standing = some state ∧ a.writeSeq ≤ state.writeSeq
  ascending : s.accepted.Pairwise fun a b => a.writeSeq < b.writeSeq

theorem read_cases (file : Bytes) :
    (readCommitMarker file = none ∧ decodeSlot file 0 = none ∧ decodeSlot file 1 = none) ∨
    ∃ state slotIndex, readCommitMarker file = some (state, slotIndex) ∧
      (slotIndex = 0 ∨ slotIndex = 1) ∧ decodeSlot file slotIndex = some state ∧
      ∀ x, decodeSlot file (1 - slotIndex) = some x → Passed slotIndex x state := by
  rw [readCommitMarker_slots]
  cases read : Durability.readCommitMarker (slots file) with
  | none =>
    left
    simp only [Durability.readCommitMarker, slots] at read
    refine ⟨rfl, ?_⟩
    cases first : decodeSlot file 0 <;> cases second : decodeSlot file 1 <;>
      simp only [first, second] at read
    · exact ⟨rfl, rfl⟩
    · cases read
    · cases read
    · split at read <;> cases read
  | some current =>
    right
    obtain ⟨state, slotIndex⟩ := current
    refine ⟨state, slotIndex, rfl, ?_⟩
    rcases slotIndex_of_read read with ⟨rfl, here, there⟩ | ⟨rfl, here, there⟩
    · exact ⟨.inl rfl, here, fun x other => .inr ⟨rfl, there x other⟩⟩
    · exact ⟨.inr rfl, here, fun x other => .inl (there x other)⟩

theorem Passed.antisymm {slotIndex : Nat} {x y : CommitMarkerState}
    (isSlot : slotIndex = 0 ∨ slotIndex = 1) (h : Passed slotIndex x y)
    (h' : Passed (1 - slotIndex) y x) : False := by
  unfold Passed at h h'
  rcases isSlot with rfl | rfl <;> omega

theorem StandsOnNothing.read {s : MarkerLog} (h : StandsOnNothing s) :
    readCommitMarker s.file = none ∨
      ∃ x, readCommitMarker s.file = some (x, 0) ∧ Unsettled s x := by
  rcases read_cases s.file with ⟨nothing, -, -⟩ | ⟨state, slotIndex, read, isSlot, here, -⟩
  · exact .inl nothing
  · rcases isSlot with rfl | rfl
    · exact .inr ⟨state, read, h.first state here⟩
    · rw [h.second] at here
      cases here

theorem StandsOn.read {s : MarkerLog} {slotIndex : Nat} {state : CommitMarkerState}
    (h : StandsOn s slotIndex state) :
    readCommitMarker s.file = some (state, slotIndex) ∨
      ∃ x, readCommitMarker s.file = some (x, 1 - slotIndex) ∧ state.writeSeq < x.writeSeq ∧
        Unsettled s x := by
  have isSlot := h.isSlot
  have here := h.here
  rcases read_cases s.file with ⟨-, first, second⟩ | ⟨top, topIndex, read, topIsSlot, topHere, beats⟩
  · rcases isSlot with rfl | rfl
    · rw [first] at here; cases here
    · rw [second] at here; cases here
  · by_cases same : topIndex = slotIndex
    · subst same
      rw [here] at topHere
      cases topHere
      exact .inl read
    · have other : topIndex = 1 - slotIndex := by omega
      have back : 1 - topIndex = slotIndex := by omega
      subst other
      rw [back] at beats
      rcases h.there top topHere with passed | newer
      · exact (passed.antisymm isSlot (beats state here)).elim
      · exact .inr ⟨top, read, newer⟩

theorem decodeSlot_other (file : Bytes) (slotIndex : Nat) {left : Bytes}
    (isSlot : slotIndex = 0 ∨ slotIndex = 1) (fits : left.length ≤ commitMarkerSlotSize)
    (reaches : slotIndex = 1 → ∃ state, decodeSlot file 0 = some state) :
    decodeSlot (overwrite file (markerSlotOffset slotIndex) left) (1 - slotIndex)
      = decodeSlot file (1 - slotIndex) := by
  rcases isSlot with rfl | rfl
  · exact decodeSlot_congr (slotBytes_overwrite_first file left fits)
  · obtain ⟨state, first⟩ := reaches rfl
    have length := length_of_decodeSlot first
    apply decodeSlot_congr
    apply slotBytes_overwrite_second
    simpa using length

theorem CleanTear.decode {s : MarkerLog} {frontier : Frontier} {left : Bytes}
    (clean : CleanTear s frontier left) (safe : SafeMarker (s.stateFor frontier)) :
    decodeSlot (s.writeSlot left) s.target = none ∨
    decodeSlot (s.writeSlot left) s.target = decodeSlot s.file s.target ∨
    decodeSlot (s.writeSlot left) s.target = some (s.stateFor frontier) := by
  rcases clean with short | broken | old | new
  · left
    rw [decodeSlot_eq, if_neg short]
  · left
    rw [decodeSlot_eq, decodeSlotBytes, if_pos broken, ite_self]
  · right; left
    exact decodeSlot_congr old
  · right; right
    rw [decodeSlot_eq, new, if_pos (encodeMarkerSlot_length _), decodeSlotBytes_encode safe]

theorem decodeSlot_commit {s : MarkerLog} {frontier : Frontier}
    (safe : SafeMarker (s.stateFor frontier)) :
    decodeSlot (s.writeSlot (encodeMarkerSlot (s.stateFor frontier))) s.target
      = some (s.stateFor frontier) := by
  rw [decodeSlot_eq, MarkerLog.writeSlot, slotBytes_overwrite _ _ _ (encodeMarkerSlot_length _),
    if_pos (encodeMarkerSlot_length _), decodeSlotBytes_encode safe]

theorem StandsOnNothing.target {s : MarkerLog} (h : StandsOnNothing s) : s.target = 0 := by
  rw [MarkerLog.target, h.lastSlot]
  rfl

theorem StandsOn.target {s : MarkerLog} {slotIndex : Nat} {state : CommitMarkerState}
    (h : StandsOn s slotIndex state) : s.target = 1 - slotIndex := by
  rw [MarkerLog.target, h.lastSlot]
  rcases h.isSlot with rfl | rfl <;> rfl

theorem Inv.opened (file : Bytes) : Inv (MarkerLog.opened file) := by
  refine ⟨?_, .inl rfl, by simp [MarkerLog.opened], List.Pairwise.nil⟩
  rcases read_cases file with ⟨nothing, first, second⟩ | ⟨state, slotIndex, read, isSlot, here, beats⟩
  · left
    refine ⟨?_, ?_, second, ?_⟩
    · simp [MarkerLog.opened, createMarkerWriter, nothing]
    · simp [MarkerLog.opened, currentState, nothing]
    · intro x found
      rw [MarkerLog.opened, first] at found
      cases found
  · right
    refine ⟨slotIndex, state, isSlot, ?_, ?_, here, ?_, fun x other => .inl (beats x other)⟩
    · simp [MarkerLog.opened, createMarkerWriter, read]
    · simp [MarkerLog.opened, currentState, read]
    · simp [MarkerLog.opened, createMarkerWriter, read]

theorem StandsOn.commit {s : MarkerLog} {frontier : Frontier} (inv : Inv s)
    (safe : SafeMarker (s.stateFor frontier)) {s' : MarkerLog}
    (step : next s (.commit frontier) = some s') : StandsOn s' s.target (s.stateFor frontier) := by
  cases step
  have here := decodeSlot_commit safe
  rcases inv.stands with nothing | ⟨slotIndex, state, stands⟩
  · have target := nothing.target
    rw [target] at here
    refine ⟨.inl target, rfl, rfl, by rw [target]; exact here, Nat.le_refl _, ?_⟩
    intro x other
    have same := decodeSlot_other s.file s.target (.inl target)
      (Nat.le_of_eq (encodeMarkerSlot_length (s.stateFor frontier))) (by omega)
    rw [MarkerLog.writeSlot, same, target, nothing.second] at other
    cases other
  · have target := stands.target
    have isSlot := stands.isSlot
    refine ⟨by omega, rfl, rfl, here, Nat.le_refl _, ?_⟩
    intro x other
    have same := decodeSlot_other s.file s.target (by omega)
      (Nat.le_of_eq (encodeMarkerSlot_length (s.stateFor frontier)))
      (fun second => ⟨state, by
        have : slotIndex = 0 := by omega
        exact this ▸ stands.here⟩)
    have back : 1 - s.target = slotIndex := by omega
    rw [MarkerLog.writeSlot, same, back, stands.here] at other
    cases other
    have numbered := stands.numbered
    exact .inl (.inl (Nat.lt_succ_of_le numbered))

theorem Inv.commit {s s' : MarkerLog} {frontier : Frontier} (inv : Inv s)
    (safe : SafeMarker (s.stateFor frontier)) (step : next s (.commit frontier) = some s') :
    Inv s' := by
  have stands := StandsOn.commit inv safe step
  cases step
  have below : ∀ a ∈ s.accepted, a.writeSeq ≤ s.writer.writeSeq := by
    intro a isIn
    obtain ⟨state, standing, le⟩ := inv.accepted a isIn
    rcases inv.stands with nothing | ⟨slotIndex, state', stands'⟩
    · rw [nothing.standing] at standing
      cases standing
    · rw [stands'.standing] at standing
      cases standing
      exact Nat.le_trans le stands'.numbered
  refine ⟨.inr ⟨_, _, stands⟩, .inl rfl, ?_, ?_⟩
  · intro a isIn
    refine ⟨_, rfl, ?_⟩
    rcases List.mem_append.mp isIn with earlier | last
    · exact Nat.le_succ_of_le (below a earlier)
    · exact Nat.le_of_eq (congrArg _ (List.mem_singleton.mp last))
  · refine List.pairwise_append.mpr ⟨inv.ascending, List.pairwise_singleton _ _, ?_⟩
    intro a isIn b last
    rw [List.mem_singleton.mp last]
    exact Nat.lt_succ_of_le (below a isIn)

theorem Unsettled.later {s s' : MarkerLog} {x : CommitMarkerState} {frontier : Frontier}
    {left : Bytes} (h : Unsettled s x) (step : next s (.fail frontier left) = some s') :
    Unsettled s' x := by
  cases step
  exact ⟨List.mem_append_left _ h.tried, rfl, Nat.le_succ_of_le h.numbered⟩

theorem Unsettled.written {s s' : MarkerLog} {frontier : Frontier} {left : Bytes}
    (step : next s (.fail frontier left) = some s') : Unsettled s' (s.stateFor frontier) := by
  cases step
  exact ⟨by simp, rfl, Nat.le_refl _⟩

theorem Inv.fail {s s' : MarkerLog} {frontier : Frontier} {left : Bytes} (inv : Inv s)
    (safe : SafeMarker (s.stateFor frontier)) (fits : left.length ≤ commitMarkerSlotSize)
    (clean : CleanTear s frontier left) (step : next s (.fail frontier left) = some s') :
    Inv s' := by
  have written := Unsettled.written step
  have later : ∀ x, Unsettled s x → Unsettled s' x := fun x h => h.later step
  have content := clean.decode safe
  cases step
  refine ⟨?_, ?_, inv.accepted, inv.ascending⟩
  · rcases inv.stands with nothing | ⟨slotIndex, state, stands⟩
    · left
      have target := nothing.target
      have same := decodeSlot_other s.file s.target (.inl target) fits
        (by omega)
      rw [target] at content same
      refine ⟨nothing.lastSlot, nothing.standing, ?_, ?_⟩
      · rw [MarkerLog.writeSlot, target, same]
        exact nothing.second
      · intro x found
        rcases content with none | old | new
        · rw [none] at found; cases found
        · rw [old] at found
          exact later x (nothing.first x found)
        · rw [new] at found
          cases found
          exact written
    · right
      have target := stands.target
      have isSlot := stands.isSlot
      have back : 1 - s.target = slotIndex := by omega
      have same := decodeSlot_other s.file s.target (by omega) fits
        (fun second => ⟨state, by
          have : slotIndex = 0 := by omega
          exact this ▸ stands.here⟩)
      rw [back] at same
      refine ⟨slotIndex, state, isSlot, stands.lastSlot, stands.standing, ?_,
        Nat.le_succ_of_le stands.numbered, ?_⟩
      · rw [MarkerLog.writeSlot, same]
        exact stands.here
      · -- The other slot is the one the write went to.
        intro x found
        rw [← target] at found
        rcases content with none | old | new
        · rw [none] at found; cases found
        · rw [old, target] at found
          rcases stands.there x found with passed | ⟨newer, unsettled⟩
          · exact .inl passed
          · exact .inr ⟨newer, later x unsettled⟩
        · rw [new] at found
          cases found
          exact .inr ⟨Nat.lt_succ_of_le stands.numbered, written⟩
  · rcases inv.origin with same | ⟨state, isTried, standing⟩
    · exact .inl same
    · exact .inr ⟨state, List.mem_append_left _ isTried, standing⟩

theorem Inv.current {s : MarkerLog} (inv : Inv s) :
    currentState s.file = s.held ∨ ∃ state ∈ s.tried, currentState s.file = some state := by
  have adopted : currentState s.file = s.standing →
      currentState s.file = s.held ∨ ∃ state ∈ s.tried, currentState s.file = some state := by
    intro same
    rcases inv.origin with origin | ⟨state, isTried, standing⟩
    · exact .inl (same.trans origin)
    · exact .inr ⟨state, isTried, same.trans standing⟩
  rcases inv.stands with nothing | ⟨slotIndex, state, stands⟩
  · rcases nothing.read with read | ⟨x, read, unsettled⟩
    · exact adopted (by rw [currentState, read, nothing.standing]; rfl)
    · exact .inr ⟨x, unsettled.tried, by rw [currentState, read]; rfl⟩
  · rcases stands.read with read | ⟨x, read, -, unsettled⟩
    · exact adopted (by rw [currentState, read, stands.standing]; rfl)
    · exact .inr ⟨x, unsettled.tried, by rw [currentState, read]; rfl⟩

theorem Inv.never_older {s : MarkerLog} (inv : Inv s) {a : CommitMarkerState}
    (isIn : a ∈ s.accepted) :
    ∃ state, currentState s.file = some state ∧ a.writeSeq ≤ state.writeSeq := by
  obtain ⟨standing, standingIs, le⟩ := inv.accepted a isIn
  rcases inv.stands with nothing | ⟨slotIndex, state, stands⟩
  · rw [nothing.standing] at standingIs
    cases standingIs
  · rw [stands.standing] at standingIs
    cases standingIs
    rcases stands.read with read | ⟨x, read, newer, -⟩
    · exact ⟨_, by rw [currentState, read]; rfl, le⟩
    · exact ⟨x, by rw [currentState, read]; rfl, by omega⟩

theorem Inv.reopen {s s' : MarkerLog} (inv : Inv s) (step : next s .reopen = some s') : Inv s' := by
  have current := inv.current
  have notOlder := fun a (isIn : a ∈ s.accepted) => inv.never_older isIn
  obtain ⟨fresh, -, -, -⟩ := Inv.opened s.file
  cases step
  refine ⟨?_, current, notOlder, inv.ascending⟩
  rcases fresh with nothing | ⟨slotIndex, state, stands⟩
  · left
    refine ⟨nothing.lastSlot, nothing.standing, nothing.second, ?_⟩
    intro x found
    exact absurd (nothing.first x found).failed (by simp [MarkerLog.opened])
  · right
    refine ⟨slotIndex, state, stands.isSlot, stands.lastSlot, stands.standing, stands.here,
      stands.numbered, ?_⟩
    intro x found
    rcases stands.there x found with passed | ⟨-, unsettled⟩
    · exact .inl passed
    · exact absurd unsettled.failed (by simp [MarkerLog.opened])

theorem Inv.next {s s' : MarkerLog} {event : MarkerEvent} (inv : Inv s) (sound : StepSound s event)
    (step : next s event = some s') : Inv s' := by
  cases event with
  | commit frontier => exact inv.commit sound step
  | fail frontier left => exact inv.fail sound.1 sound.2.1 sound.2.2 step
  | reopen => exact inv.reopen step

theorem Inv.run {file : Bytes} {events : List MarkerEvent} {s : MarkerLog}
    (sound : Transition.AllSteps Marker.next StepSound (.opened file) events)
    (reached : Transition.run Marker.next (.opened file) events = some s) : Inv s :=
  Transition.run_invariant_of Marker.next StepSound Inv
    (fun _ _ _ inv sound step => inv.next sound step) events _ s (Inv.opened file) sound reached

set_option maxRecDepth 100000 in
/-- A failed write that reached the disk is what reading answers. The next write goes
to that very slot, and where it comes to nothing the failed one is still answered. -/
theorem marker_answers_a_failed_write :
    (∃ s, Transition.AllSteps next StepSound (.opened [])
        [.commit ⟨1, 100, 5⟩, .fail ⟨1, 200, 9⟩ (encodeMarkerSlot ⟨2, 1, 200, 9⟩)] ∧
      Transition.run next (.opened [])
        [.commit ⟨1, 100, 5⟩, .fail ⟨1, 200, 9⟩ (encodeMarkerSlot ⟨2, 1, 200, 9⟩)] = some s ∧
      readCommitMarker s.file = some (⟨2, 1, 200, 9⟩, s.target)) ∧
    (∃ s, Transition.AllSteps next StepSound (.opened [])
        [.commit ⟨1, 100, 5⟩, .fail ⟨1, 200, 9⟩ (encodeMarkerSlot ⟨2, 1, 200, 9⟩),
          .fail ⟨1, 300, 12⟩ []] ∧
      Transition.run next (.opened [])
        [.commit ⟨1, 100, 5⟩, .fail ⟨1, 200, 9⟩ (encodeMarkerSlot ⟨2, 1, 200, 9⟩),
          .fail ⟨1, 300, 12⟩ []] = some s ∧
      s.held = some ⟨1, 1, 100, 5⟩ ∧ s.tried.getLast? = some ⟨3, 1, 300, 12⟩ ∧
      currentState s.file = some ⟨2, 1, 200, 9⟩) ∧
    -- A write cut after half its bytes can pass the checksum of the slot it went over.
    (∃ s, Transition.run next (.opened [])
        [.commit ⟨1, 1000, 7⟩, .commit ⟨1, 1500, 8⟩, .fail ⟨1616101499, 2000, 9⟩
          ((encodeMarkerSlot ⟨3, 1616101499, 2000, 9⟩).take 16)] = some s ∧
      s.tried = [⟨3, 1616101499, 2000, 9⟩] ∧
      currentState s.file = some ⟨3, 1616101499, 1000, 7⟩) := by
  refine ⟨⟨_, by decide, rfl, by decide⟩,
    ⟨_, by decide, rfl, by decide, by decide, by decide⟩,
    ⟨_, rfl, by decide, by decide⟩⟩

theorem marker_protocol (file : Bytes) (events : List MarkerEvent) (s : MarkerLog)
    (sound : Transition.AllSteps next StepSound (.opened file) events)
    (reached : Transition.run next (.opened file) events = some s) :
    (currentState s.file = s.held ∨ ∃ state ∈ s.tried, currentState s.file = some state) ∧
    (∀ a ∈ s.accepted, ∃ state, currentState s.file = some state ∧ a.writeSeq ≤ state.writeSeq) ∧
    s.accepted.Pairwise (fun a b => a.writeSeq < b.writeSeq) ∧
    (∀ state, s.standing = some state →
      ∃ slotIndex, slotIndex ≠ s.target ∧ decodeSlot s.file slotIndex = some state) ∧
    (s.failed = false → ∀ state slotIndex,
      readCommitMarker s.file = some (state, slotIndex) → slotIndex ≠ s.target) := by
  have inv := Inv.run sound reached
  refine ⟨inv.current, fun a isIn => inv.never_older isIn, inv.ascending, ?_, ?_⟩
  · intro state standing
    rcases inv.stands with nothing | ⟨slotIndex, state', stands⟩
    · rw [nothing.standing] at standing
      cases standing
    · rw [stands.standing] at standing
      cases standing
      have target := stands.target
      have isSlot := stands.isSlot
      exact ⟨slotIndex, by omega, stands.here⟩
  · intro settled state slotIndex read
    rcases inv.stands with nothing | ⟨slotIndex', state', stands⟩
    · rcases nothing.read with empty | ⟨x, -, unsettled⟩
      · rw [empty] at read
        cases read
      · exact absurd unsettled.failed (by simp [settled])
    · have target := stands.target
      have isSlot := stands.isSlot
      rcases stands.read with current | ⟨x, -, -, unsettled⟩
      · rw [current] at read
        cases read
        omega
      · exact absurd unsettled.failed (by simp [settled])

set_option maxRecDepth 100000 in
/-- The protocol on a commit, a write that failed after reaching the disk, and the file
opened again. -/
theorem marker_protocol_sample :
    ∃ s, Transition.run next (.opened [])
        [.commit ⟨1, 100, 5⟩, .fail ⟨1, 200, 9⟩ (encodeMarkerSlot ⟨2, 1, 200, 9⟩), .reopen]
          = some s ∧
      (currentState s.file = s.held ∨ ∃ state ∈ s.tried, currentState s.file = some state) ∧
      s.accepted.Pairwise (fun a b => a.writeSeq < b.writeSeq) := by
  refine ⟨_, rfl, ?_⟩
  have holds := marker_protocol [] [.commit ⟨1, 100, 5⟩,
    .fail ⟨1, 200, 9⟩ (encodeMarkerSlot ⟨2, 1, 200, 9⟩), .reopen] _ (by decide) rfl
  exact ⟨holds.1, holds.2.2.1⟩

end Narsil.Durability.Marker
