import Narsil.Durability.FrameReading
import Narsil.Durability.WalSegments

/-!
# What the files of a log hold

A segment is paired with the entries that were written to it, lost ones
included. A layout ties the pairs to the entries appended so far, and a marker
is judged by the entries its frontier covers.
-/
namespace Narsil.Durability

/-- A segment file with the entries written to it. -/
abbrev Segment := SegmentFile × List ReplicationLogEntry

def segmentBytes (codec : EntryCodec) (entries : List ReplicationLogEntry) : Bytes :=
  writeSegmentHeader ++ frames codec entries

variable {codec : EntryCodec}

theorem segmentBytes_length (entries : List ReplicationLogEntry) :
    (segmentBytes codec entries).length = segmentHeaderSize + (frames codec entries).length := by
  simp [segmentBytes]

/-- All bytes of the segment have been synced. -/
def Sealed (codec : EntryCodec) (p : Segment) : Prop :=
  p.1.synced = (segmentBytes codec p.2).length

/-- The file holds all that was written to it. -/
def Whole (codec : EntryCodec) (p : Segment) : Prop :=
  p.1.bytes = segmentBytes codec p.2

structure Layout (codec : EntryCodec) (truncated appended : List ReplicationLogEntry)
    (files : List SegmentFile) (segs : List Segment) : Prop where
  files_eq : files = segs.map Prod.fst
  written : ∀ p ∈ segs, p.1.bytes <+: segmentBytes codec p.2
  synced_le : ∀ p ∈ segs, p.1.synced ≤ p.1.bytes.length
  ordered : segs.Pairwise fun a b =>
    a.1.startSeqNo < b.1.startSeqNo ∧ ∀ e ∈ a.2, e.seqNo < b.1.startSeqNo
  entries : truncated ++ segs.flatMap Prod.snd = appended
  ascending : Ascending appended
  positive : ∀ e ∈ appended, 0 < e.seqNo
  recordable : ∀ e ∈ appended, Recordable codec e

variable {truncated appended owed : List ReplicationLogEntry} {files : List SegmentFile}
  {segs : List Segment}

theorem Layout.mem_appended (h : Layout codec truncated appended files segs) {p : Segment}
    (hp : p ∈ segs) {e : ReplicationLogEntry} (he : e ∈ p.2) : e ∈ appended := by
  rw [← h.entries]
  exact List.mem_append_right _ (List.mem_flatMap.mpr ⟨p, hp, he⟩)

theorem Layout.start_inj (h : Layout codec truncated appended files segs) {p q : Segment}
    (hp : p ∈ segs) (hq : q ∈ segs) (same : p.1.startSeqNo = q.1.startSeqNo) : p = q := by
  by_contra different
  have order := List.pairwise_iff_getElem.mp h.ordered
  obtain ⟨i, hi, rfl⟩ := List.getElem_of_mem hp
  obtain ⟨j, hj, rfl⟩ := List.getElem_of_mem hq
  rcases Nat.lt_trichotomy i j with less | equal | greater
  · have := (order i j hi hj less).1
    omega
  · subst equal
    exact different rfl
  · have := (order j i hj hi greater).1
    omega

theorem Sealed.whole {p : Segment} (h : Sealed codec p)
    (written : p.1.bytes <+: segmentBytes codec p.2) (synced : p.1.synced ≤ p.1.bytes.length) :
    Whole codec p := by
  unfold Sealed at h
  exact written.eq_of_length (Nat.le_antisymm written.length_le (h ▸ synced))

theorem filter_earlier {pre post : List Segment} {p : Segment} {active : Nat}
    (start : p.1.startSeqNo = active) (before : ∀ q ∈ pre, q.1.startSeqNo < active)
    (after : ∀ q ∈ post, active < q.1.startSeqNo) :
    (pre ++ p :: post).filter (fun q => q.1.startSeqNo < active) = pre := by
  rw [List.filter_append, List.filter_cons_of_neg (by simp [start]),
    List.filter_eq_self.mpr (fun q hq => decide_eq_true (before q hq)),
    List.filter_eq_nil_iff.mpr (fun q hq => by have := after q hq; simp; omega)]
  simp

theorem Layout.split_at (layout : Layout codec truncated appended files segs) {p : Segment}
    (hp : p ∈ segs) :
    ∃ pre post, segs = pre ++ p :: post ∧ (∀ q ∈ pre, q.1.startSeqNo < p.1.startSeqNo) ∧
      ∀ q ∈ post, p.1.startSeqNo < q.1.startSeqNo := by
  obtain ⟨pre, post, rfl⟩ := List.append_of_mem hp
  have ordered := List.pairwise_append.mp layout.ordered
  refine ⟨pre, post, rfl, fun q hq => (ordered.2.2 q hq p (by simp)).1, fun q hq => ?_⟩
  exact ((List.pairwise_cons.mp ordered.2.1).1 q hq).1

theorem Layout.split_last (layout : Layout codec truncated appended files segs) {p : Segment}
    (hp : p ∈ segs) (last : ∀ q ∈ segs, q.1.startSeqNo ≤ p.1.startSeqNo) :
    ∃ pre, segs = pre ++ [p] ∧ ∀ q ∈ pre, q.1.startSeqNo < p.1.startSeqNo := by
  obtain ⟨pre, post, rfl, before, after⟩ := layout.split_at hp
  have noneAfter : post = [] := List.eq_nil_iff_forall_not_mem.mpr fun q hq => by
    have := after q hq
    have := last q (by simp [hq])
    omega
  exact ⟨pre, by rw [noneAfter], before⟩

/-- The entries a frontier covers: those of earlier segments and the first `j`
of its own. -/
def coveredBy (truncated : List ReplicationLogEntry) (segs : List Segment) (f : Frontier)
    (p : Segment) (j : Nat) : List ReplicationLogEntry :=
  truncated ++ (segs.filter fun q => q.1.startSeqNo < f.activeSegmentSeqNo).flatMap Prod.snd
    ++ p.2.take j

/-- The frontier ends behind the `j`-th entry of segment `p`. -/
structure MarkerCovers (codec : EntryCodec) (truncated : List ReplicationLogEntry)
    (segs : List Segment) (f : Frontier) (p : Segment) (j : Nat) : Prop where
  member : p ∈ segs
  start : p.1.startSeqNo = f.activeSegmentSeqNo
  count : j ≤ p.2.length
  length : f.durableByteLength = (segmentBytes codec (p.2.take j)).length
  earlier : ∀ q ∈ segs, q.1.startSeqNo < f.activeSegmentSeqNo → Sealed codec q
  later : ∀ q ∈ segs, f.activeSegmentSeqNo < q.1.startSeqNo → q.2 = []
  highest : f.highestDurableSeqNo ≤ highestSeqNo (coveredBy truncated segs f p j)

/-- The frontier is on disk and covers everything owed. -/
def MarkerHolds (codec : EntryCodec) (truncated owed : List ReplicationLogEntry)
    (segs : List Segment) (f : Frontier) : Prop :=
  ∃ p j, MarkerCovers codec truncated segs f p j ∧ f.durableByteLength ≤ p.1.synced ∧
    ∀ e ∈ owed, e ∈ coveredBy truncated segs f p j

theorem MarkerHolds.mono {f : Frontier} {less : List ReplicationLogEntry}
    (h : MarkerHolds codec truncated owed segs f) (sub : ∀ e ∈ less, e ∈ owed) :
    MarkerHolds codec truncated less segs f := by
  obtain ⟨p, j, covers, synced, holds⟩ := h
  exact ⟨p, j, covers, synced, fun e he => holds e (sub e he)⟩

private theorem foldl_max (entries : List ReplicationLogEntry) (start : Nat) :
    entries.foldl (fun high entry => max high entry.seqNo) start
      = max start (highestSeqNo entries) := by
  induction entries generalizing start with
  | nil => simp [highestSeqNo]
  | cons e rest ih =>
    simp only [highestSeqNo, List.foldl_cons] at ih ⊢
    rw [ih (max start e.seqNo), ih (max 0 e.seqNo)]
    omega

@[simp] theorem highestSeqNo_nil : highestSeqNo [] = 0 := rfl

theorem highestSeqNo_append (xs ys : List ReplicationLogEntry) :
    highestSeqNo (xs ++ ys) = max (highestSeqNo xs) (highestSeqNo ys) := by
  simp only [highestSeqNo, List.foldl_append]
  rw [foldl_max ys]
  rfl

theorem highestSeqNo_cons (e : ReplicationLogEntry) (rest : List ReplicationLogEntry) :
    highestSeqNo (e :: rest) = max e.seqNo (highestSeqNo rest) := by
  have := highestSeqNo_append [e] rest
  simpa [highestSeqNo] using this

theorem le_highestSeqNo {entries : List ReplicationLogEntry} {e : ReplicationLogEntry}
    (he : e ∈ entries) : e.seqNo ≤ highestSeqNo entries := by
  induction entries with
  | nil => simp at he
  | cons first rest ih =>
    rw [highestSeqNo_cons]
    rcases List.mem_cons.mp he with rfl | later
    · exact Nat.le_max_left _ _
    · exact Nat.le_trans (ih later) (Nat.le_max_right _ _)

theorem highestSeqNo_le {entries : List ReplicationLogEntry} {bound : Nat}
    (below : ∀ e ∈ entries, e.seqNo ≤ bound) : highestSeqNo entries ≤ bound := by
  induction entries with
  | nil => simp
  | cons first rest ih =>
    rw [highestSeqNo_cons]
    exact Nat.max_le.mpr ⟨below first (by simp), ih fun e he => below e (by simp [he])⟩

theorem highestSeqNo_mono {xs ys : List ReplicationLogEntry} (sub : ∀ e ∈ xs, e ∈ ys) :
    highestSeqNo xs ≤ highestSeqNo ys :=
  highestSeqNo_le fun e he => le_highestSeqNo (sub e he)

section Map

variable {g : Segment → Segment}

theorem Layout.map (h : Layout codec truncated appended files segs)
    (start : ∀ q ∈ segs, (g q).1.startSeqNo = q.1.startSeqNo) (same : ∀ q ∈ segs, (g q).2 = q.2)
    (written : ∀ q ∈ segs, (g q).1.bytes <+: segmentBytes codec q.2)
    (synced : ∀ q ∈ segs, (g q).1.synced ≤ (g q).1.bytes.length) :
    Layout codec truncated appended (segs.map fun q => (g q).1) (segs.map g) where
  files_eq := by simp
  written := by
    intro p hp
    obtain ⟨q, hq, rfl⟩ := List.mem_map.mp hp
    rw [same q hq]
    exact written q hq
  synced_le := by
    intro p hp
    obtain ⟨q, hq, rfl⟩ := List.mem_map.mp hp
    exact synced q hq
  ordered := by
    rw [List.pairwise_map]
    refine h.ordered.imp_of_mem ?_
    intro a b ha hb order
    rw [start a ha, start b hb, same a ha]
    exact order
  entries := by
    rw [List.flatMap_map, ← h.entries]
    congr 1
    exact List.flatMap_congr fun q hq => same q hq
  ascending := h.ascending
  positive := h.positive
  recordable := h.recordable

theorem coveredBy_map (start : ∀ q ∈ segs, (g q).1.startSeqNo = q.1.startSeqNo)
    (same : ∀ q ∈ segs, (g q).2 = q.2) (f : Frontier) {p : Segment} (hp : p ∈ segs) (j : Nat) :
    coveredBy truncated (segs.map g) f (g p) j = coveredBy truncated segs f p j := by
  unfold coveredBy
  rw [same p hp, List.filter_map, List.flatMap_map]
  congr 2
  have filters : segs.filter ((fun q : Segment => decide (q.1.startSeqNo < f.activeSegmentSeqNo)) ∘ g)
      = segs.filter fun q => decide (q.1.startSeqNo < f.activeSegmentSeqNo) :=
    List.filter_congr fun q hq => by simp [start q hq]
  rw [filters]
  exact List.flatMap_congr fun q hq => same q (List.mem_filter.mp hq).1

theorem MarkerCovers.map {f : Frontier} {p : Segment} {j : Nat}
    (h : MarkerCovers codec truncated segs f p j)
    (start : ∀ q ∈ segs, (g q).1.startSeqNo = q.1.startSeqNo) (same : ∀ q ∈ segs, (g q).2 = q.2)
    (keeps : ∀ q ∈ segs, q.1.startSeqNo < f.activeSegmentSeqNo → Sealed codec q → Sealed codec (g q)) :
    MarkerCovers codec truncated (segs.map g) f (g p) j where
  member := List.mem_map_of_mem h.member
  start := (start p h.member).trans h.start
  count := (same p h.member).symm ▸ h.count
  length := by rw [same p h.member]; exact h.length
  earlier := by
    intro q hq less
    obtain ⟨q', hq', rfl⟩ := List.mem_map.mp hq
    rw [start q' hq'] at less
    exact keeps q' hq' less (h.earlier q' hq' less)
  later := by
    intro q hq less
    obtain ⟨q', hq', rfl⟩ := List.mem_map.mp hq
    rw [start q' hq'] at less
    rw [same q' hq']
    exact h.later q' hq' less
  highest := by
    rw [coveredBy_map start same f h.member]
    exact h.highest

theorem MarkerHolds.map {f : Frontier} (h : MarkerHolds codec truncated owed segs f)
    (start : ∀ q ∈ segs, (g q).1.startSeqNo = q.1.startSeqNo) (same : ∀ q ∈ segs, (g q).2 = q.2)
    (keeps : ∀ q ∈ segs, q.1.startSeqNo < f.activeSegmentSeqNo → Sealed codec q → Sealed codec (g q))
    (durable : ∀ q ∈ segs, q.1.startSeqNo = f.activeSegmentSeqNo →
      f.durableByteLength ≤ q.1.synced → f.durableByteLength ≤ (g q).1.synced) :
    MarkerHolds codec truncated owed (segs.map g) f := by
  obtain ⟨p, j, covers, synced, holds⟩ := h
  refine ⟨g p, j, covers.map start same keeps, durable p covers.member covers.start synced, ?_⟩
  intro e he
  rw [coveredBy_map start same f covers.member]
  exact holds e he

end Map

end Narsil.Durability
