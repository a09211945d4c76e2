import Narsil.Durability.WalDurability

/-!
# The readers accept exactly the format

The strict reader answers the entries of a segment and refuses everything else.
Behind a boundary at which it succeeds, the lenient reader answers the longest
run of frames, and the strict reader succeeds up to where that run ends.
-/
namespace Narsil.Durability

open Serialization

variable {codec : EntryCodec} {data : Bytes} {durableByteLength lastDurableSeqNo : Nat}
  {durable : List ReplicationLogEntry}

theorem readTailBeyondFrontier_eq (atLeast : segmentHeaderSize ≤ durableByteLength)
    (inside : durableByteLength ≤ data.length) :
    readTailBeyondFrontier codec data durableByteLength lastDurableSeqNo
      = readTailFrames codec data durableByteLength lastDurableSeqNo [] := by
  rw [readTailBeyondFrontier, Nat.max_eq_left atLeast]
  split
  · rw [readTailFrames, if_neg (by omega)]
  · rfl

theorem SegmentOf.extend {run : List ReplicationLogEntry} {stop : Nat}
    (segment : SegmentOf codec (data.take durableByteLength) durable)
    (inside : durableByteLength ≤ data.length)
    (below : ∀ e ∈ durable, e.seqNo ≤ lastDurableSeqNo)
    (tail : TailRun codec data lastDurableSeqNo durableByteLength run stop) :
    SegmentOf codec (data.take stop) (durable ++ run) := by
  obtain ⟨header, framed, ascending⟩ := segment
  have size := header.size
  have ordered := tail.ordered
  rw [List.length_take, List.length_take] at size
  have atLeast : segmentHeaderSize ≤ durableByteLength := by omega
  rw [List.take_take, Nat.min_eq_left atLeast] at header
  refine ⟨?_, ?_, ?_⟩
  · rw [List.take_take, Nat.min_eq_left (Nat.le_trans atLeast ordered)]
    exact header
  · have joined := framed.append tail.framed
    have split : (data.take durableByteLength).drop segmentHeaderSize
        ++ (data.take stop).drop durableByteLength = (data.take stop).drop segmentHeaderSize := by
      have cut := List.take_append_drop (durableByteLength - segmentHeaderSize)
        ((data.take stop).drop segmentHeaderSize)
      rw [List.drop_drop, ← List.drop_take, List.take_take] at cut
      rwa [Nat.add_sub_cancel' atLeast, Nat.min_eq_left ordered] at cut
    rwa [split] at joined
  · refine List.pairwise_append.mpr ⟨ascending, tail.ascending, ?_⟩
    intro earlier early later late
    exact Nat.lt_of_le_of_lt (below earlier early) (tail.above later late)

end Narsil.Durability
