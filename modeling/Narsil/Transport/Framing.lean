import Narsil.Durability.FrameFormat
import Narsil.Serialization.Decoded

/-!
# Frames on a connection

A frame is the length of its envelope, in four bytes, and the envelope. The parser is
fed the bytes of a connection as they come, holds the part of a frame that has no end
yet, and hands on each frame that is whole.

**Strategy:** what the parser holds is the front part of the frame that the stream is in.
One chunk adds to it and completes the frames that end in the chunk; the rest is an
induction on the chunks. The bytes held are checked before the frames are taken out, so
what a chunk may add depends on where in a frame it begins.
-/
namespace Narsil.Transport

open Durability (setUint32 getUint32 getUint32_setUint32 setUint32_length)

def maxMessageSizeBytes : Nat := 67108864
def lengthPrefixBytes : Nat := 4
def bufferLimit : Nat := maxMessageSizeBytes + lengthPrefixBytes

structure WireFrame where
  frameType : Serialization.Number
  requestId : String
  data : Bytes
  deriving DecidableEq, Repr

/-- The MessagePack package on the map of a frame's three fields; an error has its message. -/
structure FrameCodec where
  encode : WireFrame → Bytes
  decode : Bytes → Except String WireFrame

inductive TransportErrorCode where
  | messageTooLarge
  | decodeFailed
  deriving DecidableEq, Repr

structure TransportError where
  code : TransportErrorCode
  message : String
  deriving DecidableEq, Repr

variable (codec : FrameCodec)

def encodeFrame (frame : WireFrame) : Except TransportError Bytes :=
  let envelope := codec.encode frame
  let totalLength := envelope.length
  if totalLength > maxMessageSizeBytes then
    .error ⟨.messageTooLarge,
      s!"Encoded frame ({totalLength} bytes) exceeds the {maxMessageSizeBytes} byte limit"⟩
  else .ok (setUint32 totalLength ++ envelope)

structure FrameParser where
  chunks : List Bytes
  totalLength : Nat
  deriving DecidableEq, Repr

namespace FrameParser

def create : FrameParser := ⟨[], 0⟩

def compact (parser : FrameParser) : Bytes := parser.chunks.flatten

/-- The frames a buffer begins with, and what is left of it or the error that ended the loop. -/
def readFrames (buffer : Bytes) : List WireFrame × Except TransportError Bytes :=
  if buffer.length < lengthPrefixBytes then ([], .ok buffer)
  else
    let frameLength := getUint32 buffer 0
    if frameLength > maxMessageSizeBytes then
      ([], .error ⟨.messageTooLarge,
        s!"Incoming frame ({frameLength} bytes) exceeds the {maxMessageSizeBytes} byte limit"⟩)
    else
      let totalNeeded := lengthPrefixBytes + frameLength
      if buffer.length < totalNeeded then ([], .ok buffer)
      else
        match codec.decode ((buffer.take totalNeeded).drop lengthPrefixBytes) with
        | .error cause => ([], .error ⟨.decodeFailed, s!"Failed to decode frame: {cause}"⟩)
        | .ok frame =>
          let (frames, left) := readFrames (buffer.drop totalNeeded)
          (frame :: frames, left)
termination_by buffer.length
decreasing_by
  rw [List.length_drop]
  simp only [lengthPrefixBytes] at *
  omega

/-- The frames emitted, the parser afterwards and the error thrown, if any. -/
def feed (parser : FrameParser) (data : Bytes) : List WireFrame × FrameParser × Option TransportError :=
  let totalLength := parser.totalLength + data.length
  if totalLength > bufferLimit then
    ([], create, some ⟨.messageTooLarge,
      s!"Accumulated buffer ({totalLength} bytes) exceeds the allowed limit"⟩)
  else
    match readFrames codec { chunks := parser.chunks ++ [data], totalLength : FrameParser }.compact with
    | (frames, .error error) => (frames, create, some error)
    | (frames, .ok buffer) =>
      (frames, ⟨if buffer.length > 0 then [buffer] else [], buffer.length⟩, none)

/-- Chunks fed in order; the first one that throws ends the connection. -/
def feedAll (parser : FrameParser) : List Bytes → List WireFrame × FrameParser × Option TransportError
  | [] => ([], parser, none)
  | chunk :: later =>
    match parser.feed codec chunk with
    | (frames, fed, some error) => (frames, fed, some error)
    | (frames, fed, none) =>
      let (more, last, error) := fed.feedAll later
      (frames ++ more, last, error)

end FrameParser

/-- The bytes of a frame on the wire. -/
def frameBytes (frame : WireFrame) : Bytes :=
  setUint32 (codec.encode frame).length ++ codec.encode frame

/-- The bytes of frames, one after the other. -/
def streamOf (frames : List WireFrame) : Bytes := frames.flatMap (frameBytes codec)

/-- A frame that the sender may send and that the package reads back. -/
structure Sendable (frame : WireFrame) : Prop where
  fits : (codec.encode frame).length ≤ maxMessageSizeBytes
  roundTrip : codec.decode (codec.encode frame) = .ok frame

/-- How many bytes of a frame without an end there are among the first `read` of a stream. -/
def heldOf : List Nat → Nat → Nat
  | [], read => read
  | size :: later, read => if read < size then read else heldOf later (read - size)

def sizesOf (frames : List WireFrame) : List Nat := frames.map fun frame => (frameBytes codec frame).length

/-- Each chunk, with what is held of the frame it begins in, is within the limit. -/
def ChunksFit (frames : List WireFrame) (chunks : List Bytes) : Prop :=
  ∀ before chunk after, chunks = before ++ chunk :: after →
    heldOf (sizesOf codec frames) before.flatten.length + chunk.length ≤ bufferLimit

variable {codec}

theorem heldOf_le (sizes : List Nat) (read : Nat) : heldOf sizes read ≤ read := by
  induction sizes generalizing read with
  | nil => exact Nat.le_refl _
  | cons size later ih =>
    rw [heldOf]
    split
    · exact Nat.le_refl _
    · exact Nat.le_trans (ih _) (Nat.sub_le _ _)

theorem encodeFrame_ok {frame : WireFrame} (fits : (codec.encode frame).length ≤ maxMessageSizeBytes) :
    encodeFrame codec frame = .ok (frameBytes codec frame) := by
  simp only [encodeFrame]
  rw [if_neg (Nat.not_lt.mpr fits), frameBytes]

theorem encodeFrame_eq_ok {frame : WireFrame} {bytes : Bytes} (built : encodeFrame codec frame = .ok bytes) :
    (codec.encode frame).length ≤ maxMessageSizeBytes ∧ bytes = frameBytes codec frame := by
  simp only [encodeFrame] at built
  split at built
  · cases built
  next fits =>
    cases built
    exact ⟨Nat.not_lt.mp fits, rfl⟩

theorem built_stream {frames : List WireFrame} {wires : List Bytes}
    (built : frames.mapM (encodeFrame codec) = .ok wires) :
    (∀ frame ∈ frames, (codec.encode frame).length ≤ maxMessageSizeBytes) ∧
      wires.flatten = streamOf codec frames := by
  induction frames generalizing wires with
  | nil =>
    cases built
    exact ⟨by simp, rfl⟩
  | cons frame frames ih =>
    rw [List.mapM_cons] at built
    cases first : encodeFrame codec frame with
    | error error =>
      rw [first] at built
      cases built
    | ok bytes =>
      rw [first] at built
      cases others : frames.mapM (encodeFrame codec) with
      | error error =>
        rw [others] at built
        cases built
      | ok later =>
        rw [others] at built
        cases built
        obtain ⟨fits, rfl⟩ := encodeFrame_eq_ok first
        obtain ⟨all_fit, stream⟩ := ih others
        constructor
        · exact List.forall_mem_cons.mpr ⟨fits, all_fit⟩
        · rw [List.flatten_cons, stream, streamOf, streamOf, List.flatMap_cons]

theorem frameBytes_length (frame : WireFrame) :
    (frameBytes codec frame).length = lengthPrefixBytes + (codec.encode frame).length := by
  rw [frameBytes, List.length_append, setUint32_length, lengthPrefixBytes]

theorem getUint32_frameBytes {frame : WireFrame} (sendable : Sendable codec frame) (rest : Bytes) :
    getUint32 (frameBytes codec frame ++ rest) 0 = (codec.encode frame).length := by
  have small : (codec.encode frame).length < 2 ^ 32 := by
    have := sendable.fits
    simp only [maxMessageSizeBytes] at this
    omega
  have read := getUint32_setUint32 [] (codec.encode frame ++ rest) (codec.encode frame).length small
  rw [frameBytes, List.append_assoc]
  exact read

theorem getUint32_take {data : Bytes} {most : Nat} (enough : 4 ≤ most) :
    getUint32 (data.take most) 0 = getUint32 data 0 := by
  simp only [getUint32, List.drop_zero, List.take_take]
  rw [Nat.min_eq_left enough]

namespace FrameParser

theorem readFrames_part {frame : WireFrame} (sendable : Sendable codec frame) {buffer : Bytes}
    (part : buffer <+: frameBytes codec frame) (short : buffer.length < (frameBytes codec frame).length) :
    readFrames codec buffer = ([], .ok buffer) := by
  rw [readFrames]
  split
  · rfl
  next enough =>
    rw [Nat.not_lt, lengthPrefixBytes] at enough
    have read : getUint32 buffer 0 = (codec.encode frame).length := by
      rw [List.prefix_iff_eq_take.mp part, getUint32_take enough]
      simpa using getUint32_frameBytes sendable []
    rw [frameBytes_length] at short
    simp only [read]
    rw [if_neg (Nat.not_lt.mpr sendable.fits), if_pos short]

theorem readFrames_whole {frame : WireFrame} (sendable : Sendable codec frame) (rest : Bytes) :
    readFrames codec (frameBytes codec frame ++ rest) =
      (frame :: (readFrames codec rest).1, (readFrames codec rest).2) := by
  have size := @frameBytes_length codec frame
  have read := getUint32_frameBytes sendable rest
  rw [readFrames]
  simp only [read, List.length_append, ← size]
  rw [if_neg (by simp only [lengthPrefixBytes] at size ⊢; omega), if_neg (Nat.not_lt.mpr sendable.fits),
    if_neg (by omega), List.take_left, List.drop_left]
  have envelope : (frameBytes codec frame).drop lengthPrefixBytes = codec.encode frame :=
    List.drop_left' (setUint32_length _)
  rw [envelope, sendable.roundTrip]

/-- The loop over a front part of a stream: the frames that end in it come out, and what is
held of the next one stays. -/
theorem readFrames_stream {frames : List WireFrame} (sendable : ∀ frame ∈ frames, Sendable codec frame)
    {buffer tail : Bytes} (split : buffer ++ tail = streamOf codec frames) :
    ∃ done rest held, frames = done ++ rest ∧ readFrames codec buffer = (done, .ok held) ∧
      held ++ tail = streamOf codec rest ∧ heldOf (sizesOf codec rest) held.length = held.length ∧
      ∀ more, heldOf (sizesOf codec frames) (buffer.length + more) =
        heldOf (sizesOf codec rest) (held.length + more) := by
  induction frames generalizing buffer with
  | nil =>
    obtain ⟨rfl, rfl⟩ := List.append_eq_nil_iff.mp split
    refine ⟨[], [], [], rfl, ?_, rfl, rfl, fun _ => rfl⟩
    rw [readFrames, if_pos (by simp [lengthPrefixBytes])]
  | cons frame frames ih =>
    have first := sendable frame List.mem_cons_self
    rw [streamOf, List.flatMap_cons] at split
    rcases Nat.lt_or_ge buffer.length (frameBytes codec frame).length with short | whole
    · have part : buffer <+: frameBytes codec frame :=
        List.prefix_of_prefix_length_le ⟨tail, split⟩ (List.prefix_append _ _) (Nat.le_of_lt short)
      exact ⟨[], frame :: frames, buffer, rfl, readFrames_part first part short, split, if_pos short, fun _ => rfl⟩
    · obtain ⟨buffer, rfl⟩ : frameBytes codec frame <+: buffer :=
        List.prefix_of_prefix_length_le (List.prefix_append _ _) ⟨tail, split⟩ whole
      rw [List.append_assoc] at split
      obtain ⟨done, rest, held, rfl, reads, behind, inside, same⟩ :=
        ih (fun other member => sendable other (List.mem_cons_of_mem _ member)) (List.append_cancel_left split)
      refine ⟨frame :: done, rest, held, rfl, ?_, behind, inside, ?_⟩
      · rw [readFrames_whole first, reads]
      · intro more
        rw [← same more, sizesOf, List.map_cons, heldOf, List.length_append, if_neg (by omega)]
        congr 1
        omega

/-- The parser that holds these bytes. -/
def holding (held : Bytes) : FrameParser := ⟨if held.length > 0 then [held] else [], held.length⟩

theorem compact_holding (held data : Bytes) :
    compact { chunks := (holding held).chunks ++ [data], totalLength := (holding held).totalLength + data.length } =
      held ++ data := by
  cases held with
  | nil => simp [compact, holding]
  | cons byte held => simp [compact, holding]

theorem feed_chunk {frames : List WireFrame} (sendable : ∀ frame ∈ frames, Sendable codec frame)
    {held chunk tail : Bytes} (split : held ++ chunk ++ tail = streamOf codec frames) :
    (held.length + chunk.length ≤ bufferLimit →
      ∃ done rest held', frames = done ++ rest ∧
        (holding held).feed codec chunk = (done, holding held', none) ∧
        held' ++ tail = streamOf codec rest ∧ heldOf (sizesOf codec rest) held'.length = held'.length ∧
        ∀ more, heldOf (sizesOf codec frames) (held.length + chunk.length + more) =
          heldOf (sizesOf codec rest) (held'.length + more)) ∧
    (bufferLimit < held.length + chunk.length →
      ∃ error, (holding held).feed codec chunk = ([], create, some error)) := by
  constructor
  · intro within
    obtain ⟨done, rest, held', parts, reads, behind, inside, same⟩ := readFrames_stream sendable split
    refine ⟨done, rest, held', parts, ?_, behind, inside, ?_⟩
    · simp only [feed]
      rw [if_neg (by simp only [holding]; omega), compact_holding, reads]
      rfl
    · intro more
      rw [← same more, List.length_append]
  · intro beyond
    simp only [feed]
    rw [if_pos (by simp only [holding]; omega)]
    exact ⟨_, rfl⟩

theorem ended {frames : List WireFrame} {held : Bytes} (all : held = streamOf codec frames)
    (inside : heldOf (sizesOf codec frames) held.length = held.length) : frames = [] := by
  cases frames with
  | nil => rfl
  | cons frame frames =>
    have some_bytes := @frameBytes_length codec frame
    have within : heldOf (sizesOf codec (frame :: frames)) held.length <
        (frameBytes codec frame).length + (streamOf codec frames).length := by
      rw [all, streamOf, List.flatMap_cons, sizesOf, List.map_cons, heldOf, List.length_append, if_neg (by omega)]
      have := heldOf_le (frames.map fun frame => (frameBytes codec frame).length)
        ((frameBytes codec frame).length + (frames.flatMap (frameBytes codec)).length - (frameBytes codec frame).length)
      simp only [lengthPrefixBytes] at some_bytes
      rw [streamOf]
      omega
    rw [inside, all, streamOf, List.flatMap_cons, List.length_append] at within
    exact absurd within (Nat.lt_irrefl _)

theorem feedAll_iff {frames : List WireFrame} (sendable : ∀ frame ∈ frames, Sendable codec frame)
    {held : Bytes} {chunks : List Bytes} (split : held ++ chunks.flatten = streamOf codec frames)
    (inside : heldOf (sizesOf codec frames) held.length = held.length) :
    (holding held).feedAll codec chunks = (frames, create, none) ↔
      ∀ before chunk after, chunks = before ++ chunk :: after →
        heldOf (sizesOf codec frames) (held.length + before.flatten.length) + chunk.length ≤ bufferLimit := by
  induction chunks generalizing frames held with
  | nil =>
    simp only [List.flatten_nil, List.append_nil] at split
    obtain rfl := ended split inside
    obtain rfl : held = [] := split
    simp [feedAll, holding, create]
  | cons chunk later ih =>
    rw [List.flatten_cons, ← List.append_assoc] at split
    obtain ⟨fits, throws⟩ := feed_chunk sendable split
    rcases Nat.lt_or_ge bufferLimit (held.length + chunk.length) with beyond | within
    · -- the first chunk already goes past the limit
      obtain ⟨error, thrown⟩ := throws beyond
      rw [feedAll, thrown]
      constructor
      · intro absurd_ok
        cases absurd_ok
      · intro all
        have first := all [] chunk later rfl
        rw [List.flatten_nil, List.length_nil, Nat.add_zero, inside] at first
        omega
    · obtain ⟨done, rest, held', rfl, fed, behind, inside', same⟩ := fits within
      have rest_iff := ih (fun frame member => sendable frame (List.mem_append_right _ member)) behind inside'
      have front : (holding held).feedAll codec (chunk :: later) = (done ++ rest, create, none) ↔
          (holding held').feedAll codec later = (rest, create, none) := by
        rw [feedAll, fed]
        simp only
        generalize (holding held').feedAll codec later = outcome
        obtain ⟨more, last, error⟩ := outcome
        simp
      rw [front, rest_iff]
      constructor
      · intro all before own after cut
        cases before with
        | nil =>
          obtain ⟨rfl, rfl⟩ := List.cons.inj cut
          rw [List.flatten_nil, List.length_nil, Nat.add_zero, inside]
          exact within
        | cons first before =>
          obtain ⟨rfl, rest_cut⟩ := List.cons.inj cut
          rw [List.flatten_cons, List.length_append, ← Nat.add_assoc, same]
          exact all before own after rest_cut
      · intro all before own after cut
        have shifted := all (chunk :: before) own after (by rw [cut]; rfl)
        rw [List.flatten_cons, List.length_append, ← Nat.add_assoc, same] at shifted
        exact shifted

end FrameParser

open FrameParser

/-- Frames built by the sender come out whole, in order and without an error, and leave no
bytes held, exactly where no chunk, with what is held of the frame it begins in, goes past
the limit. -/
theorem frames_received_iff (codec : FrameCodec) (frames : List WireFrame) (wires chunks : List Bytes)
    (roundTrip : ∀ frame ∈ frames, codec.decode (codec.encode frame) = .ok frame)
    (built : frames.mapM (encodeFrame codec) = .ok wires) (cut : chunks.flatten = wires.flatten) :
    FrameParser.create.feedAll codec chunks = (frames, FrameParser.create, none) ↔
      ChunksFit codec frames chunks := by
  obtain ⟨fits, stream⟩ := built_stream built
  have sendable : ∀ frame ∈ frames, Sendable codec frame :=
    fun frame member => ⟨fits frame member, roundTrip frame member⟩
  have nothing_held : heldOf (sizesOf codec frames) ([] : Bytes).length = ([] : Bytes).length :=
    Nat.le_zero.mp (heldOf_le _ _)
  have all := @feedAll_iff codec frames sendable [] chunks (by rw [List.nil_append, cut, stream]) nothing_held
  simp only [List.length_nil, Nat.zero_add] at all
  exact all

/-- MessagePack of the map of a frame, for a small type and a short request id. -/
private def packedKeys (frame : WireFrame) : Bytes :=
  let frameType : Nat := match frame.frameType with
    | .integer value => value.toNat
    | .other => 0
  [0x83, 0xa9, 0x66, 0x72, 0x61, 0x6d, 0x65, 0x54, 0x79, 0x70, 0x65, frameType.toUInt8,
    0xa9, 0x72, 0x65, 0x71, 0x75, 0x65, 0x73, 0x74, 0x49, 0x64, (0xa0 + frame.requestId.length).toUInt8] ++
    frame.requestId.toList.map (fun c => c.toNat.toUInt8) ++ [0xa4, 0x64, 0x61, 0x74, 0x61]

/-- The data goes under a header with a length of one byte or of four. -/
private def packedCodec : FrameCodec where
  encode frame :=
    if frame.data.length < 256 then packedKeys frame ++ [0xc4, frame.data.length.toUInt8] ++ frame.data
    else packedKeys frame ++ (0xc6 :: setUint32 frame.data.length) ++ frame.data
  decode bytes :=
    let id := bytes.drop 23 |>.take ((bytes.getD 22 0).toNat - 0xa0)
    let binary := bytes.drop (28 + id.length)
    let data := match binary with
      | 0xc4 :: _ :: data => data
      | 0xc6 :: _ :: _ :: _ :: _ :: data => data
      | _ => []
    if bytes.length < 28 then .error "Insufficient data"
    else .ok ⟨.integer (bytes.getD 11 0).toNat, String.ofList (id.map fun byte => Char.ofNat byte.toNat), data⟩

private def packedFrame (data : Bytes) : WireFrame := ⟨.integer 1, "r1", data⟩

private theorem packedKeys_packedFrame (data : Bytes) : packedKeys (packedFrame data) =
    [0x83, 0xa9, 0x66, 0x72, 0x61, 0x6d, 0x65, 0x54, 0x79, 0x70, 0x65, 1, 0xa9, 0x72, 0x65, 0x71, 0x75,
      0x65, 0x73, 0x74, 0x49, 0x64, 0xa2, 0x72, 0x31, 0xa4, 0x64, 0x61, 0x74, 0x61] := by
  have chars : "r1".toList = ['r', '1'] := by decide
  have size : "r1".length = 2 := by decide
  simp only [packedKeys, packedFrame, chars, size]
  rfl

private theorem packed_roundTrip (data : Bytes) :
    packedCodec.decode (packedCodec.encode (packedFrame data)) = .ok (packedFrame data) := by
  have id : String.ofList ['r', '1'] = "r1" := rfl
  have letters : [Char.ofNat 114, Char.ofNat 49] = ['r', '1'] := rfl
  simp only [packedCodec, packedKeys_packedFrame]
  split
  · simp [packedFrame, ← id, ← letters]
  · simp [packedFrame, setUint32, ← id, ← letters]

private theorem packed_length (data : Bytes) (large : 256 ≤ data.length) :
    (packedCodec.encode (packedFrame data)).length = 35 + data.length := by
  have own : (packedFrame data).data = data := rfl
  simp only [packedCodec, packedKeys_packedFrame, own]
  rw [if_neg (Nat.not_lt.mpr large)]
  simp only [List.length_append, List.length_cons, List.length_nil, setUint32_length]

theorem frames_received_iff_small :
    FrameParser.create.feedAll packedCodec
        ((frameBytes packedCodec (packedFrame [7, 8]) ++
          frameBytes packedCodec (packedFrame [])).map fun byte => [byte]) =
      ([packedFrame [7, 8], packedFrame []], FrameParser.create, none) := by
  refine (frames_received_iff packedCodec [packedFrame [7, 8], packedFrame []]
    [frameBytes packedCodec (packedFrame [7, 8]), frameBytes packedCodec (packedFrame [])] _ ?_ ?_ ?_).mpr ?_
  · simp [packed_roundTrip]
  · rfl
  · decide
  · intro before chunk after cut
    have bytes : chunk ∈ ((frameBytes packedCodec (packedFrame [7, 8])) ++
        frameBytes packedCodec (packedFrame [])).map fun byte => [byte] := by
      rw [cut]
      exact List.mem_append_right _ List.mem_cons_self
    obtain ⟨byte, -, rfl⟩ := List.mem_map.mp bytes
    have all := congrArg (fun chunks : List Bytes => chunks.flatten.length) cut
    have size : (((frameBytes packedCodec (packedFrame [7, 8])) ++
        frameBytes packedCodec (packedFrame [])).map fun byte => [byte]).flatten.length = 74 := by decide
    simp only [size, List.flatten_append, List.length_append] at all
    have held := heldOf_le (sizesOf packedCodec [packedFrame [7, 8], packedFrame []]) before.flatten.length
    simp only [List.length_cons, List.length_nil, bufferLimit, maxMessageSizeBytes, lengthPrefixBytes]
    omega

/-- All of the first frame but its last byte, one byte at a time, then 65536 bytes at once. -/
private def cutBehind (stream : Bytes) : List Bytes :=
  (stream.take 67108867).map (fun byte => [byte]) ++
    [(stream.drop 67108867).take 65536, (stream.drop 67108867).drop 65536]

private theorem cutBehind_flatten (stream : Bytes) : (cutBehind stream).flatten = stream := by
  simp only [cutBehind, List.flatten_append, List.flatten_cons, List.flatten_nil, List.append_nil,
    List.take_append_drop, ← List.flatMap_def, List.flatMap_singleton']

private theorem cutBehind_sizes {stream : Bytes} (size : stream.length = 67108868 + 100039) :
    ∀ chunk ∈ cutBehind stream, 0 < chunk.length ∧ chunk.length ≤ 65536 := by
  intro chunk member
  rcases List.mem_append.mp member with single | pieces
  · obtain ⟨byte, -, rfl⟩ := List.mem_map.mp single
    exact ⟨Nat.one_pos, by simp⟩
  · rcases List.mem_cons.mp pieces with rfl | pieces
    · rw [List.length_take, List.length_drop, size]
      omega
    · rw [List.mem_singleton.mp pieces, List.length_drop, List.length_drop, size]
      omega

/-- A frame as large as the sender may send, one behind it, and the chunk that ends the one
and begins the other. -/
private theorem refused_behind_largest {first second : Bytes} (large : first.length = 67108829)
    (later : second.length = 100000) :
    ∃ wires, [packedFrame first, packedFrame second].mapM (encodeFrame packedCodec) = .ok wires ∧
      (cutBehind wires.flatten).flatten = wires.flatten ∧
      (∀ chunk ∈ cutBehind wires.flatten, 0 < chunk.length ∧ chunk.length ≤ 65536) ∧
      FrameParser.create.feedAll packedCodec (cutBehind wires.flatten) ≠
        ([packedFrame first, packedFrame second], FrameParser.create, none) := by
  have largest : (packedCodec.encode (packedFrame first)).length = 67108864 := by
    rw [packed_length _ (by omega), large]
  have behind : (packedCodec.encode (packedFrame second)).length = 100035 := by
    rw [packed_length _ (by omega), later]
  have built : [packedFrame first, packedFrame second].mapM (encodeFrame packedCodec) =
      .ok [frameBytes packedCodec (packedFrame first), frameBytes packedCodec (packedFrame second)] := by
    have one := @encodeFrame_ok packedCodec (packedFrame first) (Nat.le_of_eq largest)
    have two := @encodeFrame_ok packedCodec (packedFrame second) (by rw [behind, maxMessageSizeBytes]; omega)
    rw [List.mapM_cons, List.mapM_cons, one, two]
    rfl
  obtain ⟨fits, same⟩ := built_stream built
  have sendable : ∀ frame ∈ [packedFrame first, packedFrame second], Sendable packedCodec frame := by
    intro frame member
    refine ⟨fits frame member, ?_⟩
    rcases List.mem_cons.mp member with rfl | member
    · exact packed_roundTrip first
    · rw [List.mem_singleton.mp member]
      exact packed_roundTrip second
  have size : [frameBytes packedCodec (packedFrame first),
      frameBytes packedCodec (packedFrame second)].flatten.length = 67108868 + 100039 := by
    rw [List.flatten_cons, List.flatten_cons, List.flatten_nil, List.append_nil, List.length_append,
      frameBytes_length, frameBytes_length, largest, behind, lengthPrefixBytes]
  refine ⟨_, built, cutBehind_flatten _, cutBehind_sizes size, ?_⟩
  generalize [frameBytes packedCodec (packedFrame first), frameBytes packedCodec (packedFrame second)].flatten =
    stream at same size
  intro received
  have all := (@feedAll_iff packedCodec _ sendable [] (cutBehind stream)
    (by rw [List.nil_append, cutBehind_flatten, same]) (Nat.le_zero.mp (heldOf_le _ _))).mp received
  have straddling := all ((stream.take 67108867).map fun byte => [byte]) ((stream.drop 67108867).take 65536)
    [(stream.drop 67108867).drop 65536] rfl
  rw [← List.flatMap_def, List.flatMap_singleton', List.length_nil, Nat.zero_add, List.length_take,
    List.length_take, List.length_drop, size, sizesOf, List.map_cons, heldOf, frameBytes_length,
    largest] at straddling
  have inside : min 67108867 (67108868 + 100039) < lengthPrefixBytes + 67108864 := by decide
  rw [if_pos inside] at straddling
  simp only [bufferLimit, maxMessageSizeBytes, lengthPrefixBytes] at straddling
  omega

theorem frames_refused_at_limit :
    ∃ wires, [packedFrame (List.replicate 67108829 0), packedFrame (List.replicate 100000 0)].mapM
        (encodeFrame packedCodec) = .ok wires ∧
      (cutBehind wires.flatten).flatten = wires.flatten ∧
      (∀ chunk ∈ cutBehind wires.flatten, 0 < chunk.length ∧ chunk.length ≤ 65536) ∧
      FrameParser.create.feedAll packedCodec (cutBehind wires.flatten) ≠
        ([packedFrame (List.replicate 67108829 0), packedFrame (List.replicate 100000 0)],
          FrameParser.create, none) :=
  refused_behind_largest List.length_replicate List.length_replicate

end Narsil.Transport
