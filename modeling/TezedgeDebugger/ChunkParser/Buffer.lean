import TezedgeDebugger.Bytes

/-!
# Chunk buffer

`buffer.rs` of the recorder's chunk parser is not in the source tree: `state.rs` reaches it only
through `handle_data`, `have_chunk`, `next`, `remaining` and `cleanup`. This module models it from
the spec (§3, §4.A): an ordered byte accumulator and a chunk counter. A chunk is a 2-byte big-endian
length `L` followed by `L` bytes, so it is never shorter than two bytes.

The spec's third field (bytes left until the next boundary) only caches what `data` determines and
is not kept. The counter is the spec's unbounded counter; a `u64` wrap after 2^64 chunks is not
modelled.

The facts the state machine needs: a buffered first chunk survives any append
(`firstChunk_append`), `next` removes exactly the chunk `have_chunk` shows (`next_of_haveChunk`),
and `splitFrames` cuts a whole stream into its complete frames and the incomplete tail, one frame
at a time (`splitFrames_frame_append`).
-/

namespace TezedgeDebugger.ChunkParser

/-- Big-endian `u16` of the two length bytes. -/
def chunkLength (hi lo : UInt8) : Nat := hi.toNat * 256 + lo.toNat

/-- The complete first chunk of a byte sequence, length prefix included, once all of it is there. -/
def firstChunk : Bytes → Option Bytes
  | hi :: lo :: body =>
    if chunkLength hi lo ≤ body.length then some (hi :: lo :: body.take (chunkLength hi lo))
    else none
  | _ => none

theorem chunkLength_lt (hi lo : UInt8) : chunkLength hi lo < 65536 := by
  have := UInt8.toNat_lt_size hi
  have := UInt8.toNat_lt_size lo
  simp only [chunkLength, UInt8.size] at *
  omega

/-- A chunk at the front is a prefix of what is buffered, and at least its two length bytes. -/
theorem firstChunk_append_drop {data chunk : Bytes} (found : firstChunk data = some chunk) :
    chunk ++ data.drop chunk.length = data ∧ 2 ≤ chunk.length := by
  match data, found with
  | hi :: lo :: body, found =>
    simp only [firstChunk] at found
    split at found
    · rename_i fits
      cases found
      simp [Nat.min_eq_left fits]
    · cases found

theorem firstChunk_append {data chunk : Bytes} (found : firstChunk data = some chunk)
    (more : Bytes) : firstChunk (data ++ more) = some chunk := by
  match data, found with
  | hi :: lo :: body, found =>
    simp only [firstChunk] at found ⊢
    split at found
    · rename_i fits
      cases found
      simp [Nat.le_trans fits (Nat.le_add_right _ _), List.take_append_of_le_length fits]
    · cases found

theorem ne_nil_of_firstChunk {data chunk : Bytes} (found : firstChunk data = some chunk) : data ≠ [] := by
  rintro rfl
  cases found

/-- A frame read off the front is itself exactly one frame. -/
theorem firstChunk_self {data chunk : Bytes} (found : firstChunk data = some chunk) :
    firstChunk chunk = some chunk := by
  match data, found with
  | hi :: lo :: body, found =>
    simp only [firstChunk] at found
    split at found
    · rename_i fits
      cases found
      simp [firstChunk, fits]
    · cases found

/-- Without a complete first chunk at most 65,536 bytes are buffered. -/
theorem length_le_of_firstChunk_none {data : Bytes} (missing : firstChunk data = none) :
    data.length ≤ 65536 := by
  match data, missing with
  | [], _ => simp
  | [_], _ => simp
  | hi :: lo :: body, missing =>
    simp only [firstChunk] at missing
    split at missing
    · cases missing
    · have := chunkLength_lt hi lo
      simp only [List.length_cons]
      omega

/-- Modelled from the spec: `Buffer` of `buffer.rs`, which is not in the source tree. -/
structure Buffer where
  data : Bytes
  counter : Nat
  deriving DecidableEq, Repr

namespace Buffer

/-- Modelled from the spec: `Buffer::default()`, nothing buffered and the counter at zero. -/
def empty : Buffer := ⟨[], 0⟩

/-- Modelled from the spec: `handle_data` appends the payload. -/
def handleData (buffer : Buffer) (payload : Bytes) : Buffer :=
  { buffer with data := buffer.data ++ payload }

/-- Modelled from the spec: `have_chunk` shows the complete first chunk without removing it. -/
def haveChunk (buffer : Buffer) : Option Bytes := firstChunk buffer.data

/-- The buffer once its first chunk is taken out and numbered. -/
def afterChunk (buffer : Buffer) (chunk : Bytes) : Buffer :=
  ⟨buffer.data.drop chunk.length, buffer.counter + 1⟩

/-- Modelled from the spec: `next` removes the complete first chunk and numbers it. -/
def next (buffer : Buffer) : Option (Nat × Bytes) × Buffer :=
  match firstChunk buffer.data with
  | some chunk => (some (buffer.counter, chunk), buffer.afterChunk chunk)
  | none => (none, buffer)

/-- Modelled from the spec: `remaining` counts the buffered bytes. -/
def remaining (buffer : Buffer) : Nat := buffer.data.length

/-- Modelled from the spec: `cleanup` flushes everything buffered as one numbered chunk; on an empty
buffer it emits nothing and keeps the counter (§8, §9). -/
def cleanup (buffer : Buffer) : Option (Nat × Bytes) × Buffer :=
  if buffer.data.isEmpty then (none, buffer)
  else (some (buffer.counter, buffer.data), ⟨[], buffer.counter + 1⟩)

@[simp] theorem handleData_data (buffer : Buffer) (payload : Bytes) :
    (buffer.handleData payload).data = buffer.data ++ payload := rfl

@[simp] theorem handleData_counter (buffer : Buffer) (payload : Bytes) :
    (buffer.handleData payload).counter = buffer.counter := rfl

theorem haveChunk_handleData {buffer : Buffer} {chunk : Bytes} (found : buffer.haveChunk = some chunk)
    (payload : Bytes) : (buffer.handleData payload).haveChunk = some chunk :=
  firstChunk_append found payload

/-- `next` takes out exactly the chunk `have_chunk` shows, under the current counter. -/
theorem next_of_haveChunk {buffer : Buffer} {chunk : Bytes} (found : buffer.haveChunk = some chunk) :
    buffer.next = (some (buffer.counter, chunk), buffer.afterChunk chunk) := by
  simp only [next, show firstChunk buffer.data = some chunk from found]

theorem next_of_haveChunk_none {buffer : Buffer} (missing : buffer.haveChunk = none) :
    buffer.next = (none, buffer) := by
  simp only [next, show firstChunk buffer.data = none from missing]

theorem cleanup_of_nil {buffer : Buffer} (empty : buffer.data = []) : buffer.cleanup = (none, buffer) := by
  simp [cleanup, empty]

theorem cleanup_of_ne_nil {buffer : Buffer} (filled : buffer.data ≠ []) :
    buffer.cleanup = (some (buffer.counter, buffer.data), ⟨[], buffer.counter + 1⟩) := by
  simp [cleanup, filled]

end Buffer

/-- The complete frames at the front of a stream, in order, and the bytes after the last of them:
the spec's reading of a captured byte stream, not part of the recorder. -/
def splitFrames (data : Bytes) : List Bytes × Bytes :=
  match _found : firstChunk data with
  | some chunk => ((chunk :: (splitFrames (data.drop chunk.length)).1), (splitFrames (data.drop chunk.length)).2)
  | none => ([], data)
termination_by data.length
decreasing_by
  have := firstChunk_append_drop _found
  have : 0 < data.length := by
    have length := congrArg List.length this.1
    simp only [List.length_append] at length
    omega
  simp only [List.length_drop]
  omega

/-- The frames and the bytes after them make up the stream. -/
theorem splitFrames_flatten (data : Bytes) : (splitFrames data).1.flatten ++ (splitFrames data).2 = data := by
  induction data using splitFrames.induct with
  | case1 data chunk found ih =>
    rw [splitFrames]
    split
    · rename_i chunk' found'
      rw [found] at found'
      cases found'
      simp only [List.flatten_cons, List.append_assoc, ih]
      exact (firstChunk_append_drop found).1
    · rename_i missing
      rw [found] at missing
      cases missing
  | case2 data missing =>
    rw [splitFrames]
    split
    · rename_i chunk found
      rw [missing] at found
      cases found
    · rfl

theorem splitFrames_of_firstChunk_none {data : Bytes} (missing : firstChunk data = none) :
    splitFrames data = ([], data) := by
  rw [splitFrames]
  split <;> simp_all

/-- Peeling one frame off the front of a stream. -/
theorem splitFrames_frame_append {frame : Bytes} (isFrame : firstChunk frame = some frame)
    (rest : Bytes) :
    splitFrames (frame ++ rest) = (frame :: (splitFrames rest).1, (splitFrames rest).2) := by
  rw [splitFrames]
  split
  · rename_i chunk found
    rw [firstChunk_append isFrame rest] at found
    cases found
    simp [List.drop_left]
  · rename_i missing
    rw [firstChunk_append isFrame rest] at missing
    cases missing

theorem splitFrames_frames_append (frames : List Bytes)
    (allFrames : ∀ frame ∈ frames, firstChunk frame = some frame) (rest : Bytes) :
    splitFrames (frames.flatten ++ rest) = (frames ++ (splitFrames rest).1, (splitFrames rest).2) := by
  induction frames with
  | nil => simp
  | cons frame frames ih =>
    rw [List.flatten_cons, List.append_assoc,
      splitFrames_frame_append (allFrames frame (List.mem_cons_self _ _)),
      ih (fun f member => allFrames f (List.mem_cons_of_mem _ member))]
    simp

end TezedgeDebugger.ChunkParser
