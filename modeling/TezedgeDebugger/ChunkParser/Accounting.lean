import TezedgeDebugger.ChunkParser.Records
import TezedgeDebugger.ChunkParser.Session

/-!
# What a direction emits: counters and bytes

`Buffer` numbers what it hands out, a frame taken by `next` or the rest flushed by `cleanup`, from
0 on. A direction emits every numbered chunk but one: the frame `HaveData::next` takes out and fails
to decrypt, whose counter becomes the error of `HaveData` and, through `over()`, the cannot-decrypt
comment of the direction's record (`decrypt_failure_skips_counter` is a run where it shows).
`Half.Numbered` says exactly this of the counters emitted so far, and every call keeps it
(`Half.step_numbered`), so every run from `Initial::new` does (`Half.run_new_numbered`).

The raw bytes of the chunks, followed by what the direction still holds, are what it was handed,
in order, with at most one piece cut out (`Half.Accounted`, kept by every call:
`Half.step_accounted`): the payload `HaveCm::handle_data` drops when it goes `Uncertain` over its
limit, or the frame whose decrypt failed (`decrypt_failure_drops_frame` is a run where it shows).
That frame is the one whose counter the record carries: until the failure every chunk emitted is a
whole frame taken from the front, one per counter, so the cut comes after exactly that many frames
(`Frames.getElem_splitFrames`). Nothing is ever duplicated or reordered (`Half.run_new_accounted`).
-/

namespace TezedgeDebugger.ChunkParser

variable {CnKey Id K : Type} {S : Bool} {crypto : Crypto Id K}

/-- The counters emitted while the buffer counter went up to `counter`: all of `0, …, counter - 1`,
or, once a decrypt failed at `position`, all of them but `position`. -/
def Counted (failed : Option Nat) (counter : Nat) (counters : List Nat) : Prop :=
  match failed with
  | none => counters = List.range counter
  | some position => position < counter ∧ counters = (List.range counter).filter (· ≠ position)

/-- The failing counter a direction's record carries, in the field of its own direction. -/
def cannotDecryptAt (S : Bool) (cn : ConnectionItem CnKey) : Option Nat :=
  if S then cn.comments.incomingCannotDecrypt else cn.comments.outgoingCannotDecrypt

/-- The counters a direction has emitted: `Counted` up to its buffer counter, with the failing
counter its record carries once it is `CannotDecrypt`. -/
def Half.Numbered (counters : List Nat) : Half CnKey Id K S → Prop
  | .cannotDecrypt state => ∃ position, cannotDecryptAt S state.inner.cn = some position ∧
      Counted (some position) state.inner.buffer.counter counters
  | half => Counted none half.inner.buffer.counter counters

/-! ## Numbering goes on where it stopped -/

/-- Counters that go on from `before` to `after` keep `Counted`, with or without a failed one. -/
theorem Counted.continues {failed : Option Nat} {before after : Nat} {counters more : List Nat}
    (counted : Counted failed before counters) (continues : List.range before ++ more = List.range after) :
    Counted failed after (counters ++ more) := by
  cases failed with
  | none => exact (congrArg (· ++ more) counted).trans continues
  | some position =>
    obtain ⟨below, rfl⟩ := counted
    have grows : before ≤ after := by
      have lengths := congrArg List.length continues
      simp only [List.length_append, List.length_range] at lengths
      omega
    obtain ⟨extra, rfl⟩ := Nat.exists_eq_add_of_le grows
    rw [List.range_add] at continues
    obtain rfl := List.append_cancel_left continues
    refine ⟨Nat.lt_add_right extra below, ?_⟩
    rw [List.range_add, List.filter_append]
    congr 1
    refine (List.filter_eq_self.mpr fun c member => ?_).symm
    obtain ⟨j, -, rfl⟩ := List.mem_map.mp member
    simpa using Nat.ne_of_gt (Nat.lt_add_right j below)

theorem Buffer.next_continues (buffer : Buffer) :
    List.range buffer.counter ++ buffer.next.1.toList.map Prod.fst = List.range buffer.next.2.counter := by
  unfold Buffer.next
  split
  · simp [Buffer.afterChunk, List.range_succ]
  · simp

theorem Inner.cleanup_continues (inner : Inner CnKey Id S) :
    List.range inner.buffer.counter ++ inner.cleanup.1.toList.map (·.counter) =
      List.range inner.cleanup.2.buffer.counter := by
  by_cases empty : inner.buffer.data = []
  · simp [Inner.cleanup_of_nil _ empty]
  · simp [Inner.cleanup_of_ne_nil _ empty, List.range_succ]

theorem Inner.flush_continues {inner next : Inner CnKey Id S} {payload : Bytes} {chunk : ChunkItem CnKey}
    (flushed : inner.flush payload = some (chunk, next)) :
    List.range inner.buffer.counter ++ [chunk.counter] = List.range next.buffer.counter := by
  unfold Inner.flush at flushed
  split at flushed
  · rename_i same
    obtain ⟨rfl, rfl⟩ := Option.some.inj flushed
    simpa [same] using Inner.cleanup_continues (inner.handleData payload)
  · cases flushed

theorem HaveCm.haveKey_continues {state : HaveCm CnKey Id S} {key : K} {next : HaveKey CnKey Id K S}
    {chunk : ChunkItem CnKey} (taken : state.haveKey key = some (next, chunk)) :
    List.range state.inner.buffer.counter ++ [chunk.counter] = List.range next.inner.buffer.counter := by
  have continues := Buffer.next_continues state.inner.buffer
  unfold HaveCm.haveKey at taken
  split at taken
  · rename_i counter bytes buffer same
    rw [same] at continues
    obtain ⟨plain, -, taken⟩ := Option.map_eq_some'.mp taken
    obtain ⟨rfl, rfl⟩ := Prod.mk.inj taken
    exact continues
  · cases taken

/-! ## The drain of `HaveData` -/

namespace HaveData

/-- One call of `next` keeps `Counted`; a failing decrypt leaves its frame's counter out. -/
theorem next_counted (crypto : Crypto Id K) {state : HaveData CnKey Id K S} {counters : List Nat}
    (counted : Counted state.error state.inner.buffer.counter counters) :
    Counted (state.next crypto).2.error (state.next crypto).2.inner.buffer.counter
      (counters ++ (state.next crypto).1.toList.map (·.counter)) := by
  rcases next_cases crypto state with ⟨same, -⟩ | ⟨chunk, plain, key, clean, found, -, stepped⟩ |
      ⟨chunk, clean, found, -, stepped⟩
  · simpa [same] using counted
  · rw [stepped]
    dsimp only
    rw [clean] at counted ⊢
    exact counted.continues (by simp [Buffer.afterChunk, List.range_succ])
  · rw [clean] at counted
    dsimp only at stepped
    rw [stepped]
    dsimp only
    have skipped : Counted (some state.inner.buffer.counter) (state.inner.buffer.counter + 1) counters := by
      refine ⟨Nat.lt_succ_self _, ?_⟩
      rw [counted, List.range_succ, List.filter_append,
        List.filter_eq_self.mpr fun c member => by simpa using Nat.ne_of_lt (List.mem_range.mp member)]
      simp
    exact skipped.continues (Inner.cleanup_continues { state.inner with buffer := state.inner.buffer.afterChunk chunk })

theorem drain_counted (crypto : Crypto Id K) {state : HaveData CnKey Id K S} {counters : List Nat}
    (counted : Counted state.error state.inner.buffer.counter counters) :
    Counted (state.drain crypto).2.error (state.drain crypto).2.inner.buffer.counter
      (counters ++ (state.drain crypto).1.map (·.counter)) := by
  simpa using drainFor_induction crypto state
    (fun chunks after => Counted after.error after.inner.buffer.counter (counters ++ chunks.map (·.counter)))
    (fun chunks after kept => by simpa using next_counted crypto kept) _ [] (by simpa using counted)

end HaveData

/-! ## Every call -/

namespace Half

theorem deliver_numbered (crypto : Crypto Id K) {state : HaveKey CnKey Id K S} {counters : List Nat}
    (numbered : (Half.haveKey state : Half CnKey Id K S).Numbered counters) (payload : Bytes) :
    (deliver crypto state payload).1.Numbered (counters ++ (deliver crypto state payload).2.chunks.map (·.counter)) := by
  have drained := HaveData.drain_counted crypto
    (show Counted (state.handleData payload).error (state.handleData payload).inner.buffer.counter counters
      from numbered)
  unfold deliver
  generalize (state.handleData payload).drain crypto = result at drained
  obtain ⟨chunks, data⟩ := result
  cases failed : data.error with
  | none => simpa [HaveData.over, failed, Numbered] using drained
  | some position =>
    rw [failed] at drained
    simp only [HaveData.over, failed]
    exact ⟨position, by cases S <;> rfl, drained⟩

/-- Every call keeps `Numbered`. -/
theorem step_numbered {half next : Half CnKey Id K S} {event : Event K} {out : Emitted CnKey}
    {counters : List Nat} (numbered : half.Numbered counters) (stepped : half.step crypto event = some (next, out)) :
    next.Numbered (counters ++ out.chunks.map (·.counter)) := by
  cases half with
  | initial state =>
    have counted : Counted none state.inner.buffer.counter counters := numbered
    cases event with
    | data payload =>
      rw [step_initial_data] at stepped
      split_ifs at stepped <;> obtain ⟨⟨⟩⟩ := stepped <;> simpa using numbered
    | uncertain =>
      cases stepped
      exact counted.continues (Inner.cleanup_continues state.inner)
    | haveKey _ | haveNotKey | cn => cases stepped; simpa using numbered
  | haveCm state =>
    have counted : Counted none state.inner.buffer.counter counters := numbered
    cases event with
    | data payload =>
      rw [step_haveCm_data] at stepped
      split_ifs at stepped <;> obtain ⟨⟨⟩⟩ := stepped
      · exact counted.continues (Inner.cleanup_continues state.inner)
      · simpa using numbered
    | haveKey key =>
      simp only [step, Option.map_eq_some', Prod.mk.injEq, Prod.exists] at stepped
      obtain ⟨keyed, chunk, taken, rfl, rfl⟩ := stepped
      exact counted.continues (HaveCm.haveKey_continues taken)
    | haveNotKey =>
      cases stepped
      exact counted.continues (Inner.cleanup_continues state.inner)
    | uncertain | cn => cases stepped; simpa using numbered
  | uncertain state =>
    have counted : Counted none state.inner.buffer.counter counters := numbered
    cases event with
    | data payload =>
      obtain ⟨chunk, inner, flushed, rfl, rfl⟩ := step_uncertain_data stepped
      exact counted.continues (Inner.flush_continues flushed)
    | uncertain | haveKey _ | haveNotKey | cn => cases stepped; simpa using numbered
  | haveKey state =>
    cases event with
    | data payload =>
      simp only [step, Option.some.injEq] at stepped
      have kept := deliver_numbered crypto numbered payload
      rw [stepped] at kept
      exact kept
    | uncertain | haveKey _ | haveNotKey | cn => cases stepped; simpa using numbered
  | haveNotKey state =>
    have counted : Counted none state.inner.buffer.counter counters := numbered
    cases event with
    | data payload =>
      obtain ⟨chunk, inner, flushed, rfl, rfl⟩ := step_haveNotKey_data stepped
      exact counted.continues (Inner.flush_continues flushed)
    | uncertain | haveKey _ | haveNotKey | cn => cases stepped; simpa using numbered
  | cannotDecrypt state =>
    obtain ⟨position, recorded, counted⟩ := numbered
    cases event with
    | data payload =>
      obtain ⟨chunk, inner, flushed, rfl, rfl⟩ := step_cannotDecrypt_data stepped
      exact ⟨position, (Inner.flush_cn flushed).symm ▸ recorded, counted.continues (Inner.flush_continues flushed)⟩
    | uncertain | haveKey _ | haveNotKey | cn => cases stepped; exact ⟨position, recorded, by simpa using counted⟩

theorem run_numbered {half final : Half CnKey Id K S} {events : List (Event K)} {out : Emitted CnKey}
    {counters : List Nat} (numbered : half.Numbered counters) (ran : half.run crypto events = some (final, out)) :
    final.Numbered (counters ++ out.chunks.map (·.counter)) := by
  induction events generalizing half counters out with
  | nil => cases ran; simpa using numbered
  | cons event events ih =>
    obtain ⟨next, first, rest, stepped, tail, rfl⟩ := run_cons_eq_some.mp ran
    simpa using ih (step_numbered numbered stepped) tail

theorem new_numbered (cn : ConnectionItem CnKey) (id : Id) :
    (Half.initial (Initial.new cn id) : Half CnKey Id K S).Numbered [] := rfl

/-- From `Initial::new`, a direction emits the counters `0, 1, …` of its buffer in order, every one
of them but, once a decrypt failed, the failing frame's, which its record carries. -/
theorem run_new_numbered {cn : ConnectionItem CnKey} {id : Id} {events : List (Event K)}
    {final : Half CnKey Id K S} {out : Emitted CnKey}
    (ran : (Half.initial (Initial.new cn id)).run crypto events = some (final, out)) :
    final.Numbered (out.chunks.map (·.counter)) := by
  simpa using run_numbered (new_numbered cn id) ran

end Half

theorem run_new_numbered_sample :
    ∃ final out, initialHalf.run decryptNothing failingRun = some (final, out) ∧
      final.Numbered (out.chunks.map (·.counter)) := by
  obtain ⟨⟨final, out⟩, ran⟩ : ∃ result, initialHalf.run decryptNothing failingRun = some result := ⟨_, rfl⟩
  exact ⟨final, out, ran, Half.run_new_numbered ran⟩

/-! ## The bytes -/

theorem Inner.cleanup_bytes (inner : Inner CnKey Id S) :
    (inner.cleanup.1.toList.map (·.bytes)).flatten ++ inner.cleanup.2.buffer.data = inner.buffer.data := by
  by_cases empty : inner.buffer.data = []
  · simp [Inner.cleanup_of_nil _ empty]
  · simp [Inner.cleanup_of_ne_nil _ empty]

theorem Inner.flush_bytes {inner next : Inner CnKey Id S} {payload : Bytes} {chunk : ChunkItem CnKey}
    (flushed : inner.flush payload = some (chunk, next)) :
    chunk.bytes ++ next.buffer.data = inner.buffer.data ++ payload := by
  unfold Inner.flush at flushed
  split at flushed
  · rename_i same
    obtain ⟨rfl, rfl⟩ := Option.some.inj flushed
    simpa [same] using Inner.cleanup_bytes (inner.handleData payload)
  · cases flushed

/-- `bytes` is `n` complete frames one after another. -/
def Frames (n : Nat) (bytes : Bytes) : Prop :=
  ∃ frames : List Bytes, frames.length = n ∧ (∀ frame ∈ frames, firstChunk frame = some frame) ∧
    frames.flatten = bytes

theorem Frames.nil : Frames 0 [] := ⟨[], rfl, fun _ member => (by cases member), rfl⟩

theorem Frames.append {n : Nat} {bytes frame : Bytes} (framed : Frames n bytes)
    (isFrame : firstChunk frame = some frame) : Frames (n + 1) (bytes ++ frame) := by
  obtain ⟨frames, rfl, all, rfl⟩ := framed
  refine ⟨frames ++ [frame], by simp, fun f member => ?_, by simp⟩
  rcases List.mem_append.mp member with old | new
  · exact all f old
  · rwa [List.mem_singleton.mp new]

/-- A frame that comes after `n` complete frames is frame number `n` of the stream. -/
theorem Frames.getElem_splitFrames {n : Nat} {front dropped : Bytes} (framed : Frames n front)
    (isFrame : firstChunk dropped = some dropped) (back : Bytes) :
    (splitFrames (front ++ dropped ++ back)).1[n]? = some dropped := by
  obtain ⟨frames, rfl, all, rfl⟩ := framed
  rw [List.append_assoc, splitFrames_frames_append frames all, splitFrames_frame_append isFrame,
    List.getElem?_append_right (Nat.le_refl _), Nat.sub_self]
  simp

/-- What a delivery keeps while it drains: the raw bytes emitted, one whole frame per counter, and
those still buffered make up `stream`; once a decrypt failed at `position`, `stream` without the
frame after the first `position`. -/
def HaveData.Accounted (stream raw : Bytes) (state : HaveData CnKey Id K S) : Prop :=
  match state.error with
  | none => raw ++ state.inner.buffer.data = stream ∧ Frames state.inner.buffer.counter raw
  | some position => ∃ front dropped back, stream = front ++ dropped ++ back ∧
      raw ++ state.inner.buffer.data = front ++ back ∧ Frames position front ∧ firstChunk dropped = some dropped

/-- How the raw bytes a direction has emitted, followed by what it holds, account for what `events`
handed it: exactly, or with one piece cut out: a whole payload handed to a `HaveCm` holding more
than its limit, which is then `Uncertain`, or the frame whose decrypt failed, which is then
`CannotDecrypt`: the frame after as many whole frames as the counter its record carries. Until
then the raw bytes are one whole frame per counter. -/
def Half.Accounted (events : List (Event K)) (raw : Bytes) : Half CnKey Id K S → Prop
  | .uncertain state => raw ++ state.inner.buffer.data = delivered events ∨
      ∃ front dropped back, delivered events = front ++ dropped ++ back ∧
        raw ++ state.inner.buffer.data = front ++ back ∧ Event.data dropped ∈ events ∧ 0x20000 < front.length
  | .haveNotKey state => raw ++ state.inner.buffer.data = delivered events
  | .cannotDecrypt state => ∃ position front dropped back, cannotDecryptAt S state.inner.cn = some position ∧
      delivered events = front ++ dropped ++ back ∧ raw ++ state.inner.buffer.data = front ++ back ∧
      Frames position front ∧ firstChunk dropped = some dropped
  | half => raw ++ half.inner.buffer.data = delivered events ∧ Frames half.inner.buffer.counter raw

/-- `Accounted` reads the calls only through the bytes they deliver and the payloads among them. -/
theorem Half.Accounted.of_delivered {half : Half CnKey Id K S} {calls events : List (Event K)} {raw : Bytes}
    (same : delivered calls = delivered events)
    (data : ∀ payload, Event.data payload ∈ calls → Event.data payload ∈ events)
    (accounted : half.Accounted calls raw) : half.Accounted events raw := by
  cases half with
  | uncertain state =>
    rcases accounted with exact | ⟨front, dropped, back, whole, kept, member, long⟩
    · exact .inl (same ▸ exact)
    · exact .inr ⟨front, dropped, back, same ▸ whole, kept, data dropped member, long⟩
  | cannotDecrypt state =>
    obtain ⟨position, front, dropped, back, recorded, whole, kept, framed, frame⟩ := accounted
    exact ⟨position, front, dropped, back, recorded, same ▸ whole, kept, framed, frame⟩
  | haveNotKey => exact Eq.trans accounted same
  | initial | haveCm | haveKey => exact ⟨accounted.1.trans same, accounted.2⟩

/-- A call without a payload that emits no chunk keeps `Accounted` as it was. -/
theorem Half.Accounted.idle {half : Half CnKey Id K S} {events : List (Event K)} {raw : Bytes} {event : Event K}
    {out : Emitted CnKey} (accounted : half.Accounted events raw) (empty : event.payload = [])
    (quiet : out.chunks = []) : half.Accounted (events ++ [event]) (raw ++ (out.chunks.map (·.bytes)).flatten) := by
  simpa [quiet] using accounted.of_delivered (by simp [empty]) fun _ member => List.mem_append_left _ member

theorem Buffer.next_bytes (buffer : Buffer) :
    (buffer.next.1.toList.map Prod.snd).flatten ++ buffer.next.2.data = buffer.data := by
  unfold Buffer.next
  split
  · rename_i chunk found
    simpa [Buffer.afterChunk] using (firstChunk_append_drop found).1
  · simp

theorem HaveCm.haveKey_bytes {state : HaveCm CnKey Id S} {key : K} {next : HaveKey CnKey Id K S}
    {chunk : ChunkItem CnKey} (taken : state.haveKey key = some (next, chunk)) :
    chunk.bytes ++ next.inner.buffer.data = state.inner.buffer.data := by
  have moved := Buffer.next_bytes state.inner.buffer
  unfold HaveCm.haveKey at taken
  split at taken
  · rename_i counter bytes buffer same
    rw [same] at moved
    obtain ⟨plain, -, taken⟩ := Option.map_eq_some'.mp taken
    obtain ⟨rfl, rfl⟩ := Prod.mk.inj taken
    simpa using moved
  · cases taken

/-- `have_key` emits a whole frame and numbers it. -/
theorem HaveCm.haveKey_frame {state : HaveCm CnKey Id S} {key : K} {next : HaveKey CnKey Id K S}
    {chunk : ChunkItem CnKey} (taken : state.haveKey key = some (next, chunk)) :
    firstChunk chunk.bytes = some chunk.bytes ∧ next.inner.buffer.counter = state.inner.buffer.counter + 1 := by
  unfold HaveCm.haveKey at taken
  split at taken
  · rename_i counter bytes buffer same
    obtain ⟨plain, -, taken⟩ := Option.map_eq_some'.mp taken
    obtain ⟨rfl, rfl⟩ := Prod.mk.inj taken
    unfold Buffer.next at same
    split at same
    · rename_i frame found
      obtain ⟨⟨⟩⟩ := same
      exact ⟨firstChunk_self found, rfl⟩
    · cases same
  · cases taken

section Continues

variable {events : List (Event K)} {raw held more after : Bytes} {event : Event K}

/-- A call that emits `more` and leaves `after` out of what was held and its payload keeps an exact
account. -/
theorem exact_continues (exact : raw ++ held = delivered events) (moved : more ++ after = held ++ event.payload) :
    raw ++ more ++ after = delivered (events ++ [event]) := by
  rw [List.append_assoc, moved, ← List.append_assoc, exact]
  simp

/-- It keeps an account with a piece cut out too: what comes later joins the part after the cut. -/
theorem cut_continues {front dropped back : Bytes} (whole : delivered events = front ++ dropped ++ back)
    (kept : raw ++ held = front ++ back) (moved : more ++ after = held ++ event.payload) :
    delivered (events ++ [event]) = front ++ dropped ++ (back ++ event.payload) ∧
      raw ++ more ++ after = front ++ (back ++ event.payload) := by
  constructor
  · simp [whole]
  · rw [List.append_assoc, moved, ← List.append_assoc, kept]
    simp

end Continues

namespace HaveData

/-- One call of `next` keeps `Accounted`; a failing decrypt cuts its frame out. -/
theorem next_accounted (crypto : Crypto Id K) {state : HaveData CnKey Id K S} {stream raw : Bytes}
    (accounted : state.Accounted stream raw) :
    (state.next crypto).2.Accounted stream (raw ++ ((state.next crypto).1.toList.map (·.bytes)).flatten) := by
  rcases next_cases crypto state with ⟨same, -⟩ | ⟨chunk, plain, key, clean, found, -, stepped⟩ |
      ⟨chunk, clean, found, -, stepped⟩
  · simpa [same] using accounted
  · have split := (firstChunk_append_drop found).1
    unfold Accounted at accounted ⊢
    rw [stepped]
    dsimp only
    rw [clean] at accounted ⊢
    dsimp only at accounted ⊢
    refine ⟨by simpa [Buffer.afterChunk, split] using accounted.1, ?_⟩
    simpa [Buffer.afterChunk, Inner.chunk] using accounted.2.append (firstChunk_self found)
  · have split := (firstChunk_append_drop found).1
    unfold Accounted at accounted ⊢
    rw [clean] at accounted
    dsimp only at accounted stepped
    rw [stepped]
    refine ⟨raw, chunk, state.inner.buffer.data.drop chunk.length, ?_, ?_, accounted.2, firstChunk_self found⟩
    · rw [← accounted.1, List.append_assoc, split]
    · simpa using Inner.cleanup_bytes { state.inner with buffer := state.inner.buffer.afterChunk chunk }

theorem drain_accounted (crypto : Crypto Id K) {state : HaveData CnKey Id K S} {stream raw : Bytes}
    (accounted : state.Accounted stream raw) :
    (state.drain crypto).2.Accounted stream (raw ++ ((state.drain crypto).1.map (·.bytes)).flatten) := by
  simpa using drainFor_induction crypto state
    (fun chunks after => after.Accounted stream (raw ++ (chunks.map (·.bytes)).flatten))
    (fun chunks after kept => by simpa using next_accounted crypto kept) _ [] (by simpa using accounted)

end HaveData

namespace Half

theorem deliver_accounted (crypto : Crypto Id K) {state : HaveKey CnKey Id K S} {events : List (Event K)}
    {raw : Bytes} (accounted : (Half.haveKey state : Half CnKey Id K S).Accounted events raw) (payload : Bytes) :
    (deliver crypto state payload).1.Accounted (events ++ [.data payload])
      (raw ++ ((deliver crypto state payload).2.chunks.map (·.bytes)).flatten) := by
  have handed : (state.handleData payload).Accounted (delivered (events ++ [.data payload])) raw := by
    refine ⟨?_, accounted.2⟩
    show raw ++ (state.inner.buffer.data ++ payload) = _
    rw [← List.append_assoc, show raw ++ state.inner.buffer.data = delivered events from accounted.1]
    simp [Event.payload]
  have drained := HaveData.drain_accounted crypto handed
  unfold deliver
  generalize (state.handleData payload).drain crypto = result at drained
  obtain ⟨chunks, data⟩ := result
  unfold HaveData.Accounted at drained
  cases failed : data.error with
  | none =>
    rw [failed] at drained
    simpa [HaveData.over, failed, Accounted] using drained
  | some position =>
    rw [failed] at drained
    obtain ⟨front, dropped, back, whole, kept, framed, frame⟩ := drained
    simp only [HaveData.over, failed]
    exact ⟨position, front, dropped, back, by cases S <;> rfl, whole, by simpa using kept, framed, frame⟩

/-- Every call keeps `Accounted`. -/
theorem step_accounted {half next : Half CnKey Id K S} {event : Event K} {out : Emitted CnKey}
    {events : List (Event K)} {raw : Bytes} (accounted : half.Accounted events raw)
    (stepped : half.step crypto event = some (next, out)) :
    next.Accounted (events ++ [event]) (raw ++ (out.chunks.map (·.bytes)).flatten) := by
  cases half with
  | initial state =>
    have exact : raw ++ state.inner.buffer.data = delivered events := accounted.1
    have framed : Frames state.inner.buffer.counter raw := accounted.2
    cases event with
    | data payload =>
      rw [step_initial_data] at stepped
      split_ifs at stepped <;> obtain ⟨⟨⟩⟩ := stepped <;>
        exact ⟨exact_continues exact (by simp [Event.payload, Half.inner]), by simpa [Half.inner] using framed⟩
    | uncertain =>
      cases stepped
      exact .inl (exact_continues exact (by simpa [Event.payload, Half.inner] using Inner.cleanup_bytes state.inner))
    | haveKey _ | haveNotKey | cn => cases stepped; exact accounted.idle rfl rfl
  | haveCm state =>
    have exact : raw ++ state.inner.buffer.data = delivered events := accounted.1
    have framed : Frames state.inner.buffer.counter raw := accounted.2
    cases event with
    | data payload =>
      rw [step_haveCm_data] at stepped
      split_ifs at stepped with overflow <;> obtain ⟨⟨⟩⟩ := stepped
      · refine .inr ⟨delivered events, payload, [], by simp [Event.payload], ?_, List.mem_append_right _ (List.mem_singleton_self _), ?_⟩
        · simpa [← exact] using Inner.cleanup_bytes state.inner
        · rw [← exact, List.length_append]
          exact Nat.lt_of_lt_of_le overflow (Nat.le_add_left _ _)
      · exact ⟨exact_continues exact (by simp [Event.payload, Half.inner]), by simpa [Half.inner] using framed⟩
    | haveKey key =>
      simp only [step, Option.map_eq_some', Prod.mk.injEq, Prod.exists] at stepped
      obtain ⟨keyed, chunk, taken, rfl, rfl⟩ := stepped
      obtain ⟨frame, numbered⟩ := HaveCm.haveKey_frame taken
      refine ⟨exact_continues exact (by simpa [Event.payload, Half.inner] using HaveCm.haveKey_bytes taken), ?_⟩
      simpa [Half.inner, numbered] using framed.append frame
    | haveNotKey =>
      cases stepped
      exact exact_continues exact (by simpa [Event.payload, Half.inner] using Inner.cleanup_bytes state.inner)
    | uncertain | cn => cases stepped; exact accounted.idle rfl rfl
  | uncertain state =>
    cases event with
    | data payload =>
      obtain ⟨chunk, inner, flushed, rfl, rfl⟩ := step_uncertain_data stepped
      have moved : chunk.bytes ++ inner.buffer.data = state.inner.buffer.data ++ (Event.data payload : Event K).payload :=
        Inner.flush_bytes flushed
      rcases accounted with exact | ⟨front, dropped, back, whole, kept, member, big⟩
      · exact .inl (by simpa [Half.inner] using exact_continues exact moved)
      · obtain ⟨whole', kept'⟩ := cut_continues whole kept moved
        exact .inr ⟨front, dropped, _, whole', by simpa [Half.inner] using kept', List.mem_append_left _ member, big⟩
    | uncertain | haveKey _ | haveNotKey | cn => cases stepped; exact accounted.idle rfl rfl
  | haveKey state =>
    cases event with
    | data payload =>
      simp only [step, Option.some.injEq] at stepped
      have kept := deliver_accounted crypto accounted payload
      rw [stepped] at kept
      exact kept
    | uncertain | haveKey _ | haveNotKey | cn => cases stepped; exact accounted.idle rfl rfl
  | haveNotKey state =>
    have exact : raw ++ state.inner.buffer.data = delivered events := accounted
    cases event with
    | data payload =>
      obtain ⟨chunk, inner, flushed, rfl, rfl⟩ := step_haveNotKey_data stepped
      exact exact_continues exact (by simpa [Event.payload, Half.inner] using Inner.flush_bytes flushed)
    | uncertain | haveKey _ | haveNotKey | cn => cases stepped; exact accounted.idle rfl rfl
  | cannotDecrypt state =>
    cases event with
    | data payload =>
      obtain ⟨position, front, dropped, back, recorded, whole, kept, framed, frame⟩ := accounted
      obtain ⟨chunk, inner, flushed, rfl, rfl⟩ := step_cannotDecrypt_data stepped
      have moved : chunk.bytes ++ inner.buffer.data = state.inner.buffer.data ++ (Event.data payload : Event K).payload :=
        Inner.flush_bytes flushed
      obtain ⟨whole', kept'⟩ := cut_continues whole kept moved
      exact ⟨position, front, dropped, _, (Inner.flush_cn flushed).symm ▸ recorded, whole',
        by simpa [Half.inner] using kept', framed, frame⟩
    | uncertain | haveKey _ | haveNotKey | cn => cases stepped; exact accounted.idle rfl rfl

theorem run_accounted {half final : Half CnKey Id K S} {events before : List (Event K)} {out : Emitted CnKey}
    {raw : Bytes} (accounted : half.Accounted before raw) (ran : half.run crypto events = some (final, out)) :
    final.Accounted (before ++ events) (raw ++ (out.chunks.map (·.bytes)).flatten) := by
  induction events generalizing half before raw out with
  | nil => cases ran; simpa using accounted
  | cons event events ih =>
    obtain ⟨next, first, rest, stepped, tail, rfl⟩ := run_cons_eq_some.mp ran
    simpa using ih (step_accounted accounted stepped) tail

theorem new_accounted (cn : ConnectionItem CnKey) (id : Id) :
    (Half.initial (Initial.new cn id) : Half CnKey Id K S).Accounted [] [] := ⟨rfl, Frames.nil⟩

/-- From `Initial::new`, the raw bytes a direction emits, followed by what it holds, are what it
was handed, in order, with at most one piece cut out: a payload handed to `HaveCm` over its limit
or the frame whose decrypt failed. -/
theorem run_new_accounted {cn : ConnectionItem CnKey} {id : Id} {events : List (Event K)}
    {final : Half CnKey Id K S} {out : Emitted CnKey}
    (ran : (Half.initial (Initial.new cn id)).run crypto events = some (final, out)) :
    final.Accounted events (out.chunks.map (·.bytes)).flatten := by
  simpa using run_accounted (new_accounted cn id) ran

end Half

theorem run_new_accounted_sample :
    ∃ final out, initialHalf.run decryptNothing failingRun = some (final, out) ∧
      final.Accounted failingRun (out.chunks.map (·.bytes)).flatten := by
  obtain ⟨⟨final, out⟩, ran⟩ : ∃ result, initialHalf.run decryptNothing failingRun = some result := ⟨_, rfl⟩
  exact ⟨final, out, ran, Half.run_new_accounted ran⟩

/-! ## Both directions of a connection -/

/-- In a connection run from `Conn::new`, the chunks of one side, picked out of everything emitted by
their sender bit, are numbered and account for that side's payloads as those of a lone direction:
`make_key` and the other side's calls neither take a counter nor a byte from it. -/
theorem Conn.run_new_emits {cn : ConnectionItem CnKey} {id : Id} {events : List ConnEvent}
    {final : Conn CnKey Id K} {out : ConnOut CnKey}
    (ran : (Conn.new cn id).run crypto events = some (final, out)) (side : Bool) :
    (final.half side).Numbered ((out.chunks.filter fun chunk => chunk.incoming = side).map (·.counter)) ∧
      (final.half side).Accounted (callsTo side events)
        ((out.chunks.filter fun chunk => chunk.incoming = side).map (·.bytes)).flatten := by
  obtain ⟨calls, halfOut, halfRan, same, data, chunks, -⟩ := Conn.run_half side ran
  rw [← chunks]
  have numbered := Half.run_numbered (Half.new_numbered _ _) halfRan
  have accounted := Half.run_accounted (Half.new_accounted _ _) halfRan
  simp only [List.nil_append] at numbered accounted
  exact ⟨numbered, accounted.of_delivered same data⟩

/-- Both connection messages, `make_key`, then a local frame that fails to decrypt among other payloads. -/
def failingConnRun : List ConnEvent :=
  [.call false (.data [0, 0]), .call true (.data [0, 0]), .makeKey, .call false (.data [0, 0]),
    .call true (.data [5]), .call false (.data [1])]

theorem run_new_emits_sample :
    ∃ final out, (Conn.new { key := (), initiator := false } () : Conn Unit Unit Unit).run decryptNothing
        failingConnRun = some (final, out) ∧
      (final.half false).Numbered ((out.chunks.filter fun chunk => chunk.incoming = false).map (·.counter)) ∧
        (final.half false).Accounted (callsTo false failingConnRun)
          ((out.chunks.filter fun chunk => chunk.incoming = false).map (·.bytes)).flatten := by
  obtain ⟨⟨final, out⟩, ran⟩ : ∃ result, (Conn.new { key := (), initiator := false } () : Conn Unit Unit Unit).run
      decryptNothing failingConnRun = some result := ⟨_, rfl⟩
  exact ⟨final, out, ran, Conn.run_new_emits ran false⟩

end TezedgeDebugger.ChunkParser
