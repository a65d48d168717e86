import TezedgeDebugger.ChunkParser.Handshake

/-!
# A keyed direction

After `have_key` a direction decrypts, one `HaveData::next` per frame, the frames of what it is
handed, each with the key the previous successful call left, until a call fails; from then on it
only hands out raw bytes. `decryptedChunks` is that chain for a list of frames, `Half.KeyedBy` the
invariant of the two keyed states: every state taken along the way keeps it (`Half.run_keyedBy`).
The drain of `HaveKey::handle_data` always ends with no complete frame left, unless a decrypt
failed (`HaveData.drainFor_exhausted`).

`keyed_run_decrypts_frames`: from the rendezvous on, the chunks a direction emits are its
connection message `(0, f0, f0[2..])`, then `(i, fi, plaintext)` for the frames `f1, …, fm` after
it, decrypted in order, then chunks without plaintext; after a delivery that ended without a
failure no complete frame is left unprocessed.
-/

namespace TezedgeDebugger.ChunkParser

variable {CnKey Id K : Type} {S : Bool} {crypto : Crypto Id K}

/-- The chunks of frames decrypted in order from `counter` on: each call with the key the previous
successful call left, one chunk per successful call and no call after a failure; and the key the
last call left, or `none` after a failure. -/
def decryptedChunks (decrypt : K → Bytes → Option (Bytes × K)) (cnKey : CnKey) (S : Bool) :
    Nat → K → List Bytes → List (ChunkItem CnKey) × Option K
  | _, key, [] => ([], some key)
  | counter, key, frame :: frames =>
    match decrypt key frame with
    | some (plain, key) =>
      let rest := decryptedChunks decrypt cnKey S (counter + 1) key frames
      (⟨cnKey, S, counter, frame, plain⟩ :: rest.1, rest.2)
    | none => ([], none)

section DecryptedChunks

variable {decrypt : K → Bytes → Option (Bytes × K)} {cnKey : CnKey}

theorem decryptedChunks_append_some {counter : Nat} {key last next : K} {frames : List Bytes}
    {chunks : List (ChunkItem CnKey)} {frame plain : Bytes}
    (done : decryptedChunks decrypt cnKey S counter key frames = (chunks, some last))
    (decrypted : decrypt last frame = some (plain, next)) :
    decryptedChunks decrypt cnKey S counter key (frames ++ [frame]) =
      (chunks ++ [⟨cnKey, S, counter + frames.length, frame, plain⟩], some next) := by
  induction frames generalizing counter key chunks with
  | nil =>
    simp only [decryptedChunks, Prod.mk.injEq, Option.some.injEq] at done
    obtain ⟨rfl, rfl⟩ := done
    simp [decryptedChunks, decrypted]
  | cons first frames ih =>
    simp only [decryptedChunks] at done
    split at done
    · rename_i plain' key' stepped
      obtain ⟨rfl, rest⟩ := Prod.mk.inj done
      rw [List.cons_append, decryptedChunks, stepped]
      simp only [ih (Prod.ext rfl rest), List.length_cons, List.cons_append, Nat.add_assoc, Nat.add_comm 1 frames.length]
    · cases done

theorem decryptedChunks_append_none {counter : Nat} {key last : K} {frames : List Bytes}
    {chunks : List (ChunkItem CnKey)} {frame : Bytes}
    (done : decryptedChunks decrypt cnKey S counter key frames = (chunks, some last))
    (rejected : decrypt last frame = none) :
    decryptedChunks decrypt cnKey S counter key (frames ++ [frame]) = (chunks, none) := by
  induction frames generalizing counter key chunks with
  | nil =>
    simp only [decryptedChunks, Prod.mk.injEq, Option.some.injEq] at done
    obtain ⟨rfl, rfl⟩ := done
    simp [decryptedChunks, rejected]
  | cons first frames ih =>
    simp only [decryptedChunks] at done
    split at done
    · rename_i plain' key' stepped
      obtain ⟨rfl, rest⟩ := Prod.mk.inj done
      rw [List.cons_append, decryptedChunks, stepped]
      simp only [ih (Prod.ext rfl rest)]
    · cases done

end DecryptedChunks

/-- A keyed direction that has not failed, with `key` from the rendezvous: the frames it took out of
`stream` so far were decrypted in order into `chunks`, leaving `current`, and the buffer holds the
rest of `stream` under the next counter. -/
def Keyed (decrypt : K → Bytes → Option (Bytes × K)) (cnKey : CnKey) (S : Bool) (key : K) (stream : Bytes)
    (chunks : List (ChunkItem CnKey)) (buffer : Buffer) (current : K) : Prop :=
  ∃ processed : List Bytes, (∀ frame ∈ processed, firstChunk frame = some frame) ∧
    stream = processed.flatten ++ buffer.data ∧ buffer.counter = processed.length + 1 ∧
    decryptedChunks decrypt cnKey S 1 key processed = (chunks, some current)

/-- A keyed direction after its failing decrypt: the frames up to the failing one were decrypted
in order, and every chunk after them has no plaintext. -/
def Failed (decrypt : K → Bytes → Option (Bytes × K)) (cnKey : CnKey) (S : Bool) (key : K) (stream : Bytes)
    (chunks : List (ChunkItem CnKey)) : Prop :=
  ∃ processed failing rest decrypted raws, (∀ frame ∈ processed ++ [failing], firstChunk frame = some frame) ∧
    stream = (processed ++ [failing]).flatten ++ rest ∧
    decryptedChunks decrypt cnKey S 1 key (processed ++ [failing]) = (decrypted, none) ∧
    chunks = decrypted ++ raws ∧ ∀ chunk ∈ raws, chunk.plain = []

section Invariant

variable {decrypt : K → Bytes → Option (Bytes × K)} {cnKey : CnKey} {key : K} {stream : Bytes}
  {chunks : List (ChunkItem CnKey)}

theorem Keyed.handleData {buffer : Buffer} {current : K} (keyed : Keyed decrypt cnKey S key stream chunks buffer current)
    (payload : Bytes) : Keyed decrypt cnKey S key (stream ++ payload) chunks (buffer.handleData payload) current := by
  obtain ⟨processed, frames, rfl, counted, decrypted⟩ := keyed
  exact ⟨processed, frames, by simp, counted, decrypted⟩

theorem Failed.append (failed : Failed decrypt cnKey S key stream chunks) (payload : Bytes)
    {more : List (ChunkItem CnKey)} (raw : ∀ chunk ∈ more, chunk.plain = []) :
    Failed decrypt cnKey S key (stream ++ payload) (chunks ++ more) := by
  obtain ⟨processed, failing, rest, decrypted, raws, frames, rfl, chain, rfl, raws_raw⟩ := failed
  refine ⟨processed, failing, rest ++ payload, decrypted, raws ++ more, frames, by simp, chain, by simp, ?_⟩
  intro chunk member
  rcases List.mem_append.mp member with old | new
  · exact raws_raw chunk old
  · exact raw chunk new

end Invariant

/-- What `HaveData::next` can do: nothing, once failed or without a complete frame; decrypt the
first frame; or fail on it and flush the rest. -/
theorem HaveData.next_cases (crypto : Crypto Id K) (state : HaveData CnKey Id K S) :
    (state.next crypto = (none, state) ∧ (state.error.isSome ∨ state.inner.buffer.haveChunk = none)) ∨
    (∃ chunk plain key, state.error = none ∧ state.inner.buffer.haveChunk = some chunk ∧
      crypto.decrypt state.key chunk = some (plain, key) ∧
      state.next crypto = (some (state.inner.chunk state.inner.buffer.counter chunk plain),
        { state with inner := { state.inner with buffer := state.inner.buffer.afterChunk chunk }, key })) ∨
    (∃ chunk, state.error = none ∧ state.inner.buffer.haveChunk = some chunk ∧ crypto.decrypt state.key chunk = none ∧
      let rest : Inner CnKey Id S := { state.inner with buffer := state.inner.buffer.afterChunk chunk }
      state.next crypto = (rest.cleanup.1, { state with inner := rest.cleanup.2, error := some state.inner.buffer.counter })) := by
  rcases Option.eq_none_or_eq_some state.error with failed | ⟨position, failed⟩
  · cases found : state.inner.buffer.haveChunk with
    | none => exact .inl ⟨next_of_haveChunk_none crypto state failed found, .inr rfl⟩
    | some chunk =>
      cases decrypted : crypto.decrypt state.key chunk with
      | some result =>
        exact .inr (.inl ⟨chunk, result.1, result.2, failed, rfl, decrypted,
          next_of_decrypt crypto state failed found decrypted⟩)
      | none =>
        exact .inr (.inr ⟨chunk, failed, rfl, decrypted, next_of_decrypt_none crypto state failed found decrypted⟩)
  · exact .inl ⟨next_of_error crypto state failed, by simp [failed]⟩

theorem Inner.cleanup_raw (inner : Inner CnKey Id S) : ∀ chunk ∈ inner.cleanup.1.toList, chunk.plain = [] := by
  by_cases empty : inner.buffer.data = []
  · simp [Inner.cleanup_of_nil _ empty]
  · simp [Inner.cleanup_of_ne_nil _ empty]

theorem Inner.flush_raw {inner next : Inner CnKey Id S} {payload : Bytes} {chunk : ChunkItem CnKey}
    (flushed : inner.flush payload = some (chunk, next)) : chunk.plain = [] := by
  unfold Inner.flush at flushed
  split at flushed
  · rename_i same
    cases flushed
    exact (inner.handleData payload).cleanup_raw chunk (by simp [same])
  · cases flushed

namespace HaveData

variable {cnKey : CnKey} {key : K} {stream : Bytes} {chunks : List (ChunkItem CnKey)}

/-- The keyed invariant of a `HaveData` state: `Keyed` until a decrypt failed, `Failed` after. -/
def KeyedBy (crypto : Crypto Id K) (cnKey : CnKey) (key : K) (stream : Bytes) (chunks : List (ChunkItem CnKey))
    (state : HaveData CnKey Id K S) : Prop :=
  match state.error with
  | none => Keyed crypto.decrypt cnKey S key stream chunks state.inner.buffer state.key ∧ state.inner.cn.key = cnKey
  | some _ => Failed crypto.decrypt cnKey S key stream chunks

/-- One call of `next` keeps the invariant, with the chunk it emits. -/
theorem next_keyedBy {state : HaveData CnKey Id K S} (keyed : state.KeyedBy crypto cnKey key stream chunks) :
    (state.next crypto).2.KeyedBy crypto cnKey key stream (chunks ++ (state.next crypto).1.toList) := by
  rcases next_cases crypto state with
    ⟨same, -⟩ | ⟨chunk, plain, next, clean, found, decrypted, same⟩ | ⟨chunk, clean, found, rejected, same⟩
  · rw [same]
    simpa using keyed
  · rw [same]
    simp only [KeyedBy, clean] at keyed ⊢
    obtain ⟨⟨processed, frames, rfl, counted, chain⟩, named⟩ := keyed
    have split := firstChunk_append_drop found
    refine ⟨⟨processed ++ [chunk], ?_, ?_, ?_, ?_⟩, named⟩
    · simpa [or_imp, forall_and] using And.intro frames (firstChunk_self found)
    · conv_lhs => rw [← split.1]
      simp [Buffer.afterChunk]
    · simp [Buffer.afterChunk, counted]
    · rw [decryptedChunks_append_some chain decrypted]
      simp [Inner.chunk, named, counted, Nat.add_comm]
  · rw [same]
    simp only [KeyedBy, clean] at keyed ⊢
    obtain ⟨⟨processed, frames, rfl, -, chain⟩, -⟩ := keyed
    have split := firstChunk_append_drop found
    refine ⟨processed, chunk, state.inner.buffer.data.drop chunk.length, chunks, _, ?_, ?_,
      decryptedChunks_append_none chain rejected, rfl, Inner.cleanup_raw _⟩
    · simpa [or_imp, forall_and] using And.intro frames (firstChunk_self found)
    · conv_lhs => rw [← split.1]
      simp [Buffer.afterChunk]

theorem drainFor_keyedBy {state : HaveData CnKey Id K S} (keyed : state.KeyedBy crypto cnKey key stream chunks)
    (fuel : Nat) : (state.drainFor crypto fuel).2.KeyedBy crypto cnKey key stream (chunks ++ (state.drainFor crypto fuel).1) :=
  drainFor_induction crypto state (fun chunks state => state.KeyedBy crypto cnKey key stream chunks)
    (fun _ _ keyed => next_keyedBy keyed) fuel chunks keyed

theorem drainFor_of_error {state : HaveData CnKey Id K S} {position : Nat} (failed : state.error = some position)
    (fuel : Nat) : state.drainFor crypto fuel = ([], state) := by
  cases fuel <;> simp [drainFor, next_of_error crypto state failed]

/-- With a call per buffered byte and one more, the drain ends with no complete frame buffered,
unless a decrypt failed. -/
theorem drainFor_exhausted (crypto : Crypto Id K) (fuel : Nat) (state : HaveData CnKey Id K S) (enough : state.inner.buffer.data.length < fuel)
    (clean : (state.drainFor crypto fuel).2.error = none) :
    (state.drainFor crypto fuel).2.inner.buffer.haveChunk = none := by
  induction fuel generalizing state with
  | zero => cases enough
  | succ fuel ih =>
    rcases next_cases crypto state with
      ⟨same, stopped⟩ | ⟨chunk, plain, next, -, found, -, same⟩ | ⟨chunk, -, -, -, same⟩
    · rw [drainFor, same] at clean ⊢
      simp only at clean ⊢
      rcases stopped with failed | missing
      · simp [clean] at failed
      · exact missing
    · rw [drainFor, same] at clean ⊢
      simp only at clean ⊢
      have split := firstChunk_append_drop found
      have shorter := congrArg List.length split.1
      simp only [List.length_append] at shorter
      exact ih _ (by simp only [Buffer.afterChunk, List.length_drop]; omega) clean
    · rw [drainFor, same] at clean
      split at clean <;> rename_i stepped <;> obtain ⟨-, rfl⟩ := Prod.mk.inj stepped <;>
        simp [drainFor_of_error] at clean

end HaveData

namespace Half

variable {cnKey : CnKey} {key : K} {stream : Bytes} {chunks : List (ChunkItem CnKey)}

/-- The keyed invariant of a direction after a successful rendezvous with key `key`: `stream` is
what it was handed after its connection message and `chunks` what it emitted after it. -/
def KeyedBy (crypto : Crypto Id K) (cnKey : CnKey) (key : K) (stream : Bytes) (chunks : List (ChunkItem CnKey)) :
    Half CnKey Id K S → Prop
  | .haveKey state =>
    Keyed crypto.decrypt cnKey S key stream chunks state.inner.buffer state.key ∧ state.inner.cn.key = cnKey
  | .cannotDecrypt _ => Failed crypto.decrypt cnKey S key stream chunks
  | _ => False

/-- `handle_data`, the drain and `over()` keep the invariant. -/
theorem deliver_keyedBy {state : HaveKey CnKey Id K S} (keyed : (Half.haveKey state).KeyedBy crypto cnKey key stream chunks)
    (payload : Bytes) :
    (deliver crypto state payload).1.KeyedBy crypto cnKey key (stream ++ payload)
      (chunks ++ (deliver crypto state payload).2.chunks) := by
  have handed : (state.handleData payload).KeyedBy crypto cnKey key (stream ++ payload) chunks :=
    ⟨keyed.1.handleData payload, keyed.2⟩
  have drained := HaveData.drainFor_keyedBy handed ((state.handleData payload).inner.buffer.remaining + 1)
  unfold deliver HaveData.drain
  generalize (state.handleData payload).drainFor crypto _ = result at drained
  obtain ⟨emitted, data⟩ := result
  unfold HaveData.KeyedBy at drained
  cases failed : data.error <;> simp only [failed] at drained <;> simpa [HaveData.over, failed, KeyedBy] using drained

/-- After a delivery that ends keyed, no complete frame is left in the buffer. -/
theorem deliver_exhausted {state next : HaveKey CnKey Id K S} {payload : Bytes}
    (delivered : (deliver crypto state payload).1 = .haveKey next) : next.inner.buffer.haveChunk = none := by
  have exhausted := HaveData.drainFor_exhausted crypto ((state.handleData payload).inner.buffer.remaining + 1)
    (state.handleData payload) (Nat.lt_succ_self _)
  unfold deliver HaveData.drain at delivered
  generalize (state.handleData payload).drainFor crypto _ = result at delivered exhausted
  obtain ⟨emitted, data⟩ := result
  cases failed : data.error <;> simp [HaveData.over, failed] at delivered
  subst delivered
  exact exhausted failed

theorem step_keyedBy {half next : Half CnKey Id K S} {event : Event K} {out : Emitted CnKey}
    (keyed : half.KeyedBy crypto cnKey key stream chunks) (stepped : half.step crypto event = some (next, out)) :
    next.KeyedBy crypto cnKey key (stream ++ event.payload) (chunks ++ out.chunks) := by
  cases half with
  | haveKey state =>
    cases event with
    | data payload =>
      simp only [step, Option.some.injEq] at stepped
      have kept := deliver_keyedBy keyed payload
      rw [stepped] at kept
      exact kept
    | uncertain | haveKey _ | haveNotKey | cn => cases stepped; simpa [Event.payload] using keyed
  | cannotDecrypt state =>
    cases event with
    | data payload =>
      obtain ⟨chunk, inner, flushed, rfl, rfl⟩ := step_cannotDecrypt_data stepped
      exact keyed.append payload (by simp [Inner.flush_raw flushed])
    | uncertain | haveKey _ | haveNotKey | cn => cases stepped; simpa [Event.payload] using keyed
  | initial | haveCm | uncertain | haveNotKey => exact keyed.elim

theorem run_keyedBy {half final : Half CnKey Id K S} {events : List (Event K)} {out : Emitted CnKey}
    (keyed : half.KeyedBy crypto cnKey key stream chunks) (ran : half.run crypto events = some (final, out)) :
    final.KeyedBy crypto cnKey key (stream ++ delivered events) (chunks ++ out.chunks) := by
  induction events generalizing half stream chunks out with
  | nil => cases ran; simpa using keyed
  | cons event events ih =>
    obtain ⟨next, first, rest, stepped, tail, rfl⟩ := run_cons_eq_some.mp ran
    simpa using ih (step_keyedBy keyed stepped) tail

/-- A keyed run whose last call is a delivery and that ends keyed leaves no complete frame. -/
theorem run_exhausted {half : Half CnKey Id K S} {init : List (Event K)} {payload : Bytes}
    {keyed : HaveKey CnKey Id K S} {out : Emitted CnKey} (start : half.KeyedBy crypto cnKey key stream chunks)
    (ran : half.run crypto (init ++ [.data payload]) = some (.haveKey keyed, out)) :
    keyed.inner.buffer.haveChunk = none := by
  obtain ⟨mid, midOut, lastOut, midRan, last, -⟩ := run_append_eq_some ran
  obtain ⟨final, stepOut, _, stepped, ended, -⟩ := run_cons_eq_some.mp last
  cases ended
  cases mid with
  | haveKey state =>
    simp only [step, Option.some.injEq] at stepped
    exact deliver_exhausted (congrArg Prod.fst stepped)
  | cannotDecrypt state =>
    simp only [step, Option.map_eq_some'] at stepped
    obtain ⟨_, _, ⟨⟩⟩ := stepped
  | initial | haveCm | uncertain | haveNotKey => exact (run_keyedBy start midRan).elim

end Half

/-- `have_key` at the rendezvous: the connection message goes out under counter zero and the
direction is keyed with nothing processed yet. -/
theorem HaveCm.haveKey_keyedBy {state : HaveCm CnKey Id S} {key : K} {next : Half CnKey Id K S} {out : Emitted CnKey}
    (fresh : state.inner.buffer.counter = 0) (stepped : (Half.haveCm state).step crypto (.haveKey key) = some (next, out)) :
    ∃ f0, state.inner.buffer.haveChunk = some f0 ∧ out.chunks = [state.inner.chunk 0 f0 (f0.drop 2)] ∧
      next.KeyedBy crypto state.inner.cn.key key (state.inner.buffer.data.drop f0.length) [] := by
  cases found : state.inner.buffer.haveChunk with
  | none => simp [Half.step, HaveCm.haveKey, Buffer.next_of_haveChunk_none found] at stepped
  | some f0 =>
    simp only [Half.step, HaveCm.haveKey_of_haveChunk found, Option.map_some', Option.some.injEq,
      Prod.mk.injEq] at stepped
    obtain ⟨rfl, rfl⟩ := stepped
    refine ⟨f0, rfl, by rw [fresh], ⟨[], by simp, rfl, by simp [Buffer.afterChunk, fresh], rfl⟩, rfl⟩

/-- What a keyed direction's run does, from the frames `f0 :: processed ++ later` of its whole
stream: it emitted its connection message, the frames of `processed` decrypted in order with the
key each call left, and then only chunks without plaintext. It is either still keyed, with the key
of the last call, the counter after the last frame and exactly `later` and the partial frame
buffered, `later` empty after a delivery; or it failed on the first frame of `later`. -/
def KeyedRunSpec (crypto : Crypto Id K) (cnKey : CnKey) (key : K) (stream : Bytes) (post : List (Event K))
    (final : Half CnKey Id K S) (chunks : List (ChunkItem CnKey)) : Prop :=
  ∃ f0 processed later rest decrypted raws,
    splitFrames stream = (f0 :: processed ++ later, rest) ∧
    chunks = ⟨cnKey, S, 0, f0, f0.drop 2⟩ :: decrypted ++ raws ∧ (∀ chunk ∈ raws, chunk.plain = []) ∧
    ((∃ keyed, final = .haveKey keyed ∧
        decryptedChunks crypto.decrypt cnKey S 1 key processed = (decrypted, some keyed.key) ∧ raws = [] ∧
        keyed.inner.buffer = ⟨later.flatten ++ rest, processed.length + 1⟩ ∧
        ∀ init payload, post = init ++ [.data payload] → later = []) ∨
      ∃ failed failing, final = .cannotDecrypt failed ∧ later.head? = some failing ∧
        decryptedChunks crypto.decrypt cnKey S 1 key (processed ++ [failing]) = (decrypted, none))

/-- From a `HaveCm` holding `bytes` with no chunk numbered yet, the run from the rendezvous on does
what `KeyedRunSpec` says over `bytes` and what the later calls deliver, for every outcome of every
decrypt. -/
theorem HaveCm.run_keyedRunSpec {cn : ConnectionItem CnKey} {id : Id} {bytes : Bytes} {post : List (Event K)}
    {key : K} {state : HaveCm CnKey Id S} {final : Half CnKey Id K S} {out : Emitted CnKey}
    (inner : state.inner = ⟨cn, id, ⟨bytes, 0⟩⟩)
    (ran : (Half.haveCm state).run crypto (.haveKey key :: post) = some (final, out)) :
    KeyedRunSpec crypto cn.key key (bytes ++ delivered post) post final out.chunks := by
  obtain ⟨next, first, rest, stepped, tail, rfl⟩ := Half.run_cons_eq_some.mp ran
  obtain ⟨f0, found, firstChunks, started⟩ := HaveCm.haveKey_keyedBy (by rw [inner]) stepped
  have ended := Half.run_keyedBy started tail
  rw [inner] at found firstChunks ended
  dsimp only at found firstChunks ended
  have isFrame := firstChunk_self found
  have stream : bytes ++ delivered post = f0 ++ (bytes.drop f0.length ++ delivered post) := by
    rw [← List.append_assoc, (firstChunk_append_drop found).1]
  cases final with
  | haveKey keyed =>
    obtain ⟨⟨processed, frames, streamEq, counted, chain⟩, -⟩ := ended
    have split := splitFrames_frames_append (f0 :: processed)
      (by simpa [or_imp, forall_and] using And.intro isFrame frames) keyed.inner.buffer.data
    refine ⟨f0, processed, (splitFrames keyed.inner.buffer.data).1, (splitFrames keyed.inner.buffer.data).2,
      rest.chunks, [], by rw [stream, streamEq]; simpa using split, by simp [firstChunks, Inner.chunk], by simp,
      .inl ⟨keyed, rfl, by simpa using chain, rfl, by rw [splitFrames_flatten, ← counted], ?_⟩⟩
    rintro init payload rfl
    simp [splitFrames_of_firstChunk_none (Half.run_exhausted started tail)]
  | cannotDecrypt failed =>
    obtain ⟨processed, failing, tailBytes, decrypted, raws, frames, streamEq, chain, chunksEq, raw⟩ := ended
    have split := splitFrames_frames_append (f0 :: (processed ++ [failing]))
      (by simpa [or_imp, forall_and] using And.intro isFrame frames) tailBytes
    simp only [List.nil_append] at chunksEq
    exact ⟨f0, processed, failing :: (splitFrames tailBytes).1, (splitFrames tailBytes).2, decrypted, raws,
      by rw [stream, streamEq]; simpa using split, by simp [firstChunks, chunksEq, Inner.chunk], raw,
      .inr ⟨failed, failing, rfl, rfl, chain⟩⟩
  | initial | haveCm | uncertain | haveNotKey => exact ended.elim

/-- For every slicing of a direction's stream and every rendezvous point after its connection
message is buffered, the run from the rendezvous on does what `KeyedRunSpec` says, for every
outcome of every decrypt. -/
theorem keyed_run_decrypts_frames {cn : ConnectionItem CnKey} {id : Id} {pre post : List (Event K)} {key : K}
    {state : HaveCm CnKey Id S} {preOut : Emitted CnKey} {final : Half CnKey Id K S} {out : Emitted CnKey}
    (rendezvous : (Half.initial (Initial.new cn id)).run crypto pre = some (.haveCm state, preOut))
    (ran : (Half.haveCm state).run crypto (.haveKey key :: post) = some (final, out)) :
    KeyedRunSpec crypto cn.key key (delivered (pre ++ post)) post final out.chunks := by
  rw [delivered_append]
  exact HaveCm.run_keyedRunSpec (Half.run_new_of_pre rendezvous trivial).1 ran

/-- Keys derive and every decrypt succeeds, giving the frame's body. -/
def decryptBodies : Crypto Unit Unit := ⟨fun _ _ _ _ => some ((), ()), fun _ frame => some (frame.drop 2, ()), fun _ _ => true⟩

theorem keyed_run_decrypts_frames_sample :
    ∃ state preOut final out,
      (Half.initial (Initial.new { key := (), initiator := false } ()) : Half Unit Unit Unit false).run decryptBodies
          [.data [0, 0, 0, 0]] = some (.haveCm state, preOut) ∧
        (Half.haveCm state).run decryptBodies [.haveKey (), .data [0, 1, 9]] = some (final, out) ∧
        KeyedRunSpec decryptBodies () () (delivered ([Event.data [0, 0, 0, 0]] ++ [(.data [0, 1, 9] : Event Unit)]))
          [.data [0, 1, 9]]
          final out.chunks :=
  ⟨_, _, _, _, rfl, rfl, keyed_run_decrypts_frames rfl rfl⟩

end TezedgeDebugger.ChunkParser
