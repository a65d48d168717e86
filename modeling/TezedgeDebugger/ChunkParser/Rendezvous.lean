import TezedgeDebugger.ChunkParser.Connection

/-!
# The rendezvous

A `HaveCm` half always holds a complete first chunk (`Half.ready`): `Initial::handle_data` moves
there only when `have_chunk` finds one, and appending keeps it. So the unwraps of `make_key` and
`have_key` hold, and with every payload non-empty, as the `debug_assert!`s of the flushing states
require, no call of a connection run panics (`Conn.run_new_total`).

At the rendezvous `make_key` hands `Keys::new` the first frames of the two captured streams, runs
the soft checks on them and emits them under counter zero (`Conn.makeKey_reads_first_frames`):
what it derives depends on those frames, the identity and the initiator flag, never on how the
streams were sliced or which half was complete first.
-/

namespace TezedgeDebugger.ChunkParser

variable {CnKey Id K : Type} {S : Bool} {crypto : Crypto Id K}

/-- The precondition of the `debug_assert!`s of the flushing states: a payload is not empty. -/
def Call.nonempty : Call → Bool
  | .data payload => !payload.isEmpty
  | _ => true

def ConnEvent.nonempty : ConnEvent → Bool
  | .call _ request => request.nonempty
  | .makeKey => true

namespace Half

/-- A `HaveCm` half holds a complete first chunk. -/
def ready : Half CnKey Id K S → Bool
  | .haveCm state => state.inner.buffer.haveChunk.isSome
  | _ => true

theorem ready_of_not_pre {half : Half CnKey Id K S} (post : ¬half.IsPre) : half.ready := by
  cases half <;> first | exact (post trivial).elim | rfl

theorem ofKeyResult_ready (result : Except (HaveNotKey CnKey Id S) (HaveKey CnKey Id K S)) :
    (ofKeyResult result).ready := by
  cases result <;> rfl

theorem step_ready {half next : Half CnKey Id K S} {event : Event K} {out : Emitted CnKey}
    (ready : half.ready) (stepped : half.step crypto event = some (next, out)) : next.ready := by
  cases half with
  | initial state =>
    cases event with
    | data payload =>
      rw [step_initial_data] at stepped
      split_ifs at stepped with complete <;> obtain ⟨⟨⟩⟩ := stepped
      · exact complete
      · rfl
    | uncertain | haveKey _ | haveNotKey | cn => cases stepped; rfl
  | haveCm state =>
    cases event with
    | data payload =>
      rw [step_haveCm_data] at stepped
      split_ifs at stepped <;> obtain ⟨⟨⟩⟩ := stepped
      · rfl
      · obtain ⟨chunk, found⟩ := Option.isSome_iff_exists.mp ready
        simp [Half.ready, Buffer.haveChunk_handleData found]
    | haveKey _ =>
      simp only [step, Option.map_eq_some'] at stepped
      obtain ⟨_, _, ⟨⟩⟩ := stepped
      rfl
    | haveNotKey => cases stepped; rfl
    | uncertain | cn => cases stepped; exact ready
  | uncertain | haveKey | haveNotKey | cannotDecrypt => exact ready_of_not_pre (step_not_pre id stepped)

/-- A call the coordinator may make never panics on a non-empty payload; only the flushing states
need it non-empty. -/
theorem step_isSome (half : Half CnKey Id K S) {call : Call} (nonempty : call.nonempty) :
    (half.step crypto call.toEvent).isSome := by
  cases call with
  | uncertain | cn => cases half <;> rfl
  | data payload =>
    have filled : payload ≠ [] := by simpa [Call.nonempty] using nonempty
    cases half with
    | initial state => simp [Call.toEvent, step_initial_data]
    | haveCm state => simp [Call.toEvent, step_haveCm_data]
    | haveKey state => rfl
    | uncertain state => simp [Call.toEvent, step, Uncertain.handleData, Inner.flush_of_ne_nil _ filled]
    | haveNotKey state => simp [Call.toEvent, step, HaveNotKey.handleData, Inner.flush_of_ne_nil _ filled]
    | cannotDecrypt state =>
      simp [Call.toEvent, step, CannotDecrypt.handleData, Inner.flush_of_ne_nil _ filled]

end Half

theorem MakeKeyOutput.halves_ready (out : MakeKeyOutput CnKey Id K) (side : Bool) : (out.halves side).ready := by
  cases side <;> exact Half.ofKeyResult_ready _

/-- The rendezvous as the spec describes it, read from the two captured streams alone: `Keys::new`
and the soft checks get their first frames. With keys both frames are emitted under counter zero
with their bodies as plaintext and each half keeps the rest of its stream; without keys each half
flushes its whole stream and the record gets `outgoing_wrong_pk`. -/
def rendezvousSpec (crypto : Crypto Id K) (cn : ConnectionItem CnKey) (id : Id) (localStream remoteStream : Bytes) :
    Option (MakeKeyOutput CnKey Id K) := do
  let fl ← firstChunk localStream
  let fr ← firstChunk remoteStream
  match crypto.keysNew id fl fr cn.initiator with
  | some (kl, kr) =>
    let cl ← check crypto fl
    let cr ← check crypto fr
    pure ⟨stampRemote (stampLocal cn cl) cr,
      .ok ⟨⟨cn, id, ⟨localStream.drop fl.length, 1⟩⟩, kl⟩, some ⟨cn.key, false, 0, fl, fl.drop 2⟩,
      .ok ⟨⟨cn, id, ⟨remoteStream.drop fr.length, 1⟩⟩, kr⟩, some ⟨cn.key, true, 0, fr, fr.drop 2⟩⟩
  | none =>
    pure ⟨cn.addComment fun c => { c with outgoingWrongPk := true },
      .error ⟨⟨cn, id, ⟨[], 1⟩⟩⟩, some ⟨cn.key, false, 0, localStream, []⟩,
      .error ⟨⟨cn, id, ⟨[], 1⟩⟩⟩, some ⟨cn.key, true, 0, remoteStream, []⟩⟩

namespace Conn

theorem step_ready {conn next : Conn CnKey Id K} {event : ConnEvent} {out : ConnOut CnKey}
    (ready : ∀ side, (conn.half side).ready) (stepped : conn.step crypto event = some (next, out)) :
    ∀ side, (next.half side).ready := by
  cases event with
  | call called call =>
    simp only [step, Option.map_eq_some', Prod.mk.injEq] at stepped
    obtain ⟨⟨half, o⟩, halfStep, rfl, rfl⟩ := stepped
    intro side
    by_cases mine : side = called
    · subst mine
      simpa using Half.step_ready (ready side) halfStep
    · simpa [Function.update_noteq mine] using ready side
  | makeKey =>
    simp only [step] at stepped
    split at stepped
    · simp only [Option.map_eq_some', Prod.mk.injEq] at stepped
      obtain ⟨made, -, rfl, rfl⟩ := stepped
      exact made.halves_ready
    · cases stepped
      exact ready

theorem new_ready (cn : ConnectionItem CnKey) (id : Id) : ∀ side, ((Conn.new cn id : Conn CnKey Id K).half side).ready :=
  fun _ => rfl

theorem run_ready {conn final : Conn CnKey Id K} {events : List ConnEvent} {out : ConnOut CnKey}
    (ready : ∀ side, (conn.half side).ready) (ran : conn.run crypto events = some (final, out)) :
    ∀ side, (final.half side).ready := by
  induction events generalizing conn out with
  | nil => cases ran; exact ready
  | cons event events ih =>
    obtain ⟨next, first, rest, stepped, tail, -⟩ := run_cons_eq_some.mp ran
    exact ih (step_ready ready stepped) tail

/-- `make_key` finds both first chunks, so only an empty payload to a flushing state can panic. -/
theorem step_isSome (conn : Conn CnKey Id K) (ready : ∀ side, (conn.half side).ready) {event : ConnEvent}
    (nonempty : event.nonempty) : (conn.step crypto event).isSome := by
  cases event with
  | call side call =>
    have stepped : ((conn.half side).step crypto call.toEvent).isSome := (conn.half side).step_isSome nonempty
    simpa [step] using stepped
  | makeKey =>
    simp only [step]
    split
    · rename_i l r lHere rHere
      have lReady := ready false
      have rReady := ready true
      rw [lHere] at lReady
      rw [rHere] at rReady
      obtain ⟨lc, lfound⟩ := Option.isSome_iff_exists.mp lReady
      obtain ⟨rc, rfound⟩ := Option.isSome_iff_exists.mp rReady
      simpa using HaveCm.makeKey_isSome crypto lfound rfound
    · rfl

theorem run_isSome (conn : Conn CnKey Id K) (ready : ∀ side, (conn.half side).ready) {events : List ConnEvent}
    (nonempty : ∀ event ∈ events, event.nonempty) : ∃ final out, conn.run crypto events = some (final, out) := by
  induction events generalizing conn with
  | nil => exact ⟨conn, {}, rfl⟩
  | cons event events ih =>
    obtain ⟨⟨next, first⟩, stepped⟩ :=
      Option.isSome_iff_exists.mp (conn.step_isSome ready (nonempty event (List.mem_cons_self _ _)))
    obtain ⟨final, rest, tail⟩ := ih next (step_ready ready stepped)
      (fun event member => nonempty event (List.mem_cons_of_mem _ member))
    exact ⟨final, first ++ rest, run_cons_eq_some.mpr ⟨next, first, rest, stepped, tail, rfl⟩⟩

/-- A connection run in which no payload is empty never panics, and every `HaveCm` half it reaches
holds a complete first chunk. -/
theorem run_new_total (cn : ConnectionItem CnKey) (id : Id) (events : List ConnEvent)
    (nonempty : ∀ event ∈ events, event.nonempty) :
    ∃ final out, (Conn.new cn id : Conn CnKey Id K).run crypto events = some (final, out) ∧
      ∀ side state, final.half side = .haveCm state → ∃ chunk, state.inner.buffer.haveChunk = some chunk := by
  obtain ⟨final, out, ran⟩ := run_isSome _ (new_ready cn id) nonempty
  refine ⟨final, out, ran, fun side state here => Option.isSome_iff_exists.mp ?_⟩
  simpa [here] using run_ready (Conn.new_ready cn id) ran side

/-- A half still `HaveCm` after a run holds the whole stream it was handed under counter zero, and
the first frame of that stream is complete. -/
theorem haveCm_holds_stream {cn : ConnectionItem CnKey} {id : Id} {events : List ConnEvent}
    {final : Conn CnKey Id K} {out : ConnOut CnKey} (ran : (Conn.new cn id).run crypto events = some (final, out))
    (side : Bool) {state : HaveCm CnKey Id side} (here : final.half side = .haveCm state) :
    state.inner = ⟨cn, id, ⟨delivered (callsTo side events : List (Event K)), 0⟩⟩ ∧
      ∃ frame, state.inner.buffer.haveChunk = some frame := by
  obtain ⟨calls, _, halfRan, same, -⟩ := run_half side ran
  have ready := run_ready (Conn.new_ready cn id) ran side
  rw [here] at halfRan ready
  exact ⟨same ▸ (Half.run_new_of_pre halfRan trivial).1, Option.isSome_iff_exists.mp ready⟩

/-- Whatever the slicing of the two streams and the order of the deliveries, once both halves are
`HaveCm` `make_key` does not panic and does what `rendezvousSpec` reads off the two streams. -/
theorem makeKey_reads_first_frames {cn : ConnectionItem CnKey} {id : Id} {events : List ConnEvent}
    {final : Conn CnKey Id K} {out : ConnOut CnKey} {l : HaveCm CnKey Id false} {r : HaveCm CnKey Id true}
    (ran : (Conn.new cn id).run crypto events = some (final, out))
    (lHere : final.half false = .haveCm l) (rHere : final.half true = .haveCm r) :
    (l.makeKey crypto r).isSome ∧
      l.makeKey crypto r = rendezvousSpec crypto cn id (delivered (callsTo false events : List (Event K)))
        (delivered (callsTo true events : List (Event K))) := by
  obtain ⟨lInner, fl, lfound⟩ := haveCm_holds_stream ran false lHere
  obtain ⟨rInner, fr, rfound⟩ := haveCm_holds_stream ran true rHere
  obtain ⟨made, madeEq⟩ := Option.isSome_iff_exists.mp (HaveCm.makeKey_isSome crypto lfound rfound)
  refine ⟨by rw [madeEq]; rfl, ?_⟩
  obtain ⟨lc, rc, lfound', rfound', outcome⟩ := HaveCm.makeKey_eq_some madeEq
  obtain rfl : lc = fl := Option.some_inj.mp (lfound'.symm.trans lfound)
  obtain rfl : rc = fr := Option.some_inj.mp (rfound'.symm.trans rfound)
  rw [lInner] at lfound outcome
  rw [rInner] at rfound outcome
  rw [madeEq]
  simp only [rendezvousSpec, show firstChunk _ = some lc from lfound, show firstChunk _ = some rc from rfound,
    Option.bind_eq_bind, Option.some_bind]
  rcases outcome with ⟨kl, kr, cl, cr, keys, lchecked, rchecked, rfl⟩ | ⟨keys, rfl⟩
  · rw [show crypto.keysNew id lc rc cn.initiator = some (kl, kr) from keys]
    simp only [lchecked, rchecked, Option.some_bind, Option.pure_def]
    rfl
  · rw [show crypto.keysNew id lc rc cn.initiator = none from keys,
      Inner.cleanup_of_ne_nil (⟨cn, id, ⟨delivered (callsTo false events : List (Event K)), 0⟩⟩ : Inner CnKey Id false)
        (ne_nil_of_firstChunk lfound),
      Inner.cleanup_of_ne_nil (⟨cn, id, ⟨delivered (callsTo true events : List (Event K)), 0⟩⟩ : Inner CnKey Id true)
        (ne_nil_of_firstChunk rfound)]
    rfl

end Conn

/-- Both halves receive their connection message, the local one in two pieces, then `make_key`
and one more payload on each. -/
def sampleConnRun : List ConnEvent :=
  [.call false (.data [0]), .call true (.data [0, 0, 7]), .call false (.data [0]), .makeKey,
    .call false (.data [0, 0]), .call true (.data [1])]

theorem run_new_total_sample :
    (∀ event ∈ sampleConnRun, event.nonempty) ∧
      ∃ final out, (Conn.new { key := (), initiator := false } () : Conn Unit Unit Unit).run decryptNothing
          sampleConnRun = some (final, out) ∧
        ∀ side state, final.half side = .haveCm state → ∃ chunk, state.inner.buffer.haveChunk = some chunk :=
  ⟨by decide, Conn.run_new_total _ _ _ (by decide)⟩

/-- Both connection messages buffered, the local one from two payloads. -/
def sampleHandshake : List ConnEvent :=
  [.call false (.data [0]), .call true (.data [0, 0, 7]), .call false (.data [0])]

theorem makeKey_reads_first_frames_sample :
    ∃ final out l r, (Conn.new { key := (), initiator := false } () : Conn Unit Unit Unit).run decryptNothing
        sampleHandshake = some (final, out) ∧ final.half false = .haveCm l ∧ final.half true = .haveCm r ∧
      (l.makeKey decryptNothing r).isSome ∧
      l.makeKey decryptNothing r = rendezvousSpec decryptNothing { key := (), initiator := false } ()
        (delivered (callsTo false sampleHandshake : List (Event Unit)))
        (delivered (callsTo true sampleHandshake : List (Event Unit))) :=
by
  refine ⟨_, _, _, _, rfl, rfl, rfl, ?_⟩
  exact Conn.makeKey_reads_first_frames rfl rfl rfl

end TezedgeDebugger.ChunkParser
