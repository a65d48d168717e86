import TezedgeDebugger.ChunkParser.Direction

/-!
# Before the rendezvous

A direction is `Initial` or `HaveCm` until `make_key` finishes it. In those two states nothing is
emitted and every payload is appended (`run_of_pre`): the buffer is exactly the captured stream,
under counter zero, and the record and identity are those the direction was created with
(`run_new_of_pre`). No state after the rendezvous leads back (`run_not_pre`).

The 128 KiB guard of `HaveCm::handle_data` reads the residual before the payload is appended, so
what a `HaveCm` state can hold is 131,072 bytes plus the payload last appended
(`run_new_within_pre_limit`), and one payload can take it past 131,072 bytes
(`oversized_first_payload_stays_in_haveCm`).
-/

namespace TezedgeDebugger.ChunkParser

variable {CnKey Id K : Type} {S : Bool} {crypto : Crypto Id K}

namespace Half

/-- `Initial` or `HaveCm`: the rendezvous has not happened. -/
def IsPre : Half CnKey Id K S → Prop
  | .initial _ | .haveCm _ => True
  | _ => False

theorem step_of_pre {half next : Half CnKey Id K S} {event : Event K} {out : Emitted CnKey}
    (pre : half.IsPre) (stepped : half.step crypto event = some (next, out)) (stays : next.IsPre) :
    next.inner = half.inner.handleData event.payload ∧ out = {} := by
  cases half with
  | initial state =>
    cases event with
    | data payload =>
      by_cases complete : (state.inner.handleData payload).buffer.haveChunk.isSome <;>
        simp only [step, Initial.handleData, complete, if_true, if_false, Bool.false_eq_true,
          Option.some.injEq, Prod.mk.injEq] at stepped <;>
        (obtain ⟨rfl, rfl⟩ := stepped; exact ⟨rfl, rfl⟩)
    | uncertain => cases stepped; exact stays.elim
    | haveKey _ | haveNotKey | cn => cases stepped; simp [Event.payload]
  | haveCm state =>
    cases event with
    | data payload =>
      by_cases overflow : state.inner.buffer.remaining > 0x20000 <;>
        simp only [step, HaveCm.handleData, overflow, if_true, if_false, Option.some.injEq,
          Prod.mk.injEq] at stepped
      · obtain ⟨rfl, -⟩ := stepped; exact stays.elim
      · obtain ⟨rfl, rfl⟩ := stepped; exact ⟨rfl, rfl⟩
    | haveKey _ =>
      simp only [step, Option.map_eq_some'] at stepped
      obtain ⟨_, _, stepped⟩ := stepped
      cases stepped; exact stays.elim
    | haveNotKey => cases stepped; exact stays.elim
    | uncertain | cn => cases stepped; simp [Event.payload]
  | uncertain | haveKey | haveNotKey | cannotDecrypt => exact pre.elim

theorem step_not_pre {half next : Half CnKey Id K S} {event : Event K} {out : Emitted CnKey}
    (post : ¬half.IsPre) (stepped : half.step crypto event = some (next, out)) : ¬next.IsPre := by
  match half, event with
  | .initial _, _ | .haveCm _, _ => exact (post trivial).elim
  | .uncertain _, .data _ | .haveNotKey _, .data _ | .cannotDecrypt _, .data _ =>
    simp only [step, Option.map_eq_some'] at stepped
    obtain ⟨_, _, stepped⟩ := stepped
    cases stepped; exact id
  | .haveKey state, .data payload =>
    simp only [step, deliver, Option.some.injEq] at stepped
    split at stepped <;> (cases stepped; exact id)
  | .uncertain _, .uncertain | .uncertain _, .haveKey _ | .uncertain _, .haveNotKey
  | .uncertain _, .cn | .haveKey _, .uncertain | .haveKey _, .haveKey _ | .haveKey _, .haveNotKey
  | .haveKey _, .cn | .haveNotKey _, .uncertain | .haveNotKey _, .haveKey _
  | .haveNotKey _, .haveNotKey | .haveNotKey _, .cn | .cannotDecrypt _, .uncertain
  | .cannotDecrypt _, .haveKey _ | .cannotDecrypt _, .haveNotKey | .cannotDecrypt _, .cn =>
    cases stepped; exact post

theorem run_not_pre {half final : Half CnKey Id K S} {events : List (Event K)} {out : Emitted CnKey}
    (post : ¬half.IsPre) (ran : half.run crypto events = some (final, out)) : ¬final.IsPre := by
  induction events generalizing half out with
  | nil => cases ran; exact post
  | cons event events ih =>
    obtain ⟨next, _, _, stepped, rest, -⟩ := run_cons_eq_some.mp ran
    exact ih (step_not_pre post stepped) rest

/-- Before the rendezvous every payload is appended and nothing is emitted. -/
theorem run_of_pre {half final : Half CnKey Id K S} {events : List (Event K)} {out : Emitted CnKey}
    (pre : half.IsPre) (ran : half.run crypto events = some (final, out)) (stays : final.IsPre) :
    final.inner = half.inner.handleData (delivered events) ∧ out = {} := by
  induction events generalizing half out with
  | nil => cases ran; simp
  | cons event events ih =>
    obtain ⟨next, first, rest, stepped, tail, rfl⟩ := run_cons_eq_some.mp ran
    have nextPre : next.IsPre := Classical.byContradiction fun post => run_not_pre post tail stays
    obtain ⟨inner, rfl⟩ := step_of_pre pre stepped nextPre
    obtain ⟨innerRest, rfl⟩ := ih nextPre tail
    simp [inner, innerRest, Inner.handleData_append]

theorem run_new_of_pre {cn : ConnectionItem CnKey} {id : Id} {final : Half CnKey Id K S}
    {events : List (Event K)} {out : Emitted CnKey}
    (ran : (Half.initial (Initial.new cn id)).run crypto events = some (final, out)) (stays : final.IsPre) :
    final.inner = ⟨cn, id, ⟨delivered events, 0⟩⟩ ∧ out = {} := by
  obtain ⟨inner, rfl⟩ := run_of_pre (show (Half.initial (Initial.new cn id)).IsPre from trivial) ran stays
  exact ⟨inner.trans rfl, rfl⟩

/-- What a direction may hold before its rendezvous, given the length of the payload it was last
handed: an `Initial` state holds no complete chunk, a `HaveCm` state passed the 128 KiB guard before
that payload was appended. -/
def WithinPreLimit (last : Nat) : Half CnKey Id K S → Prop
  | .initial state => state.inner.buffer.remaining ≤ 65536
  | .haveCm state => state.inner.buffer.remaining ≤ 0x20000 + last
  | _ => True

theorem withinPreLimit_of_not_pre {half : Half CnKey Id K S} (post : ¬half.IsPre) (last : Nat) :
    half.WithinPreLimit last := by
  cases half <;> first | exact (post trivial).elim | trivial

end Half

/-- The length of the payload a call hands over, `previous` for a call without one. -/
def Event.payloadLength (previous : Nat) : Event K → Nat
  | .data payload => payload.length
  | _ => previous

/-- The length of the payload last delivered, `previous` when there is none. -/
def lastPayloadLength (previous : Nat) (events : List (Event K)) : Nat :=
  events.foldl (fun last event => event.payloadLength last) previous

namespace Half

theorem step_within_pre_limit {half next : Half CnKey Id K S} {event : Event K} {out : Emitted CnKey}
    {last : Nat} (within : half.WithinPreLimit last) (stepped : half.step crypto event = some (next, out)) :
    next.WithinPreLimit (event.payloadLength last) := by
  cases half with
  | initial state =>
    cases event with
    | data payload =>
      rw [step_initial_data] at stepped
      split_ifs at stepped with complete <;> obtain ⟨⟨⟩⟩ := stepped
      · simp only [WithinPreLimit, Event.payloadLength, Buffer.remaining, Inner.handleData_buffer,
          Buffer.handleData_data, List.length_append] at within ⊢
        omega
      · exact length_le_of_firstChunk_none (Option.not_isSome_iff_eq_none.mp complete)
    | uncertain => cases stepped; trivial
    | haveKey _ | haveNotKey | cn => cases stepped; exact within
  | haveCm state =>
    cases event with
    | data payload =>
      rw [step_haveCm_data] at stepped
      split_ifs at stepped with overflow <;> obtain ⟨⟨⟩⟩ := stepped
      · trivial
      · simp only [WithinPreLimit, Event.payloadLength, Buffer.remaining, Inner.handleData_buffer,
          Buffer.handleData_data, List.length_append] at overflow ⊢
        omega
    | haveKey _ =>
      simp only [step, Option.map_eq_some'] at stepped
      obtain ⟨_, _, ⟨⟩⟩ := stepped
      trivial
    | haveNotKey => cases stepped; trivial
    | uncertain | cn => cases stepped; exact within
  | uncertain | haveKey | haveNotKey | cannotDecrypt =>
    exact withinPreLimit_of_not_pre (step_not_pre id stepped) _

theorem run_within_pre_limit {half final : Half CnKey Id K S} {events : List (Event K)}
    {out : Emitted CnKey} {last : Nat} (within : half.WithinPreLimit last)
    (ran : half.run crypto events = some (final, out)) :
    final.WithinPreLimit (lastPayloadLength last events) := by
  induction events generalizing half out last with
  | nil => cases ran; exact within
  | cons event events ih =>
    obtain ⟨next, first, rest, stepped, tail, rfl⟩ := run_cons_eq_some.mp ran
    exact ih (step_within_pre_limit within stepped) tail

end Half

/-- Before its rendezvous a direction holds at most 65,536 bytes while `Initial` and at most
131,072 bytes plus the payload last delivered while `HaveCm`: the guard reads the residual before
appending, and the payload that completes the first chunk is kept whole. -/
theorem run_new_within_pre_limit (cn : ConnectionItem CnKey) (id : Id) (events : List (Event K))
    {final : Half CnKey Id K S} {out : Emitted CnKey}
    (ran : (Half.initial (Initial.new cn id)).run crypto events = some (final, out)) :
    (∀ state, final = .initial state → state.inner.buffer.remaining ≤ 65536) ∧
      (∀ state, final = .haveCm state →
        state.inner.buffer.remaining ≤ 0x20000 + lastPayloadLength 0 events) := by
  have empty : (Half.initial (Initial.new cn id) : Half CnKey Id K S).WithinPreLimit 0 := by
    simp [Half.WithinPreLimit, Initial.new, Buffer.remaining, Buffer.empty]
  have within := Half.run_within_pre_limit empty ran
  exact ⟨fun state same => by subst same; exact within, fun state same => by subst same; exact within⟩

theorem firstChunk_empty_message (rest : Bytes) : firstChunk (0 :: 0 :: rest) = some [0, 0] := by
  simp only [firstChunk, show chunkLength 0 0 = 0 from rfl, Nat.zero_le, if_true, List.take_zero]

/-- A first payload that starts with an empty connection message is kept whole in `HaveCm`. -/
theorem run_empty_message (rest : Bytes) :
    initialHalf.run decryptNothing [.data (0 :: 0 :: rest)] =
      some (.haveCm ⟨⟨{ key := (), initiator := false }, (), ⟨0 :: 0 :: rest, 0⟩⟩⟩, {}) := by
  have complete : ((Initial.new { key := (), initiator := false } () : Initial Unit Unit false).inner.handleData
      (0 :: 0 :: rest)).buffer.haveChunk.isSome := by
    simp only [Initial.new, Inner.handleData_buffer, Buffer.handleData, Buffer.empty, Buffer.haveChunk,
      List.nil_append, firstChunk_empty_message, Option.isSome_some]
  simp only [initialHalf, Half.run, Half.step_initial_data, if_pos complete, Option.some_bind,
    Option.map_some', Emitted.append_nil]
  rfl

/-- One payload of 131,073 bytes leaves all of them buffered in `HaveCm`. -/
theorem oversized_first_payload_stays_in_haveCm :
    ∃ state, initialHalf.run decryptNothing [.data (0 :: 0 :: List.replicate 131071 0)] =
      some (.haveCm state, {}) ∧ 0x20000 < state.inner.buffer.remaining :=
  ⟨_, run_empty_message _, by
    show 0x20000 < (0 :: 0 :: List.replicate 131071 (0 : UInt8)).length
    rw [List.length_cons, List.length_cons, List.length_replicate]
    omega⟩

theorem run_new_within_pre_limit_sample :
    ∃ final out, initialHalf.run decryptNothing [.data [0, 0, 5]] = some (final, out) ∧
      (∀ state, final = .initial state → state.inner.buffer.remaining ≤ 65536) ∧
      (∀ state, final = .haveCm state →
        state.inner.buffer.remaining ≤ 0x20000 + lastPayloadLength 0 [(Event.data [0, 0, 5] : Event Unit)]) :=
  ⟨_, _, run_empty_message [5], run_new_within_pre_limit _ _ _ (run_empty_message [5])⟩

end TezedgeDebugger.ChunkParser
