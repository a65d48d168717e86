import TezedgeDebugger.ChunkParser.Session

/-!
# Draining `HaveData`

`state.rs` lines 300-329: the coordinator calls `HaveData::next` until it returns `None`. A call
that returns a decrypted chunk has removed a whole frame, so at least its two length bytes
(`firstChunk_append_drop`); a call whose decrypt fails records the counter and flushes the rest,
after which `next` returns `None` at once. So from every state the code builds
(`HaveData.Reachable`), `None` comes at the latest at call `remaining / 2 + 1`
(`HaveData.stops_within`), and from then on nothing moves: the state is `Stopped`, with no complete
frame left unless a decrypt failed, and nothing buffered at all if one did.
-/

namespace TezedgeDebugger.ChunkParser

variable {CnKey Id K : Type} {S : Bool} {crypto : Crypto Id K}

namespace HaveData

/-- The `HaveData` states the code builds: `HaveKey::handle_data` makes them, with no error, and
`next` is the only method that changes one (the fields are private to `state.rs`). -/
inductive Reachable (crypto : Crypto Id K) : HaveData CnKey Id K S → Prop
  | handleData (state : HaveKey CnKey Id K S) (payload : Bytes) : Reachable crypto (state.handleData payload)
  | next {state : HaveData CnKey Id K S} : Reachable crypto state → Reachable crypto (state.next crypto).2

/-- Every state without an error is one `HaveKey::handle_data` builds, whatever its buffer holds. -/
theorem Reachable.of_clean {state : HaveData CnKey Id K S} (clean : state.error = none) :
    state.Reachable crypto := by
  obtain ⟨inner, key, error⟩ := state
  subst clean
  have built : Reachable crypto ((⟨inner, key⟩ : HaveKey CnKey Id K S).handleData []) := .handleData _ _
  simpa [HaveKey.handleData, Inner.handleData, Buffer.handleData] using built

/-- The state after `calls` calls of `next`. -/
def afterCalls (crypto : Crypto Id K) (state : HaveData CnKey Id K S) : Nat → HaveData CnKey Id K S
  | 0 => state
  | calls + 1 => (state.next crypto).2.afterCalls crypto calls

/-- A state `next` no longer changes: it returns `None` and leaves the state as it is. Without an
error no complete frame is buffered; after a failure nothing is. -/
def Stopped (crypto : Crypto Id K) (state : HaveData CnKey Id K S) : Prop :=
  state.next crypto = (none, state) ∧ (state.error = none → state.inner.buffer.haveChunk = none) ∧
    (state.error.isSome → state.inner.buffer.data = [])

theorem afterCalls_succ (state : HaveData CnKey Id K S) (calls : Nat) :
    state.afterCalls crypto (calls + 1) = (state.next crypto).2.afterCalls crypto calls := rfl

theorem afterCalls_add (state : HaveData CnKey Id K S) (first more : Nat) :
    state.afterCalls crypto (first + more) = (state.afterCalls crypto first).afterCalls crypto more := by
  induction first generalizing state with
  | zero => simp [afterCalls]
  | succ first ih => rw [Nat.succ_add, afterCalls_succ, afterCalls_succ, ih]

theorem Stopped.afterCalls {state : HaveData CnKey Id K S} (stopped : state.Stopped crypto) (calls : Nat) :
    state.afterCalls crypto calls = state := by
  induction calls with
  | zero => rfl
  | succ calls ih => simp only [afterCalls_succ, stopped.1, ih]

/-- A failure is recorded only together with the cleanup that empties the buffer. -/
theorem Reachable.failed_empty {state : HaveData CnKey Id K S} (reachable : state.Reachable crypto) :
    state.error.isSome → state.inner.buffer.data = [] := by
  induction reachable with
  | handleData state payload => simp [HaveKey.handleData]
  | @next state _ ih =>
    rcases next_cases crypto state with
      ⟨same, -⟩ | ⟨chunk, plain, key, clean, -, -, same⟩ | ⟨chunk, -, -, -, same⟩ <;> rw [same]
    · exact ih
    · simp [clean]
    · simp [Inner.cleanup_data]

/-- From a state in which a failure left nothing buffered, the call made after `calls` calls
returns `None`, with `calls` at most `remaining / 2`, into a state `next` no longer changes. -/
theorem stops_within {state : HaveData CnKey Id K S} (sound : state.error.isSome → state.inner.buffer.data = []) :
    ∃ calls, calls < state.inner.buffer.remaining / 2 + 1 ∧ ((state.afterCalls crypto calls).next crypto).1 = none ∧
      (state.afterCalls crypto (calls + 1)).Stopped crypto := by
  obtain ⟨remaining, hold⟩ : ∃ remaining, state.inner.buffer.remaining = remaining := ⟨_, rfl⟩
  induction remaining using Nat.strong_induction_on generalizing state with
  | _ remaining ih =>
  rcases next_cases crypto state with
    ⟨same, idle⟩ | ⟨chunk, plain, key, clean, found, -, same⟩ | ⟨chunk, clean, found, -, same⟩
  · -- failed already, or no complete frame: this call stops
    refine ⟨0, by omega, by simp [afterCalls, same], ?_⟩
    rw [afterCalls_succ, same]
    show state.Stopped crypto
    exact ⟨same, fun clean => by simpa [clean] using idle, sound⟩
  all_goals
    have framed := firstChunk_append_drop found
    have length := congrArg List.length framed.1
    simp only [List.length_append, List.length_drop] at length
    have held : state.inner.buffer.data.length = remaining := hold
  · -- a frame decrypted: at least two bytes fewer
    have moved : (state.next crypto).2.inner.buffer.remaining = remaining - chunk.length := by
      simp [same, Buffer.remaining, Buffer.afterChunk, held]
    obtain ⟨calls, within, returned, stopped⟩ :=
      @ih _ (by omega) (state.next crypto).2 (by simp [same, clean]) moved
    rw [moved] at within
    exact ⟨calls + 1, by omega, returned, stopped⟩
  · -- the decrypt failed: the rest is flushed and the next call stops
    have failed : (state.next crypto).2.Stopped crypto := by
      rw [same]
      exact ⟨next_of_error crypto _ rfl, by simp, fun _ => Inner.cleanup_data _⟩
    cases flushed : (state.next crypto).1 with
    | none => exact ⟨0, by omega, flushed, failed⟩
    | some _ =>
      refine ⟨1, by omega, ?_, ?_⟩
      · rw [afterCalls_succ, failed.afterCalls, failed.1]
      · rw [afterCalls_succ, failed.afterCalls]
        exact failed

/-- From every state the code builds, calling `next` again and again returns `None` within
`remaining / 2 + 2` calls: the call made after `calls` calls does, and every state from then on is
`Stopped`, so that every further call returns `None` as well. -/
theorem next_none_within {state : HaveData CnKey Id K S} (reachable : state.Reachable crypto) :
    ∃ calls, calls + 1 ≤ state.inner.buffer.remaining / 2 + 2 ∧
      ((state.afterCalls crypto calls).next crypto).1 = none ∧
      ∀ later, calls < later → (state.afterCalls crypto later).Stopped crypto := by
  obtain ⟨calls, within, returned, stopped⟩ := stops_within reachable.failed_empty
  refine ⟨calls, by omega, returned, fun later after => ?_⟩
  obtain ⟨extra, rfl⟩ := Nat.exists_eq_add_of_lt after
  rw [show calls + extra + 1 = calls + 1 + extra by omega, afterCalls_add, stopped.afterCalls]
  exact stopped

end HaveData

/-- An empty frame, which `decryptNothing` rejects, and one more byte. -/
def failingDelivery : HaveData Unit Unit Unit false :=
  ⟨⟨{ key := (), initiator := false }, (), ⟨[0, 0, 1], 0⟩⟩, (), none⟩

theorem next_none_within_sample :
    failingDelivery.Reachable decryptNothing ∧
      ∃ calls, calls + 1 ≤ failingDelivery.inner.buffer.remaining / 2 + 2 ∧
        ((failingDelivery.afterCalls decryptNothing calls).next decryptNothing).1 = none ∧
        ∀ later, calls < later → (failingDelivery.afterCalls decryptNothing later).Stopped decryptNothing :=
  ⟨.of_clean rfl, HaveData.next_none_within (.of_clean rfl)⟩

end TezedgeDebugger.ChunkParser
