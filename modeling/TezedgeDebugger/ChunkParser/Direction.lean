import TezedgeDebugger.ChunkParser.State

/-!
# One direction between calls

The coordinator that owns a connection's two halves is not in the source tree. What it may do to
one direction is what `state.rs` offers: hand it a payload (in `HaveKey`, `handle_data` followed by
draining `HaveData::next` and calling `over()`), turn `Initial` uncertain, finish `HaveCm` with the
outcome of `make_key`, and read `Uncertain::cn`. `Half.step` is one such call and `Half.run` a
sequence of them; a call a state does not offer leaves it as it is. A step is `none` exactly when
the source panics.

The chunks and connection records a direction hands out are collected in `Emitted`.
-/

namespace TezedgeDebugger.ChunkParser

variable {CnKey Id K : Type} {S : Bool}

/-- The state a coordinator holds for one direction; `HaveData` lives only inside one delivery. -/
inductive Half (CnKey Id K : Type) (S : Bool) where
  | initial (state : Initial CnKey Id S)
  | haveCm (state : HaveCm CnKey Id S)
  | uncertain (state : Uncertain CnKey Id S)
  | haveKey (state : HaveKey CnKey Id K S)
  | haveNotKey (state : HaveNotKey CnKey Id S)
  | cannotDecrypt (state : CannotDecrypt CnKey Id S)

/-- One call made to a direction. `haveKey` and `haveNotKey` are the two outcomes of `make_key`
for this half; `cn` reads the record of an `Uncertain` direction. -/
inductive Event (K : Type) where
  | data (payload : Bytes)
  | uncertain
  | haveKey (key : K)
  | haveNotKey
  | cn

/-- Chunks and connection records handed out, in order. -/
structure Emitted (CnKey : Type) where
  chunks : List (ChunkItem CnKey) := []
  records : List (ConnectionItem CnKey) := []

instance : Append (Emitted CnKey) := ⟨fun a b => ⟨a.chunks ++ b.chunks, a.records ++ b.records⟩⟩

@[simp] theorem Emitted.append_chunks (a b : Emitted CnKey) : (a ++ b).chunks = a.chunks ++ b.chunks := rfl

@[simp] theorem Emitted.append_records (a b : Emitted CnKey) :
    (a ++ b).records = a.records ++ b.records := rfl

namespace Half

def inner : Half CnKey Id K S → Inner CnKey Id S
  | .initial state | .haveCm state | .uncertain state | .haveNotKey state
  | .cannotDecrypt state => state.inner
  | .haveKey state => state.inner

/-- Delivery in `HaveKey`: `handle_data`, the drain of `HaveData::next`, then `over()`. -/
def deliver (crypto : Crypto Id K) (state : HaveKey CnKey Id K S) (payload : Bytes) :
    Half CnKey Id K S × Emitted CnKey :=
  let (chunks, data) := (state.handleData payload).drain crypto
  match data.over with
  | .ok state => (.haveKey state, { chunks })
  | .error (state, cn) => (.cannotDecrypt state, { chunks, records := [cn] })

def step (crypto : Crypto Id K) : Half CnKey Id K S → Event K → Option (Half CnKey Id K S × Emitted CnKey)
  | .initial state, .data payload =>
    match state.handleData payload with
    | .inl state => some (.initial state, {})
    | .inr state => some (.haveCm state, {})
  | .initial state, .uncertain =>
    let (state, flushed) := state.uncertain
    some (.uncertain state, { chunks := flushed.toList })
  | .haveCm state, .data payload =>
    match state.handleData payload with
    | .ok state => some (.haveCm state, {})
    | .error (state, flushed) => some (.uncertain state, { chunks := flushed.toList })
  | .haveCm state, .haveKey key =>
    (state.haveKey key).map fun (state, chunk) => (.haveKey state, { chunks := [chunk] })
  | .haveCm state, .haveNotKey =>
    let (state, flushed) := state.haveNotKey
    some (.haveNotKey state, { chunks := flushed.toList })
  | .uncertain state, .data payload =>
    (state.handleData payload).map fun (chunk, state) => (.uncertain state, { chunks := [chunk] })
  | .uncertain state, .cn => some (.uncertain state, { records := [state.cn] })
  | .haveKey state, .data payload => some (deliver crypto state payload)
  | .haveNotKey state, .data payload =>
    (state.handleData payload).map fun (chunk, state) => (.haveNotKey state, { chunks := [chunk] })
  | .cannotDecrypt state, .data payload =>
    (state.handleData payload).map fun (chunk, state) => (.cannotDecrypt state, { chunks := [chunk] })
  | half, _ => some (half, {})

def run (crypto : Crypto Id K) : Half CnKey Id K S → List (Event K) → Option (Half CnKey Id K S × Emitted CnKey)
  | half, [] => some (half, {})
  | half, event :: events =>
    (half.step crypto event).bind fun (half, out) =>
      (half.run crypto events).map fun (half, rest) => (half, out ++ rest)

end Half

/-- The bytes a call hands over. -/
def Event.payload : Event K → Bytes
  | .data payload => payload
  | _ => []

/-- The bytes captured on a direction: the payloads of its `data` calls, in order. -/
def delivered (events : List (Event K)) : Bytes := events.flatMap Event.payload

@[simp] theorem delivered_nil : delivered ([] : List (Event K)) = [] := rfl

@[simp] theorem delivered_cons (event : Event K) (events : List (Event K)) :
    delivered (event :: events) = event.payload ++ delivered events := rfl

@[simp] theorem delivered_append (first second : List (Event K)) :
    delivered (first ++ second) = delivered first ++ delivered second := by
  simp [delivered]

@[simp] theorem Emitted.nil_append (a : Emitted CnKey) : {} ++ a = a := rfl

@[simp] theorem Emitted.append_nil (a : Emitted CnKey) : a ++ {} = a := by
  show (⟨a.chunks ++ [], a.records ++ []⟩ : Emitted CnKey) = a
  simp

theorem Emitted.append_assoc (a b c : Emitted CnKey) : a ++ b ++ c = a ++ (b ++ c) := by
  show (⟨a.chunks ++ b.chunks ++ c.chunks, _⟩ : Emitted CnKey) = ⟨a.chunks ++ (b.chunks ++ c.chunks), _⟩
  simp

namespace Half

variable {crypto : Crypto Id K}

@[simp] theorem run_nil (half : Half CnKey Id K S) : half.run crypto [] = some (half, {}) := rfl

/-- A run is its first step followed by the rest: the shape every run lemma inducts on. -/
theorem run_cons_eq_some {half final : Half CnKey Id K S} {event : Event K} {events : List (Event K)}
    {out : Emitted CnKey} :
    half.run crypto (event :: events) = some (final, out) ↔
      ∃ next first rest, half.step crypto event = some (next, first) ∧
        next.run crypto events = some (final, rest) ∧ out = first ++ rest := by
  simp only [run, Option.bind_eq_some, Option.map_eq_some', Prod.exists, Prod.mk.injEq]
  constructor
  · rintro ⟨next, first, stepped, final', rest, ran, rfl, rfl⟩
    exact ⟨next, first, rest, stepped, ran, rfl⟩
  · rintro ⟨next, first, rest, stepped, ran, rfl⟩
    exact ⟨next, first, stepped, final, rest, ran, rfl, rfl⟩

theorem run_append_eq_some {half final : Half CnKey Id K S} {first second : List (Event K)} {out : Emitted CnKey}
    (ran : half.run crypto (first ++ second) = some (final, out)) :
    ∃ mid firstOut secondOut, half.run crypto first = some (mid, firstOut) ∧
      mid.run crypto second = some (final, secondOut) ∧ out = firstOut ++ secondOut := by
  induction first generalizing half out with
  | nil => exact ⟨half, {}, out, rfl, ran, by simp⟩
  | cons event first ih =>
    obtain ⟨next, stepOut, rest, stepped, tail, rfl⟩ := run_cons_eq_some.mp ran
    obtain ⟨mid, firstOut, secondOut, firstRan, secondRan, rfl⟩ := ih tail
    exact ⟨mid, stepOut ++ firstOut, secondOut, run_cons_eq_some.mpr ⟨next, stepOut, firstOut, stepped, firstRan, rfl⟩,
      secondRan, (Emitted.append_assoc _ _ _).symm⟩

theorem step_initial_data (state : Initial CnKey Id S) (payload : Bytes) :
    (Half.initial state : Half CnKey Id K S).step crypto (.data payload) =
      some (if (state.inner.handleData payload).buffer.haveChunk.isSome
        then .haveCm ⟨state.inner.handleData payload⟩ else .initial ⟨state.inner.handleData payload⟩, {}) := by
  by_cases complete : (state.inner.handleData payload).buffer.haveChunk.isSome
  · simp only [step, Initial.handleData, if_pos complete]
  · simp only [step, Initial.handleData, if_neg complete]

theorem step_haveCm_data (state : HaveCm CnKey Id S) (payload : Bytes) :
    (Half.haveCm state : Half CnKey Id K S).step crypto (.data payload) =
      some (if state.inner.buffer.remaining > 0x20000
        then (.uncertain (Uncertain.new state.inner).1, { chunks := (Uncertain.new state.inner).2.toList })
        else (.haveCm ⟨state.inner.handleData payload⟩, {})) := by
  by_cases overflow : state.inner.buffer.remaining > 0x20000
  · simp only [step, HaveCm.handleData, if_pos overflow]
  · simp only [step, HaveCm.handleData, if_neg overflow]

/-- `Uncertain`, `HaveNotKey` and `CannotDecrypt` hand a payload out at once, with what they held,
as one chunk. -/
theorem step_uncertain_data {state : Uncertain CnKey Id S} {payload : Bytes} {next : Half CnKey Id K S}
    {out : Emitted CnKey} (stepped : (Half.uncertain state).step crypto (.data payload) = some (next, out)) :
    ∃ chunk inner, state.inner.flush payload = some (chunk, inner) ∧ next = .uncertain ⟨inner⟩ ∧
      out = { chunks := [chunk] } := by
  simp only [step, Uncertain.handleData, Option.map_map, Option.map_eq_some', Function.comp_apply, Prod.exists,
    Prod.mk.injEq] at stepped
  obtain ⟨chunk, inner, flushed, rfl, rfl⟩ := stepped
  exact ⟨chunk, inner, flushed, rfl, rfl⟩

theorem step_haveNotKey_data {state : HaveNotKey CnKey Id S} {payload : Bytes} {next : Half CnKey Id K S}
    {out : Emitted CnKey} (stepped : (Half.haveNotKey state).step crypto (.data payload) = some (next, out)) :
    ∃ chunk inner, state.inner.flush payload = some (chunk, inner) ∧ next = .haveNotKey ⟨inner⟩ ∧
      out = { chunks := [chunk] } := by
  simp only [step, HaveNotKey.handleData, Option.map_map, Option.map_eq_some', Function.comp_apply, Prod.exists,
    Prod.mk.injEq] at stepped
  obtain ⟨chunk, inner, flushed, rfl, rfl⟩ := stepped
  exact ⟨chunk, inner, flushed, rfl, rfl⟩

theorem step_cannotDecrypt_data {state : CannotDecrypt CnKey Id S} {payload : Bytes} {next : Half CnKey Id K S}
    {out : Emitted CnKey} (stepped : (Half.cannotDecrypt state).step crypto (.data payload) = some (next, out)) :
    ∃ chunk inner, state.inner.flush payload = some (chunk, inner) ∧ next = .cannotDecrypt ⟨inner⟩ ∧
      out = { chunks := [chunk] } := by
  simp only [step, CannotDecrypt.handleData, Option.map_map, Option.map_eq_some', Function.comp_apply, Prod.exists,
    Prod.mk.injEq] at stepped
  obtain ⟨chunk, inner, flushed, rfl, rfl⟩ := stepped
  exact ⟨chunk, inner, flushed, rfl, rfl⟩

/-- A direction emits only chunks carrying its own sender bit. -/
theorem step_incoming {half next : Half CnKey Id K S} {event : Event K} {out : Emitted CnKey}
    (stepped : half.step crypto event = some (next, out)) : ∀ chunk ∈ out.chunks, chunk.incoming = S := by
  cases half with
  | initial state =>
    cases event with
    | data payload =>
      rw [step_initial_data] at stepped
      split_ifs at stepped <;> cases stepped <;> simp
    | uncertain => cases stepped; exact Inner.cleanup_incoming state.inner
    | haveKey _ | haveNotKey | cn => cases stepped; simp
  | haveCm state =>
    cases event with
    | data payload =>
      rw [step_haveCm_data] at stepped
      split_ifs at stepped <;> cases stepped
      · exact Inner.cleanup_incoming state.inner
      · simp
    | haveKey key =>
      simp only [step, Option.map_eq_some', Prod.mk.injEq, Prod.exists] at stepped
      obtain ⟨keyed, chunk, taken, rfl, rfl⟩ := stepped
      simpa using HaveCm.haveKey_incoming taken
    | haveNotKey => cases stepped; exact Inner.cleanup_incoming state.inner
    | uncertain | cn => cases stepped; simp
  | uncertain state =>
    cases event with
    | data payload =>
      obtain ⟨chunk, inner, flushed, rfl, rfl⟩ := step_uncertain_data stepped
      simpa using Inner.flush_incoming _ flushed
    | uncertain | haveKey _ | haveNotKey | cn => cases stepped; simp
  | haveKey state =>
    cases event with
    | data payload =>
      simp only [step, deliver, Option.some.injEq] at stepped
      have sent := HaveData.drain_incoming crypto (state.handleData payload)
      split at stepped <;> obtain ⟨-, rfl⟩ := Prod.mk.inj stepped <;> exact sent
    | uncertain | haveKey _ | haveNotKey | cn => cases stepped; simp
  | haveNotKey state =>
    cases event with
    | data payload =>
      obtain ⟨chunk, inner, flushed, rfl, rfl⟩ := step_haveNotKey_data stepped
      simpa using Inner.flush_incoming _ flushed
    | uncertain | haveKey _ | haveNotKey | cn => cases stepped; simp
  | cannotDecrypt state =>
    cases event with
    | data payload =>
      obtain ⟨chunk, inner, flushed, rfl, rfl⟩ := step_cannotDecrypt_data stepped
      simpa using Inner.flush_incoming _ flushed
    | uncertain | haveKey _ | haveNotKey | cn => cases stepped; simp

end Half

/-- Keys derive, every decrypt fails: the decrypt-failure branch of `HaveData::next`. -/
def decryptNothing : Crypto Unit Unit := ⟨fun _ _ _ _ => some ((), ()), fun _ _ => none, fun _ _ => true⟩

/-- A local direction: an empty connection message, the key, one empty frame that fails to
decrypt, then one raw byte. -/
def failingRun : List (Event Unit) := [.data [0, 0], .haveKey (), .data [0, 0], .data [1]]

def initialHalf : Half Unit Unit Unit false := .initial (Initial.new { key := (), initiator := false } ())

/-- `HaveData::next` takes counter 1 for the failing frame and then emits only the cleanup of the
(empty) rest, so the next chunk carries counter 2. -/
theorem decrypt_failure_skips_counter :
    (initialHalf.run decryptNothing failingRun).map (fun r => r.2.chunks.map (·.counter)) = some [0, 2] := by
  decide

/-- The failing frame's bytes leave the buffer and are in no chunk. -/
theorem decrypt_failure_drops_frame :
    delivered failingRun = [0, 0, 0, 0, 1] ∧
      (initialHalf.run decryptNothing failingRun).map
        (fun r => (r.2.chunks.map (·.bytes)).flatten ++ r.1.inner.buffer.data) = some [0, 0, 1] := by
  decide

end TezedgeDebugger.ChunkParser
