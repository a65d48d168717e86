import TezedgeDebugger.ChunkParser.Tables

/-!
# The chunk-parser states of `state.rs`

One structure per state of `connection/chunk_parser/state.rs`, each carrying the shared `Inner`
(connection record, identity, buffer), and their methods as functions. The direction bit `S` of
the source (`typenum::Bit`, set for the remote-originated half) is a `Bool` index, so `make_key`
takes a local and a remote `HaveCm` exactly as the source types do.

Every `unwrap`, slice and `clone_from_slice` that can panic makes its function return `Option`,
with `none` for the panic. Logging (`log::warn!`, the `serde_json` rendering of the record) has no
effect on the states and is left out. `Keys::new`, `Key::decrypt` and `check_proof_of_work` are not
in the source tree: they are the fields of `Crypto`, so every theorem holds for every outcome of
them.
-/

namespace TezedgeDebugger.ChunkParser

/-- The primitives `state.rs` delegates to: `Keys::new` (the local and remote session keys, or an
error), `Key::decrypt` (on success the plaintext and the key with its nonce advanced) and
`proof_of_work::check_proof_of_work` (true when the check passes). -/
structure Crypto (Id K : Type) where
  keysNew : Id → Bytes → Bytes → Bool → Option (K × K)
  decrypt : K → Bytes → Option (Bytes × K)
  checkProofOfWork : Bytes → Float → Bool

variable {CnKey Id K : Type} {S : Bool}

structure Inner (CnKey Id : Type) (S : Bool) where
  cn : ConnectionItem CnKey
  id : Id
  buffer : Buffer

namespace Inner

def chunk (inner : Inner CnKey Id S) (counter : Nat) (bytes plain : Bytes) : ChunkItem CnKey :=
  ⟨inner.cn.key, S, counter, bytes, plain⟩

def handleData (inner : Inner CnKey Id S) (payload : Bytes) : Inner CnKey Id S :=
  { inner with buffer := inner.buffer.handleData payload }

def cleanup (inner : Inner CnKey Id S) : Option (ChunkItem CnKey) × Inner CnKey Id S :=
  let (flushed, buffer) := inner.buffer.cleanup
  (flushed.map fun (counter, bytes) => inner.chunk counter bytes [], { inner with buffer })

/-- The body shared by `handle_data` of `Uncertain`, `HaveNotKey` and `CannotDecrypt`: buffer the
payload and flush it at once; `cleanup().unwrap()` panics on an empty buffer. -/
def flush (inner : Inner CnKey Id S) (payload : Bytes) : Option (ChunkItem CnKey × Inner CnKey Id S) :=
  match (inner.handleData payload).cleanup with
  | (some chunk, inner) => some (chunk, inner)
  | (none, _) => none

end Inner

structure Initial (CnKey Id : Type) (S : Bool) where
  inner : Inner CnKey Id S

structure HaveCm (CnKey Id : Type) (S : Bool) where
  inner : Inner CnKey Id S

structure Uncertain (CnKey Id : Type) (S : Bool) where
  inner : Inner CnKey Id S

structure HaveKey (CnKey Id K : Type) (S : Bool) where
  inner : Inner CnKey Id S
  key : K

structure HaveNotKey (CnKey Id : Type) (S : Bool) where
  inner : Inner CnKey Id S

structure HaveData (CnKey Id K : Type) (S : Bool) where
  inner : Inner CnKey Id S
  key : K
  error : Option Nat

structure CannotDecrypt (CnKey Id : Type) (S : Bool) where
  inner : Inner CnKey Id S

/-- `Uncertain::new` flushes the buffer and marks the direction uncertain on its own record. -/
def Uncertain.new (inner : Inner CnKey Id S) : Uncertain CnKey Id S × Option (ChunkItem CnKey) :=
  let (flushed, inner) := inner.cleanup
  let cn := if S then inner.cn.addComment fun c => { c with incomingUncertain := true }
    else inner.cn.addComment fun c => { c with outgoingUncertain := true }
  (⟨{ inner with cn }⟩, flushed)

def Uncertain.handleData (state : Uncertain CnKey Id S) (payload : Bytes) :
    Option (ChunkItem CnKey × Uncertain CnKey Id S) :=
  (state.inner.flush payload).map fun (chunk, inner) => (chunk, ⟨inner⟩)

def Uncertain.cn (state : Uncertain CnKey Id S) : ConnectionItem CnKey := state.inner.cn

def Initial.new (cn : ConnectionItem CnKey) (id : Id) : Initial CnKey Id S :=
  ⟨⟨cn, id, Buffer.empty⟩⟩

def Initial.uncertain (state : Initial CnKey Id S) : Uncertain CnKey Id S × Option (ChunkItem CnKey) :=
  Uncertain.new state.inner

/-- `Either::Left` stays `Initial`, `Either::Right` is the first complete chunk buffered. -/
def Initial.handleData (state : Initial CnKey Id S) (payload : Bytes) :
    Initial CnKey Id S ⊕ HaveCm CnKey Id S :=
  let inner := state.inner.handleData payload
  if inner.buffer.haveChunk.isSome then .inr ⟨inner⟩ else .inl ⟨inner⟩

/-- The 128 KiB test reads the residual before the new payload is appended; the payload given to
the overflow branch is not appended. -/
def HaveCm.handleData (state : HaveCm CnKey Id S) (payload : Bytes) :
    Except (Uncertain CnKey Id S × Option (ChunkItem CnKey)) (HaveCm CnKey Id S) :=
  if state.inner.buffer.remaining > 0x20000 then .error (Uncertain.new state.inner)
  else .ok ⟨state.inner.handleData payload⟩

/-- `buffer.next().unwrap()` and `bytes[2..]` are the two panics. -/
def HaveCm.haveKey (state : HaveCm CnKey Id S) (key : K) :
    Option (HaveKey CnKey Id K S × ChunkItem CnKey) :=
  match state.inner.buffer.next with
  | (some (counter, bytes), buffer) =>
    let inner := { state.inner with buffer }
    (sliceFrom bytes 2).map fun plain => (⟨inner, key⟩, inner.chunk counter bytes plain)
  | (none, _) => none

def HaveCm.haveNotKey (state : HaveCm CnKey Id S) : HaveNotKey CnKey Id S × Option (ChunkItem CnKey) :=
  let (flushed, inner) := state.inner.cleanup
  (⟨inner⟩, flushed)

def HaveNotKey.handleData (state : HaveNotKey CnKey Id S) (payload : Bytes) :
    Option (ChunkItem CnKey × HaveNotKey CnKey Id S) :=
  (state.inner.flush payload).map fun (chunk, inner) => (chunk, ⟨inner⟩)

def HaveKey.handleData (state : HaveKey CnKey Id K S) (payload : Bytes) : HaveData CnKey Id K S :=
  ⟨state.inner.handleData payload, state.key, none⟩

/-- `Iterator::next` of `HaveData`. On a decrypt failure it records the failing counter and
returns the cleanup of what is left in the buffer. -/
def HaveData.next (crypto : Crypto Id K) (state : HaveData CnKey Id K S) :
    Option (ChunkItem CnKey) × HaveData CnKey Id K S :=
  if state.error.isSome then (none, state)
  else match state.inner.buffer.next with
    | (none, _) => (none, state)
    | (some (counter, bytes), buffer) =>
      let inner := { state.inner with buffer }
      match crypto.decrypt state.key bytes with
      | some (plain, key) => (some (inner.chunk counter bytes plain), { state with inner, key })
      | none =>
        let (flushed, inner) := inner.cleanup
        (flushed, { state with inner, error := some counter })

def HaveData.over (state : HaveData CnKey Id K S) :
    Except (CannotDecrypt CnKey Id S × ConnectionItem CnKey) (HaveKey CnKey Id K S) :=
  match state.error with
  | some position =>
    let cn := if S then state.inner.cn.addComment fun c => { c with incomingCannotDecrypt := some position }
      else state.inner.cn.addComment fun c => { c with outgoingCannotDecrypt := some position }
    .error (⟨{ state.inner with cn }⟩, cn)
  | none => .ok ⟨state.inner, state.key⟩

def CannotDecrypt.handleData (state : CannotDecrypt CnKey Id S) (payload : Bytes) :
    Option (ChunkItem CnKey × CannotDecrypt CnKey Id S) :=
  (state.inner.flush payload).map fun (chunk, inner) => (chunk, ⟨inner⟩)

/-- Modelled from the spec: the coordinator, which is not in the source tree, drains `HaveData`
by calling `next` until it returns `None` (§4.C). The loop is run with one call per buffered byte
and one more, which `HaveData.drainFor_exhausted` shows is always enough. -/
def HaveData.drainFor (crypto : Crypto Id K) :
    Nat → HaveData CnKey Id K S → List (ChunkItem CnKey) × HaveData CnKey Id K S
  | 0, state => ([], state)
  | fuel + 1, state =>
    match state.next crypto with
    | (some chunk, state) =>
      let (chunks, state) := HaveData.drainFor crypto fuel state
      (chunk :: chunks, state)
    | (none, state) => ([], state)

def HaveData.drain (crypto : Crypto Id K) (state : HaveData CnKey Id K S) :
    List (ChunkItem CnKey) × HaveData CnKey Id K S :=
  state.drainFor crypto (state.inner.buffer.remaining + 1)

inductive HandshakeWarning where
  | connectionMessageTooShort (size : Nat)
  | powInvalid (target : Float)

/-- The `check` closure of `make_key`, on the raw chunk: `none` is a panic of its slices or of
`clone_from_slice`. -/
def check (crypto : Crypto Id K) (payload : Bytes) : Option (Except HandshakeWarning PublicKey) :=
  if payload.length ≤ 88 then some (.error (.connectionMessageTooShort payload.length))
  else
    let target : Float := 26.0
    match sliceRange payload 4 60 with
    | none => none
    | some region =>
      if !crypto.checkProofOfWork region target then some (.error (.powInvalid target))
      else match sliceRange payload 4 36 with
        | none => none
        | some pk => if h : pk.length = 32 then some (.ok ⟨pk, h⟩) else none

structure MakeKeyOutput (CnKey Id K : Type) where
  cn : ConnectionItem CnKey
  «local» : Except (HaveNotKey CnKey Id false) (HaveKey CnKey Id K false)
  lChunk : Option (ChunkItem CnKey)
  remote : Except (HaveNotKey CnKey Id true) (HaveKey CnKey Id K true)
  rChunk : Option (ChunkItem CnKey)

/-- The record after the local soft check: `outgoing_too_short` or `outgoing_wrong_pow`. -/
def stampLocal (cn : ConnectionItem CnKey) : Except HandshakeWarning PublicKey → ConnectionItem CnKey
  | .ok _ => cn
  | .error (.connectionMessageTooShort size) => cn.addComment fun c => { c with outgoingTooShort := some size }
  | .error (.powInvalid target) => cn.addComment fun c => { c with outgoingWrongPow := some target }

/-- The record after the remote soft check: the peer key, `incoming_too_short` or
`incoming_wrong_pow`. -/
def stampRemote (cn : ConnectionItem CnKey) : Except HandshakeWarning PublicKey → ConnectionItem CnKey
  | .ok peerPk => cn.setPeerPk peerPk
  | .error (.connectionMessageTooShort size) => cn.addComment fun c => { c with incomingTooShort := some size }
  | .error (.powInvalid target) => cn.addComment fun c => { c with incomingWrongPow := some target }

/-- `HaveCm<Local>::make_key`. The soft checks run on the raw chunks that `have_key` emitted and
stamp a clone of the local half's record; the halves keep their own records. -/
def HaveCm.makeKey (crypto : Crypto Id K) (self : HaveCm CnKey Id false) (peer : HaveCm CnKey Id true) :
    Option (MakeKeyOutput CnKey Id K) := do
  let localChunk ← self.inner.buffer.haveChunk
  let remoteChunk ← peer.inner.buffer.haveChunk
  let cn := self.inner.cn
  match crypto.keysNew self.inner.id localChunk remoteChunk self.inner.cn.initiator with
  | some (localKey, remoteKey) =>
    let (l, lChunk) ← self.haveKey localKey
    let (r, rChunk) ← peer.haveKey remoteKey
    let cn ← (check crypto lChunk.bytes).map (stampLocal cn)
    let cn ← (check crypto rChunk.bytes).map (stampRemote cn)
    pure ⟨cn, .ok l, some lChunk, .ok r, some rChunk⟩
  | none =>
    let (l, lChunk) := self.haveNotKey
    let (r, rChunk) := peer.haveNotKey
    pure ⟨cn.addComment fun c => { c with outgoingWrongPk := true }, .error l, lChunk, .error r, rChunk⟩

/-! ## What each call does -/

namespace Inner

variable (inner : Inner CnKey Id S)

@[simp] theorem handleData_buffer (payload : Bytes) :
    (inner.handleData payload).buffer = inner.buffer.handleData payload := rfl

@[simp] theorem handleData_cn (payload : Bytes) : (inner.handleData payload).cn = inner.cn := rfl

@[simp] theorem handleData_id (payload : Bytes) : (inner.handleData payload).id = inner.id := rfl

@[simp] theorem handleData_nil : inner.handleData [] = inner := by
  simp [handleData, Buffer.handleData]

theorem handleData_append (first second : Bytes) :
    (inner.handleData first).handleData second = inner.handleData (first ++ second) := by
  simp [handleData, Buffer.handleData, List.append_assoc]

@[simp] theorem chunk_counter (counter : Nat) (bytes plain : Bytes) :
    (inner.chunk counter bytes plain).counter = counter := rfl

@[simp] theorem chunk_bytes (counter : Nat) (bytes plain : Bytes) :
    (inner.chunk counter bytes plain).bytes = bytes := rfl

@[simp] theorem chunk_plain (counter : Nat) (bytes plain : Bytes) :
    (inner.chunk counter bytes plain).plain = plain := rfl

theorem cleanup_of_nil (empty : inner.buffer.data = []) : inner.cleanup = (none, inner) := by
  simp [cleanup, Buffer.cleanup_of_nil empty]

theorem cleanup_of_ne_nil (filled : inner.buffer.data ≠ []) :
    inner.cleanup = (some (inner.chunk inner.buffer.counter inner.buffer.data []),
      { inner with buffer := ⟨[], inner.buffer.counter + 1⟩ }) := by
  simp [cleanup, Buffer.cleanup_of_ne_nil filled]

@[simp] theorem cleanup_cn : inner.cleanup.2.cn = inner.cn := by
  by_cases empty : inner.buffer.data = []
  · simp [cleanup_of_nil _ empty]
  · simp [cleanup_of_ne_nil _ empty]

/-- `cleanup` leaves nothing buffered. -/
theorem cleanup_data : inner.cleanup.2.buffer.data = [] := by
  by_cases empty : inner.buffer.data = []
  · simpa [cleanup_of_nil _ empty] using empty
  · simp [cleanup_of_ne_nil _ empty]

/-- A direction's chunks carry its own sender bit. -/
theorem cleanup_incoming : ∀ chunk ∈ inner.cleanup.1.toList, chunk.incoming = S := by
  by_cases empty : inner.buffer.data = []
  · simp [cleanup_of_nil _ empty]
  · simp [cleanup_of_ne_nil _ empty, chunk]

theorem flush_incoming {payload : Bytes} {chunk : ChunkItem CnKey} {next : Inner CnKey Id S}
    (flushed : inner.flush payload = some (chunk, next)) : chunk.incoming = S := by
  unfold flush at flushed
  split at flushed
  · rename_i same
    obtain ⟨rfl, rfl⟩ := Option.some.inj flushed
    exact (inner.handleData payload).cleanup_incoming chunk (by simp [same])
  · cases flushed

/-- A non-empty payload is flushed at once, with whatever was buffered before it. -/
theorem flush_of_ne_nil {payload : Bytes} (nonempty : payload ≠ []) :
    inner.flush payload = some (inner.chunk inner.buffer.counter (inner.buffer.data ++ payload) [],
      { inner with buffer := ⟨[], inner.buffer.counter + 1⟩ }) := by
  have filled : (inner.handleData payload).buffer.data ≠ [] := by simp [nonempty]
  simp only [flush, cleanup_of_ne_nil _ filled]
  rfl

end Inner

theorem HaveCm.haveKey_of_haveChunk {state : HaveCm CnKey Id S} {chunk : Bytes}
    (found : state.inner.buffer.haveChunk = some chunk) (key : K) :
    state.haveKey key = some
      (⟨{ state.inner with buffer := state.inner.buffer.afterChunk chunk }, key⟩,
        state.inner.chunk state.inner.buffer.counter chunk (chunk.drop 2)) := by
  simp only [haveKey, Buffer.next_of_haveChunk found, sliceFrom_of_le (firstChunk_append_drop found).2,
    Option.map_some']
  rfl

theorem HaveCm.haveKey_incoming {state : HaveCm CnKey Id S} {key : K} {next : HaveKey CnKey Id K S}
    {chunk : ChunkItem CnKey} (taken : state.haveKey key = some (next, chunk)) : chunk.incoming = S := by
  unfold haveKey at taken
  split at taken
  · obtain ⟨plain, -, taken⟩ := Option.map_eq_some'.mp taken
    obtain ⟨rfl, rfl⟩ := Prod.mk.inj taken
    rfl
  · cases taken

namespace HaveData

variable (crypto : Crypto Id K) (state : HaveData CnKey Id K S)

theorem next_of_error {position : Nat} (failed : state.error = some position) :
    state.next crypto = (none, state) := by
  simp [next, failed]

theorem next_of_haveChunk_none (clean : state.error = none) (missing : state.inner.buffer.haveChunk = none) :
    state.next crypto = (none, state) := by
  simp [next, clean, Buffer.next_of_haveChunk_none missing]

/-- The frame the buffer holds first is decrypted with the current key, under the current counter. -/
theorem next_of_decrypt {chunk plain : Bytes} {key : K} (clean : state.error = none)
    (found : state.inner.buffer.haveChunk = some chunk)
    (decrypted : crypto.decrypt state.key chunk = some (plain, key)) :
    state.next crypto = (some (state.inner.chunk state.inner.buffer.counter chunk plain),
      { state with
        inner := { state.inner with buffer := state.inner.buffer.afterChunk chunk }
        key }) := by
  simp only [next, clean, Option.isSome_none, Buffer.next_of_haveChunk found, decrypted]
  rfl

/-- On a failure the frame's counter is recorded and only the cleanup of the rest comes out. -/
theorem next_of_decrypt_none {chunk : Bytes} (clean : state.error = none)
    (found : state.inner.buffer.haveChunk = some chunk)
    (rejected : crypto.decrypt state.key chunk = none) :
    let rest : Inner CnKey Id S := { state.inner with buffer := state.inner.buffer.afterChunk chunk }
    state.next crypto = (rest.cleanup.1,
      { state with inner := rest.cleanup.2, error := some state.inner.buffer.counter }) := by
  simp only [next, clean, Option.isSome_none, Buffer.next_of_haveChunk found, rejected]
  rfl

/-- `next` changes the buffer, the key and the error, never the record. -/
@[simp] theorem next_cn : (state.next crypto).2.inner.cn = state.inner.cn := by
  unfold next
  split
  · rfl
  · split
    · rfl
    · split <;> simp

/-- What every call of `next` keeps, with the chunks emitted so far, the whole drain keeps. -/
theorem drainFor_induction (motive : List (ChunkItem CnKey) → HaveData CnKey Id K S → Prop)
    (next : ∀ chunks state, motive chunks state →
      motive (chunks ++ (state.next crypto).1.toList) (state.next crypto).2)
    (fuel : Nat) (chunks : List (ChunkItem CnKey)) (start : motive chunks state) :
    motive (chunks ++ (state.drainFor crypto fuel).1) (state.drainFor crypto fuel).2 := by
  induction fuel generalizing chunks state with
  | zero => simpa [drainFor] using start
  | succ fuel ih =>
    have stepped := next chunks state start
    rw [drainFor]
    split
    · rename_i chunk after same
      rw [same] at stepped
      simpa using ih after (chunks ++ [chunk]) stepped
    · rename_i after same
      rw [same] at stepped
      simpa using stepped

theorem drainFor_cn (fuel : Nat) : (state.drainFor crypto fuel).2.inner.cn = state.inner.cn :=
  drainFor_induction crypto state (fun _ after => after.inner.cn = state.inner.cn)
    (fun _ _ kept => (next_cn crypto _).trans kept) fuel [] rfl

@[simp] theorem drain_cn : (state.drain crypto).2.inner.cn = state.inner.cn := drainFor_cn crypto state _

theorem next_incoming : ∀ chunk ∈ (state.next crypto).1.toList, chunk.incoming = S := by
  unfold next
  split
  · simp
  · split
    · simp
    · split
      · simp [Inner.chunk]
      · exact Inner.cleanup_incoming _

theorem drain_incoming : ∀ chunk ∈ (state.drain crypto).1, chunk.incoming = S := by
  simpa using drainFor_induction crypto state (fun chunks _ => ∀ chunk ∈ chunks, chunk.incoming = S)
    (fun chunks after sent chunk member => by
      rcases List.mem_append.mp member with old | new
      · exact sent chunk old
      · exact next_incoming crypto after chunk new) _ [] (by simp)

end HaveData

/-- The soft check never panics: past 88 bytes both slices are in range. -/
theorem check_isSome (crypto : Crypto Id K) (payload : Bytes) : ∃ warning, check crypto payload = some warning := by
  unfold check
  split
  · exact ⟨_, rfl⟩
  · rename_i long
    rw [sliceRange_of_le (by omega) (by omega)]
    dsimp only
    split
    · exact ⟨_, rfl⟩
    · rw [sliceRange_of_le (by omega) (by omega)]
      dsimp only
      rw [dif_pos (by simp only [List.length_drop, List.length_take]; omega)]
      exact ⟨_, rfl⟩

/-- Everything `make_key` can do. Both first chunks are read with `have_chunk`; with keys, both
halves take them out with `have_key` and the soft checks stamp a clone of the local record;
without keys, both halves flush with `have_not_key` and the clone gets `outgoing_wrong_pk`. -/
theorem HaveCm.makeKey_eq_some {self : HaveCm CnKey Id false} {peer : HaveCm CnKey Id true}
    {crypto : Crypto Id K} {out : MakeKeyOutput CnKey Id K} (made : self.makeKey crypto peer = some out) :
    ∃ lc rc, self.inner.buffer.haveChunk = some lc ∧ peer.inner.buffer.haveChunk = some rc ∧
      ((∃ kl kr cl cr, crypto.keysNew self.inner.id lc rc self.inner.cn.initiator = some (kl, kr) ∧
          check crypto lc = some cl ∧ check crypto rc = some cr ∧
          out = ⟨stampRemote (stampLocal self.inner.cn cl) cr,
            .ok ⟨{ self.inner with buffer := self.inner.buffer.afterChunk lc }, kl⟩,
            some (self.inner.chunk self.inner.buffer.counter lc (lc.drop 2)),
            .ok ⟨{ peer.inner with buffer := peer.inner.buffer.afterChunk rc }, kr⟩,
            some (peer.inner.chunk peer.inner.buffer.counter rc (rc.drop 2))⟩) ∨
        (crypto.keysNew self.inner.id lc rc self.inner.cn.initiator = none ∧
          out = ⟨self.inner.cn.addComment fun c => { c with outgoingWrongPk := true },
            .error ⟨self.inner.cleanup.2⟩, self.inner.cleanup.1,
            .error ⟨peer.inner.cleanup.2⟩, peer.inner.cleanup.1⟩)) := by
  unfold makeKey at made
  cases lfound : self.inner.buffer.haveChunk with
  | none => simp [lfound] at made
  | some lc =>
    cases rfound : peer.inner.buffer.haveChunk with
    | none => simp [lfound, rfound] at made
    | some rc =>
      refine ⟨lc, rc, rfl, rfl, ?_⟩
      simp only [lfound, rfound, Option.bind_eq_bind, Option.some_bind] at made
      cases keys : crypto.keysNew self.inner.id lc rc self.inner.cn.initiator with
      | none =>
        simp only [keys, HaveCm.haveNotKey, Option.pure_def, Option.some.injEq] at made
        exact .inr ⟨rfl, made.symm⟩
      | some pair =>
        obtain ⟨kl, kr⟩ := pair
        obtain ⟨cl, lchecked⟩ := check_isSome crypto lc
        obtain ⟨cr, rchecked⟩ := check_isSome crypto rc
        simp only [keys, HaveCm.haveKey_of_haveChunk lfound, HaveCm.haveKey_of_haveChunk rfound,
          Option.some_bind, Inner.chunk_bytes, lchecked, rchecked, Option.map_some', Option.pure_def,
          Option.some.injEq] at made
        exact .inl ⟨kl, kr, cl, cr, rfl, lchecked, rchecked, made.symm⟩

/-- With both first chunks buffered, `make_key` does not panic. -/
theorem HaveCm.makeKey_isSome {self : HaveCm CnKey Id false} {peer : HaveCm CnKey Id true}
    (crypto : Crypto Id K) {lc rc : Bytes} (lfound : self.inner.buffer.haveChunk = some lc)
    (rfound : peer.inner.buffer.haveChunk = some rc) : (self.makeKey crypto peer).isSome := by
  obtain ⟨cl, lchecked⟩ := check_isSome crypto lc
  obtain ⟨cr, rchecked⟩ := check_isSome crypto rc
  unfold makeKey
  cases keys : crypto.keysNew self.inner.id lc rc self.inner.cn.initiator <;>
    simp [lfound, rfound, keys, HaveCm.haveKey_of_haveChunk lfound, HaveCm.haveKey_of_haveChunk rfound,
      lchecked, rchecked]

/-- The soft check, read off the chunk: at most 88 bytes is too short; otherwise the proof of work
over bytes 4..60 at target 26 fails, or passes and the peer key is bytes 4..36. -/
theorem check_cases (crypto : Crypto Id K) {payload : Bytes} {warning : Except HandshakeWarning PublicKey}
    (checked : check crypto payload = some warning) :
    payload.length ≤ 88 ∧ warning = .error (.connectionMessageTooShort payload.length) ∨
      88 < payload.length ∧ crypto.checkProofOfWork ((payload.take 60).drop 4) 26.0 = false ∧
        warning = .error (.powInvalid 26.0) ∨
      88 < payload.length ∧ crypto.checkProofOfWork ((payload.take 60).drop 4) 26.0 = true ∧
        ∃ pk : PublicKey, pk.bytes = (payload.take 36).drop 4 ∧ warning = .ok pk := by
  unfold check at checked
  by_cases short : payload.length ≤ 88
  · rw [if_pos short, Option.some.injEq] at checked
    exact .inl ⟨short, checked.symm⟩
  rw [if_neg short, sliceRange_of_le (by omega) (by omega)] at checked
  cases pow : crypto.checkProofOfWork ((payload.take 60).drop 4) 26.0
  · simp only [pow, Bool.not_false, if_true, Option.some.injEq] at checked
    exact .inr (.inl ⟨by omega, rfl, checked.symm⟩)
  · simp only [pow, Bool.not_true, Bool.false_eq_true, if_false] at checked
    rw [sliceRange_of_le (by omega) (by omega)] at checked
    dsimp only at checked
    rw [dif_pos (by simp only [List.length_drop, List.length_take]; omega), Option.some.injEq] at checked
    exact .inr (.inr ⟨by omega, rfl, _, rfl, checked.symm⟩)

/-- The local soft check writes `outgoing_too_short` (the chunk's length) when the chunk has at
most 88 bytes, else `outgoing_wrong_pow` (the target) when the proof of work fails, and nothing
else. -/
theorem stampLocal_check (cn : ConnectionItem CnKey) {crypto : Crypto Id K} {payload : Bytes}
    {warning : Except HandshakeWarning PublicKey} (checked : check crypto payload = some warning) :
    stampLocal cn warning = cn.addComment fun c => { c with
      outgoingTooShort := if payload.length ≤ 88 then some payload.length else c.outgoingTooShort
      outgoingWrongPow :=
        if 88 < payload.length ∧ crypto.checkProofOfWork ((payload.take 60).drop 4) 26.0 = false then some 26.0
        else c.outgoingWrongPow } := by
  rcases check_cases crypto checked with ⟨short, rfl⟩ | ⟨long, failed, rfl⟩ | ⟨long, passed, pk, -, rfl⟩
  · simp [stampLocal, short, Nat.not_lt.mpr short]
  · simp [stampLocal, long, failed, Nat.not_le.mpr long]
  · simp [stampLocal, passed, Nat.not_le.mpr long]
    rfl

/-- The remote soft check writes `incoming_too_short` when the chunk has at most 88 bytes, else
`incoming_wrong_pow` when the proof of work fails, else the peer key from bytes 4..36; nothing
else. -/
theorem stampRemote_check (cn : ConnectionItem CnKey) {crypto : Crypto Id K} {payload : Bytes}
    {warning : Except HandshakeWarning PublicKey} (checked : check crypto payload = some warning) :
    (stampRemote cn warning).key = cn.key ∧ (stampRemote cn warning).initiator = cn.initiator ∧
      (stampRemote cn warning).peerPk.map PublicKey.bytes =
        (if 88 < payload.length ∧ crypto.checkProofOfWork ((payload.take 60).drop 4) 26.0 = true then
          some ((payload.take 36).drop 4)
        else cn.peerPk.map PublicKey.bytes) ∧
      (stampRemote cn warning).comments = { cn.comments with
        incomingTooShort := if payload.length ≤ 88 then some payload.length else cn.comments.incomingTooShort
        incomingWrongPow :=
          if 88 < payload.length ∧ crypto.checkProofOfWork ((payload.take 60).drop 4) 26.0 = false then some 26.0
          else cn.comments.incomingWrongPow } := by
  rcases check_cases crypto checked with ⟨short, rfl⟩ | ⟨long, failed, rfl⟩ | ⟨long, passed, pk, bytes, rfl⟩
  · simp [stampRemote, short, Nat.not_lt.mpr short]
  · simp [stampRemote, long, failed, Nat.not_le.mpr long]
  · simp [stampRemote, ConnectionItem.setPeerPk, long, passed, bytes, Nat.not_le.mpr long]

/-- Which fields of the connection record the soft checks of `make_key` set, read off the two
first chunks once the keys are made: the local chunk's length as `outgoing_too_short` when it has
at most 88 bytes, else the target 26 as `outgoing_wrong_pow` when its proof of work over bytes 4..60
fails; the same for the remote chunk as `incoming_too_short` and `incoming_wrong_pow`, and, when it
passes, the peer key from its bytes 4..36. Every other field is the local record's. -/
theorem HaveCm.makeKey_stamps {self : HaveCm CnKey Id false} {peer : HaveCm CnKey Id true}
    {crypto : Crypto Id K} {out : MakeKeyOutput CnKey Id K} {lc rc : Bytes} {keys : K × K}
    (made : self.makeKey crypto peer = some out) (lfound : self.inner.buffer.haveChunk = some lc)
    (rfound : peer.inner.buffer.haveChunk = some rc)
    (derived : crypto.keysNew self.inner.id lc rc self.inner.cn.initiator = some keys) :
    out.cn.key = self.inner.cn.key ∧ out.cn.initiator = self.inner.cn.initiator ∧
      out.cn.peerPk.map PublicKey.bytes =
        (if 88 < rc.length ∧ crypto.checkProofOfWork ((rc.take 60).drop 4) 26.0 = true then
          some ((rc.take 36).drop 4)
        else self.inner.cn.peerPk.map PublicKey.bytes) ∧
      out.cn.comments = { self.inner.cn.comments with
        outgoingTooShort := if lc.length ≤ 88 then some lc.length else self.inner.cn.comments.outgoingTooShort
        outgoingWrongPow := if 88 < lc.length ∧ crypto.checkProofOfWork ((lc.take 60).drop 4) 26.0 = false then
          some 26.0 else self.inner.cn.comments.outgoingWrongPow
        incomingTooShort := if rc.length ≤ 88 then some rc.length else self.inner.cn.comments.incomingTooShort
        incomingWrongPow := if 88 < rc.length ∧ crypto.checkProofOfWork ((rc.take 60).drop 4) 26.0 = false then
          some 26.0 else self.inner.cn.comments.incomingWrongPow } := by
  obtain ⟨lc', rc', lf, rf, made⟩ := HaveCm.makeKey_eq_some made
  rw [lfound, Option.some.injEq] at lf
  rw [rfound, Option.some.injEq] at rf
  subst lf rf
  rcases made with ⟨kl, kr, cl, cr, -, lchecked, rchecked, rfl⟩ | ⟨failed, -⟩
  · obtain ⟨key, initiator, peerPk, comments⟩ := stampRemote_check (stampLocal self.inner.cn cl) rchecked
    have stamped := stampLocal_check self.inner.cn lchecked
    refine ⟨key.trans ?_, initiator.trans ?_, peerPk.trans ?_, comments.trans ?_⟩ <;> rw [stamped] <;> rfl
  · rw [derived] at failed
    cases failed

theorem makeKey_stamps_sample :
    ∃ out, (⟨⟨⟨(), false, none, {}⟩, (), ⟨[0, 0], 0⟩⟩⟩ : HaveCm Unit Unit false).makeKey
        ⟨fun _ _ _ _ => some ((), ()), fun _ _ => none, fun _ _ => true⟩ ⟨⟨⟨(), false, none, {}⟩, (), ⟨[0, 0], 0⟩⟩⟩ =
        some out ∧
      out.cn.key = () ∧ out.cn.initiator = false ∧ out.cn.peerPk.map PublicKey.bytes = none ∧
      out.cn.comments = { outgoingTooShort := some 2, incomingTooShort := some 2 } :=
  ⟨_, rfl, @HaveCm.makeKey_stamps Unit Unit Unit ⟨⟨⟨(), false, none, {}⟩, (), ⟨[0, 0], 0⟩⟩⟩
    ⟨⟨⟨(), false, none, {}⟩, (), ⟨[0, 0], 0⟩⟩⟩ ⟨fun _ _ _ _ => some ((), ()), fun _ _ => none, fun _ _ => true⟩ _
    [0, 0] [0, 0] ((), ()) rfl rfl rfl rfl⟩

end TezedgeDebugger.ChunkParser
