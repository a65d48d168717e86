import TezedgeDebugger.ChunkParser.Handshake

/-!
# A connection: two halves and the rendezvous

The coordinator (§4.D) is not in the source tree. It owns a local and a remote half and may, in
any order, hand a payload to either, turn either `Initial` uncertain, read either `Uncertain`
record, and call `make_key` once both halves are `HaveCm`. `Conn.run` is any such interleaving.
`have_key` and `have_not_key` are private to `state.rs`, so a half reaches them only through
`make_key`.

A connection run projects onto a run of each direction (`Conn.run_half`): the
direction's own calls, with `make_key` read as the outcome it had for that half.
-/

namespace TezedgeDebugger.ChunkParser

variable {CnKey Id K : Type} {S : Bool} {crypto : Crypto Id K}

/-- A call the coordinator makes on one half. -/
inductive Call where
  | data (payload : Bytes)
  | uncertain
  | cn

def Call.toEvent : Call → Event K
  | .data payload => .data payload
  | .uncertain => .uncertain
  | .cn => .cn

inductive ConnEvent where
  | call (S : Bool) (call : Call)
  | makeKey

/-- The part of the state machine a connection record comes from. -/
inductive Origin where
  | half (S : Bool)
  | makeKey
  deriving DecidableEq, Repr

/-- A connection's two halves: the local one at `false`, the remote one at `true`, as the source's
direction bit. -/
structure Conn (CnKey Id K : Type) where
  half : (S : Bool) → Half CnKey Id K S

/-- Chunks of both directions in emission order, and the records handed out with their origin. -/
structure ConnOut (CnKey : Type) where
  chunks : List (ChunkItem CnKey) := []
  records : List (Origin × ConnectionItem CnKey) := []

instance : Append (ConnOut CnKey) := ⟨fun a b => ⟨a.chunks ++ b.chunks, a.records ++ b.records⟩⟩

@[simp] theorem ConnOut.append_records (a b : ConnOut CnKey) :
    (a ++ b).records = a.records ++ b.records := rfl

@[simp] theorem ConnOut.append_chunks (a b : ConnOut CnKey) : (a ++ b).chunks = a.chunks ++ b.chunks := rfl

@[simp] theorem ConnOut.empty_append (a : ConnOut CnKey) : {} ++ a = a := rfl

@[simp] theorem ConnOut.append_empty (a : ConnOut CnKey) : a ++ {} = a := by
  show (⟨a.chunks ++ [], a.records ++ []⟩ : ConnOut CnKey) = a
  simp

theorem ConnOut.append_assoc (a b c : ConnOut CnKey) : a ++ b ++ c = a ++ (b ++ c) := by
  show (⟨a.chunks ++ b.chunks ++ c.chunks, _⟩ : ConnOut CnKey) = ⟨a.chunks ++ (b.chunks ++ c.chunks), _⟩
  simp

/-- The records handed out by one origin, in order. -/
def ConnOut.recordsFrom (origin : Origin) (out : ConnOut CnKey) : List (ConnectionItem CnKey) :=
  (out.records.filter (·.1 == origin)).map Prod.snd

@[simp] theorem ConnOut.recordsFrom_append (origin : Origin) (a b : ConnOut CnKey) :
    (a ++ b).recordsFrom origin = a.recordsFrom origin ++ b.recordsFrom origin := by
  simp [recordsFrom, List.filter_append]

@[simp] theorem ConnOut.recordsFrom_empty (origin : Origin) : ({} : ConnOut CnKey).recordsFrom origin = [] := rfl

/-- The half a `make_key` outcome leaves. -/
def Half.ofKeyResult : Except (HaveNotKey CnKey Id S) (HaveKey CnKey Id K S) → Half CnKey Id K S
  | .ok state => .haveKey state
  | .error state => .haveNotKey state

/-- Both halves after `make_key`. -/
def MakeKeyOutput.halves (out : MakeKeyOutput CnKey Id K) : (S : Bool) → Half CnKey Id K S
  | false => .ofKeyResult out.local
  | true => .ofKeyResult out.remote

/-- The chunk `make_key` emits for one half. -/
def MakeKeyOutput.chunk (out : MakeKeyOutput CnKey Id K) : Bool → Option (ChunkItem CnKey)
  | false => out.lChunk
  | true => out.rChunk

namespace Conn

def new (cn : ConnectionItem CnKey) (id : Id) : Conn CnKey Id K :=
  ⟨fun _ => .initial (Initial.new cn id)⟩

def tag (origin : Origin) (out : Emitted CnKey) : ConnOut CnKey :=
  ⟨out.chunks, out.records.map (origin, ·)⟩

@[simp] theorem recordsFrom_tag (origin other : Origin) (out : Emitted CnKey) :
    (tag origin out).recordsFrom other = if origin = other then out.records else [] := by
  by_cases same : origin = other
  · subst same
    simp [tag, ConnOut.recordsFrom, List.filter_map, Function.comp_def]
  · simp [tag, ConnOut.recordsFrom, List.filter_map, Function.comp_def, same]

def step (crypto : Crypto Id K) (conn : Conn CnKey Id K) : ConnEvent → Option (Conn CnKey Id K × ConnOut CnKey)
  | .call side call =>
    ((conn.half side).step crypto call.toEvent).map fun (half, out) =>
      (⟨Function.update conn.half side half⟩, tag (.half side) out)
  | .makeKey =>
    match conn.half false, conn.half true with
    | .haveCm l, .haveCm r =>
      (l.makeKey crypto r).map fun out =>
        (⟨out.halves⟩, ⟨out.lChunk.toList ++ out.rChunk.toList, [(.makeKey, out.cn)]⟩)
    | _, _ => some (conn, {})

def run (crypto : Crypto Id K) : Conn CnKey Id K → List ConnEvent → Option (Conn CnKey Id K × ConnOut CnKey)
  | conn, [] => some (conn, {})
  | conn, event :: events =>
    (conn.step crypto event).bind fun (conn, out) =>
      (conn.run crypto events).map fun (conn, rest) => (conn, out ++ rest)

theorem run_cons_eq_some {conn final : Conn CnKey Id K} {event : ConnEvent} {events : List ConnEvent}
    {out : ConnOut CnKey} :
    conn.run crypto (event :: events) = some (final, out) ↔
      ∃ next first rest, conn.step crypto event = some (next, first) ∧
        next.run crypto events = some (final, rest) ∧ out = first ++ rest := by
  simp only [run, Option.bind_eq_some, Option.map_eq_some', Prod.exists, Prod.mk.injEq]
  constructor
  · rintro ⟨next, first, stepped, final', rest, ran, rfl, rfl⟩
    exact ⟨next, first, rest, stepped, ran, rfl⟩
  · rintro ⟨next, first, rest, stepped, ran, rfl⟩
    exact ⟨next, first, stepped, final, rest, ran, rfl, rfl⟩

end Conn

/-- The calls a connection's events make on one half. -/
def callsTo (side : Bool) : List ConnEvent → List (Event K)
  | [] => []
  | .call S call :: events => if S = side then call.toEvent :: callsTo side events else callsTo side events
  | .makeKey :: events => callsTo side events

@[simp] theorem callsTo_append (side : Bool) (first second : List ConnEvent) :
    (callsTo side (first ++ second) : List (Event K)) = callsTo side first ++ callsTo side second := by
  induction first with
  | nil => rfl
  | cons event first ih =>
    cases event with
    | call S call => by_cases mine : S = side <;> simp [callsTo, mine, ih]
    | makeKey => simp [callsTo, ih]

namespace Conn

/-- `make_key` acts on each half as that half's own `have_key` or `have_not_key`. -/
theorem makeKey_half_step {conn : Conn CnKey Id K} {l : HaveCm CnKey Id false} {r : HaveCm CnKey Id true}
    (lHere : conn.half false = .haveCm l) (rHere : conn.half true = .haveCm r)
    {out : MakeKeyOutput CnKey Id K} (made : l.makeKey crypto r = some out) (side : Bool) :
    ∃ event : Event K, event.payload = [] ∧ (∀ payload, event ≠ .data payload) ∧
      (conn.half side).step crypto event = some (out.halves side, { chunks := (out.chunk side).toList }) := by
  obtain ⟨lc, rc, lfound, rfound, ⟨kl, kr, cl, cr, -, -, -, rfl⟩ | ⟨-, rfl⟩⟩ := HaveCm.makeKey_eq_some made
  · cases side
    · exact ⟨.haveKey kl, rfl, nofun, by simp [lHere, Half.step, HaveCm.haveKey_of_haveChunk lfound,
        MakeKeyOutput.halves, MakeKeyOutput.chunk, Half.ofKeyResult]⟩
    · exact ⟨.haveKey kr, rfl, nofun, by simp [rHere, Half.step, HaveCm.haveKey_of_haveChunk rfound,
        MakeKeyOutput.halves, MakeKeyOutput.chunk, Half.ofKeyResult]⟩
  · cases side
    · exact ⟨.haveNotKey, rfl, nofun, by rw [lHere]; rfl⟩
    · exact ⟨.haveNotKey, rfl, nofun, by rw [rHere]; rfl⟩

/-- Chunks all sent by one side pass the sender filter of that side and of no other. -/
theorem filter_incoming {chunks : List (ChunkItem CnKey)} {S : Bool} (sent : ∀ chunk ∈ chunks, chunk.incoming = S)
    (side : Bool) : chunks.filter (fun chunk => chunk.incoming = side) = if S = side then chunks else [] := by
  split
  · subst_vars
    exact List.filter_eq_self.mpr fun chunk member => by simpa using sent chunk member
  · exact List.filter_eq_nil_iff.mpr fun chunk member => by simpa [sent chunk member]

/-- Of the two chunks `make_key` emits, the sender filter of each side keeps that side's own. -/
theorem makeKey_chunks {conn : Conn CnKey Id K} {l : HaveCm CnKey Id false} {r : HaveCm CnKey Id true}
    (lHere : conn.half false = .haveCm l) (rHere : conn.half true = .haveCm r)
    {made : MakeKeyOutput CnKey Id K} (madeEq : l.makeKey crypto r = some made) (side : Bool) :
    (made.lChunk.toList ++ made.rChunk.toList).filter (fun chunk => chunk.incoming = side) =
      (made.chunk side).toList := by
  obtain ⟨_, -, -, lStep⟩ := makeKey_half_step lHere rHere madeEq false
  obtain ⟨_, -, -, rStep⟩ := makeKey_half_step lHere rHere madeEq true
  have lSent := Half.step_incoming lStep
  have rSent := Half.step_incoming rStep
  simp only [MakeKeyOutput.chunk] at lSent rSent
  cases side <;> simp only [List.filter_append, filter_incoming lSent, filter_incoming rSent] <;> simp [MakeKeyOutput.chunk]

/-- Each half of a connection run is a run of that direction: its own calls, with `make_key` read
as this half's outcome. It sees its own payloads, emits the chunks carrying its sender bit and hands
out its own records. -/
theorem run_half (side : Bool) {conn final : Conn CnKey Id K} {events : List ConnEvent}
    {out : ConnOut CnKey} (ran : conn.run crypto events = some (final, out)) :
    ∃ calls halfOut, (conn.half side).run crypto calls = some (final.half side, halfOut) ∧
      delivered calls = delivered (callsTo side events : List (Event K)) ∧
      (∀ payload, Event.data payload ∈ calls → Event.data payload ∈ (callsTo side events : List (Event K))) ∧
      halfOut.chunks = out.chunks.filter (fun chunk => chunk.incoming = side) ∧
      halfOut.records = out.recordsFrom (.half side) := by
  induction events generalizing conn out with
  | nil => cases ran; exact ⟨[], {}, rfl, rfl, by simp, rfl, rfl⟩
  | cons event events ih =>
    obtain ⟨next, first, rest, stepped, tail, rfl⟩ := run_cons_eq_some.mp ran
    obtain ⟨calls, halfOut, halfRan, same, data, chunks, records⟩ := ih tail
    cases event with
    | call called call =>
      simp only [step, Option.map_eq_some', Prod.mk.injEq] at stepped
      obtain ⟨⟨half, o⟩, halfStep, rfl, rfl⟩ := stepped
      have sent := Half.step_incoming halfStep
      by_cases mine : called = side
      · subst mine
        simp only [Function.update_same] at halfRan
        refine ⟨call.toEvent :: calls, o ++ halfOut, Half.run_cons_eq_some.mpr ⟨half, o, halfOut, halfStep, halfRan, rfl⟩,
          by simp [same, callsTo], fun payload member => ?_, ?_, by simp [records]⟩
        · rcases List.mem_cons.mp member with now | earlier
          · simp [callsTo, ← now]
          · simp [callsTo, data payload earlier]
        · simp [tag, chunks, filter_incoming sent]
      · simp only [Function.update_noteq (Ne.symm mine)] at halfRan
        refine ⟨calls, halfOut, halfRan, by simp [same, callsTo, mine],
          fun payload member => by simpa [callsTo, mine] using data payload member, ?_, by simp [records, mine]⟩
        simp [tag, chunks, filter_incoming sent, mine]
    | makeKey =>
      simp only [step] at stepped
      split at stepped
      · rename_i l r same₁ same₂
        simp only [Option.map_eq_some', Prod.mk.injEq] at stepped
        obtain ⟨made, made', rfl, rfl⟩ := stepped
        obtain ⟨halfEvent, noPayload, notData, halfStep⟩ := makeKey_half_step same₁ same₂ made' side
        refine ⟨halfEvent :: calls, { chunks := (made.chunk side).toList } ++ halfOut,
          Half.run_cons_eq_some.mpr ⟨_, _, halfOut, halfStep, halfRan, rfl⟩,
          by simp [same, callsTo, noPayload], fun payload member => ?_, ?_, by simp [records, ConnOut.recordsFrom]⟩
        · rcases List.mem_cons.mp member with now | earlier
          · exact (notData payload now.symm).elim
          · simpa [callsTo] using data payload earlier
        · rw [Emitted.append_chunks, ConnOut.append_chunks, List.filter_append, makeKey_chunks same₁ same₂ made' side,
            chunks]
      · cases stepped
        refine ⟨calls, halfOut, halfRan, by simp [same, callsTo], fun payload member => ?_, by simp [chunks],
          by simp [records]⟩
        simpa [callsTo] using data payload member

/-- Once a half is past its rendezvous `make_key` no longer acts on it, and its part of a connection
run is a run over exactly its own calls. -/
theorem run_half_of_not_pre (side : Bool) {conn final : Conn CnKey Id K} {events : List ConnEvent}
    {out : ConnOut CnKey} (post : ¬(conn.half side).IsPre) (ran : conn.run crypto events = some (final, out)) :
    ∃ halfOut, (conn.half side).run crypto (callsTo side events) = some (final.half side, halfOut) ∧
      halfOut.chunks = out.chunks.filter (fun chunk => chunk.incoming = side) := by
  induction events generalizing conn out with
  | nil => cases ran; exact ⟨{}, rfl, rfl⟩
  | cons event events ih =>
    obtain ⟨next, first, rest, stepped, tail, rfl⟩ := run_cons_eq_some.mp ran
    cases event with
    | call called call =>
      simp only [step, Option.map_eq_some', Prod.mk.injEq] at stepped
      obtain ⟨⟨half, o⟩, halfStep, rfl, rfl⟩ := stepped
      have sent := Half.step_incoming halfStep
      by_cases mine : called = side
      · subst mine
        obtain ⟨halfOut, halfRan, chunks⟩ := ih (by simpa using Half.step_not_pre post halfStep) tail
        simp only [Function.update_same] at halfRan
        exact ⟨o ++ halfOut, by simpa [callsTo] using Half.run_cons_eq_some.mpr ⟨half, o, halfOut, halfStep, halfRan, rfl⟩,
          by simp [tag, chunks, filter_incoming sent]⟩
      · obtain ⟨halfOut, halfRan, chunks⟩ := ih (by simpa [Function.update_noteq (Ne.symm mine)] using post) tail
        simp only [Function.update_noteq (Ne.symm mine)] at halfRan
        exact ⟨halfOut, by simpa [callsTo, mine] using halfRan, by simp [tag, chunks, filter_incoming sent, mine]⟩
    | makeKey =>
      simp only [step] at stepped
      split at stepped
      · rename_i l r same₁ same₂
        cases side <;> simp [same₁, same₂, Half.IsPre] at post
      · cases stepped
        obtain ⟨halfOut, halfRan, chunks⟩ := ih post tail
        exact ⟨halfOut, by simpa [callsTo] using halfRan, by simp [chunks]⟩

end Conn

end TezedgeDebugger.ChunkParser
