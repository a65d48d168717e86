import TezedgeDebugger.ChunkParser.Connection

/-!
# The connection records a connection hands out

Each half keeps its own copy of the connection record, and `make_key` stamps a clone of the local
half's copy. So a record handed out is the starting record with the stamps of the part that hands
it out and no other (`Conn.records_stamped`): a half's `Uncertain::cn` carries that half's
uncertain flag, its `HaveData::over` record the counter of its failed decrypt, and `make_key`'s
record the soft checks and the peer key, or `outgoing_wrong_pk`. A part hands out one record,
possibly several times. Records of different parts do not extend each other
(`later_record_drops_uncertain`).
-/

namespace TezedgeDebugger.ChunkParser

variable {CnKey Id K : Type} {S : Bool} {crypto : Crypto Id K}

/-- The record of a half that went uncertain: the comment `Uncertain::new` adds for its direction. -/
def uncertainRecord (S : Bool) (start : ConnectionItem CnKey) : ConnectionItem CnKey :=
  if S then start.addComment fun c => { c with incomingUncertain := true }
  else start.addComment fun c => { c with outgoingUncertain := true }

/-- The record of a half whose decrypt failed at `position`, as `HaveData::over` stamps it. -/
def cannotDecryptRecord (S : Bool) (start : ConnectionItem CnKey) (position : Nat) : ConnectionItem CnKey :=
  if S then start.addComment fun c => { c with incomingCannotDecrypt := some position }
  else start.addComment fun c => { c with outgoingCannotDecrypt := some position }

/-- The records one part of a connection may hand out: the starting record with that part's own
stamps and no other. -/
def StampedBy (start : ConnectionItem CnKey) : Origin → ConnectionItem CnKey → Prop
  | .half S, record => record = uncertainRecord S start ∨ ∃ position, record = cannotDecryptRecord S start position
  | .makeKey, record => (∃ cl cr, record = stampRemote (stampLocal start cl) cr) ∨
      record = start.addComment fun c => { c with outgoingWrongPk := true }

/-! ## Which calls touch a half's record -/

theorem Uncertain.new_cn (inner : Inner CnKey Id S) : (Uncertain.new inner).1.inner.cn = uncertainRecord S inner.cn := by
  cases S <;> simp [Uncertain.new, uncertainRecord]

theorem Inner.flush_cn {inner next : Inner CnKey Id S} {payload : Bytes} {chunk : ChunkItem CnKey}
    (flushed : inner.flush payload = some (chunk, next)) : next.cn = inner.cn := by
  unfold Inner.flush at flushed
  split at flushed
  · rename_i same
    cases flushed
    simpa [same] using Inner.cleanup_cn (inner.handleData payload)
  · cases flushed

theorem HaveCm.haveKey_cn {state : HaveCm CnKey Id S} {key : K} {next : HaveKey CnKey Id K S}
    {chunk : ChunkItem CnKey} (taken : state.haveKey key = some (next, chunk)) : next.inner.cn = state.inner.cn := by
  unfold HaveCm.haveKey at taken
  split at taken
  · simp only [Option.map_eq_some', Prod.mk.injEq] at taken
    obtain ⟨_, _, rfl, -⟩ := taken
    rfl
  · cases taken

/-- `over()` keeps the record, or stamps the failing counter on it and hands the stamped one out. -/
theorem HaveData.over_cn (state : HaveData CnKey Id K S) :
    (∃ next, state.over = .ok next ∧ next.inner.cn = state.inner.cn) ∨
      ∃ position failed, state.over = .error (failed, cannotDecryptRecord S state.inner.cn position) ∧
        failed.inner.cn = cannotDecryptRecord S state.inner.cn position := by
  unfold HaveData.over
  split
  · rename_i position _
    exact .inr ⟨position, _, rfl, rfl⟩
  · exact .inl ⟨_, rfl, rfl⟩

namespace Half

/-- A half's record and those it has handed out: the starting record and nothing handed out until
the half is uncertain or failed to decrypt; from then on its own stamp, and every record handed out
is the one it holds. -/
def Recorded (start : ConnectionItem CnKey) (records : List (ConnectionItem CnKey)) : Half CnKey Id K S → Prop
  | .uncertain state => state.inner.cn = uncertainRecord S start ∧ ∀ record ∈ records, record = state.inner.cn
  | .cannotDecrypt state =>
    (∃ position, state.inner.cn = cannotDecryptRecord S start position) ∧ ∀ record ∈ records, record = state.inner.cn
  | half => half.inner.cn = start ∧ records = []

variable {start : ConnectionItem CnKey}

theorem step_recorded {half next : Half CnKey Id K S} {event : Event K} {out : Emitted CnKey}
    {records : List (ConnectionItem CnKey)} (recorded : half.Recorded start records)
    (stepped : half.step crypto event = some (next, out)) : next.Recorded start (records ++ out.records) := by
  cases half with
  | initial state =>
    obtain ⟨same, rfl⟩ : state.inner.cn = start ∧ records = [] := recorded
    cases event with
    | data payload =>
      rw [step_initial_data] at stepped
      split_ifs at stepped <;> obtain ⟨⟨⟩⟩ := stepped <;> exact ⟨same, rfl⟩
    | uncertain =>
      cases stepped
      exact ⟨by rw [← same]; exact Uncertain.new_cn _, by simp⟩
    | haveKey _ | haveNotKey | cn => cases stepped; exact ⟨same, rfl⟩
  | haveCm state =>
    obtain ⟨same, rfl⟩ : state.inner.cn = start ∧ records = [] := recorded
    cases event with
    | data payload =>
      rw [step_haveCm_data] at stepped
      split_ifs at stepped <;> obtain ⟨⟨⟩⟩ := stepped
      · exact ⟨by rw [← same]; exact Uncertain.new_cn _, by simp⟩
      · exact ⟨same, rfl⟩
    | haveKey key =>
      simp only [step, Option.map_eq_some', Prod.mk.injEq, Prod.exists] at stepped
      obtain ⟨keyed, chunk, taken, rfl, rfl⟩ := stepped
      exact ⟨(HaveCm.haveKey_cn taken).trans same, rfl⟩
    | haveNotKey =>
      cases stepped
      exact ⟨(Inner.cleanup_cn _).trans same, rfl⟩
    | uncertain | cn => cases stepped; exact ⟨same, rfl⟩
  | uncertain state =>
    obtain ⟨same, earlier⟩ := recorded
    cases event with
    | data payload =>
      obtain ⟨chunk, inner', flushed, rfl, rfl⟩ := step_uncertain_data stepped
      exact ⟨(Inner.flush_cn flushed).trans same, by simpa [Inner.flush_cn flushed] using earlier⟩
    | cn =>
      cases stepped
      refine ⟨same, fun record member => ?_⟩
      rcases List.mem_append.mp member with earlier' | single
      · exact earlier record earlier'
      · exact List.mem_singleton.mp single
    | uncertain | haveKey _ | haveNotKey => cases stepped; exact ⟨same, by simpa using earlier⟩
  | haveKey state =>
    obtain ⟨same, rfl⟩ : state.inner.cn = start ∧ records = [] := recorded
    cases event with
    | data payload =>
      simp only [step, deliver, Option.some.injEq] at stepped
      have drained := HaveData.drain_cn crypto (state.handleData payload)
      rcases HaveData.over_cn ((state.handleData payload).drain crypto).2 with
        ⟨kept, over, keptCn⟩ | ⟨position, failed, over, failedCn⟩ <;>
        simp only [over, Prod.mk.injEq] at stepped <;> obtain ⟨rfl, rfl⟩ := stepped
      · exact ⟨keptCn.trans (drained.trans same), rfl⟩
      · refine ⟨⟨position, by rw [failedCn, drained, ← same]; rfl⟩, ?_⟩
        simp [failedCn]
    | uncertain | haveKey _ | haveNotKey | cn => cases stepped; exact ⟨same, rfl⟩
  | haveNotKey state =>
    obtain ⟨same, rfl⟩ : state.inner.cn = start ∧ records = [] := recorded
    cases event with
    | data payload =>
      obtain ⟨chunk, inner', flushed, rfl, rfl⟩ := step_haveNotKey_data stepped
      exact ⟨(Inner.flush_cn flushed).trans same, rfl⟩
    | uncertain | haveKey _ | haveNotKey | cn => cases stepped; exact ⟨same, rfl⟩
  | cannotDecrypt state =>
    obtain ⟨same, earlier⟩ := recorded
    cases event with
    | data payload =>
      obtain ⟨chunk, inner', flushed, rfl, rfl⟩ := step_cannotDecrypt_data stepped
      exact ⟨by rw [Inner.flush_cn flushed]; exact same, by simpa [Inner.flush_cn flushed] using earlier⟩
    | uncertain | haveKey _ | haveNotKey | cn => cases stepped; exact ⟨same, by simpa using earlier⟩

theorem run_recorded {half final : Half CnKey Id K S} {events : List (Event K)} {out : Emitted CnKey}
    {records : List (ConnectionItem CnKey)} (recorded : half.Recorded start records)
    (ran : half.run crypto events = some (final, out)) : final.Recorded start (records ++ out.records) := by
  induction events generalizing half records out with
  | nil => cases ran; simpa using recorded
  | cons event events ih =>
    obtain ⟨next, first, rest, stepped, tail, rfl⟩ := run_cons_eq_some.mp ran
    simpa using ih (step_recorded recorded stepped) tail

/-- What a half has handed out is one record, with that half's stamp. -/
theorem Recorded.stamped {half : Half CnKey Id K S} {records : List (ConnectionItem CnKey)}
    (recorded : half.Recorded start records) :
    ∀ record ∈ records, StampedBy start (.half S) record ∧ ∀ other ∈ records, other = record := by
  intro record member
  cases half with
  | uncertain state =>
    obtain ⟨same, earlier⟩ := recorded
    rw [earlier record member, same]
    exact ⟨.inl rfl, fun other otherMember => (earlier other otherMember).trans same⟩
  | cannotDecrypt state =>
    obtain ⟨⟨position, same⟩, earlier⟩ := recorded
    rw [earlier record member, same]
    exact ⟨.inr ⟨position, rfl⟩, fun other otherMember => (earlier other otherMember).trans same⟩
  | initial | haveCm | haveKey | haveNotKey => simp [recorded.2] at member

end Half

namespace Conn

variable {start : ConnectionItem CnKey}

/-- The records of a connection run so far: each half's as `Half.Recorded` says, and `make_key`'s,
handed out at most once and only once the local half has left the handshake. -/
def Recorded (start : ConnectionItem CnKey) (conn : Conn CnKey Id K) (out : ConnOut CnKey) : Prop :=
  (∀ side, (conn.half side).Recorded start (out.recordsFrom (.half side))) ∧
    (out.recordsFrom .makeKey = [] ∨
      ¬(conn.half false).IsPre ∧ ∃ record, StampedBy start .makeKey record ∧ out.recordsFrom .makeKey = [record])

theorem makeKey_stamped {l : HaveCm CnKey Id false} {r : HaveCm CnKey Id true} {made : MakeKeyOutput CnKey Id K}
    (madeEq : l.makeKey crypto r = some made) : StampedBy l.inner.cn .makeKey made.cn := by
  obtain ⟨lc, rc, -, -, ⟨kl, kr, cl, cr, -, -, -, rfl⟩ | ⟨-, rfl⟩⟩ := HaveCm.makeKey_eq_some madeEq
  · exact .inl ⟨cl, cr, rfl⟩
  · exact .inr rfl

theorem step_recorded {conn next : Conn CnKey Id K} {event : ConnEvent} {out first : ConnOut CnKey}
    (recorded : conn.Recorded start out) (stepped : conn.step crypto event = some (next, first)) :
    next.Recorded start (out ++ first) := by
  obtain ⟨halves, keyed⟩ := recorded
  cases event with
  | call called call =>
    simp only [step, Option.map_eq_some', Prod.mk.injEq] at stepped
    obtain ⟨⟨half, o⟩, halfStep, rfl, rfl⟩ := stepped
    refine ⟨fun side => ?_, ?_⟩
    · by_cases mine : side = called
      · subst mine
        simpa using Half.step_recorded (halves side) halfStep
      · simpa [Function.update_noteq mine, Ne.symm mine] using halves side
    · simp only [ConnOut.recordsFrom_append, recordsFrom_tag, reduceCtorEq, if_false, List.append_nil]
      refine keyed.imp id fun ⟨post, rest⟩ => ⟨?_, rest⟩
      by_cases mine : called = false
      · subst mine
        simpa using Half.step_not_pre post halfStep
      · simpa [Function.update_noteq (Ne.symm mine)] using post
  | makeKey =>
    simp only [step] at stepped
    split at stepped
    · rename_i l r lHere rHere
      simp only [Option.map_eq_some', Prod.mk.injEq] at stepped
      obtain ⟨made, madeEq, rfl, rfl⟩ := stepped
      have lRecorded := halves false
      rw [lHere] at lRecorded
      obtain ⟨lStart, -⟩ := lRecorded
      refine ⟨fun side => ?_, .inr ⟨?_, made.cn, ?_, ?_⟩⟩
      · obtain ⟨halfEvent, -, -, halfStep⟩ := makeKey_half_step lHere rHere madeEq side
        simpa [ConnOut.recordsFrom] using Half.step_recorded (halves side) halfStep
      · show ¬(Half.ofKeyResult made.local).IsPre
        cases made.local <;> exact id
      · exact lStart ▸ makeKey_stamped madeEq
      · rcases keyed with empty | ⟨post, -⟩
        · rw [ConnOut.recordsFrom_append, empty]
          simp [ConnOut.recordsFrom]
        · exact (post (by rw [lHere]; trivial)).elim
    · cases stepped
      rw [ConnOut.append_empty]
      exact ⟨halves, keyed⟩

theorem new_recorded (cn : ConnectionItem CnKey) (id : Id) : (Conn.new cn id : Conn CnKey Id K).Recorded cn {} :=
  ⟨fun _ => ⟨rfl, rfl⟩, .inl rfl⟩

theorem run_recorded {conn final : Conn CnKey Id K} {events : List ConnEvent} {out first : ConnOut CnKey}
    (recorded : conn.Recorded start out) (ran : conn.run crypto events = some (final, first)) :
    final.Recorded start (out ++ first) := by
  induction events generalizing conn out first with
  | nil => cases ran; simpa using recorded
  | cons event events ih =>
    obtain ⟨next, step, rest, stepped, tail, rfl⟩ := run_cons_eq_some.mp ran
    simpa [ConnOut.append_assoc] using ih (step_recorded recorded stepped) tail

/-- Every record a connection hands out is its starting record with the stamps of the part that
hands it out and no other, and each part hands out one record. -/
theorem records_stamped {cn : ConnectionItem CnKey} {id : Id} {events : List ConnEvent}
    {final : Conn CnKey Id K} {out : ConnOut CnKey} (ran : (Conn.new cn id).run crypto events = some (final, out))
    (origin : Origin) :
    ∀ record ∈ out.recordsFrom origin, StampedBy cn origin record ∧ ∀ other ∈ out.recordsFrom origin, other = record := by
  have recorded := run_recorded (new_recorded cn id) ran
  simp only [ConnOut.empty_append] at recorded
  cases origin with
  | half side => exact (recorded.1 side).stamped
  | makeKey =>
    rcases recorded.2 with empty | ⟨-, record, stamped, single⟩
    · simp [empty]
    · simp [single, stamped]

end Conn

/-- The local half goes uncertain and hands out its record, then the remote half does the same. -/
def uncertainRun : List ConnEvent := [.call false .uncertain, .call false .cn, .call true .uncertain, .call true .cn]

theorem records_stamped_sample :
    ∃ final out, (Conn.new { key := (), initiator := false } () : Conn Unit Unit Unit).run decryptNothing
        uncertainRun = some (final, out) ∧
      ∀ record ∈ out.recordsFrom (.half false), StampedBy { key := (), initiator := false } (.half false) record ∧
        ∀ other ∈ out.recordsFrom (.half false), other = record := by
  obtain ⟨⟨final, out⟩, ran⟩ : ∃ result, (Conn.new { key := (), initiator := false } () : Conn Unit Unit Unit).run
      decryptNothing uncertainRun = some result := ⟨_, rfl⟩
  exact ⟨final, out, ran, Conn.records_stamped ran _⟩

/-- The remote half's record lacks the `outgoing_uncertain` that the local half's record, handed out
before it, had set. -/
theorem later_record_drops_uncertain :
    ((Conn.new { key := (), initiator := false } () : Conn Unit Unit Unit).run decryptNothing uncertainRun).map
      (fun result => result.2.records.map (·.2.comments.outgoingUncertain)) = some [true, false] := by
  decide

end TezedgeDebugger.ChunkParser
