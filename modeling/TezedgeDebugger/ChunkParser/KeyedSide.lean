import TezedgeDebugger.ChunkParser.Rendezvous
import TezedgeDebugger.ChunkParser.Session

/-!
# What a keyed side of a connection emits

`keyed_run_decrypts_frames` describes one direction from a rendezvous it is handed. This module
finds that rendezvous inside any connection run and names its key:

* a half gets a key only at the step that takes it out of `Initial`/`HaveCm`, and only as the
  `have_key` of a `make_key` (`Half.step_of_pre_keyed`); `Uncertain` and `HaveNotKey` never get one
  (`Half.run_not_keyed`);
* a connection run splits at the call that takes a half out of its pre-rendezvous states
  (`Conn.run_leaves_pre`), and after it `make_key` no longer acts on that half
  (`Conn.run_half_of_not_pre`).

So for every connection run from `Conn::new`, a side that ends with a key got it at a `make_key`
where `Keys::new` derived it from the first frames of the two streams, and the chunks it emitted,
picked out of everything the connection emitted by their sender bit, are its connection message
under counter zero, its later frames decrypted in order with the key each call left, then chunks
without plaintext once a decrypt failed (`Conn.run_new_keyed`).
-/

namespace TezedgeDebugger.ChunkParser

variable {CnKey Id K : Type} {S : Bool} {crypto : Crypto Id K}

namespace Half

/-- `HaveKey` or `CannotDecrypt`: the rendezvous gave the half a key. -/
def IsKeyed : Half CnKey Id K S → Prop
  | .haveKey _ | .cannotDecrypt _ => True
  | _ => False

theorem not_pre_of_keyed {half : Half CnKey Id K S} (keyed : half.IsKeyed) : ¬half.IsPre := by
  cases half <;> simp_all [IsKeyed, IsPre]

/-- Leaving the pre-rendezvous states with a key is `have_key` on a `HaveCm`. -/
theorem step_of_pre_keyed {half next : Half CnKey Id K S} {event : Event K} {out : Emitted CnKey}
    (pre : half.IsPre) (stepped : half.step crypto event = some (next, out)) (keyed : next.IsKeyed) :
    ∃ state key, half = .haveCm state ∧ event = .haveKey key := by
  cases half with
  | initial state =>
    cases event with
    | data payload =>
      rw [step_initial_data] at stepped
      split_ifs at stepped <;> obtain ⟨⟨⟩⟩ := stepped <;> exact keyed.elim
    | uncertain => cases stepped; exact keyed.elim
    | haveKey _ | haveNotKey | cn => cases stepped; exact keyed.elim
  | haveCm state =>
    cases event with
    | data payload =>
      rw [step_haveCm_data] at stepped
      split_ifs at stepped <;> obtain ⟨⟨⟩⟩ := stepped <;> exact keyed.elim
    | haveKey key => exact ⟨state, key, rfl, rfl⟩
    | haveNotKey | uncertain | cn => cases stepped; exact keyed.elim
  | uncertain | haveKey | haveNotKey | cannotDecrypt => exact pre.elim

/-- `Uncertain` and `HaveNotKey` stay what they are. -/
theorem step_not_keyed {half next : Half CnKey Id K S} {event : Event K} {out : Emitted CnKey}
    (post : ¬half.IsPre) (unkeyed : ¬half.IsKeyed) (stepped : half.step crypto event = some (next, out)) :
    ¬next.IsKeyed := by
  cases half with
  | uncertain state =>
    cases event with
    | data payload =>
      obtain ⟨_, _, -, rfl, -⟩ := step_uncertain_data stepped
      exact id
    | uncertain | haveKey _ | haveNotKey | cn => cases stepped; exact id
  | haveNotKey state =>
    cases event with
    | data payload =>
      obtain ⟨_, _, -, rfl, -⟩ := step_haveNotKey_data stepped
      exact id
    | uncertain | haveKey _ | haveNotKey | cn => cases stepped; exact id
  | initial | haveCm => exact (post trivial).elim
  | haveKey | cannotDecrypt => exact (unkeyed trivial).elim

theorem run_not_keyed {half final : Half CnKey Id K S} {events : List (Event K)} {out : Emitted CnKey}
    (post : ¬half.IsPre) (unkeyed : ¬half.IsKeyed) (ran : half.run crypto events = some (final, out)) :
    ¬final.IsKeyed := by
  induction events generalizing half out with
  | nil => cases ran; exact unkeyed
  | cons event events ih =>
    obtain ⟨next, _, _, stepped, rest, -⟩ := run_cons_eq_some.mp ran
    exact ih (step_not_pre post stepped) (step_not_keyed post unkeyed stepped) rest

end Half

theorem HaveCm.haveKey_key {state : HaveCm CnKey Id S} {key : K} {next : HaveKey CnKey Id K S}
    {chunk : ChunkItem CnKey} (taken : state.haveKey key = some (next, chunk)) : next.key = key := by
  unfold haveKey at taken
  split at taken
  · obtain ⟨plain, -, taken⟩ := Option.map_eq_some'.mp taken
    obtain ⟨rfl, rfl⟩ := Prod.mk.inj taken
    rfl
  · cases taken

namespace Conn

/-- A run in which a half leaves its pre-rendezvous states splits at the call that takes it out. -/
theorem run_leaves_pre (side : Bool) {conn final : Conn CnKey Id K} {events : List ConnEvent}
    {out : ConnOut CnKey} (ran : conn.run crypto events = some (final, out)) (pre : (conn.half side).IsPre)
    (post : ¬(final.half side).IsPre) :
    ∃ before event after mid next beforeOut eventOut afterOut, events = before ++ event :: after ∧
      conn.run crypto before = some (mid, beforeOut) ∧ (mid.half side).IsPre ∧
      mid.step crypto event = some (next, eventOut) ∧ ¬(next.half side).IsPre ∧
      next.run crypto after = some (final, afterOut) ∧ out = beforeOut ++ eventOut ++ afterOut := by
  induction events generalizing conn out with
  | nil => cases ran; exact (post pre).elim
  | cons event events ih =>
    obtain ⟨next, first, rest, stepped, tail, rfl⟩ := run_cons_eq_some.mp ran
    by_cases stays : (next.half side).IsPre
    · obtain ⟨before, moving, after, mid, next', beforeOut, eventOut, afterOut, rfl, beforeRan, midPre, moved,
        left, afterRan, rfl⟩ := ih tail stays
      exact ⟨event :: before, moving, after, mid, next', first ++ beforeOut, eventOut, afterOut, rfl,
        run_cons_eq_some.mpr ⟨next, first, beforeOut, stepped, beforeRan, rfl⟩, midPre, moved, left, afterRan,
        by simp only [ConnOut.append_assoc]⟩
    · exact ⟨[], event, events, conn, next, {}, first, rest, rfl, rfl, pre, stepped, stays, tail, by simp⟩

/-- A `make_key` that gives a half a key is that half's `have_key`, with the key `Keys::new` derived
from the first frames the two halves hold. -/
theorem makeKey_keyed {conn : Conn CnKey Id K} {l : HaveCm CnKey Id false} {r : HaveCm CnKey Id true}
    (lHere : conn.half false = .haveCm l) (rHere : conn.half true = .haveCm r)
    {made : MakeKeyOutput CnKey Id K} (madeEq : l.makeKey crypto r = some made) (side : Bool)
    (keyed : (made.halves side).IsKeyed) :
    ∃ lc rc kl kr, l.inner.buffer.haveChunk = some lc ∧ r.inner.buffer.haveChunk = some rc ∧
      crypto.keysNew l.inner.id lc rc l.inner.cn.initiator = some (kl, kr) ∧
      (conn.half side).step crypto (.haveKey (if side then kr else kl)) =
        some (made.halves side, { chunks := (made.chunk side).toList }) := by
  obtain ⟨halfEvent, -, -, halfStep⟩ := makeKey_half_step lHere rHere madeEq side
  have pre : (conn.half side).IsPre := by cases side <;> simp [lHere, rHere, Half.IsPre]
  obtain ⟨state, key, here, rfl⟩ := Half.step_of_pre_keyed pre halfStep keyed
  obtain ⟨lc, rc, lfound, rfound, ⟨kl, kr, cl, cr, keys, -, -, madeIs⟩ | ⟨-, madeIs⟩⟩ :=
    HaveCm.makeKey_eq_some madeEq
  · have keyIs : key = if side then kr else kl := by
      simp only [here, Half.step, Option.map_eq_some', Prod.mk.injEq] at halfStep
      obtain ⟨⟨keyedState, chunk⟩, taken, same, -⟩ := halfStep
      rw [← HaveCm.haveKey_key taken]
      cases side <;> simp only [madeIs, MakeKeyOutput.halves, Half.ofKeyResult, Half.haveKey.injEq] at same <;>
        simp [same]
    exact ⟨lc, rc, kl, kr, lfound, rfound, keys, keyIs ▸ halfStep⟩
  · rw [madeIs] at keyed
    cases side <;> exact (keyed : False).elim

/-- The first frame a `HaveCm` half holds is the first frame of its whole stream, whatever is
delivered after. -/
theorem firstChunk_callsTo {cn : ConnectionItem CnKey} {id : Id} {before : List ConnEvent} {mid : Conn CnKey Id K}
    {beforeOut : ConnOut CnKey} (ran : (Conn.new cn id).run crypto before = some (mid, beforeOut)) {S : Bool}
    {state : HaveCm CnKey Id S} (here : mid.half S = .haveCm state) {frame : Bytes}
    (found : state.inner.buffer.haveChunk = some frame) (after : List ConnEvent) :
    firstChunk (delivered (callsTo S (before ++ after) : List (Event K))) = some frame := by
  rw [callsTo_append, delivered_append]
  refine firstChunk_append ?_ _
  rw [← found, (haveCm_holds_stream ran S here).1]
  rfl

/-- For every connection run from `Conn::new`, a side that ends with a key got it at a `make_key`
where `Keys::new` derived it from the first frames of the two streams, and what the side emitted over
the whole run, picked out by its sender bit, is what `KeyedRunSpec` says of its whole stream and of
its calls after that `make_key`. -/
theorem run_new_keyed {cn : ConnectionItem CnKey} {id : Id} {events : List ConnEvent}
    {final : Conn CnKey Id K} {out : ConnOut CnKey} (ran : (Conn.new cn id).run crypto events = some (final, out))
    (side : Bool) (keyed : (final.half side).IsKeyed) :
    ∃ before after fl fr kl kr, events = before ++ .makeKey :: after ∧
      firstChunk (delivered (callsTo false events : List (Event K))) = some fl ∧
      firstChunk (delivered (callsTo true events : List (Event K))) = some fr ∧
      crypto.keysNew id fl fr cn.initiator = some (kl, kr) ∧
      KeyedRunSpec crypto cn.key (if side then kr else kl) (delivered (callsTo side events : List (Event K)))
        (callsTo side after) (final.half side) (out.chunks.filter fun chunk => chunk.incoming = side) := by
  obtain ⟨before, event, after, mid, next, beforeOut, eventOut, afterOut, rfl, beforeRan, midPre, moved, left,
    afterRan, rfl⟩ := run_leaves_pre side ran trivial (Half.not_pre_of_keyed keyed)
  obtain ⟨afterHalfOut, afterHalfRan, afterChunks⟩ := run_half_of_not_pre side left afterRan
  have nextKeyed : (next.half side).IsKeyed :=
    Classical.byContradiction fun unkeyed => Half.run_not_keyed left unkeyed afterHalfRan keyed
  cases event with
  | call called call =>
    -- a call of the coordinator never gives a key
    simp only [step, Option.map_eq_some', Prod.mk.injEq] at moved
    obtain ⟨⟨half, o⟩, halfStep, rfl, rfl⟩ := moved
    by_cases mine : called = side
    · subst mine
      simp only [Function.update_same] at nextKeyed
      obtain ⟨_, key, -, toEvent⟩ := Half.step_of_pre_keyed midPre halfStep nextKeyed
      cases call <;> cases toEvent
    · simp [Function.update_noteq (Ne.symm mine), midPre] at left
  | makeKey =>
    simp only [step] at moved
    split at moved
    · rename_i l r lHere rHere
      simp only [Option.map_eq_some', Prod.mk.injEq] at moved
      obtain ⟨made, madeEq, rfl, rfl⟩ := moved
      obtain ⟨lc, rc, kl, kr, lfound, rfound, keys, halfStep⟩ := makeKey_keyed lHere rHere madeEq side nextKeyed
      obtain ⟨state, here⟩ : ∃ state, mid.half side = .haveCm state := by
        cases side
        · exact ⟨l, lHere⟩
        · exact ⟨r, rHere⟩
      obtain ⟨calls, beforeHalfOut, beforeHalfRan, same, -, beforeChunks, -⟩ := run_half side beforeRan
      rw [here] at beforeHalfRan halfStep
      have nothingYet := (Half.run_new_of_pre beforeHalfRan trivial).2
      have spec := HaveCm.run_keyedRunSpec (Half.run_new_of_pre beforeHalfRan trivial).1
        (Half.run_cons_eq_some.mpr ⟨_, _, _, halfStep, afterHalfRan, rfl⟩)
      have stream : delivered calls ++ delivered (callsTo side after : List (Event K)) =
          delivered (callsTo side (before ++ .makeKey :: after) : List (Event K)) := by
        simp [same, callsTo]
      have chunks : (beforeOut ++ ⟨made.lChunk.toList ++ made.rChunk.toList, [(.makeKey, made.cn)]⟩ ++
          afterOut).chunks.filter (fun chunk => chunk.incoming = side) =
          ({ chunks := (made.chunk side).toList } ++ afterHalfOut).chunks := by
        rw [ConnOut.append_chunks, ConnOut.append_chunks, List.filter_append, List.filter_append, ← beforeChunks,
          nothingYet, makeKey_chunks lHere rHere madeEq side, ← afterChunks]
        rfl
      rw [(haveCm_holds_stream beforeRan false lHere).1] at keys
      refine ⟨before, after, lc, rc, kl, kr, rfl, firstChunk_callsTo beforeRan lHere lfound _,
        firstChunk_callsTo beforeRan rHere rfound _, keys, ?_⟩
      rw [← stream, chunks]
      exact spec
    · -- a `make_key` that finds a half past its rendezvous does nothing
      cases moved
      exact (left midPre).elim

end Conn

/-- Both connection messages, keys from `make_key`, then one local frame, decrypted. -/
def keyedConnRun : List ConnEvent :=
  [.call false (.data [0, 0]), .call true (.data [0, 0]), .makeKey, .call false (.data [0, 1, 9])]

theorem run_new_keyed_sample :
    ∃ final out, (Conn.new { key := (), initiator := false } () : Conn Unit Unit Unit).run decryptBodies
        keyedConnRun = some (final, out) ∧ (final.half false).IsKeyed ∧
      ∃ before after fl fr kl kr, keyedConnRun = before ++ .makeKey :: after ∧
        firstChunk (delivered (callsTo false keyedConnRun : List (Event Unit))) = some fl ∧
        firstChunk (delivered (callsTo true keyedConnRun : List (Event Unit))) = some fr ∧
        decryptBodies.keysNew () fl fr false = some (kl, kr) ∧
        KeyedRunSpec decryptBodies () (if false then kr else kl)
          (delivered (callsTo false keyedConnRun : List (Event Unit))) (callsTo false after) (final.half false)
          (out.chunks.filter fun chunk => chunk.incoming = false) := by
  refine ⟨_, _, rfl, trivial,
    @Conn.run_new_keyed Unit Unit Unit decryptBodies { key := (), initiator := false } () keyedConnRun _ _ ?_ false ?_⟩
  · rfl
  · trivial

end TezedgeDebugger.ChunkParser
