import TezedgeDebugger.Storage.Store
import Mathlib.Logic.Function.Iterate

/-!
# `store_message` through clones of one store

`storage_/store.rs`. Clones of a `Store` share `kv`, `count` and `seq` (`Clone for Store`), so
several threads may call `store_message` on one store at once. `Pc` marks where a call stands
between its atomic steps (`reserve_index`, each kv `get`/`put`/`delete`, each
`store_indices`/`delete_indices`, `inc_count`) and `Sys.run` interleaves the calls' steps as a
schedule names them. A call whose steps run back to back does what `storeMessage` does
(`Store.iterate_step_start`).

Whatever the interleaving of at most `2 ^ 64` calls, `reserve_index` hands each index to one call,
every message in the kv is under the index its call reserved with that id, and a written message
stays until the call `limit` indices later evicts it (`Sys.Safe`, kept by every step). So once every
call has returned the kv holds the messages of the last `limit` indices (`Sys.Safe.settled`, from
the start `Sys.run_finished_settled`). It may hold
more (`interleaved_calls_exceed_limit`): a call evicts the index `limit` below its own, and if the
call that reserved that index has not put its message yet, nothing is evicted.
-/

namespace TezedgeDebugger.Storage

variable {M : Type}

namespace Store

/-- Where a `store_message` call stands: before the step it names next. -/
inductive Pc (M : Type) where
  | start
  | get (index target : Nat)
  | deleteIndices (index target : Nat) (value : M)
  | delete (index target : Nat)
  | put (index : Nat)
  | storeIndices (index : Nat)
  | incCount (index : Nat)
  | done (index : Nat)

/-- One atomic step of a call storing `msg`. -/
def step (setId : M → Nat → M) (limit : Nat) (msg : M) : Store M × Pc M → Store M × Pc M
  | (store, .start) =>
    let (index, store) := store.reserveIndex
    if index ≥ limit then (store, .get index (index - limit)) else (store, .put index)
  | (store, .get index target) =>
    match store.kv target with
    | some value => (store, .deleteIndices index target value)
    | none => (store, .put index)
  | (store, .deleteIndices index target value) => (store.deleteIndices target value, .delete index target)
  | (store, .delete index target) => (store.delete target, .put index)
  | (store, .put index) => (store.put index (setId msg index), .storeIndices index)
  | (store, .storeIndices index) => (store.storeIndices index (setId msg index), .incCount index)
  | (store, .incCount index) => (store.incCount, .done index)
  | (store, .done index) => (store, .done index)

/-- A call whose seven steps run back to back does what `store_message` run alone does. -/
theorem iterate_step_start (setId : M → Nat → M) (limit : Nat) (store : Store M) (msg : M) :
    Nat.iterate (step setId limit msg) 7 (store, .start) =
      ((store.storeMessage setId limit msg).2, .done (store.storeMessage setId limit msg).1) := by
  by_cases evict : limit ≤ store.seq
  · cases found : store.kv (store.seq - limit) <;>
      simp [Function.iterate_succ_apply, step, storeMessage, deleteMessage, evict, found]
  · simp [Function.iterate_succ_apply, step, storeMessage, evict]

namespace Pc

/-- The index the call reserved, once past `reserve_index`. -/
def index : Pc M → Option Nat
  | .start => none
  | .get index _ | .deleteIndices index _ _ | .delete index _ | .put index | .storeIndices index
  | .incCount index | .done index => some index

/-- The call has put its message. -/
def written : Pc M → Bool
  | .storeIndices _ | .incCount _ | .done _ => true
  | _ => false

/-- The call has returned. -/
def returned : Pc M → Bool
  | .done _ => true
  | _ => false

/-- An eviction under way targets the index `limit` below the call's own. -/
def Evicts (limit : Nat) : Pc M → Prop
  | .get index target | .deleteIndices index target _ | .delete index target =>
    limit ≤ index ∧ target = index - limit
  | _ => True

theorem written_of_returned {pc : Pc M} (returned : pc.returned = true) : pc.written = true := by
  cases pc <;> simp_all [Pc.returned, Pc.written]

theorem isSome_index_of_written {pc : Pc M} (written : pc.written = true) : pc.index.isSome = true := by
  cases pc <;> simp_all [Pc.written, Pc.index]

end Pc

section Step

variable (setId : M → Nat → M) (limit : Nat) (msg : M) (store : Store M) (pc : Pc M)

/-- `reserve_index` is the only step that gives a call its index, and it gives `seq`. -/
theorem step_index : (step setId limit msg (store, pc)).2.index = pc.index.or (some store.seq) := by
  cases pc with
  | start => by_cases evict : limit ≤ store.seq <;> simp [step, evict, Pc.index]
  | get index target => cases found : store.kv target <;> simp [step, found, Pc.index]
  | _ => rfl

/-- `seq` moves, by a wrapping `fetch_add(1)`, exactly when a call reserves its index. -/
theorem step_seq :
    (step setId limit msg (store, pc)).1.seq = if pc.index.isSome then store.seq else (store.seq + 1) % 2 ^ 64 := by
  cases pc with
  | start => by_cases evict : limit ≤ store.seq <;> simp [step, evict, Pc.index]
  | get index target => cases found : store.kv target <;> simp [step, found, Pc.index]
  | _ => rfl

/-- `count` moves, by a wrapping `fetch_add(1)`, exactly when a call returns. -/
theorem step_count :
    (step setId limit msg (store, pc)).1.count =
      if !pc.returned && (step setId limit msg (store, pc)).2.returned then (store.count + 1) % 2 ^ 64
      else store.count := by
  cases pc with
  | start => by_cases evict : limit ≤ store.seq <;> simp [step, evict, Pc.returned]
  | get index target => cases found : store.kv target <;> simp [step, found, Pc.returned]
  | _ => rfl

/-- A call that has returned stays so. -/
theorem step_returned (returned : pc.returned = true) : (step setId limit msg (store, pc)).2.returned = true := by
  cases pc <;> simp_all [Pc.returned, step]

/-- Only `delete` and `put` write the kv: `delete` clears the target, `put` the call's own index. -/
theorem step_kv :
    (step setId limit msg (store, pc)).1.kv = store.kv ∨
      (∃ index target, pc = .delete index target ∧
        (step setId limit msg (store, pc)).1.kv = Function.update store.kv target none) ∨
      ∃ index, pc = .put index ∧
        (step setId limit msg (store, pc)).1.kv = Function.update store.kv index (some (setId msg index)) := by
  cases pc with
  | delete index target => exact .inr (.inl ⟨index, target, rfl, rfl⟩)
  | put index => exact .inr (.inr ⟨index, rfl, rfl⟩)
  | start => left; by_cases evict : limit ≤ store.seq <;> simp [step, evict]
  | get index target => left; cases found : store.kv target <;> simp [step, found]
  | _ => exact .inl rfl

/-- A key a step leaves holding a message held it before, unless the step put it there. -/
theorem step_kv_eq_some (k : Nat) (v : M) (stored : (step setId limit msg (store, pc)).1.kv k = some v) :
    store.kv k = some v ∨ pc = .put k ∧ v = setId msg k := by
  rcases step_kv setId limit msg store pc with same | ⟨index, target, rfl, cleared⟩ | ⟨index, rfl, putAt⟩
  · exact .inl (same ▸ stored)
  · rw [cleared] at stored
    by_cases hk : k = target
    · subst hk
      simp at stored
    · exact .inl (by rwa [Function.update_noteq hk] at stored)
  · rw [putAt] at stored
    by_cases hk : k = index
    · subst hk
      simp only [Function.update_same, Option.some.injEq] at stored
      exact .inr ⟨rfl, stored.symm⟩
    · exact .inl (by rwa [Function.update_noteq hk] at stored)

/-- A call has written its message once it is past `put`. -/
theorem step_written :
    (step setId limit msg (store, pc)).2.written = true ↔ pc.written = true ∨ ∃ index, pc = .put index := by
  cases pc with
  | start => by_cases evict : limit ≤ store.seq <;> simp [step, evict, Pc.written]
  | get index target => cases found : store.kv target <;> simp [step, found, Pc.written]
  | _ => simp [step, Pc.written]

theorem step_evicts (evicts : pc.Evicts limit) : (step setId limit msg (store, pc)).2.Evicts limit := by
  cases pc with
  | start => by_cases evict : limit ≤ store.seq <;> simp [step, evict, Pc.Evicts]
  | get index target =>
    simp only [step]
    split
    · exact evicts
    · trivial
  | deleteIndices index target value => exact evicts
  | _ => trivial

end Step

end Store

/-- The shared store and, for each call, its message and where it stands. -/
structure Sys (M : Type) where
  store : Store M
  calls : List (M × Store.Pc M)

namespace Sys

/-- `n` calls about to start on an empty store. -/
def start (msgs : List M) : Sys M := ⟨.empty, msgs.map (·, .start)⟩

/-- One step of call `i`; a call that does not exist takes none. -/
def step (setId : M → Nat → M) (limit : Nat) (sys : Sys M) (i : Nat) : Sys M :=
  match sys.calls[i]? with
  | some (msg, pc) =>
    let (store, pc) := Store.step setId limit msg (sys.store, pc)
    ⟨store, sys.calls.set i (msg, pc)⟩
  | none => sys

/-- The calls' steps in the order the schedule names them. -/
def run (setId : M → Nat → M) (limit : Nat) (sys : Sys M) (schedule : List Nat) : Sys M :=
  schedule.foldl (step setId limit) sys

/-- Every call has returned. -/
def finished (sys : Sys M) : Bool := sys.calls.all fun call => call.2.returned

section Steps

variable {setId : M → Nat → M} {limit : Nat} {sys : Sys M} {i : Nat}

theorem step_of_getElem? {msg : M} {pc : Store.Pc M} (found : sys.calls[i]? = some (msg, pc)) :
    sys.step setId limit i =
      ⟨(Store.step setId limit msg (sys.store, pc)).1,
        sys.calls.set i (msg, (Store.step setId limit msg (sys.store, pc)).2)⟩ := by
  simp only [step, found]

theorem step_of_getElem?_none (missing : sys.calls[i]? = none) : sys.step setId limit i = sys := by
  simp only [step, missing]

theorem step_msgs (sys : Sys M) (i : Nat) :
    (sys.step setId limit i).calls.map Prod.fst = sys.calls.map Prod.fst := by
  rcases Option.eq_none_or_eq_some sys.calls[i]? with missing | ⟨⟨msg, pc⟩, found⟩
  · rw [step_of_getElem?_none missing]
  rw [step_of_getElem? found]
  apply List.ext_getElem?
  intro j
  rw [List.getElem?_map, List.getElem?_map, List.getElem?_set]
  split_ifs with same inside
  · subst same
    simp [found]
  · simp [List.getElem?_eq_none (Nat.le_of_not_lt inside)] at found
  · rfl

/-- The calls keep their messages. -/
theorem run_msgs (sys : Sys M) (schedule : List Nat) :
    (sys.run setId limit schedule).calls.map Prod.fst = sys.calls.map Prod.fst := by
  induction schedule generalizing sys with
  | nil => rfl
  | cons i schedule ih => exact (ih (sys.step setId limit i)).trans (step_msgs sys i)

theorem run_start_msgs (msgs : List M) (schedule : List Nat) :
    ((Sys.start msgs).run setId limit schedule).calls.map Prod.fst = msgs := by
  rw [run_msgs, Sys.start, List.map_map]
  exact List.map_id _

end Steps

end Sys

/-- Two calls under limit 1, each message its own id: the first reserves index 0; the second
reserves index 1, finds nothing under 0 to evict and stores its message; then the first stores
its own. -/
def lateWriter : List Nat := [0, 1, 1, 1, 1, 1, 0, 0, 0]

/-- Both calls return and the store holds two messages under limit 1. -/
theorem interleaved_calls_exceed_limit :
    ((Sys.start [0, 1]).run (fun _ index => index) 1 lateWriter).finished ∧
      ((Sys.start [0, 1]).run (fun _ index => index) 1 lateWriter).store.kv 0 = some 0 ∧
      ((Sys.start [0, 1]).run (fun _ index => index) 1 lateWriter).store.kv 1 = some 1 := by
  decide

namespace Sys

/-- Replacing the entry of call `i` changes a count of calls by that entry alone. -/
theorem countP_set_call {calls : List (M × Store.Pc M)} {i : Nat} {old : M × Store.Pc M}
    (found : calls[i]? = some old) (new : M × Store.Pc M) (p : M × Store.Pc M → Bool) :
    (calls.set i new).countP p + (if p old then 1 else 0) = calls.countP p + (if p new then 1 else 0) := by
  obtain ⟨inside, rfl⟩ := List.getElem?_eq_some_iff.mp found
  have le := List.boole_getElem_le_countP p calls i inside
  rw [List.countP_set p calls i new inside]
  omega

/-- An entry of the calls is still there after call `i`'s entry is replaced, unless it was that one. -/
theorem mem_set_or_found {calls : List (M × Store.Pc M)} {call : M × Store.Pc M} (member : call ∈ calls)
    (i : Nat) (new : M × Store.Pc M) : call ∈ calls.set i new ∨ calls[i]? = some call := by
  obtain ⟨j, inside, rfl⟩ := List.getElem_of_mem member
  by_cases same : i = j
  · exact .inr (same ▸ List.getElem?_eq_getElem inside)
  · left
    rw [← List.getElem_set_ne same (by simpa using inside)]
    exact List.getElem_mem _

/-- Two calls that a count of at most one admits are the same. -/
theorem eq_of_countP_le_one {calls : List (M × Store.Pc M)} {p : M × Store.Pc M → Bool}
    (atMostOne : calls.countP p ≤ 1) {a b : M × Store.Pc M} (ma : a ∈ calls) (mb : b ∈ calls) (pa : p a)
    (pb : p b) : a = b := by
  have ma' := List.mem_filter.mpr ⟨ma, pa⟩
  have mb' := List.mem_filter.mpr ⟨mb, pb⟩
  rw [List.countP_eq_length_filter] at atMostOne
  generalize calls.filter p = admitted at *
  match admitted, atMostOne with
  | [_], _ => exact (List.mem_singleton.mp ma').trans (List.mem_singleton.mp mb').symm
  | [], _ => cases ma'
  | _ :: _ :: _, tooMany => simp at tooMany

/-- The number of calls that have reserved an index. -/
def reserved (sys : Sys M) : Nat := sys.calls.countP fun call => call.2.index.isSome

/-- What every interleaving keeps. -/
structure Safe (setId : M → Nat → M) (limit : Nat) (sys : Sys M) : Prop where
  /-- At most `2 ^ 64` calls, so `seq` does not come round while they run. -/
  fits : sys.calls.length ≤ 2 ^ 64
  /-- `seq` counts the calls that have reserved an index, modulo `2 ^ 64`. -/
  seq_eq : sys.store.seq = sys.reserved % 2 ^ 64
  /-- `count` counts the calls that have returned, modulo `2 ^ 64`. -/
  count_eq : sys.store.count = (sys.calls.countP fun call => call.2.returned) % 2 ^ 64
  /-- Each index below the number of reservations is reserved by exactly one call, and no other
  index by any. -/
  reserved_once : ∀ k, (sys.calls.countP fun call => call.2.index = some k) = if k < sys.reserved then 1 else 0
  evicts : ∀ call ∈ sys.calls, call.2.Evicts limit
  /-- A message in the kv is under the index its call reserved, with that id set. -/
  owned : ∀ k v, sys.store.kv k = some v → ∃ call ∈ sys.calls, call.2.index = some k ∧ v = setId call.1 k
  /-- A written message stays until the call `limit` indices later may have evicted it. -/
  kept : ∀ call ∈ sys.calls, ∀ k, call.2.index = some k → call.2.written →
    sys.store.kv k = some (setId call.1 k) ∨ 0 < limit ∧ k + limit < sys.reserved

namespace Safe

variable {setId : M → Nat → M} {limit : Nat} {sys : Sys M}

theorem reserved_lt (safe : Safe setId limit sys) {call : M × Store.Pc M} (member : call ∈ sys.calls) {k : Nat}
    (reserved : call.2.index = some k) : k < sys.reserved := by
  have pos : 0 < sys.calls.countP fun call => call.2.index = some k :=
    List.countP_pos_iff.mpr ⟨call, member, by simpa using reserved⟩
  rw [safe.reserved_once k] at pos
  split at pos <;> omega

theorem unique (safe : Safe setId limit sys) {a b : M × Store.Pc M} (ma : a ∈ sys.calls) (mb : b ∈ sys.calls)
    {k : Nat} (ra : a.2.index = some k) (rb : b.2.index = some k) : a = b :=
  eq_of_countP_le_one (by rw [safe.reserved_once k]; split <;> omega) ma mb (by simpa using ra) (by simpa using rb)

theorem start (setId : M → Nat → M) (limit : Nat) {msgs : List M} (fits : msgs.length ≤ 2 ^ 64) :
    Safe setId limit (Sys.start msgs) where
  fits := by simpa [Sys.start] using fits
  seq_eq := by simp [Sys.start, Store.empty, reserved, Store.Pc.index, Function.comp_def]
  count_eq := by simp [Sys.start, Store.empty, Store.Pc.returned, Function.comp_def]
  reserved_once k := by simp [Sys.start, reserved, Store.Pc.index, Function.comp_def]
  evicts _ member := by
    obtain ⟨msg, -, rfl⟩ := List.mem_map.mp member
    trivial
  owned k v stored := by cases stored
  kept _ member k reserved := by
    obtain ⟨msg, -, rfl⟩ := List.mem_map.mp member
    cases reserved

/-- A step writes the key of a call that has written its message only to evict it, for a call
`limit` indices later. -/
theorem step_kv_of_written (safe : Safe setId limit sys) {msg : M} {pc : Store.Pc M} (mem : (msg, pc) ∈ sys.calls)
    (call : M × Store.Pc M) (member : call ∈ sys.calls) (k : Nat) (reserved : call.2.index = some k)
    (done : call.2.written = true) :
    (Store.step setId limit msg (sys.store, pc)).1.kv k = sys.store.kv k ∨ 0 < limit ∧ k + limit < sys.reserved := by
  rcases Store.step_kv setId limit msg sys.store pc with same | ⟨index, target, rfl, cleared⟩ | ⟨index, rfl, putAt⟩
  · exact .inl (congrFun same k)
  · obtain ⟨below, rfl⟩ := safe.evicts _ mem
    rw [cleared]
    by_cases hk : k = index - limit
    · rcases Nat.eq_zero_or_pos limit with zero | pos
      · subst zero hk
        cases safe.unique member mem reserved rfl
        simp [Store.Pc.written] at done
      · exact .inr ⟨pos, by have := safe.reserved_lt mem rfl; omega⟩
    · exact .inl (Function.update_noteq hk _ _)
  · rw [putAt]
    by_cases hk : k = index
    · subst hk
      cases safe.unique member mem reserved rfl
      simp [Store.Pc.written] at done
    · exact .inl (Function.update_noteq hk _ _)

/-- A call that has not reserved its index is still among the calls, so the reservations so far
fit below `2 ^ 64` and `seq` has not wrapped. -/
theorem seq_of_fresh (safe : Safe setId limit sys) {msg : M} {pc : Store.Pc M} (mem : (msg, pc) ∈ sys.calls)
    (fresh : pc.index = none) : sys.store.seq = sys.reserved := by
  have lt : sys.reserved < sys.calls.length := by
    rw [reserved, List.countP_eq_length_filter]
    exact List.length_filter_lt_length_iff_exists.mpr ⟨_, mem, by simp [fresh]⟩
  rw [safe.seq_eq, Nat.mod_eq_of_lt (lt.trans_le safe.fits)]

/-! One step of call `i`, from `pc` to `pc'`, leaving `store`: what it does to each field of `Safe`. -/

section Step

variable {i : Nat} {msg : M} {pc pc' : Store.Pc M} {store : Store M}

/-- The number of reservations grows by one exactly when the call reserves its index. -/
theorem reserved_set (found : sys.calls[i]? = some (msg, pc))
    (stepped : Store.step setId limit msg (sys.store, pc) = (store, pc')) :
    Sys.reserved ⟨store, sys.calls.set i (msg, pc')⟩ + (if pc.index.isSome then 1 else 0) = sys.reserved + 1 := by
  have index := Store.step_index setId limit msg sys.store pc
  rw [stepped] at index
  have now : pc'.index.isSome = true := by rw [index]; cases pc.index <;> rfl
  simpa only [reserved, now, if_true] using countP_set_call found (msg, pc') fun call => call.2.index.isSome

/-- `seq` stays the number of reservations modulo `2 ^ 64`. -/
theorem step_seq_eq (safe : Safe setId limit sys) (found : sys.calls[i]? = some (msg, pc))
    (stepped : Store.step setId limit msg (sys.store, pc) = (store, pc')) :
    store.seq = Sys.reserved ⟨store, sys.calls.set i (msg, pc')⟩ % 2 ^ 64 := by
  have seq := Store.step_seq setId limit msg sys.store pc
  rw [stepped] at seq
  have reserves := reserved_set found stepped
  have := safe.seq_eq
  dsimp only at seq
  split_ifs at seq reserves <;> omega

/-- `count` stays the number of returned calls modulo `2 ^ 64`. -/
theorem step_count_eq (safe : Safe setId limit sys) (found : sys.calls[i]? = some (msg, pc))
    (stepped : Store.step setId limit msg (sys.store, pc) = (store, pc')) :
    store.count = ((sys.calls.set i (msg, pc')).countP fun call => call.2.returned) % 2 ^ 64 := by
  have count := Store.step_count setId limit msg sys.store pc
  have stays := Store.step_returned setId limit msg sys.store pc
  rw [stepped] at count stays
  have counted := countP_set_call found (msg, pc') fun call => call.2.returned
  have := safe.count_eq
  dsimp only at count stays counted
  by_cases was : pc.returned = true
  · simp only [was, stays was, Bool.not_true, Bool.false_and, Bool.false_eq_true, if_true, if_false]
      at counted count
    omega
  · simp only [was, Bool.not_false, Bool.true_and, if_false, Bool.false_eq_true] at counted count
    split_ifs at counted count <;> omega

/-- A call reserves the index after the last one reserved, so every index below the number of
reservations stays reserved by exactly one call. -/
theorem step_reserved_once (safe : Safe setId limit sys) (found : sys.calls[i]? = some (msg, pc))
    (stepped : Store.step setId limit msg (sys.store, pc) = (store, pc')) (k : Nat) :
    ((sys.calls.set i (msg, pc')).countP fun call => call.2.index = some k) =
      if k < Sys.reserved ⟨store, sys.calls.set i (msg, pc')⟩ then 1 else 0 := by
  have index := Store.step_index setId limit msg sys.store pc
  rw [stepped] at index
  have reserves := reserved_set found stepped
  have counted := countP_set_call found (msg, pc') fun call => call.2.index = some k
  dsimp only at counted index
  rw [safe.reserved_once k] at counted
  rcases old : pc.index with _ | j
  · simp only [old, index, safe.seq_of_fresh (List.getElem?_mem found) old, Option.none_or, Option.isSome_none,
      Option.some.injEq, Bool.false_eq_true, if_false, decide_eq_true_eq, reduceCtorEq] at counted reserves
    split_ifs at counted ⊢ <;> omega
  · simp only [old, index, Option.or_some, Option.isSome_some, if_true] at counted reserves
    split_ifs at counted ⊢ <;> omega

/-- A message the step leaves in the kv is the message of the call that reserved its key. -/
theorem step_owned (safe : Safe setId limit sys) (found : sys.calls[i]? = some (msg, pc))
    (stepped : Store.step setId limit msg (sys.store, pc) = (store, pc')) (k : Nat) (v : M)
    (stored : store.kv k = some v) :
    ∃ call ∈ sys.calls.set i (msg, pc'), call.2.index = some k ∧ v = setId call.1 k := by
  have index := Store.step_index setId limit msg sys.store pc
  rw [stepped] at index
  have newMem : (msg, pc') ∈ sys.calls.set i (msg, pc') :=
    List.mem_set _ _ (List.getElem?_eq_some_iff.mp found).1 _
  rcases Store.step_kv_eq_some setId limit msg sys.store pc k v (by rw [stepped]; exact stored) with old | ⟨rfl, rfl⟩
  · obtain ⟨call, member, reserved, rfl⟩ := safe.owned k v old
    rcases mem_set_or_found member i (msg, pc') with still | replaced
    · exact ⟨call, still, reserved, rfl⟩
    · rw [found, Option.some.injEq] at replaced
      subst replaced
      exact ⟨(msg, pc'), newMem, by rw [index, reserved, Option.or_some], rfl⟩
  · exact ⟨(msg, pc'), newMem, by rw [index]; rfl, rfl⟩

/-- A written message stays until the call `limit` indices later may have evicted it. -/
theorem step_kept (safe : Safe setId limit sys) (found : sys.calls[i]? = some (msg, pc))
    (stepped : Store.step setId limit msg (sys.store, pc) = (store, pc')) (call : M × Store.Pc M)
    (member : call ∈ sys.calls.set i (msg, pc')) (k : Nat) (reserved : call.2.index = some k)
    (done : call.2.written = true) :
    store.kv k = some (setId call.1 k) ∨ 0 < limit ∧ k + limit < Sys.reserved ⟨store, sys.calls.set i (msg, pc')⟩ := by
  have mem : (msg, pc) ∈ sys.calls := List.getElem?_mem found
  have index := Store.step_index setId limit msg sys.store pc
  have written := Store.step_written setId limit msg sys.store pc
  have touched := safe.step_kv_of_written mem
  rw [stepped] at index written touched
  have grows : sys.reserved ≤ Sys.reserved ⟨store, sys.calls.set i (msg, pc')⟩ := by
    have := reserved_set found stepped
    split_ifs at this <;> omega
  have settle : ∀ k v, (sys.store.kv k = some v ∨ 0 < limit ∧ k + limit < sys.reserved) →
      (store.kv k = sys.store.kv k ∨ 0 < limit ∧ k + limit < sys.reserved) →
      store.kv k = some v ∨ 0 < limit ∧ k + limit < Sys.reserved ⟨store, sys.calls.set i (msg, pc')⟩ := by
    rintro k v (here | ⟨pos, lt⟩) (same | ⟨pos, lt⟩)
    · exact .inl (same.trans here)
    all_goals exact .inr ⟨pos, by omega⟩
  rcases List.mem_or_eq_of_mem_set member with old | rfl
  · exact settle k _ (safe.kept call old k reserved done) (touched call old k reserved done)
  · rcases written.mp done with was | ⟨index', rfl⟩
    · obtain ⟨j, old⟩ := Option.isSome_iff_exists.mp (Store.Pc.isSome_index_of_written was)
      rw [index, old, Option.or_some, Option.some.injEq] at reserved
      subst reserved
      exact settle j _ (safe.kept _ mem j old was) (touched _ mem j old was)
    · rw [index] at reserved
      simp only [Store.Pc.index, Option.or_some, Option.some.injEq] at reserved
      subst reserved
      obtain ⟨rfl, -⟩ := Prod.mk.inj stepped
      exact .inl (by simp)

end Step

/-- Every step of every call keeps `Safe`. -/
theorem step (safe : Safe setId limit sys) (i : Nat) : Safe setId limit (sys.step setId limit i) := by
  rcases Option.eq_none_or_eq_some sys.calls[i]? with missing | ⟨⟨msg, pc⟩, found⟩
  · rwa [step_of_getElem?_none missing]
  rw [step_of_getElem? found]
  have evicts := Store.step_evicts setId limit msg sys.store pc (safe.evicts _ (List.getElem?_mem found))
  rcases stepped : Store.step setId limit msg (sys.store, pc) with ⟨store, pc'⟩
  rw [stepped] at evicts
  exact {
    fits := (List.length_set _ _ _).trans_le safe.fits
    seq_eq := safe.step_seq_eq found stepped
    count_eq := safe.step_count_eq found stepped
    reserved_once := safe.step_reserved_once found stepped
    evicts := fun call member => (List.mem_or_eq_of_mem_set member).elim (safe.evicts call) fun same => same ▸ evicts
    owned := safe.step_owned found stepped
    kept := safe.step_kept found stepped }

theorem run (safe : Safe setId limit sys) (schedule : List Nat) : Safe setId limit (sys.run setId limit schedule) := by
  induction schedule generalizing sys with
  | nil => exact safe
  | cons i schedule ih => exact ih (safe.step i)

end Safe

/-- What calls storing `msgs` leave once all have returned: each kept its message, `seq` and
`count` are the number of calls modulo `2 ^ 64`, each index below that number was reserved by
exactly one call, every message in the kv is under the index its call reserved with that id set,
and the message of every call whose index is among the last `limit` (every call, with limit 0) is
there. -/
def Settled (setId : M → Nat → M) (limit : Nat) (msgs : List M) (sys : Sys M) : Prop :=
  sys.calls.map Prod.fst = msgs ∧ sys.store.seq = msgs.length % 2 ^ 64 ∧ sys.store.count = msgs.length % 2 ^ 64 ∧
    (∀ k, (sys.calls.countP fun call => call.2.index = some k) = if k < msgs.length then 1 else 0) ∧
    (∀ k v, sys.store.kv k = some v → ∃ call ∈ sys.calls, call.2.index = some k ∧ v = setId call.1 k) ∧
    ∀ call ∈ sys.calls, ∀ k, call.2.index = some k → msgs.length ≤ k + limit ∨ limit = 0 →
      sys.store.kv k = some (setId call.1 k)

/-- Once every call has returned, a safe system is settled over its calls' messages. -/
theorem Safe.settled {setId : M → Nat → M} {limit : Nat} {sys : Sys M} (safe : Safe setId limit sys)
    (finished : sys.finished = true) : Settled setId limit (sys.calls.map Prod.fst) sys := by
  have returned : ∀ call ∈ sys.calls, call.2.returned = true := List.all_eq_true.mp finished
  have all : sys.reserved = sys.calls.length := List.countP_eq_length.mpr fun call member =>
    Store.Pc.isSome_index_of_written (Store.Pc.written_of_returned (returned call member))
  rw [Settled, List.length_map]
  refine ⟨rfl, all ▸ safe.seq_eq, by rw [safe.count_eq, List.countP_eq_length.mpr returned],
    fun k => all ▸ safe.reserved_once k, safe.owned, ?_⟩
  intro call member k reserved last
  rcases safe.kept call member k reserved (Store.Pc.written_of_returned (returned call member)) with here | ⟨pos, lt⟩
  · exact here
  · omega

/-- Whatever the interleaving, at most `2 ^ 64` calls that have all returned leave the store
`Settled`: the kv may hold more than the last `limit` messages, never fewer. -/
theorem run_finished_settled (setId : M → Nat → M) (limit : Nat) (msgs : List M) (schedule : List Nat)
    (finished : ((Sys.start msgs).run setId limit schedule).finished = true) (fits : msgs.length ≤ 2 ^ 64) :
    Settled setId limit msgs ((Sys.start msgs).run setId limit schedule) := by
  have settled := ((Safe.start setId limit fits).run schedule).settled finished
  rwa [run_start_msgs] at settled

theorem run_finished_settled_sample :
    ((Sys.start [0, 1]).run (fun _ index => index) 1 lateWriter).finished = true ∧ [0, 1].length ≤ 2 ^ 64 ∧
      Settled (fun _ index => index) 1 [0, 1] ((Sys.start [0, 1]).run (fun _ index => index) 1 lateWriter) :=
  ⟨by decide, by decide, run_finished_settled _ _ _ _ (by decide) (by decide)⟩


end Sys

end TezedgeDebugger.Storage
