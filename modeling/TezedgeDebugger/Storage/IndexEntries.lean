import TezedgeDebugger.Storage.Interleaving

/-!
# Secondary-index entries under interleaving

`storage_/store.rs` lines 161-180. `store_message` puts a message before `store_indices` writes its
entries, and `delete_message` deletes the entries (`delete_indices`) before the message. Between
the two steps of either pair a key holds a message without its entries; `Store.Pc.pending` marks a
call standing there. No other step separates a message from its entries (`Sys.Indexed`, kept by
every step), so once every call has returned, every message in the kv has its secondary-index
entries (`Sys.run_finished_indexed`), and a reader going through the indices finds its key.

The converse fails: a call that evicts a key between its writer's `put` and `store_indices` deletes
entries that are not there yet, and the writer then stores entries for a key with no message,
which `get_cursor` skips with "No value at index".
-/

namespace TezedgeDebugger.Storage

variable {M : Type}

namespace Store

/-- The call stands between a write of key `k` and the update of its entries: it has put its
message and not yet stored the entries, or deleted the entries of `k` and not yet the message. -/
def Pc.pending (k : Nat) : Pc M → Bool
  | .storeIndices index => index == k
  | .delete _ target => target == k
  | _ => false

theorem Pc.pending_of_returned {pc : Pc M} (returned : pc.returned = true) (k : Nat) : pc.pending k = false := by
  cases pc <;> simp_all [Pc.returned, Pc.pending]

section Step

variable (setId : M → Nat → M) (limit : Nat) (msg : M) (store : Store M)

/-- What one step leaves at a key that holds a message after it: the entries, or the call now
pending at that key, or else a message the key held before, with its entries as they were and the
call not pending there. -/
theorem step_indexed_of_isSome (pc : Pc M) (k : Nat) (held : ((step setId limit msg (store, pc)).1.kv k).isSome) :
    (step setId limit msg (store, pc)).1.indexed k = true ∨ (step setId limit msg (store, pc)).2.pending k = true ∨
      (store.kv k).isSome ∧ (step setId limit msg (store, pc)).1.indexed k = store.indexed k ∧
        pc.pending k = false := by
  cases pc with
  | start => by_cases evict : limit ≤ store.seq <;> simp [step, evict, Pc.pending] at held ⊢ <;> exact .inr held
  | get index target =>
    cases found : store.kv target <;> simp [step, found, Pc.pending] at held ⊢ <;> exact .inr held
  | deleteIndices index target value =>
    by_cases hk : target = k
    · simp [step, Pc.pending, hk]
    · simp [step, Pc.pending, Function.update_noteq (Ne.symm hk), hk] at held ⊢
      exact .inr held
  | delete index target =>
    by_cases hk : target = k
    · subst hk
      simp [step] at held
    · simp_all [step, Pc.pending, Function.update_noteq (Ne.symm hk)]
  | put index =>
    by_cases hk : index = k
    · simp [step, Pc.pending, hk]
    · simp_all [step, Pc.pending, Function.update_noteq (Ne.symm hk)]
  | storeIndices index =>
    by_cases hk : index = k
    · simp [step, hk]
    · simp [step, Pc.pending, Function.update_noteq (Ne.symm hk), hk] at held ⊢
      exact .inr held
  | incCount index | done index =>
    simp [step, Pc.pending] at held ⊢
    exact .inr held

end Step

end Store

namespace Sys

/-- A key holding a message has its secondary-index entries, unless a call is pending at it. -/
def Indexed (sys : Sys M) : Prop :=
  ∀ k, (sys.store.kv k).isSome → sys.store.indexed k = true ∨ ∃ call ∈ sys.calls, call.2.pending k = true

namespace Indexed

variable {setId : M → Nat → M} {limit : Nat} {sys : Sys M}

theorem start (msgs : List M) : (Sys.start msgs).Indexed := fun _ held => by cases held

/-- Every step of every call keeps `Indexed`. -/
theorem step (indexed : sys.Indexed) (i : Nat) : (sys.step setId limit i).Indexed := by
  rcases Option.eq_none_or_eq_some sys.calls[i]? with missing | ⟨⟨msg, pc⟩, found⟩
  · rwa [step_of_getElem?_none missing]
  rw [step_of_getElem? found]
  intro k held
  generalize stepped : Store.step setId limit msg (sys.store, pc) = next at held ⊢
  have cases := Store.step_indexed_of_isSome setId limit msg sys.store pc k
  rw [stepped] at cases
  obtain ⟨store, pc'⟩ := next
  rcases cases held with entries | pending | ⟨before, same, idle⟩
  · exact .inl entries
  · exact .inr ⟨_, List.mem_set _ _ (List.getElem?_eq_some_iff.mp found).1 _, pending⟩
  · rcases indexed k before with entries | ⟨call, member, pending⟩
    · exact .inl (same.trans entries)
    · refine .inr ⟨call, (mem_set_or_found member i (msg, pc')).resolve_right fun replaced => ?_, pending⟩
      rw [found, Option.some.injEq] at replaced
      subst replaced
      simp [idle] at pending

theorem run (indexed : sys.Indexed) (schedule : List Nat) : (sys.run setId limit schedule).Indexed := by
  induction schedule generalizing sys with
  | nil => exact indexed
  | cons i schedule ih => exact ih (indexed.step i)

end Indexed

/-- Whatever the interleaving, once every call storing `msgs` has returned, every key holding a
message has its secondary-index entries. -/
theorem run_finished_indexed (setId : M → Nat → M) (limit : Nat) (msgs : List M) (schedule : List Nat)
    (finished : ((Sys.start msgs).run setId limit schedule).finished = true) (k : Nat)
    (held : (((Sys.start msgs).run setId limit schedule).store.kv k).isSome) :
    ((Sys.start msgs).run setId limit schedule).store.indexed k = true := by
  rcases (Indexed.start msgs).run schedule k held with entries | ⟨call, member, pending⟩
  · exact entries
  · rw [Store.Pc.pending_of_returned (List.all_eq_true.mp finished call member) k] at pending
    cases pending

theorem run_finished_indexed_sample :
    ((Sys.start [0, 1]).run (fun _ index => index) 1 lateWriter).finished = true ∧
      (((Sys.start [0, 1]).run (fun _ index => index) 1 lateWriter).store.kv 0).isSome = true ∧
      ((Sys.start [0, 1]).run (fun _ index => index) 1 lateWriter).store.indexed 0 = true :=
  ⟨by decide, by decide, run_finished_indexed (fun _ index => index) 1 [0, 1] lateWriter (by decide) 0 (by decide)⟩

/-- The converse fails: the second call evicts key 0 between the first call's `put` and its
`store_indices`, and key 0 ends with entries and no message. -/
example : ((Sys.start [0, 1]).run (fun _ index => index) 1 [0, 0, 1, 1, 1, 1, 1, 1, 1, 0, 0]).finished = true ∧
    ((Sys.start [0, 1]).run (fun _ index => index) 1 [0, 0, 1, 1, 1, 1, 1, 1, 1, 0, 0]).store.indexed 0 = true ∧
    ((Sys.start [0, 1]).run (fun _ index => index) 1 [0, 0, 1, 1, 1, 1, 1, 1, 1, 0, 0]).store.kv 0 = none := by
  decide

end Sys

end TezedgeDebugger.Storage
