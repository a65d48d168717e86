import Mathlib.Logic.Function.Basic
import Mathlib.Data.List.Basic
import Mathlib.Algebra.Group.Int

/-!
# `store_message` run alone

`storage_/store.rs`. The key-value store and the secondary indices are rocksdb column families
outside the source tree: here `kv` maps a key to the message stored under it and `indexed` says
which keys have secondary-index entries. Messages are of any type `M`, and `setId` is
`MessageHasId::set_id`. Every storage operation succeeds, as in the runs where all calls return
`Ok`. `seq` and `count` are `AtomicU64`s moved by `fetch_add(1)`, which wraps: both are kept below
`2 ^ 64`, and the results about `n` calls need `n ≤ 2 ^ 64`, after which indices come round again.

`Store.storeMessage` is one call run alone. Run one after another with a positive limit, the calls
leave exactly the last `limit` messages under their ids (`Retains.storeAll`, from an empty store
`storeAll_retains_last`); with limit 0 a call evicts its own index before writing it
(`storeMessage_limit_zero`). `count` counts calls, not the messages held: `inc_count` runs on every
call and `delete_message` never lowers it, although its comment reads "count of messages in the
store". Calls made at once through clones of the store are in
`TezedgeDebugger.Storage.Interleaving`.
-/

namespace TezedgeDebugger.Storage

variable {M : Type}

/-- The state the clones of one store share. -/
structure Store (M : Type) where
  kv : Nat → Option M
  indexed : Nat → Bool
  count : Nat
  seq : Nat

namespace Store

/-- `Store::new` over an empty key-value store. -/
def empty : Store M := ⟨fun _ => none, fun _ => false, 0, 0⟩

/-- `reserve_index`: `seq.fetch_add(1)` on a `u64`. -/
def reserveIndex (store : Store M) : Nat × Store M := (store.seq, { store with seq := (store.seq + 1) % 2 ^ 64 })

/-- `inc_count`: `count.fetch_add(1)` on a `u64`. -/
def incCount (store : Store M) : Store M := { store with count := (store.count + 1) % 2 ^ 64 }

def put (store : Store M) (key : Nat) (msg : M) : Store M := { store with kv := Function.update store.kv key (some msg) }

def delete (store : Store M) (key : Nat) : Store M := { store with kv := Function.update store.kv key none }

def storeIndices (store : Store M) (key : Nat) (_msg : M) : Store M :=
  { store with indexed := Function.update store.indexed key true }

def deleteIndices (store : Store M) (key : Nat) (_value : M) : Store M :=
  { store with indexed := Function.update store.indexed key false }

/-- `delete_message`: the message and its secondary indices, if the key holds one. -/
def deleteMessage (store : Store M) (index : Nat) : Store M :=
  match store.kv index with
  | some value => (store.deleteIndices index value).delete index
  | none => store

/-- `store_message` run alone: the reserved index and the store after it. -/
def storeMessage (setId : M → Nat → M) (limit : Nat) (store : Store M) (msg : M) : Nat × Store M :=
  let (index, store) := store.reserveIndex
  let store := if index ≥ limit then store.deleteMessage (index - limit) else store
  let msg := setId msg index
  (index, ((store.put index msg).storeIndices index msg).incCount)

section Lemmas

variable (store : Store M) (key : Nat) (msg : M)

@[simp] theorem reserveIndex_fst : store.reserveIndex.1 = store.seq := rfl

@[simp] theorem reserveIndex_snd : store.reserveIndex.2 = { store with seq := (store.seq + 1) % 2 ^ 64 } := rfl

@[simp] theorem put_kv : (store.put key msg).kv = Function.update store.kv key (some msg) := rfl

@[simp] theorem put_indexed : (store.put key msg).indexed = store.indexed := rfl

@[simp] theorem put_seq : (store.put key msg).seq = store.seq := rfl

@[simp] theorem put_count : (store.put key msg).count = store.count := rfl

@[simp] theorem delete_kv : (store.delete key).kv = Function.update store.kv key none := rfl

@[simp] theorem delete_indexed : (store.delete key).indexed = store.indexed := rfl

@[simp] theorem delete_seq : (store.delete key).seq = store.seq := rfl

@[simp] theorem delete_count : (store.delete key).count = store.count := rfl

@[simp] theorem storeIndices_kv : (store.storeIndices key msg).kv = store.kv := rfl

@[simp] theorem storeIndices_indexed :
    (store.storeIndices key msg).indexed = Function.update store.indexed key true := rfl

@[simp] theorem storeIndices_seq : (store.storeIndices key msg).seq = store.seq := rfl

@[simp] theorem storeIndices_count : (store.storeIndices key msg).count = store.count := rfl

@[simp] theorem deleteIndices_kv : (store.deleteIndices key msg).kv = store.kv := rfl

@[simp] theorem deleteIndices_indexed :
    (store.deleteIndices key msg).indexed = Function.update store.indexed key false := rfl

@[simp] theorem deleteIndices_seq : (store.deleteIndices key msg).seq = store.seq := rfl

@[simp] theorem deleteIndices_count : (store.deleteIndices key msg).count = store.count := rfl

@[simp] theorem incCount_kv : store.incCount.kv = store.kv := rfl

@[simp] theorem incCount_indexed : store.incCount.indexed = store.indexed := rfl

@[simp] theorem incCount_seq : store.incCount.seq = store.seq := rfl

@[simp] theorem incCount_count : store.incCount.count = (store.count + 1) % 2 ^ 64 := rfl

@[simp] theorem deleteMessage_seq : (store.deleteMessage key).seq = store.seq := by
  unfold deleteMessage; split <;> rfl

@[simp] theorem deleteMessage_count : (store.deleteMessage key).count = store.count := by
  unfold deleteMessage; split <;> rfl

theorem deleteMessage_of_some {value : M} (found : store.kv key = some value) :
    store.deleteMessage key = (store.deleteIndices key value).delete key := by
  simp [deleteMessage, found]

end Lemmas

/-- Calls run one after another, each message stored by its own call. -/
def storeAll (setId : M → Nat → M) (limit : Nat) (store : Store M) (msgs : List M) : Store M :=
  msgs.foldl (fun store msg => (store.storeMessage setId limit msg).2) store

/-- What calls storing `msgs` one after another leave: the messages of the last `limit` calls, each
under its index with that id set, secondary-index entries for exactly their keys, and `seq` and
`count` at the number of calls modulo `2 ^ 64`. -/
def Retains (setId : M → Nat → M) (limit : Nat) (msgs : List M) (store : Store M) : Prop :=
  store.seq = msgs.length % 2 ^ 64 ∧ store.count = msgs.length % 2 ^ 64 ∧
    ∀ key, store.kv key = (if msgs.length - limit ≤ key then msgs[key]?.map (setId · key) else none) ∧
      store.indexed key = decide (msgs.length - limit ≤ key ∧ key < msgs.length)

theorem Retains.empty (setId : M → Nat → M) (limit : Nat) : Retains setId limit [] (Store.empty : Store M) :=
  ⟨rfl, rfl, fun key => by simp [Store.empty]⟩

/-- With a positive limit, one more call run alone keeps `Retains`, as long as `seq` has not wrapped:
it reserves the index after the last call's, and evicts exactly the message `limit` calls back,
which is there. -/
theorem storeMessage_retains {setId : M → Nat → M} {limit : Nat} (positive : 0 < limit) {msgs : List M}
    (fits : msgs.length < 2 ^ 64) {store : Store M} (retains : Retains setId limit msgs store) (msg : M) :
    Retains setId limit (msgs ++ [msg]) (store.storeMessage setId limit msg).2 := by
  obtain ⟨seqEq, countEq, keys⟩ := retains
  rw [Nat.mod_eq_of_lt fits] at seqEq countEq
  refine ⟨by simp [storeMessage, seqEq]; split <;> simp, by simp [storeMessage, countEq]; split <;> simp,
    fun key => ?_⟩
  have below : ∀ key, key < msgs.length → (msgs ++ [msg])[key]? = msgs[key]? :=
    fun key lt => List.getElem?_append_left lt
  have last : (msgs ++ [msg])[msgs.length]? = some msg := by simp
  have beyond : ∀ key, msgs.length < key → (msgs ++ [msg])[key]? = none :=
    fun key gt => List.getElem?_eq_none (by simp; omega)
  by_cases evict : limit ≤ msgs.length
  · obtain ⟨value, found⟩ : ∃ value, store.kv (msgs.length - limit) = some value := by
      rw [(keys _).1, if_pos (Nat.le_refl _), List.getElem?_eq_getElem (by omega)]
      exact ⟨_, rfl⟩
    simp only [storeMessage, reserveIndex_fst, reserveIndex_snd, seqEq, ge_iff_le, if_pos evict, deleteMessage,
      found, incCount_kv, storeIndices_kv, put_kv, delete_kv, deleteIndices_kv, incCount_indexed,
      storeIndices_indexed, put_indexed, delete_indexed, deleteIndices_indexed, Function.update_apply,
      List.length_append, List.length_singleton]
    rw [(keys key).1, (keys key).2]
    by_cases newest : key = msgs.length
    · subst newest
      simp [last, show msgs.length + 1 - limit ≤ msgs.length by omega]
    by_cases evicted : key = msgs.length - limit
    · subst evicted
      simp only [newest, if_true, if_false]
      rw [if_neg (by omega)]
      exact ⟨rfl, (decide_eq_false (by omega)).symm⟩
    simp only [newest, evicted, if_false, decide_eq_decide]
    rcases Nat.lt_or_gt_of_ne newest with lt | gt
    · rw [below key lt]
      by_cases kept : msgs.length + 1 - limit ≤ key
      · rw [if_pos (by omega), if_pos kept]
        exact ⟨rfl, by omega⟩
      · rw [if_neg (by omega), if_neg kept]
        exact ⟨rfl, by omega⟩
    · rw [beyond key gt, List.getElem?_eq_none (by omega)]
      exact ⟨by simp, by omega⟩
  · simp only [storeMessage, reserveIndex_fst, reserveIndex_snd, seqEq, ge_iff_le, if_neg evict,
      incCount_kv, storeIndices_kv, put_kv, incCount_indexed, storeIndices_indexed, put_indexed,
      Function.update_apply, List.length_append, List.length_singleton]
    rw [(keys key).1, (keys key).2]
    by_cases newest : key = msgs.length
    · subst newest
      simp [last, show msgs.length + 1 - limit ≤ msgs.length by omega]
    simp only [newest, if_false, decide_eq_decide]
    rcases Nat.lt_or_gt_of_ne newest with lt | gt
    · rw [below key lt, if_pos (by omega), if_pos (by omega)]
      exact ⟨rfl, by omega⟩
    · rw [beyond key gt, List.getElem?_eq_none (by omega)]
      exact ⟨by simp, by omega⟩

/-- Calls run one after another keep `Retains` over all the messages stored so far, as long as at
most `2 ^ 64` indices are reserved in all. -/
theorem Retains.storeAll {setId : M → Nat → M} {limit : Nat} (positive : 0 < limit) {before : List M}
    {store : Store M} (retains : Retains setId limit before store) (msgs : List M)
    (fits : (before ++ msgs).length ≤ 2 ^ 64) :
    Retains setId limit (before ++ msgs) (store.storeAll setId limit msgs) := by
  induction msgs generalizing before store with
  | nil => rwa [List.append_nil]
  | cons msg msgs ih =>
    rw [List.length_append, List.length_cons] at fits
    have next := ih (storeMessage_retains positive (by omega) retains msg) (by simp; omega)
    rwa [List.append_assoc, List.singleton_append] at next

/-- Run one after another from an empty store with a positive limit, at most `2 ^ 64` calls storing
`msgs` leave exactly the messages of the last `limit` of them, each under its index with that id
set, and secondary-index entries for exactly those keys. -/
theorem storeAll_retains_last (setId : M → Nat → M) {limit : Nat} (positive : 0 < limit) (msgs : List M)
    (fits : msgs.length ≤ 2 ^ 64) : Retains setId limit msgs (Store.empty.storeAll setId limit msgs) :=
  (Retains.empty setId limit).storeAll positive msgs fits

theorem storeAll_retains_last_sample :
    0 < 2 ∧ [5, 6, 7].length ≤ 2 ^ 64 ∧
      Retains (fun _ index => index) 2 [5, 6, 7] (Store.empty.storeAll (fun _ index => index) 2 [5, 6, 7]) :=
  ⟨by decide, by decide, storeAll_retains_last _ (by decide) _ (by decide)⟩

/-- `count` counts calls: under limit 1 two calls leave one message and a count of 2. -/
example : (Store.empty.storeAll (fun _ index => index) 1 [5, 6]).count = 2 ∧
    (Store.empty.storeAll (fun _ index => index) 1 [5, 6]).kv 0 = none := by
  decide

/-- With limit 0 a call evicts its own index before writing it, so even run alone it keeps its
message. -/
theorem storeMessage_limit_zero (setId : M → Nat → M) (store : Store M) (msg : M) (fresh : store.kv store.seq = none) :
    (store.storeMessage setId 0 msg).2.kv store.seq = some (setId msg store.seq) := by
  simp [storeMessage, deleteMessage, fresh]

end Store

end TezedgeDebugger.Storage
