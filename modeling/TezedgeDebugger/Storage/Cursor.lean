import TezedgeDebugger.Storage.Interleaving
import Mathlib.Data.List.Forall2
import Mathlib.Algebra.Group.Int

/-!
# Reading the store back: `Store::get_cursor`

`storage_/store.rs` lines 106-149. From a cursor (`u64::MAX` when none is given) `get_cursor` asks
the secondary indices for the keys the request's filter selects; when the filter needs no index
(`filter_iterator` returns `None`) it walks the kv from the cursor down and keeps the first `limit`
values. Either way a key whose value is gone is skipped: the source logs "No value at index" and
goes on. `Indices::filter_iterator` is outside the source tree and is a parameter; every rocksdb
call succeeds, as in `TezedgeDebugger.Storage.Store`.

Read after calls run one after another, the kv path gives the kept messages up to the cursor, newest
first, and the index path the message of every key the index lists (`getCursor_storeAll`). Read
after calls made at once through clones have all returned, a request for at most `limit` messages
gets the newest ones whatever the interleaving (`Sys.getCursor_run_finished`): the messages an
interleaving leaves behind (`interleaved_calls_exceed_limit`) are older than all of them.
-/

namespace TezedgeDebugger.Storage

variable {M : Type}

/-- `u64::MAX`: the cursor `get_cursor` starts from when none is given. -/
def u64Max : Nat := 2 ^ 64 - 1

namespace Store

/-- The keys `iterator(IteratorMode::From(&cursor, Direction::Reverse))` visits: every key up to
`cursor`, the largest first. -/
def keysFrom (cursor : Nat) : List Nat := (List.range (cursor + 1)).reverse

/-- `get_cursor`. `filterIterator` is `Indices::filter_iterator` for the request's filter: for a
cursor and a limit, the keys the indices list, or `None` when the filter needs no index. -/
def getCursor (filterIterator : Nat → Nat → Option (List Nat)) (store : Store M) (cursorIndex : Option Nat)
    (limit : Nat) : List M :=
  let cursorIndex := cursorIndex.getD u64Max
  match filterIterator cursorIndex limit with
  | some keys => keys.filterMap store.kv
  | none => ((keysFrom cursorIndex).filterMap store.kv).take limit

theorem getCursor_of_some {filterIterator : Nat → Nat → Option (List Nat)} {store : Store M} {cursor : Option Nat}
    {limit : Nat} {keys : List Nat} (listed : filterIterator (cursor.getD u64Max) limit = some keys) :
    store.getCursor filterIterator cursor limit = keys.filterMap store.kv := by
  simp only [getCursor, listed]

theorem getCursor_of_none {filterIterator : Nat → Nat → Option (List Nat)} {store : Store M} {cursor : Option Nat}
    {limit : Nat} (unindexed : filterIterator (cursor.getD u64Max) limit = none) :
    store.getCursor filterIterator cursor limit =
      ((keysFrom (cursor.getD u64Max)).filterMap store.kv).take limit := by
  simp only [getCursor, unindexed]

/-- The keys below `m`, the largest first, are those from `n` up, then those below `n`. -/
theorem range_reverse_eq_append {m n : Nat} (fits : n ≤ m) :
    (List.range m).reverse = (List.range' n (m - n)).reverse ++ (List.range n).reverse := by
  have split := List.range'_append_1 0 n (m - n)
  rw [Nat.zero_add, Nat.sub_add_cancel fits] at split
  rw [← List.reverse_append, List.range_eq_range', List.range_eq_range', split]

/-- The first `count` of a list whose first part is as long as `count` allows. -/
theorem take_append_of_length {α : Type} {first rest : List α} {count : Nat} (short : first.length ≤ count)
    (full : first.length = count ∨ rest = []) : (first ++ rest).take count = first := by
  rw [List.take_append_eq_append_take, List.take_of_length_le short]
  rcases full with full | rfl
  · simp [full]
  · simp

/-- With nothing held from `n` up to the cursor, the walk starts at `n - 1`. -/
theorem filterMap_keysFrom {kv : Nat → Option M} {cursor n : Nat} (fits : n ≤ cursor + 1)
    (above : ∀ key, n ≤ key → key ≤ cursor → kv key = none) :
    (keysFrom cursor).filterMap kv = (List.range n).reverse.filterMap kv := by
  rw [keysFrom, range_reverse_eq_append fits, List.filterMap_append, List.filterMap_eq_nil_iff.mpr,
    List.nil_append]
  intro key member
  rw [List.mem_reverse, List.mem_range'_1] at member
  exact above key member.1 (by omega)

/-- A kv that holds `values[key]` from `lo` on, read over the keys below `m`. -/
theorem filterMap_range_window (values : List M) (lo m : Nat) :
    (List.range m).filterMap (fun key => if lo ≤ key then values[key]? else none) = (values.take m).drop lo := by
  induction m with
  | zero => simp
  | succ m ih =>
    rw [List.range_succ, List.filterMap_append, ih, List.take_succ, List.drop_append_eq_append_drop]
    congr 1
    rcases Nat.lt_or_ge m values.length with inside | beyond
    · rw [List.length_take_of_le inside.le, List.getElem?_eq_getElem inside]
      by_cases kept : lo ≤ m
      · simp [kept, Nat.sub_eq_zero_of_le kept, List.getElem?_eq_getElem inside]
      · simp [kept, show 1 ≤ lo - m by omega]
    · simp [List.getElem?_eq_none beyond]

/-- Keys that all hold a value give one value each, in their order. -/
theorem forall₂_filterMap {kv : Nat → Option M} {keys : List Nat} (held : ∀ key ∈ keys, (kv key).isSome) :
    List.Forall₂ (fun msg key => kv key = some msg) (keys.filterMap kv) keys := by
  induction keys with
  | nil => exact .nil
  | cons key keys ih =>
    obtain ⟨msg, found⟩ := Option.isSome_iff_exists.mp (held key (List.mem_cons_self _ _))
    rw [List.filterMap_cons, found]
    exact .cons found (ih fun key member => held key (List.mem_cons_of_mem _ member))

/-- The walk from the cursor, cut at `count`, meets the keys below `n` newest first, with one value
each, when nothing is held from `n` up to the cursor and each of the last `count` keys below `n` is. -/
theorem forall₂_take_keysFrom {kv : Nat → Option M} {cursor n count : Nat} (fits : n ≤ cursor + 1)
    (above : ∀ key, n ≤ key → key ≤ cursor → kv key = none)
    (held : ∀ key, n - min count n ≤ key → key < n → (kv key).isSome) :
    List.Forall₂ (fun msg key => kv key = some msg) (((keysFrom cursor).filterMap kv).take count)
      ((List.range n).reverse.take count) := by
  rw [filterMap_keysFrom fits above, range_reverse_eq_append (Nat.sub_le n (min count n)),
    show n - (n - min count n) = min count n by omega, List.filterMap_append]
  have present : ∀ key ∈ (List.range' (n - min count n) (min count n)).reverse, (kv key).isSome :=
    fun key member => by
      rw [List.mem_reverse, List.mem_range'_1] at member
      exact held key member.1 (by omega)
  have full : (List.range' (n - min count n) (min count n)).reverse.length = count ∨
      (List.range (n - min count n)).reverse = [] := by
    rcases Nat.le_total count n with short | long
    · exact .inl (by simp; omega)
    · exact .inr (by simp; omega)
  have short : (List.range' (n - min count n) (min count n)).reverse.length ≤ count := by
    simp only [List.length_reverse, List.length_range']
    omega
  generalize (List.range' (n - min count n) (min count n)).reverse = first at *
  generalize (List.range (n - min count n)).reverse = rest at *
  have kept : (first.filterMap kv).length = first.length := List.filterMap_length_eq_length.mpr present
  rw [@take_append_of_length _ (first.filterMap kv) _ count (by omega)
      (by rcases full with full | rfl; exact .inl (by omega); exact .inr rfl),
    take_append_of_length short full]
  exact forall₂_filterMap present

/-- A kv that holds the messages of calls run one after another. -/
theorem Retains.kv_eq {setId : M → Nat → M} {limit : Nat} {msgs : List M} {store : Store M}
    (retains : Retains setId limit msgs store) :
    store.kv = fun key => if msgs.length - limit ≤ key then (msgs.mapIdx fun index msg => setId msg index)[key]?
      else none :=
  funext fun key => by rw [(retains.2.2 key).1, List.getElem?_mapIdx]

/-- After at most `2 ^ 64` calls storing `msgs` one after another with a positive limit, `get_cursor` reads the
messages back as they were stored: without an index, those of the last `limit` calls whose index is
at most the cursor, newest first, at most `count` of them; through an index that lists only keys
with index entries, the message of every key listed, none skipped. -/
theorem getCursor_storeAll (setId : M → Nat → M) {limit : Nat} (positive : 0 < limit) (msgs : List M)
    (fits : msgs.length ≤ 2 ^ 64) (filterIterator : Nat → Nat → Option (List Nat)) (cursor : Option Nat) (count : Nat) :
    (filterIterator (cursor.getD u64Max) count = none →
      (Store.empty.storeAll setId limit msgs).getCursor filterIterator cursor count =
        (((msgs.mapIdx fun index msg => setId msg index).take (cursor.getD u64Max + 1)).drop
          (msgs.length - limit)).reverse.take count) ∧
    ∀ keys, filterIterator (cursor.getD u64Max) count = some keys →
      (∀ key ∈ keys, (Store.empty.storeAll setId limit msgs).indexed key) →
      List.Forall₂ (fun msg key => (msgs.mapIdx fun index msg => setId msg index)[key]? = some msg)
        ((Store.empty.storeAll setId limit msgs).getCursor filterIterator cursor count) keys := by
  have retains : Retains setId limit msgs _ := (Retains.empty setId limit).storeAll positive msgs fits
  refine ⟨fun unindexed => ?_, fun keys listed indexed => ?_⟩
  · rw [getCursor_of_none unindexed, retains.kv_eq, keysFrom, List.filterMap_reverse, filterMap_range_window]
  · rw [getCursor_of_some listed]
    have window : ∀ key ∈ keys, msgs.length - limit ≤ key ∧ key < msgs.length := fun key member => by
      simpa [(retains.2.2 key).2] using indexed key member
    refine (forall₂_filterMap fun key member => ?_).imp fun msg key stored => ?_
    · simp [retains.kv_eq, (window key member).1, (window key member).2]
    · rw [retains.kv_eq] at stored
      dsimp only at stored
      split_ifs at stored
      exact stored

theorem getCursor_storeAll_sample :
    0 < 2 ∧ [5, 6, 7].length ≤ 2 ^ 64 ∧
      ((fun _ _ => none : Nat → Nat → Option (List Nat)) (none.getD u64Max) 5 = none →
        (Store.empty.storeAll (fun _ index => index) 2 [5, 6, 7]).getCursor (fun _ _ => none) none 5 =
          ((([5, 6, 7].mapIdx fun index msg => (fun _ index => index : Nat → Nat → Nat) msg index).take
            (none.getD u64Max + 1)).drop ([5, 6, 7].length - 2)).reverse.take 5) ∧
      ∀ keys, (fun _ _ => none : Nat → Nat → Option (List Nat)) (none.getD u64Max) 5 = some keys →
        (∀ key ∈ keys, (Store.empty.storeAll (fun _ index => index) 2 [5, 6, 7]).indexed key) →
        List.Forall₂ (fun msg key => ([5, 6, 7].mapIdx fun index msg => (fun _ index => index : Nat → Nat → Nat) msg index)[key]? = some msg)
          ((Store.empty.storeAll (fun _ index => index) 2 [5, 6, 7]).getCursor (fun _ _ => none) none 5) keys :=
  ⟨by decide, by decide,
    getCursor_storeAll (fun _ index => index) (by decide) [5, 6, 7] (by decide) (fun _ _ => none) none 5⟩

/-- From cursor 2, the two messages kept, newest first. -/
example : (Store.empty.storeAll (fun _ index => index) 2 [5, 6, 7]).getCursor (fun _ _ => none) (some 2) 5 = [2, 1] := by
  decide

end Store

namespace Sys

/-- Whatever the interleaving, once the calls storing `msgs` have all returned (and their indices fit
in a `u64`), a reader asking `get_cursor` for at most `limit` messages without an index gets the
newest ones: for the keys `n - 1`, `n - 2`, ... in turn, as far as `count` reaches, the message of the
call that reserved that key, with the key set as its id. -/
theorem getCursor_run_finished (setId : M → Nat → M) (limit : Nat) (msgs : List M) (schedule : List Nat)
    (finished : ((Sys.start msgs).run setId limit schedule).finished = true) (fits : msgs.length ≤ 2 ^ 64)
    (filterIterator : Nat → Nat → Option (List Nat)) (count : Nat) (within : count ≤ limit)
    (unindexed : filterIterator u64Max count = none) :
    List.Forall₂ (fun msg key => ∃ call ∈ ((Sys.start msgs).run setId limit schedule).calls,
        call.2.index = some key ∧ msg = setId call.1 key)
      (((Sys.start msgs).run setId limit schedule).store.getCursor filterIterator none count)
      ((List.range msgs.length).reverse.take count) := by
  have settled := ((Safe.start setId limit fits).run schedule).settled finished
  rw [run_start_msgs] at settled
  obtain ⟨-, -, -, reserved, owned, last⟩ := settled
  generalize (Sys.start msgs).run setId limit schedule = sys at *
  have claimed : ∀ key, (∃ call ∈ sys.calls, call.2.index = some key) ↔ key < msgs.length := fun key => by
    have pos : (0 < sys.calls.countP fun call => call.2.index = some key) ↔
        ∃ call ∈ sys.calls, call.2.index = some key := by
      simp only [List.countP_pos_iff, decide_eq_true_eq]
    rw [← pos, reserved key]
    split <;> simp [*]
  have above : ∀ key, msgs.length ≤ key → key ≤ u64Max → sys.store.kv key = none := fun key beyond _ => by
    cases stored : sys.store.kv key with
    | none => rfl
    | some msg =>
      obtain ⟨call, member, claims, -⟩ := owned key msg stored
      have := (claimed key).mp ⟨call, member, claims⟩
      omega
  have held : ∀ key, msgs.length - min count msgs.length ≤ key → key < msgs.length → (sys.store.kv key).isSome :=
    fun key low high => by
      obtain ⟨call, member, claims⟩ := (claimed key).mpr high
      simp [last call member key claims (.inl (by omega))]
  rw [Store.getCursor_of_none unindexed, Option.getD_none]
  exact (Store.forall₂_take_keysFrom (by unfold u64Max; omega) above held).imp fun msg key stored =>
    owned key msg stored

theorem getCursor_run_finished_sample :
    ((Sys.start [0, 1]).run (fun _ index => index) 1 lateWriter).finished = true ∧ [0, 1].length ≤ 2 ^ 64 ∧
      1 ≤ 1 ∧ (fun _ _ => none : Nat → Nat → Option (List Nat)) u64Max 1 = none ∧
      List.Forall₂ (fun msg key => ∃ call ∈ ((Sys.start [0, 1]).run (fun _ index => index) 1 lateWriter).calls,
          call.2.index = some key ∧ msg = (fun _ index => index : Nat → Nat → Nat) call.1 key)
        (((Sys.start [0, 1]).run (fun _ index => index) 1 lateWriter).store.getCursor (fun _ _ => none) none 1)
        ((List.range [0, 1].length).reverse.take 1) :=
  ⟨by decide, by decide, le_refl 1, rfl,
    getCursor_run_finished (fun _ index => index) 1 [0, 1] lateWriter (by decide) (by decide) (fun _ _ => none) 1
      (le_refl 1) rfl⟩

end Sys

end TezedgeDebugger.Storage
