import Mathlib.Data.List.Basic

/-!
# Byte strings and Rust slicing

`Vec<u8>` and `&[u8]` are lists of bytes. Indexing a slice out of range panics in Rust; the two
slice forms the source uses return `none` there.
-/

namespace TezedgeDebugger

abbrev Bytes := List UInt8

/-- `&bytes[start..]`: panics (`none`) when `start` is past the end. -/
def sliceFrom (bytes : Bytes) (start : Nat) : Option Bytes :=
  if start ≤ bytes.length then some (bytes.drop start) else none

/-- `&bytes[start..stop]`: panics (`none`) unless `start ≤ stop ≤ bytes.len()`. -/
def sliceRange (bytes : Bytes) (start stop : Nat) : Option Bytes :=
  if start ≤ stop ∧ stop ≤ bytes.length then some ((bytes.take stop).drop start) else none

theorem sliceFrom_of_le {bytes : Bytes} {start : Nat} (inside : start ≤ bytes.length) :
    sliceFrom bytes start = some (bytes.drop start) := if_pos inside

theorem sliceRange_of_le {bytes : Bytes} {start stop : Nat} (ordered : start ≤ stop)
    (inside : stop ≤ bytes.length) :
    sliceRange bytes start stop = some ((bytes.take stop).drop start) := if_pos ⟨ordered, inside⟩

end TezedgeDebugger
