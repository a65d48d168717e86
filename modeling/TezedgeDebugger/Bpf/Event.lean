import TezedgeDebugger.Bytes
import Mathlib.Algebra.Group.Int

/-!
# Decoding ring-buffer records: `SnifferEvent::from_rb_slice`

`bpf-common/src/facade.rs`. A record is a `DataDescriptor` followed by the data. The descriptor
type, its `TryFrom<&[u8]>` and `mem::size_of::<DataDescriptor>()` live in the crate root, which is
not in the source tree: `DescriptorLayout` takes them as parameters, with the one property the
decoder relies on, that a descriptor is read from the record's first `size` bytes. `EventId` is
opaque. The descriptor's `size` is the source's `i32`, as `BitVec 32`.

`fromRbSlice` returns `none` where the source panics: the `unwrap`s of the socket-address parser
behind `Connect`, `Bind` and `Accept`, and any slice out of range. For the three data-carrying tags
`fromRbSlice_data` gives the outcome for every `i32` size and every record length, and shows that
none of them panics.
-/

namespace TezedgeDebugger.Bpf

inductive DataTag where
  | write | read | connect | bind | listen | accept | close | debug
  deriving DecidableEq, Repr

structure DataDescriptor (EventId : Type) where
  id : EventId
  tag : DataTag
  size : BitVec 32

/-- `DataDescriptor::try_from` and `mem::size_of::<DataDescriptor>()`, which are not in the source
tree. A descriptor that parses was read from the first `size` bytes of the record. -/
structure DescriptorLayout (EventId : Type) where
  size : Nat
  tryFrom : Bytes → Option (DataDescriptor EventId)
  size_le_of_tryFrom : ∀ value descriptor, tryFrom value = some descriptor → size ≤ value.length

inductive SocketAddr where
  | v4 (ip : Bytes) (port : Nat)
  | v6 (ip : Bytes) (port : Nat)
  deriving DecidableEq, Repr

inductive SnifferErrorCode where
  | sliceTooShort (actualLength expected : Nat)
  | unknown (code : BitVec 32)
  | fault
  deriving DecidableEq, Repr

/-- The variants keep the source's capitals: `SnifferError::Write` is the variant and
`SnifferError::write` the function that builds it. -/
inductive SnifferError (EventId : Type) where
  | SliceTooShort (length : Nat)
  | Write (id : EventId) (code : SnifferErrorCode)
  | Read (id : EventId) (code : SnifferErrorCode)
  | Debug (id : EventId) (code : SnifferErrorCode)

inductive SnifferEvent (EventId : Type) where
  | write (id : EventId) (data : Bytes)
  | read (id : EventId) (data : Bytes)
  | connect (id : EventId) (address : SocketAddr)
  | bind (id : EventId) (address : SocketAddr)
  | listen (id : EventId)
  | accept (id : EventId) (listenOnFd : Nat) (address : SocketAddr)
  | close (id : EventId)
  | debug (id : EventId) (msg : String)

variable {EventId : Type}

/-- `e as usize` for an `i32` on a 64-bit target: the value modulo `2^64`. -/
def asUsize (e : BitVec 32) : Nat := (e.toInt % 2 ^ 64).toNat

/-- `SnifferError::code`: the arms in source order. -/
def SnifferError.code (id : EventId) (code : BitVec 32) (actualLength : Nat) :
    Except SnifferErrorCode (EventId × Nat) :=
  if code.toInt = -14 then .error .fault
  else if code.toInt < 0 then .error (.unknown code)
  else if actualLength < asUsize code then .error (.sliceTooShort actualLength (asUsize code))
  else .ok (id, asUsize code)

/-- The body shared by `SnifferError::write`, `read` and `debug`: `code` with its error wrapped in
the tag's variant. -/
def SnifferError.wrap (variant : EventId → SnifferErrorCode → SnifferError EventId) (id : EventId)
    (code : BitVec 32) (actualLength : Nat) : Except (SnifferError EventId) (EventId × Nat) :=
  (SnifferError.code id code actualLength).mapError (variant id)

def SnifferError.write (id : EventId) (code : BitVec 32) (actualLength : Nat) :
    Except (SnifferError EventId) (EventId × Nat) :=
  SnifferError.wrap .Write id code actualLength

def SnifferError.read (id : EventId) (code : BitVec 32) (actualLength : Nat) :
    Except (SnifferError EventId) (EventId × Nat) :=
  SnifferError.wrap .Read id code actualLength

def SnifferError.debug (id : EventId) (code : BitVec 32) (actualLength : Nat) :
    Except (SnifferError EventId) (EventId × Nat) :=
  SnifferError.wrap .Debug id code actualLength

/-- `u16::from_le_bytes` / `u16::from_be_bytes` of a two-byte slice; `try_from` fails otherwise. -/
def u16Le : Bytes → Option Nat
  | [lo, hi] => some (lo.toNat + hi.toNat * 256)
  | _ => none

def u16Be : Bytes → Option Nat
  | [hi, lo] => some (hi.toNat * 256 + lo.toNat)
  | _ => none

/-- `parse_socket_address`: the outer `none` is a panic of a slice, the inner error its `Err(())`. -/
def parseSocketAddress (b : Bytes) : Option (Except Unit SocketAddr) := do
  let family ← sliceRange b 0 2
  let portBytes ← sliceRange b 2 4
  match u16Le family, u16Be portBytes with
  | some 2, some port =>
    let ip ← sliceRange b 4 8
    pure (.ok (.v4 ip port))
  | some 10, some port =>
    let ip ← sliceRange b 8 24
    pure (.ok (.v6 ip port))
  | _, _ => pure (.error ())

/-- `parse_socket_address(b).unwrap()`. -/
def parseSocketAddressUnwrap (b : Bytes) : Option SocketAddr :=
  match parseSocketAddress b with
  | some (.ok address) => some address
  | _ => none

/-- `u32::from_le_bytes(TryFrom::try_from(&data[0..4]).unwrap())`. -/
def u32Le (data : Bytes) : Option Nat := do
  let bytes ← sliceRange data 0 4
  match bytes with
  | [b0, b1, b2, b3] => some (b0.toNat + b1.toNat * 2 ^ 8 + b2.toNat * 2 ^ 16 + b3.toNat * 2 ^ 24)
  | _ => none

/-- `hex::encode`: two lower-case hex digits per byte. -/
def hexEncode (bytes : Bytes) : String :=
  ⟨bytes.flatMap fun b => [Nat.digitChar (b.toNat / 16), Nat.digitChar (b.toNat % 16)]⟩

/-- A data-carrying arm: the tag's `SnifferError` check, then `data[..size]`. -/
def dataArm (check : EventId → BitVec 32 → Nat → Except (SnifferError EventId) (EventId × Nat))
    (event : EventId → Bytes → SnifferEvent EventId) (descriptor : DataDescriptor EventId)
    (data : Bytes) : Option (Except (SnifferError EventId) (SnifferEvent EventId)) :=
  match check descriptor.id descriptor.size data.length with
  | .error e => some (.error e)
  | .ok (id, size) => (sliceRange data 0 size).map fun bytes => .ok (event id bytes)

/-- `SnifferEvent::from_rb_slice`. -/
def fromRbSlice (layout : DescriptorLayout EventId) (value : Bytes) :
    Option (Except (SnifferError EventId) (SnifferEvent EventId)) :=
  match layout.tryFrom value with
  | none => some (.error (.SliceTooShort value.length))
  | some descriptor => do
    let data ← sliceFrom value layout.size
    match descriptor.tag with
    | .write => dataArm SnifferError.write .write descriptor data
    | .read => dataArm SnifferError.read .read descriptor data
    | .connect => (parseSocketAddressUnwrap data).map fun address => .ok (.connect descriptor.id address)
    | .bind => (parseSocketAddressUnwrap data).map fun address => .ok (.bind descriptor.id address)
    | .listen => some (.ok (.listen descriptor.id))
    | .accept => do
      let listenOnFd ← u32Le data
      let rest ← sliceFrom data 4
      let address ← parseSocketAddressUnwrap rest
      pure (.ok (.accept descriptor.id listenOnFd address))
    | .close => some (.ok (.close descriptor.id))
    | .debug => dataArm SnifferError.debug (fun id bytes => .debug id (hexEncode bytes)) descriptor data

/-- The error variant and the event built by the three data-carrying arms. -/
inductive DataShape : DataTag → (EventId → SnifferErrorCode → SnifferError EventId) →
    (EventId → Bytes → SnifferEvent EventId) → Prop where
  | write : DataShape .write .Write .write
  | read : DataShape .read .Read .read
  | debug : DataShape .debug .Debug fun id bytes => .debug id (hexEncode bytes)

theorem toInt_lt_two_pow (e : BitVec 32) : e.toInt < 2 ^ 32 := by
  have bound := e.isLt
  rw [BitVec.toInt_eq_toNat_cond]
  split <;> omega

/-- The `as usize` cast is the identity on the sizes that reach it. -/
theorem asUsize_of_nonneg {e : BitVec 32} (nonneg : 0 ≤ e.toInt) : asUsize e = e.toInt.toNat := by
  have := toInt_lt_two_pow e
  rw [asUsize, Int.emod_eq_of_lt nonneg (by omega)]

/-- `SnifferError::code` with the cast taken out: the guard order decides every `i32`. -/
theorem code_eq (id : EventId) (code : BitVec 32) (actualLength : Nat) :
    SnifferError.code id code actualLength =
      if code.toInt = -14 then .error .fault
      else if code.toInt < 0 then .error (.unknown code)
      else if (actualLength : Int) < code.toInt then
        .error (.sliceTooShort actualLength code.toInt.toNat)
      else .ok (id, code.toInt.toNat) := by
  unfold SnifferError.code
  split
  · rfl
  · split
    · rfl
    · rename_i nonneg
      rw [asUsize_of_nonneg (by omega)]
      split <;> split <;> first | rfl | omega

theorem dataArm_eq {variant : EventId → SnifferErrorCode → SnifferError EventId}
    (event : EventId → Bytes → SnifferEvent EventId) (descriptor : DataDescriptor EventId)
    (data : Bytes) :
    dataArm (SnifferError.wrap variant) event descriptor data = some
      (if descriptor.size.toInt = -14 then .error (variant descriptor.id .fault)
      else if descriptor.size.toInt < 0 then .error (variant descriptor.id (.unknown descriptor.size))
      else if (data.length : Int) < descriptor.size.toInt then
        .error (variant descriptor.id (.sliceTooShort data.length descriptor.size.toInt.toNat))
      else .ok (event descriptor.id (data.take descriptor.size.toInt.toNat))) := by
  unfold dataArm SnifferError.wrap
  rw [code_eq]
  split_ifs with fault negative short <;> try rfl
  have inside : descriptor.size.toInt.toNat ≤ data.length := by omega
  simp [Except.mapError, sliceRange_of_le (Nat.zero_le _) inside]

/-- For a record whose descriptor parses with tag `Write`, `Read` or `Debug`, and for every `i32`
size: `Fault` at `-14`, `Unknown` at any other negative size, `SliceTooShort` past the data, and
otherwise exactly the first `size` bytes after the descriptor; no case panics. -/
theorem fromRbSlice_data (layout : DescriptorLayout EventId) (value : Bytes)
    (descriptor : DataDescriptor EventId) (parsed : layout.tryFrom value = some descriptor)
    {variant : EventId → SnifferErrorCode → SnifferError EventId}
    {event : EventId → Bytes → SnifferEvent EventId} (shape : DataShape descriptor.tag variant event) :
    fromRbSlice layout value = some
      (if descriptor.size.toInt = -14 then .error (variant descriptor.id .fault)
      else if descriptor.size.toInt < 0 then .error (variant descriptor.id (.unknown descriptor.size))
      else if ((value.drop layout.size).length : Int) < descriptor.size.toInt then
        .error (variant descriptor.id
          (.sliceTooShort (value.drop layout.size).length descriptor.size.toInt.toNat))
      else .ok (event descriptor.id ((value.drop layout.size).take descriptor.size.toInt.toNat))) := by
  have inside := layout.size_le_of_tryFrom value descriptor parsed
  unfold fromRbSlice
  rw [parsed]
  simp only [sliceFrom_of_le inside, Option.bind_eq_bind, Option.some_bind]
  obtain ⟨id, tag, size⟩ := descriptor
  cases shape <;> exact dataArm_eq _ _ _

/-- A layout whose one-byte descriptor announces a write of two bytes. -/
def sampleLayout : DescriptorLayout Unit where
  size := 1
  tryFrom value := if 1 ≤ value.length then some ⟨(), .write, 2⟩ else none
  size_le_of_tryFrom value descriptor parsed := by
    by_cases long : 1 ≤ value.length
    · exact long
    · simp [long] at parsed

theorem fromRbSlice_sample_write :
    sampleLayout.tryFrom [7, 1, 2, 3] = some ⟨(), .write, 2⟩ ∧
      fromRbSlice sampleLayout [7, 1, 2, 3] = some (.ok (.write () [1, 2])) :=
  ⟨rfl, (fromRbSlice_data sampleLayout [7, 1, 2, 3] ⟨(), .write, 2⟩ rfl .write).trans rfl⟩

end TezedgeDebugger.Bpf
