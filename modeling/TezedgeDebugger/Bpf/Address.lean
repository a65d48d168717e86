import TezedgeDebugger.Bpf.Event

/-!
# Socket addresses in ring-buffer records

`bpf-common/src/facade.rs` lines 77-91, 113-134. For `Connect`, `Bind` and `Accept` the BPF side
copies the kernel's `struct sockaddr_in` or `struct sockaddr_in6` behind the descriptor (for
`Accept`, behind the listening fd), and `from_rb_slice` `unwrap`s what `parse_socket_address` makes
of it: "should not fail, already checked inside bpf code". `sockaddrIn` and `sockaddrIn6` write the
two kernel layouts independently of the parser: the family as `u16::from_le_bytes` reads it, the
port in network order, then the IPv4 address, or the IPv6 flow information and address.

`parseSocketAddress_eq_ok`: the parser accepts exactly these layouts, whatever follows them, and
returns their address and port. `fromRbSlice_address`: a record of one of the three tags decodes,
and does not panic, exactly when its data holds such a layout. `fromRbSlice_eq_none`: these
`unwrap`s are the only panics left; on every other record `from_rb_slice` returns.
-/

namespace TezedgeDebugger.Bpf

/-- `parse_socket_address` once the family and the port are read. -/
theorem parseSocketAddress_cons (b0 b1 b2 b3 : UInt8) (more : Bytes) :
    parseSocketAddress (b0 :: b1 :: b2 :: b3 :: more) =
      if b0.toNat + b1.toNat * 256 = 2 then
        (sliceRange (b0 :: b1 :: b2 :: b3 :: more) 4 8).map fun ip => .ok (.v4 ip (b2.toNat * 256 + b3.toNat))
      else if b0.toNat + b1.toNat * 256 = 10 then
        (sliceRange (b0 :: b1 :: b2 :: b3 :: more) 8 24).map fun ip => .ok (.v6 ip (b2.toNat * 256 + b3.toNat))
      else some (.error ()) := by
  have long : 4 ≤ (b0 :: b1 :: b2 :: b3 :: more).length := Nat.le_add_left 4 more.length
  simp only [parseSocketAddress, sliceRange_of_le (Nat.zero_le 2) (Nat.le_trans (by decide) long),
    sliceRange_of_le (show 2 ≤ 4 by decide) long, List.take_succ_cons, List.take_zero, List.drop_zero,
    List.drop_succ_cons, u16Le, u16Be, Option.pure_def, Option.bind_eq_bind, Option.some_bind]
  generalize b0.toNat + b1.toNat * 256 = family
  generalize b2.toNat * 256 + b3.toNat = port
  split_ifs with two ten
  · subst two
    cases sliceRange (b0 :: b1 :: b2 :: b3 :: more) 4 8 <;> rfl
  · subst ten
    cases sliceRange (b0 :: b1 :: b2 :: b3 :: more) 8 24 <;> rfl
  · split
    · rename_i same _
      exact absurd (Option.some.inj same) two
    · rename_i same _
      exact absurd (Option.some.inj same) ten
    · rfl

theorem toNat_ofNat_u8 (n : Nat) : (UInt8.ofNat n).toNat = n % 256 := by
  simp [UInt8.ofNat, UInt8.toNat]

theorem u8_ext {a b : UInt8} (same : a.toNat = b.toNat) : a = b :=
  UInt8.eq_of_toBitVec_eq (BitVec.eq_of_toNat_eq same)

/-- The kernel's `struct sockaddr_in` up to `sin_zero`: `sin_family` `AF_INET` (2), `sin_port` in
network order, `sin_addr`. -/
def sockaddrIn (port : Nat) (ip : Bytes) : Bytes :=
  [2, 0, UInt8.ofNat (port / 256), UInt8.ofNat port] ++ ip

/-- The kernel's `struct sockaddr_in6` up to `sin6_scope_id`: `sin6_family` `AF_INET6` (10),
`sin6_port` in network order, `sin6_flowinfo`, `sin6_addr`. -/
def sockaddrIn6 (port : Nat) (flowinfo ip : Bytes) : Bytes :=
  [10, 0, UInt8.ofNat (port / 256), UInt8.ofNat port] ++ flowinfo ++ ip

/-- `bytes` begins with the kernel's layout of `address`; what follows is not read. -/
def Sockaddr (address : SocketAddr) (bytes : Bytes) : Prop :=
  match address with
  | .v4 ip port => port < 2 ^ 16 ∧ ip.length = 4 ∧ ∃ rest, bytes = sockaddrIn port ip ++ rest
  | .v6 ip port =>
    port < 2 ^ 16 ∧ ip.length = 16 ∧ ∃ flowinfo rest, flowinfo.length = 4 ∧ bytes = sockaddrIn6 port flowinfo ip ++ rest

/-- Four bytes read as a family below 256 and a port are the kernel's header for them. -/
theorem header_eq {b0 b1 b2 b3 family : UInt8} (read : b0.toNat + b1.toNat * 256 = family.toNat) :
    [b0, b1, b2, b3] = [family, 0, UInt8.ofNat ((b2.toNat * 256 + b3.toNat) / 256),
      UInt8.ofNat (b2.toNat * 256 + b3.toNat)] := by
  have : b0.toNat < 256 := UInt8.toNat_lt_size b0
  have : b1.toNat < 256 := UInt8.toNat_lt_size b1
  have : b2.toNat < 256 := UInt8.toNat_lt_size b2
  have : b3.toNat < 256 := UInt8.toNat_lt_size b3
  have : family.toNat < 256 := UInt8.toNat_lt_size family
  simp only [List.cons.injEq, and_true]
  exact ⟨u8_ext (by omega), u8_ext (show b1.toNat = 0 by omega), u8_ext (by rw [toNat_ofNat_u8]; omega),
    u8_ext (by rw [toNat_ofNat_u8]; omega)⟩

/-- `parse_socket_address` accepts exactly the kernel's layouts, and returns their address and port. -/
theorem parseSocketAddress_eq_ok {b : Bytes} {address : SocketAddr} :
    parseSocketAddress b = some (.ok address) ↔ Sockaddr address b := by
  constructor
  · intro parsed
    obtain ⟨b0, b1, b2, b3, more, rfl⟩ : ∃ b0 b1 b2 b3 more, b = b0 :: b1 :: b2 :: b3 :: more := by
      match b, parsed with
      | b0 :: b1 :: b2 :: b3 :: more, _ => exact ⟨b0, b1, b2, b3, more, rfl⟩
    have : b2.toNat < 256 := UInt8.toNat_lt_size b2
    have : b3.toNat < 256 := UInt8.toNat_lt_size b3
    rw [parseSocketAddress_cons] at parsed
    split_ifs at parsed with two ten
    · obtain ⟨ip, sliced, found⟩ := Option.map_eq_some'.mp parsed
      cases found
      unfold sliceRange at sliced
      split_ifs at sliced with inside
      cases sliced
      simp only [List.length_cons] at inside
      refine ⟨by omega, by simp only [List.length_drop, List.length_take, List.length_cons]; omega, more.drop 4, ?_⟩
      rw [sockaddrIn, ← header_eq (show _ = (2 : UInt8).toNat from two)]
      simp
    · obtain ⟨ip, sliced, found⟩ := Option.map_eq_some'.mp parsed
      cases found
      unfold sliceRange at sliced
      split_ifs at sliced with inside
      cases sliced
      simp only [List.length_cons] at inside
      refine ⟨by omega, by simp only [List.length_drop, List.length_take, List.length_cons]; omega, more.take 4,
        more.drop 20, by simp only [List.length_take]; omega, ?_⟩
      rw [sockaddrIn6, ← header_eq (show _ = (10 : UInt8).toNat from ten)]
      simp only [List.cons_append, List.singleton_append, List.take_succ_cons, List.drop_succ_cons, List.drop_take,
        Nat.reduceSub, List.append_assoc, List.cons.injEq, true_and]
      rw [show more.drop 20 = (more.drop 4).drop 16 by rw [List.drop_drop], List.take_append_drop, List.take_append_drop,
        List.nil_append]
    · cases parsed
  · have port_eq : ∀ port, port < 2 ^ 16 → (UInt8.ofNat (port / 256)).toNat * 256 + (UInt8.ofNat port).toNat = port :=
      fun port fits => by rw [toNat_ofNat_u8, toNat_ofNat_u8]; omega
    cases address with
    | v4 ip port =>
      rintro ⟨fits, four, rest, rfl⟩
      match ip, four with
      | [i0, i1, i2, i3], _ =>
        simp only [sockaddrIn, List.cons_append, List.nil_append, parseSocketAddress_cons]
        rw [if_pos (show (2 : UInt8).toNat + (0 : UInt8).toNat * 256 = 2 from rfl),
          @sliceRange_of_le (2 :: 0 :: _ :: _ :: i0 :: i1 :: i2 :: i3 :: rest) 4 8 (by omega) (Nat.le_add_left 8 rest.length),
          Option.map_some', port_eq port fits]
        rfl
    | v6 ip port =>
      rintro ⟨fits, sixteen, flowinfo, rest, four, rfl⟩
      match flowinfo, four with
      | [f0, f1, f2, f3], _ =>
        simp only [sockaddrIn6, List.cons_append, List.nil_append, parseSocketAddress_cons]
        rw [if_neg (show (10 : UInt8).toNat + (0 : UInt8).toNat * 256 ≠ 2 by decide),
          if_pos (show (10 : UInt8).toNat + (0 : UInt8).toNat * 256 = 10 from rfl),
          sliceRange_of_le (by omega) (by simp only [List.length_cons, List.length_append]; omega), Option.map_some',
          port_eq port fits]
        simp [sixteen]

example : parseSocketAddress (sockaddrIn 8080 [127, 0, 0, 1] ++ [0, 0]) = some (.ok (.v4 [127, 0, 0, 1] 8080)) := by
  rfl

/-- `parse_socket_address(..).unwrap()` returns an address exactly on the kernel's layouts. -/
theorem parseSocketAddressUnwrap_eq_some {b : Bytes} {address : SocketAddr} :
    parseSocketAddressUnwrap b = some address ↔ Sockaddr address b := by
  rw [← parseSocketAddress_eq_ok, parseSocketAddressUnwrap]
  split <;> simp_all

/-- A `u32` as a little-endian machine stores it. -/
def u32LeBytes (value : Nat) : Bytes :=
  [UInt8.ofNat value, UInt8.ofNat (value / 2 ^ 8), UInt8.ofNat (value / 2 ^ 16), UInt8.ofNat (value / 2 ^ 24)]

/-- `u32::from_le_bytes` once four bytes are there. -/
theorem u32Le_cons (b0 b1 b2 b3 : UInt8) (more : Bytes) :
    u32Le (b0 :: b1 :: b2 :: b3 :: more) = some (b0.toNat + b1.toNat * 2 ^ 8 + b2.toNat * 2 ^ 16 + b3.toNat * 2 ^ 24) := by
  simp only [u32Le, @sliceRange_of_le (b0 :: b1 :: b2 :: b3 :: more) 0 4 (Nat.zero_le 4) (Nat.le_add_left 4 more.length),
    List.take_succ_cons, List.take_zero, List.drop_zero, Option.bind_eq_bind, Option.some_bind]

/-- `u32::from_le_bytes(data[0..4])` reads exactly the four bytes a `u32` is stored in. -/
theorem u32Le_eq_some {data : Bytes} {value : Nat} :
    u32Le data = some value ↔ value < 2 ^ 32 ∧ ∃ rest, data = u32LeBytes value ++ rest := by
  constructor
  · intro read
    obtain ⟨b0, b1, b2, b3, rest, rfl⟩ : ∃ b0 b1 b2 b3 rest, data = b0 :: b1 :: b2 :: b3 :: rest := by
      match data, read with
      | b0 :: b1 :: b2 :: b3 :: rest, _ => exact ⟨b0, b1, b2, b3, rest, rfl⟩
    rw [u32Le_cons, Option.some.injEq] at read
    have : b0.toNat < 256 := UInt8.toNat_lt_size b0
    have : b1.toNat < 256 := UInt8.toNat_lt_size b1
    have : b2.toNat < 256 := UInt8.toNat_lt_size b2
    have : b3.toNat < 256 := UInt8.toNat_lt_size b3
    subst read
    refine ⟨by omega, rest, ?_⟩
    simp only [u32LeBytes, List.cons_append, List.nil_append, List.cons.injEq, and_true]
    exact ⟨u8_ext (by rw [toNat_ofNat_u8]; omega), u8_ext (by rw [toNat_ofNat_u8]; omega),
      u8_ext (by rw [toNat_ofNat_u8]; omega), u8_ext (by rw [toNat_ofNat_u8]; omega)⟩
  · rintro ⟨fits, rest, rfl⟩
    simp only [u32LeBytes, List.cons_append, List.nil_append, u32Le_cons, Option.some.injEq, toNat_ofNat_u8]
    omega

variable {EventId : Type}

/-- The tag an event is decoded from. -/
def SnifferEvent.tag : SnifferEvent EventId → DataTag
  | .write .. => .write
  | .read .. => .read
  | .connect .. => .connect
  | .bind .. => .bind
  | .listen .. => .listen
  | .accept .. => .accept
  | .close .. => .close
  | .debug .. => .debug

theorem dataArm_tag {variant : EventId → SnifferErrorCode → SnifferError EventId}
    {event : EventId → Bytes → SnifferEvent EventId} {descriptor : DataDescriptor EventId} {data : Bytes}
    {decoded : SnifferEvent EventId} (arm : dataArm (SnifferError.wrap variant) event descriptor data = some (.ok decoded)) :
    ∃ id bytes, decoded = event id bytes := by
  rw [dataArm_eq] at arm
  split_ifs at arm <;> cases arm
  exact ⟨_, _, rfl⟩

/-- Every event `from_rb_slice` returns carries the tag of the record's descriptor. -/
theorem fromRbSlice_tag {layout : DescriptorLayout EventId} {value : Bytes} {event : SnifferEvent EventId}
    (decoded : fromRbSlice layout value = some (.ok event)) :
    ∃ descriptor, layout.tryFrom value = some descriptor ∧ descriptor.tag = event.tag := by
  unfold fromRbSlice at decoded
  split at decoded
  · cases decoded
  rename_i descriptor parsed
  refine ⟨descriptor, parsed, ?_⟩
  simp only [sliceFrom_of_le (layout.size_le_of_tryFrom value descriptor parsed), Option.bind_eq_bind,
    Option.some_bind] at decoded
  split at decoded <;> rename_i tag <;> rw [tag]
  · obtain ⟨id, bytes, rfl⟩ := dataArm_tag decoded
    rfl
  · obtain ⟨id, bytes, rfl⟩ := dataArm_tag decoded
    rfl
  · obtain ⟨address, -, found⟩ := Option.map_eq_some'.mp decoded
    cases found
    rfl
  · obtain ⟨address, -, found⟩ := Option.map_eq_some'.mp decoded
    cases found
    rfl
  · cases decoded
    rfl
  · simp only [Option.bind_eq_bind, Option.bind_eq_some, Option.pure_def, Option.some.injEq] at decoded
    obtain ⟨fd, -, rest, -, address, -, found⟩ := decoded
    cases found
    rfl
  · cases decoded
    rfl
  · obtain ⟨id, bytes, rfl⟩ := dataArm_tag decoded
    rfl


/-- The two tags whose record data is a socket address, and the event each builds. -/
inductive AddressShape : DataTag → (EventId → SocketAddr → SnifferEvent EventId) → Prop where
  | connect : AddressShape .connect .connect
  | bind : AddressShape .bind .bind

theorem fromRbSlice_eq_address {layout : DescriptorLayout EventId} {value : Bytes} {id : EventId}
    {address : SocketAddr} {tag : DataTag} {event : EventId → SocketAddr → SnifferEvent EventId}
    (shape : AddressShape tag event) :
    fromRbSlice layout value = some (.ok (event id address)) ↔ ∃ descriptor,
      layout.tryFrom value = some descriptor ∧ descriptor.tag = tag ∧ descriptor.id = id ∧
        Sockaddr address (value.drop layout.size) := by
  constructor
  · intro decoded
    obtain ⟨descriptor, parsed, tagged⟩ := fromRbSlice_tag decoded
    refine ⟨descriptor, parsed, by cases shape <;> exact tagged, ?_⟩
    simp only [fromRbSlice, parsed, sliceFrom_of_le (layout.size_le_of_tryFrom value descriptor parsed),
      Option.bind_eq_bind, Option.some_bind] at decoded
    cases shape <;> rw [tagged] at decoded <;> obtain ⟨found, unwrapped, same⟩ := Option.map_eq_some'.mp decoded <;>
      cases same <;> exact ⟨rfl, parseSocketAddressUnwrap_eq_some.mp unwrapped⟩
  · rintro ⟨descriptor, parsed, tagged, rfl, sockaddr⟩
    simp only [fromRbSlice, parsed, sliceFrom_of_le (layout.size_le_of_tryFrom value descriptor parsed),
      Option.bind_eq_bind, Option.some_bind, parseSocketAddressUnwrap_eq_some.mpr sockaddr]
    cases shape <;> rw [tagged] <;> rfl

theorem length_u32LeBytes (value : Nat) : (u32LeBytes value).length = 4 := rfl

theorem fromRbSlice_eq_accept {layout : DescriptorLayout EventId} {value : Bytes} {id : EventId}
    {listenOnFd : Nat} {address : SocketAddr} :
    fromRbSlice layout value = some (.ok (.accept id listenOnFd address)) ↔ ∃ descriptor,
      layout.tryFrom value = some descriptor ∧ descriptor.tag = .accept ∧ descriptor.id = id ∧
        listenOnFd < 2 ^ 32 ∧ ∃ rest, value.drop layout.size = u32LeBytes listenOnFd ++ rest ∧ Sockaddr address rest := by
  constructor
  · intro decoded
    obtain ⟨descriptor, parsed, tagged⟩ := fromRbSlice_tag decoded
    replace tagged : descriptor.tag = .accept := tagged
    simp only [fromRbSlice, parsed, sliceFrom_of_le (layout.size_le_of_tryFrom value descriptor parsed),
      Option.bind_eq_bind, Option.some_bind, tagged, Option.bind_eq_some, Option.pure_def,
      Option.some.injEq, Except.ok.injEq, SnifferEvent.accept.injEq] at decoded
    obtain ⟨fd, read, rest, sliced, found, unwrapped, rfl, rfl, rfl⟩ := decoded
    obtain ⟨fits, tail, split⟩ := u32Le_eq_some.mp read
    rw [split, sliceFrom_of_le (by simp [length_u32LeBytes]), List.drop_left' (length_u32LeBytes fd),
      Option.some.injEq] at sliced
    subst sliced
    exact ⟨descriptor, parsed, tagged, rfl, fits, tail, split, parseSocketAddressUnwrap_eq_some.mp unwrapped⟩
  · rintro ⟨descriptor, parsed, tagged, rfl, fits, rest, split, sockaddr⟩
    simp only [fromRbSlice, parsed, sliceFrom_of_le (layout.size_le_of_tryFrom value descriptor parsed),
      Option.bind_eq_bind, Option.some_bind, tagged, split, u32Le_eq_some.mpr ⟨fits, rest, rfl⟩,
      sliceFrom_of_le (show 4 ≤ (u32LeBytes listenOnFd ++ rest).length by simp [length_u32LeBytes]),
      List.drop_left' (length_u32LeBytes listenOnFd), parseSocketAddressUnwrap_eq_some.mpr sockaddr]
    rfl

/-- A record whose descriptor announces a `Connect`, `Bind` or `Accept` decodes, and
`from_rb_slice` does not panic on it, exactly when the data after the descriptor starts with the
kernel's `sockaddr_in` or `sockaddr_in6` (for `Accept`, after the listening fd stored as a
little-endian `u32`); the event carries the descriptor's id and the port, address and fd stored
there. -/
theorem fromRbSlice_address (layout : DescriptorLayout EventId) (value : Bytes) (id : EventId)
    (address : SocketAddr) (listenOnFd : Nat) :
    (fromRbSlice layout value = some (.ok (.connect id address)) ↔ ∃ descriptor,
      layout.tryFrom value = some descriptor ∧ descriptor.tag = .connect ∧ descriptor.id = id ∧
        Sockaddr address (value.drop layout.size)) ∧
    (fromRbSlice layout value = some (.ok (.bind id address)) ↔ ∃ descriptor,
      layout.tryFrom value = some descriptor ∧ descriptor.tag = .bind ∧ descriptor.id = id ∧
        Sockaddr address (value.drop layout.size)) ∧
    (fromRbSlice layout value = some (.ok (.accept id listenOnFd address)) ↔ ∃ descriptor,
      layout.tryFrom value = some descriptor ∧ descriptor.tag = .accept ∧ descriptor.id = id ∧
        listenOnFd < 2 ^ 32 ∧ ∃ rest, value.drop layout.size = u32LeBytes listenOnFd ++ rest ∧ Sockaddr address rest) :=
  ⟨fromRbSlice_eq_address .connect, fromRbSlice_eq_address .bind, fromRbSlice_eq_accept⟩


theorem dataArm_ne_none {variant : EventId → SnifferErrorCode → SnifferError EventId}
    (event : EventId → Bytes → SnifferEvent EventId) (descriptor : DataDescriptor EventId) (data : Bytes) :
    dataArm (SnifferError.wrap variant) event descriptor data ≠ none := by
  rw [dataArm_eq]
  exact Option.some_ne_none _

/-- `parse_socket_address(..).unwrap()` panics exactly where no kernel layout starts. -/
theorem parseSocketAddressUnwrap_eq_none {b : Bytes} :
    parseSocketAddressUnwrap b = none ↔ ∀ address, ¬ Sockaddr address b := by
  rw [Option.eq_none_iff_forall_not_mem]
  exact forall_congr' fun address => not_congr parseSocketAddressUnwrap_eq_some

/-- `from_rb_slice` panics exactly on a record whose descriptor announces `Connect` or `Bind` and
whose data does not start with a kernel socket address, or announces `Accept` and holds no such
address after its first four bytes; on every other record, whatever its tag and size, it returns an
event or an error. -/
theorem fromRbSlice_eq_none (layout : DescriptorLayout EventId) (value : Bytes) :
    fromRbSlice layout value = none ↔ ∃ descriptor, layout.tryFrom value = some descriptor ∧
      ((descriptor.tag = .connect ∨ descriptor.tag = .bind) ∧ (∀ address, ¬ Sockaddr address (value.drop layout.size)) ∨
        descriptor.tag = .accept ∧ ∀ address, ¬ Sockaddr address (value.drop (layout.size + 4))) := by
  unfold fromRbSlice
  split
  · simp_all
  rename_i descriptor parsed
  simp only [sliceFrom_of_le (layout.size_le_of_tryFrom value descriptor parsed), Option.bind_eq_bind,
    Option.some_bind, parsed, Option.some.injEq, exists_eq_left', ← parseSocketAddressUnwrap_eq_none]
  cases tag : descriptor.tag <;> simp only [tag, reduceCtorEq, or_self, or_false, false_or, false_and, and_false,
    true_or, true_and, iff_false, iff_self, Option.map_eq_none', Option.some_ne_none, not_false_eq_true]
  case write => exact @dataArm_ne_none _ SnifferError.Write _ _ _
  case read => exact @dataArm_ne_none _ SnifferError.Read _ _ _
  case debug => exact @dataArm_ne_none _ SnifferError.Debug _ _ _
  -- `Accept`: the fd and the address after it
  rw [← List.drop_drop]
  generalize value.drop layout.size = data
  rcases Nat.lt_or_ge data.length 4 with short | long
  · have unread : u32Le data = none := by
      rw [u32Le, sliceRange, if_neg fun inside => Nat.not_le.mpr short inside.2]
      rfl
    rw [List.drop_eq_nil_of_le short.le, unread]
    exact iff_of_true rfl rfl
  · obtain ⟨fd, read⟩ : ∃ fd, u32Le data = some fd := by
      match data, long with
      | b0 :: b1 :: b2 :: b3 :: more, _ => exact ⟨_, u32Le_cons b0 b1 b2 b3 more⟩
    rw [read, Option.some_bind, sliceFrom_of_le long, Option.some_bind]
    cases parseSocketAddressUnwrap (data.drop 4) <;> simp

end TezedgeDebugger.Bpf
