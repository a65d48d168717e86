import TezedgeDebugger.ChunkParser.Buffer

/-!
# Connection and chunk records

`tables::connection` and `tables::chunk` are not in the source tree. `state.rs` builds chunk items
with `chunk::Item::new(key, sender, counter, bytes, plain)`, reads `cn.key()` and `cn.initiator`,
and writes `cn.add_comment().<field>` and `cn.set_peer_pk(pk)`. The records here are modelled from
the spec's data model (§3) with exactly those fields; the connection's address and lifecycle
status are read by nothing in `state.rs` and are left out. The connection key is opaque
(`CnKey`); the proof-of-work target is the source's `f64`, modelled as `Float`.
-/

namespace TezedgeDebugger.ChunkParser

/-- Modelled from the spec: the comment record of a connection, every flag unset at first (§3). -/
structure Comments where
  outgoingTooShort : Option Nat := none
  incomingTooShort : Option Nat := none
  outgoingWrongPow : Option Float := none
  incomingWrongPow : Option Float := none
  outgoingWrongPk : Bool := false
  outgoingCannotDecrypt : Option Nat := none
  incomingCannotDecrypt : Option Nat := none
  outgoingUncertain : Bool := false
  incomingUncertain : Bool := false

/-- A peer public key, `[u8; 32]` in the source. -/
structure PublicKey where
  bytes : Bytes
  length_eq : bytes.length = 32

/-- Modelled from the spec: `connection::Item`, the fields `state.rs` reads or writes. -/
structure ConnectionItem (CnKey : Type) where
  key : CnKey
  initiator : Bool
  peerPk : Option PublicKey := none
  comments : Comments := {}

/-- Modelled from the spec: `chunk::Item`; `bytes` is the raw chunk, length prefix included, and
`incoming` is the sender bit (`S::BOOL`, set for the remote-originated direction). -/
structure ChunkItem (CnKey : Type) where
  cnKey : CnKey
  incoming : Bool
  counter : Nat
  bytes : Bytes
  plain : Bytes

namespace ConnectionItem

variable {CnKey : Type}

/-- `cn.add_comment().<field> = value`, written as the update of the comment record. -/
def addComment (cn : ConnectionItem CnKey) (update : Comments → Comments) : ConnectionItem CnKey :=
  { cn with comments := update cn.comments }

def setPeerPk (cn : ConnectionItem CnKey) (pk : PublicKey) : ConnectionItem CnKey :=
  { cn with peerPk := some pk }

@[simp] theorem addComment_comments (cn : ConnectionItem CnKey) (update : Comments → Comments) :
    (cn.addComment update).comments = update cn.comments := rfl

@[simp] theorem addComment_peerPk (cn : ConnectionItem CnKey) (update : Comments → Comments) :
    (cn.addComment update).peerPk = cn.peerPk := rfl

@[simp] theorem addComment_key (cn : ConnectionItem CnKey) (update : Comments → Comments) :
    (cn.addComment update).key = cn.key := rfl

@[simp] theorem addComment_initiator (cn : ConnectionItem CnKey) (update : Comments → Comments) :
    (cn.addComment update).initiator = cn.initiator := rfl

end ConnectionItem

end TezedgeDebugger.ChunkParser
