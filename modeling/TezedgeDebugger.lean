import TezedgeDebugger.Bytes
import TezedgeDebugger.ChunkParser.Buffer
import TezedgeDebugger.ChunkParser.Tables
import TezedgeDebugger.ChunkParser.State
import TezedgeDebugger.ChunkParser.Direction
import TezedgeDebugger.ChunkParser.Handshake
import TezedgeDebugger.ChunkParser.Connection
import TezedgeDebugger.ChunkParser.Rendezvous
import TezedgeDebugger.Bpf.Event
import TezedgeDebugger.Bpf.Command
import TezedgeDebugger.Bpf.Address
import TezedgeDebugger.ChunkParser.Records
import TezedgeDebugger.ChunkParser.Session
import TezedgeDebugger.ChunkParser.Accounting
import TezedgeDebugger.Storage.Store
import TezedgeDebugger.Storage.Interleaving
import TezedgeDebugger.ChunkParser.Drain
import TezedgeDebugger.ChunkParser.KeyedSide
import TezedgeDebugger.Storage.Cursor
import TezedgeDebugger.Memprof.StackResolver
import TezedgeDebugger.Storage.IndexEntries
