import Lumen.Lib.OrdMap
import Lumen.Lib.Prog
import Lumen.Lib.Slot
import Lumen.Basic
import Lumen.Document
import Lumen.Document.Dates
import Lumen.Log.Inv
import Lumen.Log.Map
import Lumen.LogStore.Refine
import Lumen.Reference
import Lumen.Catalog
import Lumen.Catalog.Open
import Lumen.Standalone.Recovery
import Lumen.Standalone.Concurrent
import Lumen.Cluster
import Lumen.Cluster.Replay
import Lumen.Cluster.Writes
import Lumen.Catalog.Sweep
import Lumen.Cluster.Crash
import Lumen.Cluster.Snapshot
import Lumen.Cluster.Transfer
import Lumen.Leader
import Lumen.Leader.Moves
import Lumen.Leader.Inv
import Lumen.Leader.Reads
import Lumen.Leader.Build
import Lumen.Standalone.Ddl
import Lumen.Raft.Rpc
import Lumen.Network
import Lumen.Log.Salvage
import Lumen.Log.Contents
import Lumen.Log.Sync
import Lumen.Log.Padding
import Lumen.Log.Truncate
import Lumen.Log.Damage
import Lumen.Log.ShortWrite
import Lumen.Standalone.Trim
import Lumen.Standalone.Marks
import Lumen.Standalone.Faults
import Lumen.Mapping.Codec
import Lumen.Mapping.Schema
import Lumen.LogStore.Ranges
import Lumen.Standalone.Upsert
import Lumen.Log.Purge
import Lumen.Log.Retry
import Lumen.Log.Names
import Lumen.Log.Carries
import Lumen.Cluster.Quarantine
import Lumen.Cluster.Persist.Runs
import Lumen.Cluster.Metadata
import Lumen.Cluster.Applied
import Lumen.Snapshot.Archive
import Lumen.Catalog.Directories
import Lumen.Api.Traces
import Lumen.Leader.Searches
import Lumen.Cluster.Replicas
