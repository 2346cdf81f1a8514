import Lumen.Lib.OrdMap
import Mathlib.Order.Nat

/-!
# Lumen.Proto

The protobuf messages of `lumen.proto` and `raft.proto` that the core and
the cluster exchange with their files: commands, WAL entries, the catalog
snapshot, the Raft log entry with its metadata, and the requests and responses
of the Raft service.  A sub-message is an
`Option`, a `oneof` an inductive type, an enum field its wire integer, a map
field an ordered map.
-/

namespace Lumen.Proto

open Lib

/-! ## lumen.v1 -/

structure Field where
  name : String
  type : Int32
  indexed : Bool
  fast : Bool
  deriving DecidableEq, Repr

structure Mapping where
  fields : List Field
  deriving DecidableEq, Repr

structure IndexDocument where
  collection : String
  id : String
  source : List UInt8
  deriving DecidableEq, Repr

structure DeleteDocument where
  collection : String
  id : String
  deriving DecidableEq, Repr

structure CreateCollection where
  collection : String
  uuid : String
  mapping : Option Mapping
  deriving DecidableEq, Repr

structure DropCollection where
  collection : String
  deriving DecidableEq, Repr

inductive Op where
  | createCollection (create : CreateCollection)
  | dropCollection (drop : DropCollection)
  | indexDocument (index : IndexDocument)
  | deleteDocument (delete : DeleteDocument)
  deriving DecidableEq, Repr

structure Command where
  op : Option Op
  deriving DecidableEq, Repr

structure WalEntry where
  seq : Nat
  command : Option Command
  deriving DecidableEq, Repr

structure CatalogEntry where
  name : String
  uuid : String
  mapping : Option Mapping
  createdSeq : Nat
  deriving DecidableEq, Repr

structure CatalogSnapshot where
  appliedSeq : Nat
  entries : List CatalogEntry
  deriving DecidableEq, Repr

instance : Inhabited CatalogSnapshot := ⟨⟨0, []⟩⟩

/-! ## lumen.raft.v1 -/

structure LeaderId where
  term : Nat
  nodeId : Nat
  deriving DecidableEq, Repr

structure Vote where
  leaderId : Option LeaderId
  committed : Bool
  deriving DecidableEq, Repr

structure LogId where
  leaderId : Option LeaderId
  index : Nat
  deriving DecidableEq, Repr

structure Node where
  nodeId : Nat
  rpcAddr : String
  deriving DecidableEq, Repr

structure NodeIdSet where
  nodeIds : List Nat
  deriving DecidableEq, Repr

structure Membership where
  configs : List NodeIdSet
  nodes : OrdMap Nat Node
  deriving DecidableEq

structure StoredMembership where
  logId : Option LogId
  membership : Option Membership
  deriving DecidableEq

inductive Payload where
  | blank
  | normal (command : Command)
  | membership (membership : Membership)
  deriving DecidableEq

structure Entry where
  logId : Option LogId
  payload : Option Payload
  deriving DecidableEq

structure RaftMeta where
  vote : Option Vote
  committed : Option LogId
  lastPurged : Option LogId
  deriving DecidableEq, Repr

structure SnapshotMeta where
  lastLogId : Option LogId
  lastMembership : Option StoredMembership
  snapshotId : String
  deriving DecidableEq

structure VoteRequest where
  vote : Option Vote
  lastLogId : Option LogId
  deriving DecidableEq, Repr

structure VoteResponse where
  vote : Option Vote
  voteGranted : Bool
  lastLogId : Option LogId
  deriving DecidableEq, Repr

structure AppendEntriesRequest where
  vote : Option Vote
  prevLogId : Option LogId
  entries : List Entry
  leaderCommit : Option LogId
  deriving DecidableEq

structure PartialSuccess where
  matching : Option LogId
  deriving DecidableEq, Repr

inductive AppendResult where
  | success
  | partialSuccess (part : PartialSuccess)
  | conflict
  | higherVote (vote : Vote)
  deriving DecidableEq, Repr

structure AppendEntriesResponse where
  result : Option AppendResult
  deriving DecidableEq, Repr

structure SnapshotRequest where
  vote : Option Vote
  info : Option SnapshotMeta
  data : List UInt8
  deriving DecidableEq

structure SnapshotResponse where
  vote : Option Vote
  deriving DecidableEq, Repr

end Lumen.Proto
