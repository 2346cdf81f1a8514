import Lumen.Log.Inv
import Lumen.Raft

/-!
# Lumen.LogStore

The durable Raft log (`log_store.rs`): entries in a segmented log, the vote,
the committed id and the purge floor in `raft-meta.pb`; and the in-memory
log store of the crate's tests, which the durable one is to be
indistinguishable from (`MemLogStore`).
-/

namespace Lumen

open Lib Raft

/-! ## storage errors -/

/-- What an openraft storage error wraps. -/
inductive Cause where
  | core (e : Error)
  | decode (msg : String)
  | conversion (e : ConversionError)
  | missingRecord (index : Nat)
  deriving DecidableEq, Repr

inductive StorageError where
  | readLogs (cause : Cause)
  | writeLogs (cause : Cause)
  | readVote (cause : Cause)
  | writeVote (cause : Cause)
  | apply (logId : LogId) (cause : Cause)
  | readStateMachine (cause : Cause)
  | writeStateMachine (cause : Cause)
  deriving DecidableEq, Repr

/-! ## range bounds -/

/-- `u64::saturating_add(1)`. -/
def satSucc (n : Nat) : Nat := min (n + 1) (2 ^ 64 - 1)

inductive Bound where
  | included (n : Nat)
  | excluded (n : Nat)
  | unbounded
  deriving DecidableEq, Repr

/-- `concrete_range`: a half-open range of indexes. -/
def concreteRange (start stop : Bound) (last : Option Nat) : Nat × Nat :=
  let lo := match start with
    | .included s => s
    | .excluded s => satSucc s
    | .unbounded => 0
  let hi := match stop with
    | .included e => satSucc e
    | .excluded e => e
    | .unbounded => match last with
      | none => 0
      | some l => satSucc l
  (lo, hi)

/-- `openraft::storage::LogState`. -/
structure LogState where
  lastPurgedLogId : Option LogId
  lastLogId : Option LogId
  deriving DecidableEq, Repr

/-! ## the durable store -/

structure Meta where
  vote : Option Vote
  committed : Option LogId
  lastPurged : Option LogId
  deriving DecidableEq, Repr

instance : Inhabited Meta := ⟨⟨none, none, none⟩⟩

namespace Meta

def toProto (m : Meta) : Proto.RaftMeta :=
  ⟨m.vote.map Vote.toProto, m.committed.map LogId.toProto, m.lastPurged.map LogId.toProto⟩

/-- The conversions of `load_meta`, in its order. -/
def tryFrom (p : Proto.RaftMeta) : Except StorageError Meta :=
  match tryOption Vote.tryFrom p.vote with
  | .error e => .error (.readVote (.conversion e))
  | .ok vote =>
    match tryOption LogId.tryFrom p.committed with
    | .error e => .error (.readLogs (.conversion e))
    | .ok committed =>
      match tryOption LogId.tryFrom p.lastPurged with
      | .error e => .error (.readLogs (.conversion e))
      | .ok lastPurged => .ok ⟨vote, committed, lastPurged⟩

@[simp] theorem tryFrom_toProto (m : Meta) : tryFrom m.toProto = .ok m := by
  simp only [tryFrom, toProto, tryOption_map Vote.tryFrom_toProto,
    tryOption_map LogId.tryFrom_toProto]

end Meta

/-- The Raft directory: the log's segments, `raft-meta.pb` and the file it is
written to first. -/
structure StoreDir where
  log : LogDir
  metaPb : Option Bytes
  metaTmp : Option Bytes
  deriving DecidableEq

namespace StoreDir

def empty : StoreDir := ⟨∅, none, none⟩

/-- The log directory in it. -/
def logFocus : Prog.Focus StoreDir LogDir where
  get d := d.log
  set l d := { d with log := l }
  get_set _ _ := rfl
  set_set _ _ _ := rfl
  set_get _ := rfl

end StoreDir

/-- The open store. -/
structure LogStore where
  log : SegmentedLog
  metadata : Meta

instance : Inhabited LogStore := ⟨⟨.closed, default⟩⟩

abbrev StoreM := Prog StoreDir LogStore StorageError

namespace LogStore

open Prog

def logFocus : Focus LogStore SegmentedLog where
  get s := s.log
  set l s := { s with log := l }
  get_set _ _ := rfl
  set_set _ _ _ := rfl
  set_get _ := rfl

/-- Run a log operation, reporting its errors as `wrap` does. -/
def onLog (wrap : Cause → StorageError) (p : LogM α) : StoreM α :=
  (p.zoom StoreDir.logFocus logFocus).mapError fun e => wrap (.core e)

section
variable [Ext]

def decodeEntry (bytes : Bytes) : Except StorageError Entry :=
  match Ext.raftEntry.decode bytes with
  | .error e => .error (.readLogs (.decode e))
  | .ok proto =>
    match Entry.tryFrom proto with
    | .error e => .error (.readLogs (.conversion e))
    | .ok entry => .ok entry

def encodeEntry (e : Entry) : Bytes := Ext.raftEntry.encode e.toProto

theorem decodeEntry_encodeEntry (e : Entry) : decodeEntry (encodeEntry e) = .ok e := by
  simp only [decodeEntry, encodeEntry, Codec.decode_encode, Entry.tryFrom_toProto]

/-- Decode the records of a range in order. -/
def decodeEntries : List (Nat × Bytes) → Except StorageError (List Entry)
  | [] => .ok []
  | (_, bytes) :: rest =>
    match decodeEntry bytes with
    | .error e => .error e
    | .ok entry =>
      match decodeEntries rest with
      | .error e => .error e
      | .ok entries => .ok (entry :: entries)

def loadMeta (d : StoreDir) : Except StorageError Meta :=
  match d.metaPb with
  | none => .ok default
  | some bytes =>
    match Ext.raftMeta.decode bytes with
    | .error e => .error (.readVote (.decode e))
    | .ok proto => Meta.tryFrom proto

/-- Write the metadata to the temporary file and rename it into place. -/
def persistMeta (m : Meta) : StoreM Unit := do
  step fun d => { d with metaTmp := some [] }
  step fun d => { d with metaTmp := some (Ext.raftMeta.encode m.toProto) }
  step fun d => { d with metaPb := d.metaTmp, metaTmp := none }

/-- The purge floor read from `raft-meta.pb` applies again after an open. -/
def purgeFloor (lastPurged : Option LogId) : StoreM Unit :=
  match lastPurged with
  | none => pure ()
  | some purged => onLog .writeLogs (SegmentedLog.purgeThrough purged.index)

/-- `LogStore::open`. -/
def openStore : StoreM Unit := do
  onLog .readLogs SegmentedLog.openLog
  let d ← getDisk
  let loaded ← ofExcept (loadMeta d)
  modifyMem fun s => { s with metadata := loaded }
  purgeFloor loaded.lastPurged

def tryGetLogEntries (start stop : Bound) : StoreM (List Entry) := do
  let s ← getMem
  let range := concreteRange start stop s.log.lastIndex
  let records ← onLog .readLogs (SegmentedLog.readRange range.1 range.2)
  ofExcept (decodeEntries records)

/-- The id of the last entry of the log, when it has one. -/
def lastLogId (lastPurged : Option LogId) : Option Nat → StoreM (Option LogId)
  | none => pure lastPurged
  | some index => do
    let records ← onLog .readLogs (SegmentedLog.readRange index (satSucc index))
    match records.head? with
    | none => Prog.throw (.readLogs (.missingRecord index))
    | some r =>
      let entry ← ofExcept (decodeEntry r.2)
      pure (some entry.logId)

def getLogState : StoreM LogState := do
  let s ← getMem
  let last ← lastLogId s.metadata.lastPurged s.log.lastIndex
  pure ⟨s.metadata.lastPurged, last⟩

def saveVote (vote : Vote) : StoreM Unit := do
  modifyMem fun s => { s with metadata := { s.metadata with vote := some vote } }
  let s ← getMem
  persistMeta s.metadata

def readVote : StoreM (Option Vote) := do
  let s ← getMem
  pure s.metadata.vote

def saveCommitted (committed : Option LogId) : StoreM Unit := do
  modifyMem fun s => { s with metadata := { s.metadata with committed := committed } }
  let s ← getMem
  persistMeta s.metadata

def readCommitted : StoreM (Option LogId) := do
  let s ← getMem
  pure s.metadata.committed

def append (entries : List Entry) : StoreM Unit :=
  forEach entries fun e =>
    onLog .writeLogs (SegmentedLog.append e.logId.index (encodeEntry e))

def truncate (logId : LogId) : StoreM Unit :=
  onLog .writeLogs (SegmentedLog.truncateFrom logId.index)

def purge (logId : LogId) : StoreM Unit := do
  modifyMem fun s => { s with metadata := { s.metadata with lastPurged := some logId } }
  let s ← getMem
  persistMeta s.metadata
  onLog .writeLogs (SegmentedLog.purgeThrough logId.index)

end

end LogStore

/-! ## the in-memory reference -/

/-- `MemLogStore` of the crate's tests. -/
structure MemLogStore where
  log : OrdMap Nat Entry
  lastPurged : Option LogId
  vote : Option Vote
  committed : Option LogId
  deriving DecidableEq

namespace MemLogStore

def empty : MemLogStore := ⟨∅, none, none, none⟩

/-- `BTreeMap::range` on a half-open range. -/
def tryGetLogEntries (s : MemLogStore) (lo hi : Nat) : List Entry :=
  (s.log.filter fun k _ => lo ≤ k ∧ k < hi).toList.map Prod.snd

def getLogState (s : MemLogStore) : LogState :=
  let last := (s.log.toList.map Prod.snd).getLast?.map Entry.logId
  ⟨s.lastPurged, last.or s.lastPurged⟩

def append (s : MemLogStore) (entries : List Entry) : MemLogStore :=
  { s with log := entries.foldl (fun log e => log.insert e.logId.index e) s.log }

def truncate (s : MemLogStore) (logId : LogId) : MemLogStore :=
  { s with log := s.log.filter fun k _ => k < logId.index }

def purge (s : MemLogStore) (logId : LogId) : MemLogStore :=
  { s with lastPurged := some logId, log := s.log.filter fun k _ => logId.index < k }

def saveVote (s : MemLogStore) (vote : Vote) : MemLogStore := { s with vote := some vote }

def saveCommitted (s : MemLogStore) (committed : Option LogId) : MemLogStore :=
  { s with committed := committed }

end MemLogStore

end Lumen
