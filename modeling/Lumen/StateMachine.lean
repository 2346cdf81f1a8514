import Lumen.LogStore
import Lumen.Snapshot

/-!
# Lumen.StateMachine

The Raft state machine of a node (`state_machine.rs`): applying committed
entries to the catalog, the applied point it reports, and snapshots with their
metadata.  A restart opens the catalog and the state machine on the same
directories again (`restart`).
-/

namespace Lumen

open Lib Prog Raft

/-- `openraft::SnapshotMeta`. -/
structure SnapshotMeta where
  lastLogId : Option LogId
  lastMembership : StoredMembership
  snapshotId : String
  deriving DecidableEq

/-- The directories of a node: the catalog's, and the membership file. -/
structure NodeDisk where
  data : Disk
  membershipPb : Option Bytes
  membershipTmp : Option Bytes
  deriving DecidableEq

namespace NodeDisk

def empty : NodeDisk := ⟨.empty, none, none⟩

def dataFocus : Focus NodeDisk Disk where
  get d := d.data
  set x d := { d with data := x }
  get_set _ _ := rfl
  set_set _ _ _ := rfl
  set_get _ := rfl

end NodeDisk

/-- The state machine in memory. -/
structure StateMachine where
  catalog : Catalog
  lastApplied : Option LogId
  lastMembership : StoredMembership
  currentSnapshot : Option SnapshotMeta

instance : Inhabited StateMachine := ⟨⟨default, none, default, none⟩⟩

structure Response where
  id : String
  created : Bool
  deriving DecidableEq, Repr

instance : Inhabited Response := ⟨⟨"", false⟩⟩

abbrev NodeM := Prog NodeDisk StateMachine StorageError

def LogMark.toLogId (mark : LogMark) : LogId := ⟨⟨mark.term, mark.node⟩, mark.index⟩

def Raft.LogId.toMark (id : LogId) : LogMark := ⟨id.leaderId.term, id.leaderId.nodeId, id.index⟩

namespace StateMachine

def catalogFocus : Focus StateMachine Catalog where
  get m := m.catalog
  set x m := { m with catalog := x }
  get_set _ _ := rfl
  set_set _ _ _ := rfl
  set_get _ := rfl

/-- Run a catalog operation, reporting its errors as `wrap` does. -/
def onCatalog (wrap : Error → StorageError) (p : CatalogM α) : NodeM α :=
  (p.zoom NodeDisk.dataFocus catalogFocus).mapError wrap

def applyErr (logId : LogId) (e : Error) : StorageError := .apply logId (.core e)

def readSm (e : Error) : StorageError := .readStateMachine (.core e)

def writeSm (e : Error) : StorageError := .writeStateMachine (.core e)

section
variable [Ext]

/-! ## membership -/

def loadMembership (d : NodeDisk) : Except StorageError StoredMembership :=
  match d.membershipPb with
  | none => .ok default
  | some bytes =>
    match Ext.storedMembership.decode bytes with
    | .error e => .error (.readStateMachine (.decode e))
    | .ok proto =>
      match StoredMembership.tryFrom proto with
      | .error e => .error (.readStateMachine (.conversion e))
      | .ok membership => .ok membership

def persistMembership (membership : StoredMembership) : NodeM Unit := do
  step fun d => { d with membershipTmp := some [] }
  step fun d => { d with
    membershipTmp := some (Ext.storedMembership.encode membership.toProto) }
  step fun d => { d with membershipPb := d.membershipTmp, membershipTmp := none }

/-- `StateMachine::open`. -/
def openStateMachine : NodeM Unit := do
  let d ← getDisk
  let membership ← ofExcept (loadMembership d)
  modifyMem fun m => ⟨m.catalog, none, membership, none⟩

/-- The start of a node on its directories. -/
def restart (ord : IterOrder) : NodeM Unit := do
  onCatalog readSm (Catalog.openCatalog ord)
  openStateMachine

/-! ## applying -/

/-- `applied_log_id`: the lowest committed mark, or the last applied id while
there is no collection. -/
def appliedLogId (ord : IterOrder) : NodeM (Option LogId) := do
  let mark ← onCatalog readSm (Catalog.minCommittedMark ord)
  let m ← getMem
  pure (match mark with
    | some mark => some mark.toLogId
    | none => m.lastApplied)

def appliedState (ord : IterOrder) : NodeM (Option LogId × StoredMembership) := do
  let applied ← appliedLogId ord
  let m ← getMem
  pure (applied, m.lastMembership)

def applyPayload (ord : IterOrder) (logId : LogId) : EntryPayload → NodeM Response
  | .blank => pure default
  | .membership membership => do
    persistMembership ⟨some logId, membership⟩
    modifyMem fun m => { m with lastMembership := ⟨some logId, membership⟩ }
    pure default
  | .normal command => do
    let outcome ← onCatalog (applyErr logId)
      (Catalog.applyCommand ord logId.toMark command)
    pure ⟨outcome.id, outcome.created⟩

/-- One round of the loop of `apply`. -/
def applyEntry (ord : IterOrder) (entry : Raft.Entry) : NodeM Response := do
  modifyMem fun m => { m with lastApplied := some entry.logId }
  applyPayload ord entry.logId entry.payload

def apply (ord : IterOrder) : List Raft.Entry → NodeM (List Response)
  | [] => pure []
  | entry :: rest => do
    let response ← applyEntry ord entry
    let responses ← apply ord rest
    pure (response :: responses)

/-! ## snapshots -/

def snapshotId (lastLogId : Option LogId) : String :=
  match lastLogId with
  | some id =>
    toString id.leaderId.term ++ "-" ++ toString id.leaderId.nodeId ++ "-" ++ toString id.index
  | none => "init"

/-- The metadata of a snapshot, from the applied point. -/
def snapshotMeta (ord : IterOrder) : NodeM SnapshotMeta := do
  let lastLogId ← appliedLogId ord
  let m ← getMem
  let info : SnapshotMeta := ⟨lastLogId, m.lastMembership, snapshotId lastLogId⟩
  modifyMem fun m => { m with currentSnapshot := some info }
  pure info

/-- `build_snapshot`: the archive first, then the applied point. -/
def buildSnapshot (ord : IterOrder) : NodeM SnapshotMeta := do
  onCatalog writeSm (Catalog.buildSnapshot ord)
  snapshotMeta ord

def installSnapshot (ord : IterOrder) (info : SnapshotMeta) (archive : Archive) : NodeM Unit := do
  onCatalog writeSm (Catalog.installSnapshot ord archive)
  persistMembership info.lastMembership
  modifyMem fun m =>
    { m with
      lastApplied := info.lastLogId
      lastMembership := info.lastMembership
      currentSnapshot := some info }

/-- `get_current_snapshot`: the metadata in memory with the archive on disk. -/
def getCurrentSnapshot : NodeM (Option (SnapshotMeta × Archive)) := do
  let m ← getMem
  let d ← getDisk
  pure (match m.currentSnapshot, d.data.snapshots.currentTar with
    | some info, some archive => some (info, archive)
    | _, _ => none)

end

end StateMachine

end Lumen
