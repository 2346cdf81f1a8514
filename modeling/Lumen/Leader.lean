import Lumen.Lib.System
import Lumen.StateMachine

/-!
# Lumen.Leader

The tasks that share the catalog of a running node: the apply task, the
checkpoint loop and the linearizable reads of `cluster.rs`, and the snapshot
builder and `get_current_snapshot` of `state_machine.rs`.  Each step of a task is one access to shared
state, and the steps of all tasks interleave.

A commit is two steps: the writer publishes what is buffered together with its
mark, under the writer lock, and the reader reloads afterwards.  The loops over
the collections map hold its lock, so a task that looks a collection up waits
for them; the builder also holds the lock of the state machine, so that nothing
is applied until it is done.  Applying one entry is one step, also while the map
is locked, which allows more than the code does.  An entry that cannot be
applied stops the node.

`raft.metrics()` trails what is applied (`Leader.reported`).  That
`ensure_linearizable` waits for the read index is what openraft promises.
-/

namespace Lumen

open Lib Prog Raft

/-! ## the two halves of a commit -/

namespace Catalog

/-- The collection behind a handle that was looked up under `name`, while the
map holds it; one that was dropped has lost its directory. -/
def held (m : Catalog) (name : String) (target : Collection) : Option Entry :=
  (m.collections.find? name).filter fun e => e.uuid = target.uuid

/-- `prepare_commit` to `commit`: what the writer has buffered becomes the last
commit of the index, with the mark. -/
def publish (name : String) (target : Collection) (mark : LogMark) (d : Disk) (m : Catalog) :
    Except Error (Disk × Catalog) :=
  match m.held name target with
  | none => .error (.tantivy "index does not exist")
  | some e =>
    match d.index e.uuid with
    | none => .error (.tantivy "index does not exist")
    | some index =>
      let docs := WriterOp.execAll e.collection.writer index.docs
      .ok (d.setDir e.uuid (.index { index with docs := docs, payload := some mark }),
        m.store name { e.collection with writer := [] })

/-- `reader.reload`: the reader shows the last commit of the index. -/
def reload (name : String) (target : Collection) (d : Disk) (m : Catalog) : Except Error Catalog :=
  match m.held name target with
  | none => .error (.tantivy "index does not exist")
  | some e =>
    match d.index e.uuid with
    | none => .error (.tantivy "index does not exist")
    | some index => .ok (m.store name { e.collection with searcher := index.docs })

end Catalog

/-! ## tasks -/

/-- How far a `linearizable_get` has come: waiting for the read index, having
read `last_applied` as its mark, holding the collection, having found it behind
the mark, having published a commit, having returned from `commit_collection`. -/
inductive GetPhase where
  | waiting
  | marked (mark : LogMark)
  | resolved (mark : LogMark) (target : Collection)
  | behind (mark : LogMark) (target : Collection)
  | published (mark : LogMark) (target : Collection)
  | current (mark : LogMark)
  | answered (result : Except Error Bytes)

structure Get where
  collection : String
  id : String
  readIndex : Nat
  phase : GetPhase

/-- Whether the get has published a commit of the collection and not yet
reloaded its reader. -/
def Get.reloads (g : Get) (name : String) (uuid : Uuid) : Bool :=
  match g.phase with
  | .published _ target => g.collection = name && target.uuid = uuid
  | _ => false

/-- Where the checkpoint loop is: between two rounds, having read its mark, in
the loop over the map, between the two halves of a commit there, or before it
writes the catalog file. -/
inductive CheckpointPhase where
  | idle
  | marked (mark : LogMark)
  | committing (mark : LogMark) (rest : List (String × Collection))
  | published (mark : LogMark) (name : String) (target : Collection)
      (rest : List (String × Collection))
  | committed (mark : LogMark)

namespace CheckpointPhase

def locksMap : CheckpointPhase → Bool
  | committing _ _ => true
  | published _ _ _ _ => true
  | _ => false

def reloads (name : String) (uuid : Uuid) : CheckpointPhase → Bool
  | published _ name' target _ => name' = name && target.uuid = uuid
  | _ => false

end CheckpointPhase

/-- Where the snapshot builder is: not running, having written the listing, in
the loop that archives, having put the archive into place, or in the loop over
the committed marks. -/
inductive BuildPhase where
  | idle
  | listed
  | archiving (rest : List (String × Catalog.Entry))
  | packed
  | measuring (min : Option LogMark) (rest : List Uuid)

def BuildPhase.locksMap : BuildPhase → Bool
  | archiving _ => true
  | measuring _ _ => true
  | _ => false

/-- A call of `get_current_snapshot`: not running, having read the metadata, or
having returned it with the archive. -/
inductive FetchPhase where
  | idle
  | read (info : SnapshotMeta)
  | returned (info : SnapshotMeta) (archive : Archive)

/-- A node and its tasks: the first index that is not applied, and what the
Raft metrics say is applied. -/
structure Leader where
  disk : NodeDisk
  sm : StateMachine
  next : Nat
  reported : Option LogId
  gets : List Get
  checkpoint : CheckpointPhase
  build : BuildPhase
  fetch : FetchPhase

/-- What can happen next. -/
inductive Leader.Action where
  | apply (ord : IterOrder)
  | report (index : Nat)
  | call (collection id : String) (readIndex : Nat)
  | get (i : Nat)
  | checkpoint (ord : IterOrder)
  | build (ord : IterOrder)
  | fetch

namespace Leader

def mapLocked (s : Leader) : Bool := s.checkpoint.locksMap || s.build.locksMap

/-- `metrics().last_applied` as a mark. -/
def reportedMark (s : Leader) : LogMark := (s.reported.map LogId.toMark).getD default

def withCatalog (s : Leader) (d : Disk) (m : Catalog) : Leader :=
  { s with disk := { s.disk with data := d }, sm := { s.sm with catalog := m } }

section
variable [Ext]

/-- A node on empty directories, with no task running. -/
def start : Leader :=
  let x := (StateMachine.restart .stored).after (.empty, default)
  ⟨x.1, x.2, 0, none, [], .idle, .idle, .idle⟩

/-- The apply task. -/
def apply (log : List Raft.Entry) (s : Leader) (ord : IterOrder) : Option Leader :=
  match s.build, log[s.next]? with
  | .idle, some entry =>
    match (StateMachine.applyEntry ord entry).run s.disk s.sm with
    | (.ok _, d, m) => some { s with disk := d, sm := m, next := s.next + 1 }
    | (.error _, _, _) => none
  | _, _ => none

/-- The metrics catch up with an entry that is applied. -/
def report (log : List Raft.Entry) (s : Leader) (index : Nat) : Option Leader :=
  match log[index]? with
  | some entry =>
    if index < s.next ∧ s.reportedMark.index ≤ index then
      some { s with reported := some entry.logId }
    else none
  | none => none

/-- The next step of a `linearizable_get`. -/
def advance (s : Leader) (g : Get) : Option (Leader × GetPhase) :=
  match g.phase with
  | .waiting =>
    if g.readIndex ≤ s.reportedMark.index then some (s, .marked s.reportedMark) else none
  | .marked mark =>
    if s.mapLocked then none
    else
      match s.sm.catalog.collections.find? g.collection with
      | none => some (s, .answered (.error (.collectionNotFound g.collection)))
      | some e => some (s, .resolved mark e.collection)
  | .resolved mark target =>
    match s.disk.data.index target.uuid with
    | none => some (s, .answered (.error (.tantivy "index does not exist")))
    | some index =>
      if (index.payload.getD default).index < mark.index then some (s, .behind mark target)
      else some (s, .current mark)
  | .behind mark target =>
    match Catalog.publish g.collection target mark s.disk.data s.sm.catalog with
    | .error e => some (s, .answered (.error e))
    | .ok (d, m) => some (s.withCatalog d m, .published mark target)
  | .published mark target =>
    match Catalog.reload g.collection target s.disk.data s.sm.catalog with
    | .error e => some (s, .answered (.error e))
    | .ok m => some (s.withCatalog s.disk.data m, .current mark)
  | .current _ =>
    if s.mapLocked then none
    else
      some (s, .answered
        ((Catalog.getDocument g.collection g.id).run s.disk.data s.sm.catalog).1)
  | .answered _ => none

def get (s : Leader) (i : Nat) : Option Leader :=
  match s.gets[i]? with
  | none => none
  | some g =>
    match s.advance g with
    | none => none
    | some (s', phase) => some { s' with gets := s.gets.set i { g with phase := phase } }

/-- The next step of the checkpoint loop.  A commit that fails ends the round. -/
def stepCheckpoint (s : Leader) (ord : IterOrder) : Option Leader :=
  match s.checkpoint with
  | .idle =>
    match s.reported with
    | none => none
    | some id => some { s with checkpoint := .marked id.toMark }
  | .marked mark =>
    if s.mapLocked then none
    else
      let targets := (ord.order s.sm.catalog.collections.toList).map fun p =>
        (p.1, p.2.collection)
      some { s with checkpoint := .committing mark targets }
  | .committing mark [] => some { s with checkpoint := .committed mark }
  | .committing mark ((name, target) :: rest) =>
    match Catalog.publish name target mark s.disk.data s.sm.catalog with
    | .error _ => some { s with checkpoint := .idle }
    | .ok (d, m) => some { s.withCatalog d m with checkpoint := .published mark name target rest }
  | .published mark name target rest =>
    match Catalog.reload name target s.disk.data s.sm.catalog with
    | .error _ => some { s with checkpoint := .idle }
    | .ok m => some { s.withCatalog s.disk.data m with checkpoint := .committing mark rest }
  | .committed mark =>
    if s.mapLocked then none
    else
      let x := (Catalog.persist ord mark.index).after (s.disk.data, s.sm.catalog)
      some { s.withCatalog x.1 x.2 with checkpoint := .idle }

/-- The next step of the snapshot builder.  An error ends it. -/
def stepBuild (s : Leader) (ord : IterOrder) : Option Leader :=
  match s.build with
  | .idle =>
    if s.mapLocked then none
    else
      let x := (Catalog.archiveListing ord).after (s.disk.data, s.sm.catalog)
      some { s.withCatalog x.1 x.2 with build := .listed }
  | .listed =>
    if s.mapLocked then none
    else some { s with build := .archiving (ord.order s.sm.catalog.collections.toList) }
  | .archiving [] =>
    let x := Catalog.packArchive.after (s.disk.data, s.sm.catalog)
    some { s.withCatalog x.1 x.2 with build := .packed }
  | .archiving ((name, e) :: rest) =>
    match (Catalog.archiveInto name e).run s.disk.data s.sm.catalog with
    | (.error _, d, m) => some { s.withCatalog d m with build := .idle }
    | (.ok _, d, m) => some { s.withCatalog d m with build := .archiving rest }
  | .packed =>
    if s.mapLocked then none
    else
      let uuids := ord.order (s.sm.catalog.collections.toList.map fun p => p.2.uuid)
      some { s with build := .measuring none uuids }
  | .measuring min [] =>
    let lastLogId := match min with
      | some mark => some mark.toLogId
      | none => s.sm.lastApplied
    let info : SnapshotMeta :=
      ⟨lastLogId, s.sm.lastMembership, StateMachine.snapshotId lastLogId⟩
    some { s with sm := { s.sm with currentSnapshot := some info }, build := .idle }
  | .measuring min (uuid :: rest) =>
    match ((Catalog.committedMark uuid).run s.disk.data s.sm.catalog).1 with
    | .error _ => some { s with build := .idle }
    | .ok mark => some { s with
        build := .measuring (some (Catalog.lowerMark min (mark.getD default))) rest }

/-- The next step of `get_current_snapshot`.  The metadata is read under the
lock of the state machine, the archive is opened after it. -/
def stepFetch (s : Leader) : Option Leader :=
  match s.fetch with
  | .read info =>
    match s.disk.data.snapshots.currentTar with
    | none => some { s with fetch := .idle }
    | some archive => some { s with fetch := .returned info archive }
  | _ =>
    match s.build, s.sm.currentSnapshot with
    | .idle, some info => some { s with fetch := .read info }
    | _, _ => none

def step (log : List Raft.Entry) (s : Leader) : Action → Option Leader
  | .apply ord => s.apply log ord
  | .report index => s.report log index
  | .call collection id readIndex =>
    some { s with gets := s.gets ++ [⟨collection, id, readIndex, .waiting⟩] }
  | .get i => s.get i
  | .checkpoint ord => s.stepCheckpoint ord
  | .build ord => s.stepBuild ord
  | .fetch => s.stepFetch

/-- The runs of a node over a committed log. -/
def system (log : List Raft.Entry) : System Leader Action where
  init s := s = start
  step := step log

end

end Leader

end Lumen
