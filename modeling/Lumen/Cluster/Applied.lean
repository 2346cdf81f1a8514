import Lumen.Cluster.Ahead
import Lumen.Cluster.Transfer

/-!
# Lumen.Cluster.Applied

The applied point after a restart, against the snapshots a node has built or
installed.

Raft may purge its log up to the last log id of a snapshot, so a node that comes
back is not to report an earlier one.  It reports the lowest mark its collections
have committed: a collection that has not been committed since it was created
counts as position 0, and a catalog without collections reports nothing.

* `applied_not_behind_snapshots` — in every run in which marks are past the snapshots
  taken before, a restart that finds every collection committed reports an id past them
  all.
* `applied_behind_snapshot` — a snapshot, then a new collection, then a restart: the node
  reports position 0.
-/

namespace Lumen

open Lib Prog Raft

/-! ## runs -/

/-- A node that is down, one that runs, and one whose Raft has stopped at a storage error:
it still takes checkpoints and reads. -/
inductive NodeState where
  | down
  | running (m : StateMachine)
  | halted (m : StateMachine)

/-- The calls that can move the applied point. -/
inductive NodeCall where
  | apply (ord : IterOrder) (entries : List Raft.Entry)
  | checkpointApplied (ord : IterOrder) (mark : LogMark)
  | commitCollection (name : String) (mark : LogMark)
  | buildSnapshot (ord : IterOrder)
  | installSnapshot (ord : IterOrder) (info : SnapshotMeta) (archive : Archive)

namespace NodeCall

/-- Whether Raft makes the call.  An error then stops it. -/
def ofRaft : NodeCall → Bool
  | .checkpointApplied .. => false
  | .commitCollection .. => false
  | _ => true

section
variable [Ext]

/-- The call, with the metadata of the snapshot it has built or installed. -/
def exec : NodeCall → NodeM (List SnapshotMeta)
  | .apply ord entries => do
    let _ ← StateMachine.apply ord entries
    pure []
  | .checkpointApplied ord mark => do
    nodeCheckpoint ord mark
    pure []
  | .commitCollection name mark => do
    nodeCommit name mark
    pure []
  | .buildSnapshot ord => do
    let info ← StateMachine.buildSnapshot ord
    pure [info]
  | .installSnapshot ord info archive => do
    StateMachine.installSnapshot ord info archive
    pure [info]

end

/-- A call in keeping with the snapshots taken so far.  A checkpoint's mark is past them all;
so is the first mark of a collection, and every mark of an installed archive, which are
also past its own metadata. -/
def InOrder (log : LeaderLog) (metas : List SnapshotMeta) (d : NodeDisk) (m : StateMachine) :
    NodeCall → Prop
  | .checkpointApplied _ mark => Past log metas mark
  | .commitCollection name mark => log.Has mark ∧
      ∀ e ix, m.catalog.collections.find? name = some e →
        d.data.index e.collection.uuid = some ix → ix.payload = none → EndBy metas mark.toLogId
  | .installSnapshot _ info archive => archive.Past log (metas ++ [info])
  | _ => True

end NodeCall

section
variable [Ext]

/-- The runs of a node from empty directories, with the metadata of the snapshots it has
built and installed.  It is stopped between two calls or by a crash inside one, and started
again; `ok` says which calls are made. -/
inductive NodeRun
    (ok : List SnapshotMeta → NodeDisk → StateMachine → NodeCall → Prop) :
    NodeDisk → NodeState → List SnapshotMeta → Prop where
  | fresh : NodeRun ok .empty .down []
  | restarted {d d' : NodeDisk} {m : StateMachine} {metas : List SnapshotMeta} (ord : IterOrder)
      (prev : NodeRun ok d .down metas)
      (h : (StateMachine.restart ord).run d default = (.ok (), d', m)) :
      NodeRun ok d' (.running m) metas
  | restartFailed {d d' : NodeDisk} {m : StateMachine} {metas : List SnapshotMeta}
      {e : StorageError} (ord : IterOrder) (prev : NodeRun ok d .down metas)
      (h : (StateMachine.restart ord).run d default = (.error e, d', m)) :
      NodeRun ok d' .down metas
  | restartCut {d x : NodeDisk} {metas : List SnapshotMeta} (ord : IterOrder)
      (prev : NodeRun ok d .down metas)
      (h : x ∈ (StateMachine.restart ord).crashes d default) : NodeRun ok x .down metas
  | called {d d' : NodeDisk} {m m' : StateMachine} {metas built : List SnapshotMeta}
      (call : NodeCall) (prev : NodeRun ok d (.running m) metas) (hok : ok metas d m call)
      (h : call.exec.run d m = (.ok built, d', m')) :
      NodeRun ok d' (.running m') (metas ++ built)
  | failed {d d' : NodeDisk} {m m' : StateMachine} {metas : List SnapshotMeta} {e : StorageError}
      (call : NodeCall) (prev : NodeRun ok d (.running m) metas) (hok : ok metas d m call)
      (h : call.exec.run d m = (.error e, d', m')) :
      NodeRun ok d' (if call.ofRaft then .halted m' else .running m') metas
  | cut {d x : NodeDisk} {m : StateMachine} {metas : List SnapshotMeta} (call : NodeCall)
      (prev : NodeRun ok d (.running m) metas) (hok : ok metas d m call)
      (h : x ∈ call.exec.crashes d m) : NodeRun ok x .down metas
  | haltedCalled {d d' : NodeDisk} {m m' : StateMachine} {metas built : List SnapshotMeta}
      (call : NodeCall) (prev : NodeRun ok d (.halted m) metas) (hraft : call.ofRaft = false)
      (hok : ok metas d m call) (h : call.exec.run d m = (.ok built, d', m')) :
      NodeRun ok d' (.halted m') metas
  | haltedFailed {d d' : NodeDisk} {m m' : StateMachine} {metas : List SnapshotMeta}
      {e : StorageError} (call : NodeCall) (prev : NodeRun ok d (.halted m) metas)
      (hraft : call.ofRaft = false) (hok : ok metas d m call)
      (h : call.exec.run d m = (.error e, d', m')) : NodeRun ok d' (.halted m') metas
  | haltedCut {d x : NodeDisk} {m : StateMachine} {metas : List SnapshotMeta} (call : NodeCall)
      (prev : NodeRun ok d (.halted m) metas) (hraft : call.ofRaft = false)
      (hok : ok metas d m call) (h : x ∈ call.exec.crashes d m) : NodeRun ok x .down metas
  | stopped {d : NodeDisk} {s : NodeState} {metas : List SnapshotMeta} (prev : NodeRun ok d s metas) :
      NodeRun ok d .down metas

end

/-! ## calls -/

section
variable [Ext] {log : LeaderLog} {metas : List SnapshotMeta} {up : Prop} {d d' : NodeDisk}
  {m m' : StateMachine}

theorem AheadWith.wp_applyEntry (h : AheadWith log metas up d.data m.catalog) (ord : IterOrder)
    (entry : Raft.Entry) :
    wp (StateMachine.applyEntry ord entry)
      (fun _ d' m' => AheadWith log metas up d'.data m'.catalog)
      (fun _ d' m' => AheadWith log metas up d'.data m'.catalog)
      (fun x => Ahead log metas x.data) d m := by
  rw [StateMachine.applyEntry, wp_bind, wp_modifyMem]
  cases entry.payload with
  | blank => exact h
  | membership membership =>
    rw [StateMachine.applyPayload, wp_bind]
    exact wp_persistMembership _ (fun _ => h.toAhead) h.toAhead h
  | normal command =>
    rw [StateMachine.applyPayload, wp_bind]
    exact wp_onCatalog _ _ (h.wp_applyCommand ord command)

theorem AheadWith.wp_apply (h : AheadWith log metas up d.data m.catalog) (ord : IterOrder)
    (entries : List Raft.Entry) :
    wp (StateMachine.apply ord entries)
      (fun _ d' m' => AheadWith log metas up d'.data m'.catalog)
      (fun _ d' m' => AheadWith log metas up d'.data m'.catalog)
      (fun x => Ahead log metas x.data) d m := by
  induction entries generalizing d m with
  | nil => exact h
  | cons entry rest ih =>
    rw [StateMachine.apply, wp_bind]
    refine wp_imp (h.wp_applyEntry ord entry) fun _ d' m' h' => ?_
    rw [wp_bind]
    exact wp_imp (ih h') fun _ _ _ h => h

omit [Ext] in
/-- The position 0 that stands for no mark is before every id. -/
theorem LogMark.default_le (id : LogId) : (default : LogMark).toLogId ≤ id := by
  have h : (default : LogMark).toLogId = ⟨⟨0, 0⟩, 0⟩ := rfl
  rw [h, LogId.le_def]
  simp only []
  omega

omit [Ext] in
/-- The applied point is at or before every mark on disk. -/
theorem AheadWith.applied_le (h : AheadWith log metas True d.data m.catalog)
    {applied : Option LogId} (happ : AppliedAt d m applied) {id : LogId} (hid : applied = some id)
    {u : Uuid} {ix : Index} {mark : LogMark} (hix : d.data.index u = some ix)
    (hmark : ix.payload = some mark) : id ≤ mark.toLogId := by
  obtain ⟨n, e, hf, rfl⟩ := h.owned trivial u (Disk.contains_of_index hix)
  rcases happ with ⟨hnone, _⟩ | ⟨low, ⟨⟨n', e', hf', hlow⟩, hle⟩, happ⟩
  · rw [hnone n] at hf
    contradiction
  · rw [hid, Option.some.injEq] at happ
    have hle := hle n e hf
    rw [Disk.mark_of_index hix, Index.mark, hmark, Option.getD_some] at hle
    rw [happ, ← hlow]
    rw [← hlow] at hle
    cases hp : (d.data.index e'.uuid).bind Index.payload with
    | none =>
      have hdef : d.data.mark e'.uuid = default := by rw [Disk.mark, hp]; rfl
      rw [hdef]
      exact LogMark.default_le _
    | some low' =>
      obtain ⟨ix', hix', hp'⟩ := Option.bind_eq_some_iff.mp hp
      have hval : d.data.mark e'.uuid = low' := by rw [Disk.mark, hp]; rfl
      rw [hval] at hle ⊢
      exact log.le (h.marks _ ix' hix' low' hp').has (h.marks _ ix hix mark hmark).has hle

/-- A node that builds a snapshot has no mark behind it. -/
theorem AheadWith.wp_buildSnapshot (h : AheadWith log metas True d.data m.catalog)
    (ord : IterOrder) :
    wp (StateMachine.buildSnapshot ord)
      (fun info d' m' => AheadWith log (metas ++ [info]) True d'.data m'.catalog)
      (fun _ d' m' => AheadWith log metas True d'.data m'.catalog)
      (fun x => Ahead log metas x.data) d m := by
  rw [StateMachine.buildSnapshot, wp_bind]
  refine wp_onCatalog _ _ (wp_imp (h.wp_buildArchive ord) fun _ x y h' => ?_)
  rw [StateMachine.snapshotMeta, wp_bind]
  refine wp_appliedLogId ord (fun _ _ => h') fun applied happ => ?_
  refine ⟨⟨fun u ix hix mark hmark => ?_, h'.wal⟩, h'.owned⟩
  have hold := h'.marks u ix hix mark hmark
  exact ⟨hold.has, hold.endBy.append fun last hlast => h'.applied_le happ hlast hix hmark⟩

theorem Ahead.wp_installSnapshot {info : SnapshotMeta} {a : Archive}
    (h : Ahead log metas d.data) (ha : a.Past log (metas ++ [info])) (ord : IterOrder) :
    wp (StateMachine.installSnapshot ord info a)
      (fun _ d' m' => AheadWith log (metas ++ [info]) True d'.data m'.catalog)
      (fun _ d' _ => Ahead log metas d'.data) (fun x => Ahead log metas x.data) d m := by
  rw [StateMachine.installSnapshot, wp_bind]
  refine wp_onCatalog _ _ (wp_imp (h.wp_installArchive ha ord) fun _ x y h' => ?_)
  rw [wp_bind]
  exact wp_persistMembership _ (fun _ => h'.toAhead.of_append) h'.toAhead.of_append h'

/-- A call in order keeps the marks past the snapshots, those it takes itself included.
Raft's calls are for a node whose directories all belong to collections. -/
theorem NodeCall.InOrder.wp_exec {call : NodeCall} (hok : call.InOrder log metas d m)
    (h : AheadWith log metas up d.data m.catalog) (hup : call.ofRaft = true → up) :
    wp call.exec (fun built d' m' => AheadWith log (metas ++ built) up d'.data m'.catalog)
      (fun _ d' m' => AheadWith log metas (up ∧ call.ofRaft = false) d'.data m'.catalog)
      (fun x => Ahead log metas x.data) d m := by
  have hstay : ∀ x y, AheadWith log metas up x y →
      AheadWith log metas (up ∧ call.ofRaft = false) x y :=
    fun _ _ h => ⟨h.toAhead, fun hu => h.owned hu.1⟩
  have hnil : ∀ x y, AheadWith log metas up x y → AheadWith log (metas ++ []) up x y :=
    fun x y h => by rwa [List.append_nil]
  cases call with
  | apply ord entries =>
    rw [NodeCall.exec, wp_bind]
    exact wp_mono _ (h.wp_apply ord entries) (fun _ _ _ h => hnil _ _ h)
      (fun _ _ _ h => hstay _ _ h) fun _ hc => hc
  | checkpointApplied ord mark =>
    rw [NodeCall.exec, wp_bind]
    exact wp_onCatalog _ _ (wp_mono _ (h.wp_checkpointApplied ord hok)
      (fun _ _ _ h => hnil _ _ h) (fun _ _ _ h => hstay _ _ h) fun _ hc => hc)
  | commitCollection name mark =>
    rw [NodeCall.exec, wp_bind]
    exact wp_onCatalog _ _ (wp_mono _ (h.wp_commitCollection name hok.1 hok.2)
      (fun _ _ _ h => hnil _ _ h) (fun _ _ _ h => hstay _ _ h) fun _ hc => hc)
  | buildSnapshot ord =>
    have h : AheadWith log metas True d.data m.catalog := ⟨h.toAhead, fun _ => h.owned (hup rfl)⟩
    rw [NodeCall.exec, wp_bind]
    exact wp_mono _ (h.wp_buildSnapshot ord) (fun _ _ _ h => ⟨h.toAhead, fun _ => h.owned trivial⟩)
      (fun _ _ _ h => ⟨h.toAhead, fun _ => h.owned trivial⟩) fun _ hc => hc
  | installSnapshot ord info archive =>
    rw [NodeCall.exec, wp_bind]
    refine wp_mono _ (h.toAhead.wp_installSnapshot hok ord)
      (fun _ _ _ h => ⟨h.toAhead, fun _ => h.owned trivial⟩) (fun _ _ _ h => ⟨h, fun hu => ?_⟩)
      fun _ hc => hc
    exact absurd hu.2 (by simp [NodeCall.ofRaft])

/-- A restart brings back what the catalog file lists. -/
theorem Ahead.wp_restart (h : Ahead log metas d.data) (ord : IterOrder) :
    wp (StateMachine.restart ord)
      (fun _ d' m' => AheadWith log metas True d'.data m'.catalog ∧ FromFile d.data m'.catalog ∧
        ∀ n e, m'.catalog.collections.find? n = some e →
          d'.data.index e.uuid = d.data.index e.uuid)
      (fun _ d' _ => Ahead log metas d'.data) (fun x => Ahead log metas x.data) d m := by
  rw [StateMachine.restart, wp_bind]
  refine wp_onCatalog _ _ (wp_imp (h.wp_openCatalog ord) fun _ x y hx => ?_)
  rw [StateMachine.openStateMachine, wp_bind, wp_getDisk, wp_bind]
  cases StateMachine.loadMembership { d with data := x } with
  | error e => exact hx.1.toAhead
  | ok membership => exact hx

/-! ## runs keep the marks past the snapshots -/

/-- The invariant of a run. -/
def NodeState.Inv (log : LeaderLog) (metas : List SnapshotMeta) (d : NodeDisk) : NodeState → Prop
  | .down => Ahead log metas d.data
  | .running m => AheadWith log metas True d.data m.catalog
  | .halted m => AheadWith log metas False d.data m.catalog

omit [Ext] in
theorem NodeState.Inv.ahead {s : NodeState} (h : s.Inv log metas d) : Ahead log metas d.data := by
  cases s with
  | down => exact h
  | running m => exact AheadWith.toAhead h
  | halted m => exact AheadWith.toAhead h

theorem NodeRun.inv {s : NodeState} (h : NodeRun (NodeCall.InOrder log) d s metas) :
    s.Inv log metas d := by
  induction h with
  | fresh => exact Ahead.empty log []
  | restarted ord _ hrun ih => exact (post_of_wp (Ahead.wp_restart ih ord) hrun).1
  | restartFailed ord _ hrun ih => exact error_of_wp (Ahead.wp_restart ih ord) hrun
  | restartCut ord _ hx ih => exact crashes_of_wp (Ahead.wp_restart ih ord) _ hx
  | called call _ hok hrun ih => exact post_of_wp (hok.wp_exec ih fun _ => trivial) hrun
  | failed call _ hok hrun ih =>
    have h := error_of_wp (hok.wp_exec ih fun _ => trivial) hrun
    cases hraft : call.ofRaft with
    | true => exact ⟨h.toAhead, False.elim⟩
    | false => exact ⟨h.toAhead, fun _ => h.owned ⟨trivial, hraft⟩⟩
  | cut call _ hok hx ih => exact crashes_of_wp (hok.wp_exec ih fun _ => trivial) _ hx
  | haltedCalled call _ hraft hok hrun ih =>
    have h := post_of_wp (hok.wp_exec ih fun ht => by simp [hraft] at ht) hrun
    exact ⟨h.toAhead.of_append, False.elim⟩
  | haltedFailed call _ hraft hok hrun ih =>
    have h := error_of_wp (hok.wp_exec ih fun ht => by simp [hraft] at ht) hrun
    exact ⟨h.toAhead, False.elim⟩
  | haltedCut call _ hraft hok hx ih =>
    exact crashes_of_wp (hok.wp_exec ih fun ht => by simp [hraft] at ht) _ hx
  | stopped _ ih => exact ih.ahead

/-! ## the applied point after a restart -/

/-- What a restart on `d` is to find so that the node reports `last` or a later id: a listed
collection, and a mark in every index that is listed.  Without the mark the collection stands
at position 0. -/
def Disk.Restores (d : Disk) (last : LogId) : Prop :=
  d.snapshot.entries ≠ [] ∧ ∀ entry ∈ d.snapshot.entries, ∀ u ix,
    parseUuid entry.uuid = some u → d.index u = some ix → ix.payload = none →
    last ≤ (default : LogMark).toLogId

/-- The applied point is at least `last`. -/
def NotBehind (applied last : Option LogId) : Prop :=
  ∀ id, last = some id → ∃ id', applied = some id' ∧ id ≤ id'

/-- **The applied point after a restart.**  In every run whose calls are in order with the
snapshots taken before them, and with a restart at any moment that finds the listed
collections committed, `applied_state` reports at least the last log id of every snapshot
built or installed earlier. -/
theorem applied_not_behind_snapshots (h : NodeRun (NodeCall.InOrder log) d .down metas)
    (hres : ∀ info ∈ metas, ∀ last, info.lastLogId = some last → d.data.Restores last)
    (ord ord' : IterOrder) (hrun : (StateMachine.restart ord).run d default = (.ok (), d', m')) :
    ∃ applied, ((StateMachine.appliedState ord').run d' m').1 = .ok (applied, m'.lastMembership) ∧
      ∀ info ∈ metas, NotBehind applied info.lastLogId := by
  have hahead : Ahead log metas d.data := h.inv
  obtain ⟨_, hfrom, hsame⟩ := post_of_wp (hahead.wp_restart ord) hrun
  have hidx : Indexed d'.data m'.catalog := fun n e hf => by
    rw [hsame n e hf]
    exact hfrom.indexed n e hf
  obtain ⟨applied, happ, hstate⟩ := appliedState_run ord' hidx
  refine ⟨applied, hstate, fun info hi last hlast => ?_⟩
  obtain ⟨hsome, hmarked⟩ := hres info hi last hlast
  obtain ⟨n, e, hf⟩ := hfrom.some hsome
  rcases happ with ⟨hnone, _⟩ | ⟨low, ⟨⟨n', e', hf', hlow⟩, _⟩, rfl⟩
  · rw [hnone n] at hf
    contradiction
  · refine ⟨low.toLogId, rfl, ?_⟩
    obtain ⟨entry, hmem, hparse⟩ := hfrom.listed n' e' hf'
    obtain ⟨ix, hix⟩ := Option.ne_none_iff_exists'.mp (hfrom.indexed n' e' hf')
    rw [Disk.mark, hsame n' e' hf', hix, Option.bind_some] at hlow
    rw [← hlow]
    cases hp : ix.payload with
    | none => exact hmarked entry hmem e'.uuid ix hparse hix hp
    | some mark => exact (hahead.marks _ ix hix mark hp).endBy info hi last hlast

theorem NodeRun.calledAfter {ok : List SnapshotMeta → NodeDisk → StateMachine → NodeCall → Prop}
    {x : NodeDisk × StateMachine} {call : NodeCall} {built metas' : List SnapshotMeta}
    (prev : NodeRun ok x.1 (.running x.2) metas) (hok : ok metas x.1 x.2 call)
    (h : (call.exec.run x.1 x.2).1 = .ok built) (hmetas : metas' = metas ++ built) :
    NodeRun ok (call.exec.after x).1 (.running (call.exec.after x).2) metas' :=
  hmetas ▸ .called call prev hok (run_eq_after h)

theorem NodeRun.restartedAfter {ok : List SnapshotMeta → NodeDisk → StateMachine → NodeCall → Prop}
    {ord : IterOrder} {x : NodeDisk × StateMachine} (prev : NodeRun ok x.1 .down metas)
    (hx : x.2 = default) (h : ((StateMachine.restart ord).run x.1 x.2).1 = .ok ()) :
    NodeRun ok ((StateMachine.restart ord).after x).1
      (.running ((StateMachine.restart ord).after x).2) metas := by
  have hrun := run_eq_after h
  rw [hx] at hrun
  exact .restarted ord prev hrun

end

/-! ### a snapshot, and a collection created after it -/

section
open Reference

/-- A log of a single leader. -/
def oneLeader : LeaderLog :=
  ⟨fun _ => ⟨1, 1⟩, fun _ _ h => .inr ⟨rfl, .inr ⟨rfl, h⟩⟩⟩

/-- Entry `index` of the log creates a collection. -/
def createAt (index : Nat) (name : String) : NodeCall :=
  .apply .stored [⟨⟨⟨1, 1⟩, index⟩, .normal (createCommand name (exampleUuid index) [])⟩]

def createdNode : NodeDisk × StateMachine := (createAt 1 "a").exec.after freshNode

def checkpointedNode : NodeDisk × StateMachine :=
  (NodeCall.checkpointApplied .stored ⟨1, 1, 1⟩).exec.after createdNode

/-- A node that has built a snapshot as of entry 1. -/
def snapshotNode : NodeDisk × StateMachine :=
  (NodeCall.buildSnapshot .stored).exec.after checkpointedNode

/-- The metadata of that snapshot. -/
def builtSnapshot : List SnapshotMeta :=
  ((NodeCall.buildSnapshot .stored).exec.run checkpointedNode.1 checkpointedNode.2).1.toOption.getD
    []

theorem builtSnapshot_lastLogId :
    builtSnapshot.map SnapshotMeta.lastLogId = [some ⟨⟨1, 1⟩, 1⟩] := by decide +kernel

theorem builtSnapshot_run :
    ((NodeCall.buildSnapshot .stored).exec.run checkpointedNode.1 checkpointedNode.2).1 =
      .ok builtSnapshot := by
  have hlast := builtSnapshot_lastLogId
  rw [builtSnapshot] at hlast ⊢
  generalize ((NodeCall.buildSnapshot .stored).exec.run checkpointedNode.1
    checkpointedNode.2).1 = r at hlast ⊢
  cases r with
  | ok built => rfl
  | error e => simp [Except.toOption] at hlast

/-- The same node with a second collection. -/
def secondCollection : NodeDisk × StateMachine := (createAt 2 "b").exec.after snapshotNode

theorem snapshotNode_run {ok : List SnapshotMeta → NodeDisk → StateMachine → NodeCall → Prop}
    (hok : ∀ metas d m call, call.InOrder oneLeader metas d m → ok metas d m call) :
    NodeRun ok snapshotNode.1 (.running snapshotNode.2) builtSnapshot := by
  have hstart : NodeRun ok ((NodeDisk.empty, default) : NodeDisk × StateMachine).1 .down [] :=
    .fresh
  have hfresh : NodeRun ok freshNode.1 (.running freshNode.2) [] :=
    hstart.restartedAfter rfl (by decide +kernel)
  have hcreate : ((createAt 1 "a").exec.run freshNode.1 freshNode.2).1 = .ok [] := by
    decide +kernel
  have hcreated : NodeRun ok createdNode.1 (.running createdNode.2) [] :=
    hfresh.calledAfter (hok _ _ _ _ trivial) hcreate rfl
  have hcheck : ((NodeCall.checkpointApplied .stored ⟨1, 1, 1⟩).exec.run createdNode.1
      createdNode.2).1 = .ok [] := by decide +kernel
  have hmark : Past oneLeader [] ⟨1, 1, 1⟩ := ⟨rfl, fun _ h => by contradiction⟩
  have hchecked : NodeRun ok checkpointedNode.1 (.running checkpointedNode.2) [] :=
    hcreated.calledAfter (hok _ _ _ _ hmark) hcheck rfl
  exact hchecked.calledAfter (hok _ _ _ _ trivial) builtSnapshot_run (List.nil_append _).symm

/-- The node is stopped after the snapshot: it comes back with the snapshot's id. -/
theorem applied_not_behind_snapshots_one :
    ∃ d' m' applied, (StateMachine.restart .stored).run snapshotNode.1 default = (.ok (), d', m') ∧
      ((StateMachine.appliedState .stored).run d' m').1 = .ok (applied, m'.lastMembership) ∧
      ∀ info ∈ builtSnapshot, NotBehind applied info.lastLogId := by
  have hrun := run_eq_after (p := StateMachine.restart .stored) (x := (snapshotNode.1, default))
    (r := .ok ()) (by decide +kernel)
  have hlisted : snapshotNode.1.data.snapshot.entries ≠ [] ∧
      ∀ entry ∈ snapshotNode.1.data.snapshot.entries,
        ((parseUuid entry.uuid).bind fun u =>
          (snapshotNode.1.data.index u).bind Index.payload).isSome = true := by decide +kernel
  have hres : ∀ last, snapshotNode.1.data.Restores last := by
    refine fun last => ⟨hlisted.1, fun entry he u ix hu hix hp => ?_⟩
    have h := hlisted.2 entry he
    simp [hu, hix, hp] at h
  obtain ⟨applied, hstate, hall⟩ := applied_not_behind_snapshots
    (NodeRun.stopped (snapshotNode_run fun _ _ _ _ h => h)) (fun _ _ last _ => hres last)
    .stored .stored hrun
  exact ⟨_, _, applied, hrun, hstate, hall⟩

/-- The node is stopped after a second collection was created: it comes back at position 0,
behind the snapshot. -/
theorem applied_behind_snapshot :
    NodeRun (fun _ _ _ _ => True) secondCollection.1 .down builtSnapshot ∧
      ((StateMachine.restart .stored).run secondCollection.1 default).1 = .ok () ∧
      (let x := (StateMachine.restart .stored).after (secondCollection.1, default)
       ((StateMachine.appliedState .stored).run x.1 x.2).1 = .ok (some ⟨⟨0, 0⟩, 0⟩, default)) ∧
      ∃ info ∈ builtSnapshot, ¬ NotBehind (some ⟨⟨0, 0⟩, 0⟩) info.lastLogId := by
  refine ⟨?_, by decide +kernel, by decide +kernel, ?_⟩
  · have hsnap : NodeRun (fun _ _ _ _ => True) snapshotNode.1 (.running snapshotNode.2)
        builtSnapshot := snapshotNode_run fun _ _ _ _ _ => trivial
    have hok : ((createAt 2 "b").exec.run snapshotNode.1 snapshotNode.2).1 = .ok [] := by
      decide +kernel
    exact .stopped (hsnap.calledAfter trivial hok (List.append_nil _).symm)
  · obtain ⟨info, rest, hbuilt, hlast, _⟩ := List.map_eq_cons_iff.mp builtSnapshot_lastLogId
    refine ⟨info, by rw [hbuilt]; exact List.mem_cons_self, fun h => ?_⟩
    obtain ⟨id, hid, hle⟩ := h _ hlast
    rw [← Option.some.inj hid] at hle
    exact absurd hle (by decide)

end

end Lumen
