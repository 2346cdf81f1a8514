import Lumen.Cluster.Quarantine
import Lumen.Snapshot.Install

/-!
# Lumen.Cluster.Ahead

The marks on disk and the snapshots a node has built or installed.

`Ahead` says that no committed mark of the data directory is behind a snapshot;
`AheadWith` adds, for a node that runs, that every directory belongs to a
collection in the map.  Every function that writes to the data directory keeps
them, whatever the catalog file or an archive says, and so does a crash inside it
(`AheadWith.wp_applyCommand`, `AheadWith.wp_checkpointApplied`,
`AheadWith.wp_commitCollection`, `AheadWith.wp_buildArchive`,
`Ahead.wp_installArchive`, `Ahead.wp_openCatalog`).
-/

namespace Lumen

open Lib Prog Raft

/-! ## log ids -/

/-- The order `LogId` derives: by term, by node, then by index. -/
instance : LE LogId where
  le a b := a.leaderId.term < b.leaderId.term ∨ a.leaderId.term = b.leaderId.term ∧
    (a.leaderId.nodeId < b.leaderId.nodeId ∨ a.leaderId.nodeId = b.leaderId.nodeId ∧
      a.index ≤ b.index)

theorem Raft.LogId.le_def {a b : LogId} : a ≤ b ↔ a.leaderId.term < b.leaderId.term ∨
    a.leaderId.term = b.leaderId.term ∧ (a.leaderId.nodeId < b.leaderId.nodeId ∨
      a.leaderId.nodeId = b.leaderId.nodeId ∧ a.index ≤ b.index) := Iff.rfl

instance (a b : LogId) : Decidable (a ≤ b) := decidable_of_iff _ LogId.le_def.symm

theorem Raft.LogId.le_trans {a b c : LogId} (h : a ≤ b) (h' : b ≤ c) : a ≤ c := by
  rw [LogId.le_def] at h h' ⊢
  omega

/-- The ids of one log: the leader of every position.  No position is of an
earlier leader than the one before it. -/
structure LeaderLog where
  leader : Nat → LeaderId
  mono : ∀ i j, i ≤ j → (⟨leader i, i⟩ : LogId) ≤ ⟨leader j, j⟩

/-- The mark is the id of a position of the log. -/
def LeaderLog.Has (log : LeaderLog) (mark : LogMark) : Prop :=
  mark.toLogId = ⟨log.leader mark.index, mark.index⟩

theorem LeaderLog.le (log : LeaderLog) {mark mark' : LogMark} (h : log.Has mark)
    (h' : log.Has mark') (hle : mark.index ≤ mark'.index) : mark.toLogId ≤ mark'.toLogId := by
  rw [h, h']
  exact log.mono _ _ hle

/-- Every snapshot of the list ends at or before `id`. -/
def EndBy (metas : List SnapshotMeta) (id : LogId) : Prop :=
  ∀ info ∈ metas, ∀ last, info.lastLogId = some last → last ≤ id

theorem EndBy.mono {metas : List SnapshotMeta} {id id' : LogId} (h : EndBy metas id)
    (hle : id ≤ id') : EndBy metas id' :=
  fun info hi last hl => LogId.le_trans (h info hi last hl) hle

theorem EndBy.append {metas : List SnapshotMeta} {id : LogId} {info : SnapshotMeta}
    (h : EndBy metas id) (hinfo : ∀ last, info.lastLogId = some last → last ≤ id) :
    EndBy (metas ++ [info]) id := by
  intro i hi last hl
  rcases List.mem_append.mp hi with hi | hi
  · exact h i hi last hl
  · rw [List.mem_singleton.mp hi] at hl
    exact hinfo last hl

/-- The mark is of the log, and no snapshot ends behind it. -/
structure Past (log : LeaderLog) (metas : List SnapshotMeta) (mark : LogMark) : Prop where
  has : log.Has mark
  endBy : EndBy metas mark.toLogId

theorem Past.of_append {log : LeaderLog} {metas metas' : List SnapshotMeta} {mark : LogMark}
    (h : Past log (metas ++ metas') mark) : Past log metas mark :=
  ⟨h.has, fun info hi => h.endBy info (List.mem_append_left _ hi)⟩

/-! ## the data directory -/

/-- The mark an index has committed, if it has one, is past the snapshots. -/
def Index.Past (log : LeaderLog) (metas : List SnapshotMeta) (ix : Index) : Prop :=
  ∀ mark, ix.payload = some mark → Lumen.Past log metas mark

/-- No committed mark is behind a snapshot; there is no write-ahead log. -/
structure Ahead (log : LeaderLog) (metas : List SnapshotMeta) (d : Disk) : Prop where
  marks : ∀ u ix, d.index u = some ix → ix.Past log metas
  wal : d.wal = ∅

/-- The same for a node with the catalog `m` in memory.  While Raft runs
(`up`), every directory belongs to a collection in the map. -/
structure AheadWith (log : LeaderLog) (metas : List SnapshotMeta) (up : Prop) (d : Disk)
    (m : Catalog) : Prop extends Ahead log metas d where
  owned : up → NoOrphans d m

section
variable {log : LeaderLog} {metas : List SnapshotMeta} {up : Prop} {d d' : Disk} {m : Catalog}
  {u : Uuid} {ix : Index} {mark : LogMark} {E : Error → Disk → Catalog → Prop}

theorem Ahead.empty (log : LeaderLog) (metas : List SnapshotMeta) : Ahead log metas .empty :=
  ⟨fun _ _ h => by contradiction, rfl⟩

theorem Ahead.of_append {metas' : List SnapshotMeta} (h : Ahead log (metas ++ metas') d) :
    Ahead log metas d :=
  ⟨fun u ix hu mark hm => (h.marks u ix hu mark hm).of_append, h.wal⟩

theorem Ahead.of_index (h : Ahead log metas d) (hw : d'.wal = d.wal)
    (hix : ∀ u ix, d'.index u = some ix → d.index u = some ix) : Ahead log metas d' :=
  ⟨fun u ix hu => h.marks u ix (hix u ix hu), hw.trans h.wal⟩

theorem Ahead.setDir (h : Ahead log metas d) (u : Uuid) {dir : Dir}
    (hdir : ∀ ix, dir.index? = some ix → ix.Past log metas) : Ahead log metas (d.setDir u dir) where
  marks u' ix hu' := by
    rw [Disk.index_setDir] at hu'
    split at hu'
    · exact hdir ix hu'
    · exact h.marks u' ix hu'
  wal := h.wal

theorem Ahead.removeDir (h : Ahead log metas d) (u : Uuid) : Ahead log metas (d.removeDir u) := by
  refine h.of_index rfl fun u' ix hu' => ?_
  rw [Disk.index_removeDir] at hu'
  split at hu'
  · contradiction
  · exact hu'

theorem Ahead.sweeping {live : List Uuid} {high : Nat} (h : Ahead log metas d)
    (hsw : Sweeping live high d d') : Ahead log metas d' := by
  refine h.of_index hsw.wal fun u ix hu => ?_
  rcases hsw.dirs u with heq | ⟨_, hnone⟩
  · rwa [Disk.index, ← heq]
  · simp [Disk.index, hnone] at hu

theorem AheadWith.store (h : AheadWith log metas up d m) (name : String) (c : Collection) :
    AheadWith log metas up d (m.store name c) :=
  ⟨h.toAhead, fun hup => (h.owned hup).mono (fun _ hu => hu) fun _ _ hf =>
    Catalog.find?_store_uuid name c hf⟩

theorem AheadWith.setDir (h : AheadWith log metas up d m) (hix : d.index u = some ix)
    {ix' : Index} (hpast : ix'.Past log metas) :
    AheadWith log metas up (d.setDir u (.index ix')) m where
  toAhead := h.toAhead.setDir u fun _ heq => Option.some.inj heq ▸ hpast
  owned hup := by
    refine (h.owned hup).mono (fun u' hu' => ?_) fun n e hf => ⟨e, hf, rfl⟩
    rw [Disk.contains_setDir, Bool.or_eq_true, decide_eq_true_eq] at hu'
    rcases hu' with rfl | hu'
    · exact Disk.contains_of_index hix
    · exact hu'

theorem AheadWith.snapshots (h : AheadWith log metas up d m) (s : SnapshotsDir) :
    AheadWith log metas up { d with snapshots := s } m := ⟨⟨h.marks, h.wal⟩, h.owned⟩

theorem AheadWith.wp_setSnapshots (h : AheadWith log metas up d m)
    (f : SnapshotsDir → SnapshotsDir) :
    wp (Catalog.setSnapshots f) (fun _ => AheadWith log metas up) E (Ahead log metas) d m :=
  ⟨(h.snapshots _).toAhead, h.snapshots _⟩

/-! ## commits -/

theorem AheadWith.wp_commit (h : AheadWith log metas up d m) (name : String) (target : Collection)
    (hpast : Past log metas mark) :
    wp (Catalog.commit name target mark) (fun _ => AheadWith log metas up)
      (fun _ => AheadWith log metas up) (Ahead log metas) d m := by
  simp only [Catalog.commit, wp_bind, wp_getDisk, wp_getMem]
  cases hix : d.index (m.deref name target).uuid with
  | none => exact h
  | some ix =>
    have hnew : Index.Past log metas ⟨ix.schema,
        WriterOp.execAll (m.deref name target).writer ix.docs, some mark⟩ :=
      fun _ heq => Option.some.inj heq ▸ hpast
    have hset := h.setDir hix hnew
    exact ⟨hset.toAhead, hset.store _ _⟩

/-- `commit_collection` moves a mark forward.  A collection without a mark gets
its first one, which is then to be past the snapshots. -/
theorem AheadWith.wp_commitCollection (h : AheadWith log metas up d m) (name : String)
    (hhas : log.Has mark)
    (hfirst : ∀ e ix, m.collections.find? name = some e →
      d.index e.collection.uuid = some ix → ix.payload = none → EndBy metas mark.toLogId) :
    wp (Catalog.commitCollection name mark) (fun _ => AheadWith log metas up)
      (fun _ => AheadWith log metas up) (Ahead log metas) d m := by
  simp only [Catalog.commitCollection, Catalog.get, wp_bind, wp_getMem]
  cases hf : m.collections.find? name with
  | none => exact h
  | some e =>
    simp only [wp_pure, Catalog.commitBehind, Catalog.committedMark, wp_bind, wp_getDisk]
    cases hix : d.index e.collection.uuid with
    | none => exact h
    | some ix =>
      simp only [wp_pure]
      split
      · rename_i hlt
        refine h.wp_commit name e.collection ⟨hhas, ?_⟩
        cases hp : ix.payload with
        | none => exact hfirst e ix hf hix hp
        | some old =>
          rw [hp] at hlt
          have hold := h.marks _ ix hix old hp
          exact hold.endBy.mono (log.le hold.has hhas (Nat.le_of_lt hlt))
      · exact h

variable [Ext]

theorem AheadWith.withCatalog (h : AheadWith log metas up d m) (s : Proto.CatalogSnapshot) :
    AheadWith log metas up (d.withCatalog s) m := ⟨⟨h.marks, h.wal⟩, h.owned⟩

theorem AheadWith.wp_persist (h : AheadWith log metas up d m) (ord : IterOrder) (a : Nat) :
    wp (Catalog.persist ord a) (fun _ => AheadWith log metas up) E (Ahead log metas) d m :=
  Catalog.wp_persist ord a (fun _ => ⟨h.marks, h.wal⟩) (h.withCatalog _).toAhead (h.withCatalog _)

theorem AheadWith.wp_checkpointApplied (h : AheadWith log metas up d m) (ord : IterOrder)
    (hpast : Past log metas mark) :
    wp (Catalog.checkpointApplied ord mark) (fun _ => AheadWith log metas up)
      (fun _ => AheadWith log metas up) (Ahead log metas) d m := by
  rw [Catalog.checkpointApplied, Catalog.commitAll, wp_bind, wp_getMem, wp_bind]
  refine wp_imp (wp_forEach (fun _ => AheadWith log metas up)
    (fun p _ d' m' h' => h'.wp_commit p.1 p.2.collection hpast) _ h)
    fun _ d' m' h' => h'.wp_persist ord mark.index

/-! ## commands -/

omit [Ext] in
theorem AheadWith.inserted (h : AheadWith log metas up d m) {name : String}
    (hfree : m.collections.find? name = none) (hpast : ix.Past log metas) (x : Mapping) (seq : Nat) :
    AheadWith log metas up (d.setDir u (.index ix)) (m.inserted name u x seq ix) :=
  ⟨h.toAhead.setDir u fun _ heq => Option.some.inj heq ▸ hpast, fun hup =>
    (h.owned hup).inserted hfree x seq ix⟩

theorem AheadWith.wp_applyCreate (h : AheadWith log metas up d m) (ord : IterOrder)
    (create : Proto.CreateCollection) :
    wp (Catalog.applyCreate ord mark create) (fun _ => AheadWith log metas up)
      (fun _ => AheadWith log metas up) (Ahead log metas) d m := by
  have hnew : ∀ x : Mapping, Index.Past log metas ⟨x.toSchema, [], none⟩ :=
    fun _ _ heq => by contradiction
  rw [Catalog.applyCreate, wp_bind]
  cases Catalog.createMapping create with
  | error e => exact h
  | ok x =>
    rw [wp_ofExcept_ok, wp_bind, Catalog.wp_lookup]
    cases hf : m.collections.find? create.collection with
    | some e => exact h
    | none =>
      rw [Option.map_none, Catalog.applyNewCreate, wp_bind]
      cases Catalog.createUuid create with
      | error e => exact h
      | ok u =>
        rw [wp_ofExcept_ok, wp_bind, Catalog.installCollection, wp_bind]
        refine Catalog.wp_openOrCreate u x (fun _ dir hdir => ?_) (fun _ _ => h)
          (fun ix hix _ => ?_) fun _ => ?_
        · refine h.toAhead.setDir u fun ix heq => ?_
          rcases hdir with hnone | rfl
          · rw [hnone] at heq
            contradiction
          · exact Option.some.inj heq ▸ hnew x
        · have hins := h.inserted (u := u) hf (h.marks u ix hix) x mark.index
          rw [Disk.setDir_index hix] at hins
          exact hins.wp_persist ord mark.index
        · exact (h.inserted hf (hnew x) x mark.index).wp_persist ord mark.index

theorem AheadWith.wp_applyDrop (h : AheadWith log metas up d m) (ord : IterOrder) (name : String) :
    wp (Catalog.applyDrop ord mark name) (fun _ => AheadWith log metas up)
      (fun _ => AheadWith log metas up) (Ahead log metas) d m := by
  simp only [Catalog.applyDrop, wp_bind, wp_getMem, wp_modifyMem]
  cases hf : m.collections.find? name with
  | none =>
    rw [OrdMap.erase_of_find?_none hf]
    exact h
  | some e =>
    have hdrop : AheadWith log metas up (d.removeDir e.uuid) (m.erased name) :=
      ⟨h.toAhead.removeDir e.uuid, fun hup => (h.owned hup).erased hf⟩
    refine (wp_bind _ _).mpr (Catalog.wp_dropDir e.uuid ?_ hdrop.toAhead ?_)
    · exact fun dir hdir => h.toAhead.setDir e.uuid fun _ heq => by rw [hdir] at heq; contradiction
    · exact hdrop.wp_persist ord mark.index

/-- Applying a command keeps the marks: a new directory has none, and documents
are only buffered. -/
theorem AheadWith.wp_applyCommand (h : AheadWith log metas up d m) (ord : IterOrder)
    (cmd : Proto.Command) :
    wp (Catalog.applyCommand ord mark cmd) (fun _ => AheadWith log metas up)
      (fun _ => AheadWith log metas up) (Ahead log metas) d m := by
  unfold Catalog.applyCommand
  split
  · rw [wp_bind]
    exact h.wp_applyCreate ord _
  · rw [wp_bind]
    exact h.wp_applyDrop ord _
  · rename_i index _
    rw [Catalog.applyIndex, wp_bind, Catalog.wp_lookup]
    cases m.collections.find? index.collection with
    | none => exact h
    | some e =>
      simp only [Option.map_some, Catalog.committedMark, wp_bind, wp_getDisk]
      cases d.index e.collection.uuid with
      | none => exact h
      | some ix =>
        simp only [wp_pure]
        split
        · exact h
        · rw [Catalog.applyIndexBehind]
          cases fromSlice index.source with
          | error err => exact h
          | ok parsed =>
            simp only [Catalog.applyUpsert, wp_bind, wp_getMem]
            cases Collection.applyUpsert _ index.id index.source parsed with
            | error err => exact h
            | ok r => exact h.store _ _
  · rename_i delete _
    rw [Catalog.applyDeleteDoc, wp_bind, Catalog.wp_lookup]
    cases m.collections.find? delete.collection with
    | none => exact h
    | some e =>
      simp only [Option.map_some, Catalog.committedMark, wp_bind, wp_getDisk]
      cases d.index e.collection.uuid with
      | none => exact h
      | some ix =>
        simp only [wp_pure]
        split
        · exact h
        · simp only [Catalog.applyDeleteBehind, Catalog.applyDelete, wp_bind, wp_getMem]
          cases Collection.applyDelete _ delete.id with
          | error err => exact h
          | ok r => exact h.store _ _
  · exact h

/-! ## snapshots -/

omit [Ext] in
theorem AheadWith.wp_archiveInto (h : AheadWith log metas up d m) (name : String)
    (e : Catalog.Entry) :
    wp (Catalog.archiveInto name e) (fun _ => AheadWith log metas up)
      (fun _ => AheadWith log metas up) (Ahead log metas) d m := by
  simp only [Catalog.archiveInto, wp_bind, wp_getDisk]
  cases d.index e.uuid with
  | none => exact h
  | some ix =>
    simp only [wp_bind, wp_modifyMem]
    exact (h.store name _).wp_setSnapshots _

/-- Building an archive writes to the directory of the snapshots alone. -/
theorem AheadWith.wp_buildArchive (h : AheadWith log metas up d m) (ord : IterOrder) :
    wp (Catalog.buildSnapshot ord) (fun _ => AheadWith log metas up)
      (fun _ => AheadWith log metas up) (Ahead log metas) d m := by
  simp only [Catalog.buildSnapshot, Catalog.archiveListing, Catalog.archiveCollections,
    Catalog.packArchive, wp_bind]
  refine wp_imp (h.wp_setSnapshots _) fun _ _ _ h => ?_
  rw [wp_getMem]
  refine wp_imp (h.wp_setSnapshots _) fun _ _ _ h => ?_
  rw [wp_getMem]
  refine wp_imp (wp_forEach (fun _ => AheadWith log metas up)
    (fun p _ _ _ h => h.wp_archiveInto p.1 p.2) _ h) fun _ _ _ h => ?_
  refine wp_imp (h.wp_setSnapshots _) fun _ _ _ h => ?_
  refine wp_imp (h.wp_setSnapshots _) fun _ _ _ h => ?_
  exact h.wp_setSnapshots _

/-- The marks of an archive are past the snapshots. -/
def Archive.Past (log : LeaderLog) (metas : List SnapshotMeta) (a : Archive) : Prop :=
  ∀ u ix, a.index u = some ix → ix.Past log metas

/-- While an archive is installed: its marks are as good as those in place. -/
structure Staging (log : LeaderLog) (metas : List SnapshotMeta) (d : Disk) : Prop
    extends Ahead log metas d where
  staged : ∀ a, d.snapshots.install = some a → a.Past log metas

theorem Staging.wp_placeCollection {entry : Proto.CatalogEntry} (h : Staging log metas d) :
    wp (Catalog.placeCollection entry) (fun _ d' _ => Staging log metas d')
      (fun _ d' _ => Ahead log metas d') (Ahead log metas) d m := by
  -- what is left once the old directory is out of the way
  have hmove : ∀ d' u, Staging log metas d' →
      wp (Catalog.moveIn u) (fun _ d' _ => Staging log metas d') (fun _ d' _ => Ahead log metas d')
        (Ahead log metas) d' m := by
    intro d' u h'
    simp only [Catalog.moveIn, wp_bind, wp_getDisk]
    cases hi : d'.snapshots.install with
    | none => exact h'.toAhead
    | some a =>
      have hpast := h'.staged a hi
      simp only [Option.bind_some]
      cases hdir : a.dirs.find? u with
      | none => exact h'.toAhead
      | some dir =>
        have hset : Ahead log metas (d'.setDir u dir) := h'.toAhead.setDir u fun ix heq =>
          hpast u ix (by rw [Archive.index, hdir, Option.bind_some, heq])
        refine ⟨⟨hset.marks, hset.wal⟩, ⟨hset.marks, hset.wal⟩, fun a' ha' v ix hv => ?_⟩
        have ha' : (d'.snapshots.install.map fun a : Archive =>
          { a with dirs := a.dirs.erase u }) = some a' := ha'
        rw [hi, Option.map_some, Option.some.injEq] at ha'
        subst ha'
        refine hpast v ix ?_
        rw [Archive.index, OrdMap.find?_erase] at hv
        split at hv
        · contradiction
        · exact hv
  rw [Catalog.placeCollection, wp_bind]
  cases Catalog.archiveUuid entry with
  | error e => exact h.toAhead
  | ok u =>
    simp only [wp_ofExcept_ok, wp_bind, Catalog.setAside, wp_getDisk]
    split
    · exact hmove d u h
    · split
      · have hrem := h.toAhead.removeDir u
        exact ⟨⟨hrem.marks, hrem.wal⟩, hmove _ u ⟨⟨hrem.marks, hrem.wal⟩, h.staged⟩⟩
      · exact h.toAhead

omit [Ext] in
/-- A sweep leaves the collections of the map alone. -/
theorem Ahead.wp_sweepOrphans (h : Ahead log metas d) (ord : IterOrder) (high : Nat) :
    wp (Catalog.sweepOrphans ord high)
      (fun _ d' m' => m' = m ∧ AheadWith log metas True d' m ∧ Sweeping m.liveUuids high d d')
      (fun _ d' _ => Ahead log metas d') (Ahead log metas) d m := by
  refine Catalog.wp_sweepOrphans_cases ord high (fun d' hsw => h.sweeping hsw)
    (fun d' _ hsw _ _ _ => h.sweeping hsw) fun d' hsw hall _ => ?_
  exact ⟨rfl, ⟨h.sweeping hsw, fun _ u hu => Catalog.mem_liveUuids.mp (hall u hu)⟩, hsw⟩

/-- **Installing an archive** whose marks are past the earlier snapshots and the one
installed. -/
theorem Ahead.wp_installArchive {a : Archive} {info : SnapshotMeta}
    (h : Ahead log metas d) (ha : a.Past log (metas ++ [info])) (ord : IterOrder) :
    wp (Catalog.installSnapshot ord a) (fun _ => AheadWith log (metas ++ [info]) True)
      (fun _ d' _ => Ahead log metas d') (Ahead log metas) d m := by
  have haw : a.Past log metas := fun u ix hu mark hm => (ha u ix hu mark hm).of_append
  have hsnap : ∀ s, Ahead log metas { d with snapshots := s } := fun _ => ⟨h.marks, h.wal⟩
  rw [Catalog.installSnapshot]
  simp only [wp_bind, Catalog.setSnapshots, wp_step]
  refine ⟨hsnap _, hsnap _, ?_⟩
  cases hload : Catalog.archiveSnapshot a with
  | error e => exact hsnap _
  | ok snapshot =>
    refine ⟨hsnap _, ?_⟩
    -- in the loop every directory is an old one or the archive's; after it the listed
    -- ones are the archive's
    have hstart : Staging log metas (Catalog.staged a d) :=
      ⟨⟨h.marks, h.wal⟩, fun a' ha' => Option.some.inj ha' ▸ haw⟩
    have hplaced := Placing.wp_placeAll a d m snapshot.entries
    have hkept := wp_forEach (f := Catalog.placeCollection) (m := m)
      (E := fun _ d' _ => Ahead log metas d') (C := Ahead log metas)
      (fun _ d' _ => Staging log metas d') (fun entry _ d' m' h' => h'.wp_placeCollection)
      snapshot.entries hstart
    refine wp_mono _ (wp_and _ hplaced hkept) (fun _ x m' hx => ?_) (fun _ _ _ he => he.2)
      fun _ hc => hc.2
    obtain ⟨⟨rfl, us, hmap, hp⟩, hst⟩ := hx
    rw [Catalog.placeCatalog, wp_step]
    have hx : ∀ pb s, Ahead log metas { x with catalogPb := pb, snapshots := s } :=
      fun _ _ => ⟨hst.marks, hst.wal⟩
    refine ⟨hx _ _, ?_⟩
    refine wp_mono _ (Catalog.wp_rebuild snapshot) (fun _ y m₁ hy => ?_)
      (fun _ _ _ he => he.1 ▸ hx _ _) fun _ hc => hc
    obtain ⟨rfl, l, hl, hm₁⟩ := hy
    have hlist := hl.listedIn hm₁
    refine wp_imp ((hx _ _).wp_sweepOrphans ord snapshot.appliedSeq) fun _ y m₂ hy => ?_
    obtain ⟨rfl, hy, hsw⟩ := hy
    have hfinal : AheadWith log (metas ++ [info]) True y m₂ := by
      refine ⟨⟨fun u ix hu => ?_, hy.wal⟩, hy.owned⟩
      obtain ⟨n, e, hf, rfl⟩ := hy.owned trivial u (Disk.contains_of_index hu)
      obtain ⟨entry, he, hparse⟩ := hlist n e hf
      have hmem : e.uuid ∈ us := by
        have : some e.uuid ∈ us.map some := hmap ▸ List.mem_map.mpr ⟨entry, he, hparse⟩
        simpa using this
      rw [hsw.index_of_mem (Catalog.mem_liveUuids.mpr ⟨n, e, hf, rfl⟩)] at hu
      rw [Disk.index, hp.dirs, if_pos hmem] at hu
      exact ha e.uuid ix hu
    have hcut : ∀ s, Ahead log metas { y with snapshots := s } := fun s => ⟨hy.marks, hy.wal⟩
    simp only [Catalog.publishSnapshot, wp_bind, Catalog.setSnapshots, wp_step]
    exact ⟨hcut _, hcut _, hcut _, hcut _, hfinal.snapshots _⟩

/-! ## opening -/

/-- What `open` brings back from `d`: collections the catalog file lists, each with its
index, and at least one if there is one listed. -/
structure FromFile (d : Disk) (m : Catalog) : Prop where
  listed : ListedIn d.snapshot.entries m.collections
  indexed : Indexed d m
  some : d.snapshot.entries ≠ [] → ∃ n e, m.collections.find? n = some e

theorem fromFile_of_decodes {l : List (String × Listed)} (hl : d.Decodes l)
    (hidx : ∀ p ∈ l, (d.index p.2.uuid).isSome)
    (hm : ∀ n, m.collections.find? n = openedFrom d.index (.ofList l) n) : FromFile d m := by
  obtain ⟨s, hs, hl⟩ := hl
  have hsnap : d.snapshot = s := by rw [Disk.snapshot, hs]
  refine ⟨hsnap ▸ Entered.listedIn ⟨hl, hidx⟩ hm, fun n e hf => ?_, fun hne => ?_⟩
  · obtain ⟨x, ix, _, hix, rfl⟩ := openedFrom_eq_some_iff.mp ((hm n).symm.trans hf)
    exact Option.isSome_iff_ne_none.mp (hix ▸ rfl)
  · cases l with
    | nil => exact absurd (List.map_eq_nil_iff.mp hl) (hsnap ▸ hne)
    | cons p l =>
      obtain ⟨x, hx⟩ := OrdMap.exists_find?_insertAll ∅ (List.mem_cons_self (a := p) (l := l))
      obtain ⟨ix, hix⟩ := Option.isSome_iff_exists.mp (hidx _ (mem_of_find?_ofList hx))
      exact ⟨p.1, x.opened ix, (hm p.1).trans (by
        rw [openedFrom, show (OrdMap.ofList (p :: l)).find? p.1 = _ from hx, Option.bind_some, hix,
          Option.map_some])⟩

/-- **Opening a directory**, whatever its catalog file says: it fails, or it brings back
what the file lists, and in both cases only directories nobody lists are moved. -/
theorem Ahead.wp_openCatalog (h : Ahead log metas d) (ord : IterOrder) :
    wp (Catalog.openCatalog ord)
      (fun _ d' m' => AheadWith log metas True d' m' ∧ FromFile d m' ∧
        ∀ n e, m'.collections.find? n = some e → d'.index e.uuid = d.index e.uuid)
      (fun _ d' _ => Ahead log metas d') (Ahead log metas) d m := by
  refine Catalog.wp_openCatalog_unlogged h.wal ord m (fun _ _ _ => h) fun l m₁ hl hidx hm => ?_
  refine wp_imp (h.wp_sweepOrphans ord d.highSeq) fun _ d' m' hx => ?_
  obtain ⟨rfl, hkept, hsw⟩ := hx
  exact ⟨hkept, fromFile_of_decodes hl hidx hm, fun n e hf =>
    hsw.index_of_mem (Catalog.mem_liveUuids.mpr ⟨n, e, hf, rfl⟩)⟩

end

end Lumen
