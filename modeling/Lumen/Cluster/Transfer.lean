import Lumen.Cluster.Run
import Lumen.Cluster.Snapshot

/-!
# Lumen.Cluster.Transfer

A snapshot from one node to another: what `build_snapshot` puts into the
archive, what the follower has after `install_snapshot`, and again after a
restart.  The follower reports the lowest mark of the collections it has
installed as applied, and so does the metadata the leader sends along.
-/

namespace Lumen

open Lib Prog Raft

/-! ## building -/

section
variable {d : Disk} {m : Catalog} {name : String} {e : Catalog.Entry} {ix : Index}

/-- The reader of a collection is reloaded: nothing changes, where it already
shows the last commit. -/
theorem Catalog.store_reloaded (hs : Sound d m) (hf : m.collections.find? name = some e)
    (hix : d.index e.uuid = some ix) :
    m.store name { m.deref name e.collection with searcher := ix.docs } = m := by
  have he := hs.entry name e hf
  obtain ⟨ix', hix', _, hsearch⟩ := he.index
  rw [hix, Option.some.injEq] at hix'
  have hderef : m.deref name e.collection = e.collection := by
    rw [Catalog.deref, hf]
    simp [he.uuid]
  have hsame : { e.collection with searcher := ix.docs } = e.collection := by
    rw [hix', ← hsearch]
  rw [hderef, hsame]
  rw [Catalog.store, Catalog.mk.injEq]
  refine ⟨rfl, rfl, OrdMap.ext_find? fun n => ?_⟩
  rw [OrdMap.find?_modify]
  split
  · rename_i hn
    rw [hn, hf, Option.map_some, if_pos he.uuid.symm]
  · rfl

variable [Ext] {E : Error → Disk → Catalog → Prop}

/-- **The archive a node builds** lists its map and has the last commit of
every collection; nothing else changes. -/
theorem Catalog.wp_buildSnapshot {Q : Unit → Disk → Catalog → Prop} (ord : IterOrder)
    (hs : Sound d m)
    (hQ : ∀ s a, s.currentTar = some a →
      a.Formed m.seq ((ord.order m.collections.toList).map fun p => (p.1, p.2.listed)) →
      (∀ n e, m.collections.find? n = some e → a.index e.uuid = d.index e.uuid) →
      Q () { d with snapshots := s } m) :
    wp (Catalog.buildSnapshot ord) Q E (fun _ => True) d m := by
  let pb := Ext.catalogSnapshot.encode (Catalog.snapshotProto ord m m.seq)
  -- the collections in `pre` are copied
  let J : List (String × Catalog.Entry) → Disk → Catalog → Prop := fun rest d' m' =>
    m' = m ∧ ∃ s dirs pre, d' = { d with snapshots := s } ∧ s.build = some ⟨some pb, dirs⟩ ∧
      pre ++ rest = ord.order m.collections.toList ∧
      ∀ p ∈ pre, (dirs.find? p.2.uuid).bind Dir.index? = d.index p.2.uuid
  have hlist : ∀ p, p ∈ ord.order m.collections.toList ↔ m.collections.find? p.1 = some p.2 :=
    fun p => ord.mem.trans OrdMap.find?_eq_some_iff.symm
  simp only [Catalog.buildSnapshot, Catalog.archiveListing, Catalog.archiveCollections,
    Catalog.setSnapshots, wp_bind, wp_step, wp_getMem]
  refine ⟨trivial, trivial, ?_⟩
  refine wp_imp (wp_forEach J (fun p rest d' m' hJ => ?_) _
    ⟨rfl, _, ∅, [], rfl, rfl, rfl, fun _ h => absurd h List.not_mem_nil⟩) fun _ d' m' hJ => ?_
  · obtain ⟨rfl, s, dirs, pre, rfl, hb, happ, hdirs⟩ := hJ
    have hf := (hlist p).mp (happ ▸ List.mem_append_right _ List.mem_cons_self)
    obtain ⟨ix, hix, _⟩ := (hs.entry p.1 p.2 hf).index
    have hix' : Disk.index { d with snapshots := s } p.2.uuid = some ix := hix
    simp only [Catalog.archiveInto, wp_bind, wp_getDisk, hix', wp_modifyMem, Catalog.setSnapshots,
      wp_step]
    refine ⟨trivial, Catalog.store_reloaded hs hf hix, _, dirs.insert p.2.uuid (.index ix),
      pre ++ [p], rfl, ?_, by simp [happ], fun q hq => ?_⟩
    · rw [hb]
      rfl
    · rw [OrdMap.find?_insert]
      split
      · rename_i hu
        rw [hu, hix]
        rfl
      · rename_i hu
        rcases List.mem_append.mp hq with hq | hq
        · exact hdirs q hq
        · rw [List.mem_singleton.mp hq] at hu
          exact absurd rfl hu
  · obtain ⟨rfl, s, dirs, pre, rfl, hb, happ, hdirs⟩ := hJ
    rw [List.append_nil] at happ
    have hidx : ∀ n e, m'.collections.find? n = some e →
        Archive.index ⟨some pb, dirs⟩ e.uuid = d.index e.uuid :=
      fun n e hf => hdirs (n, e) (happ ▸ (hlist (n, e)).mpr hf)
    have hperm : ((ord.order m'.collections.toList).map fun p => (p.1, p.2.listed)).Perm
        m'.listing := (ord.perm _).map _
    have ho : Openable d _ [] := hs.openable hperm
    simp only [Catalog.packArchive, Catalog.setSnapshots, wp_bind, wp_step]
    refine ⟨trivial, trivial, trivial, hQ _ ⟨some pb, dirs⟩ hb ⟨?_, ho.names, ho.uuids, ?_⟩ hidx⟩
    · simp only [Catalog.archiveSnapshot, pb, Codec.decode_encode, Catalog.snapshotProto,
        List.map_map]
      rfl
    · intro p hp
      obtain ⟨e, hf, hx⟩ := mem_listing.mp (hperm.mem_iff.mp hp)
      have hu : p.2.uuid = e.uuid := by rw [← hx]; rfl
      rw [hu, hidx _ _ hf, ← hu]
      exact ho.index p hp List.not_mem_nil

end

/-! ## the applied point -/

/-- Marks with the same index are the same, as Raft log ids are. -/
def MarksAgree (d : Disk) (m : Catalog) : Prop :=
  ∀ n n' e e', m.collections.find? n = some e → m.collections.find? n' = some e' →
    (d.mark e.uuid).index = (d.mark e'.uuid).index → d.mark e.uuid = d.mark e'.uuid

theorem LowestMark.unique {d : Disk} {m : Catalog} {mark mark' : LogMark} (hagree : MarksAgree d m)
    (h : LowestMark d m mark) (h' : LowestMark d m mark') : mark = mark' := by
  obtain ⟨⟨n, e, hf, rfl⟩, hle⟩ := h
  obtain ⟨⟨n', e', hf', rfl⟩, hle'⟩ := h'
  exact hagree n n' e e' hf hf' (le_antisymm (hle n' e' hf') (hle' n e hf))

/-! ## the follower -/

/-- The node has exactly the collections of the other, with the contents and
marks of their last commits. -/
structure Copied (dl : Disk) (ml : Catalog) (df : Disk) (mf : Catalog) : Prop where
  map : Reopened dl ml mf
  index : ∀ n e, ml.collections.find? n = some e → df.index e.uuid = dl.index e.uuid

section
variable {dl df : Disk} {ml mf : Catalog}

theorem Copied.find? (h : Copied dl ml df mf) (hs : Sound dl ml) {n : String} {e : Catalog.Entry}
    (hf : ml.collections.find? n = some e) :
    ∃ e', mf.collections.find? n = some e' ∧ e'.uuid = e.uuid := by
  obtain ⟨ix, hix, _⟩ := (hs.entry n e hf).index
  exact ⟨e.listed.opened ix, by rw [h.map n, hf, Option.bind_some, hix]; rfl, rfl⟩

theorem Copied.sound (h : Copied dl ml df mf) (hs : Sound dl ml) : Sound df mf := by
  refine (hs.reopened h.map).congr fun n e' hf => ?_
  obtain ⟨e, ix, hfe, _, rfl⟩ := h.map.find? hf
  exact h.index n e hfe

theorem Copied.mark (h : Copied dl ml df mf) {n : String} {e : Catalog.Entry}
    (hf : ml.collections.find? n = some e) : df.mark e.uuid = dl.mark e.uuid := by
  rw [Disk.mark, Disk.mark, h.index n e hf]

theorem Copied.lowestMark (h : Copied dl ml df mf) (hs : Sound dl ml) {mark : LogMark}
    (hl : LowestMark df mf mark) : LowestMark dl ml mark := by
  obtain ⟨⟨n, e', hf, rfl⟩, hle⟩ := hl
  obtain ⟨e, ix, hfe, _, rfl⟩ := h.map.find? hf
  refine ⟨⟨n, e, hfe, (h.mark hfe).symm⟩, fun n' e₂ hf₂ => ?_⟩
  obtain ⟨e₂', hf₂', hu⟩ := h.find? hs hf₂
  have := hle n' e₂' hf₂'
  rwa [hu, h.mark hf₂] at this

end

section
variable {dl df : NodeDisk} {ml mf : StateMachine} {applied applied' : Option LogId}

/-- A copy with collections reports what the original does. -/
theorem AppliedAt.copied (h : AppliedAt dl ml applied) (h' : AppliedAt df mf applied')
    (hs : Sound dl.data ml.catalog) (hagree : MarksAgree dl.data ml.catalog)
    (hc : Copied dl.data ml.catalog df.data mf.catalog)
    (hempty : (∀ n, ml.catalog.collections.find? n = none) → mf.lastApplied = applied) :
    applied' = applied := by
  rcases h with ⟨hnone, rfl⟩ | ⟨mark, hlow, rfl⟩
  · rcases h' with ⟨_, rfl⟩ | ⟨mark', hlow', rfl⟩
    · exact hempty hnone
    · obtain ⟨⟨n, e, hf, _⟩, _⟩ := hc.lowestMark hs hlow'
      rw [hnone n] at hf
      contradiction
  · rcases h' with ⟨hnone', rfl⟩ | ⟨mark', hlow', rfl⟩
    · obtain ⟨⟨n, e, hf, _⟩, _⟩ := hlow
      obtain ⟨e', hf', _⟩ := hc.find? hs hf
      rw [hnone' n] at hf'
      contradiction
    · rw [(hc.lowestMark hs hlow').unique hagree hlow]

end

/-! ## from the leader to the follower -/

section
variable [Ext] {dl df : NodeDisk} {ml mf : StateMachine} {a : Archive} {seq : Nat}
  {l : List (String × Listed)}

/-- The archive lists the collections of a node and has their last commits. -/
structure Archive.Holds (a : Archive) (d : Disk) (m : Catalog) (l : List (String × Listed)) :
    Prop where
  formed : a.Formed m.seq l
  perm : l.Perm m.listing
  index : ∀ n e, m.collections.find? n = some e → a.index e.uuid = d.index e.uuid

/-- Building a snapshot changes nothing but the snapshot files. -/
theorem StateMachine.wp_buildSnapshot (hs : Sound dl.data ml.catalog) (ord : IterOrder) :
    wp (StateMachine.buildSnapshot ord)
      (fun info dl' ml' => ∃ s a l, dl' = { dl with data := { dl.data with snapshots := s } } ∧
        ml'.catalog = ml.catalog ∧ s.currentTar = some a ∧ a.Holds dl.data ml.catalog l ∧
        AppliedAt dl ml info.lastLogId)
      (fun _ _ _ => False) (fun _ => True) dl ml := by
  rw [StateMachine.buildSnapshot, wp_bind]
  refine wp_onCatalog _ _ (Catalog.wp_buildSnapshot ord hs fun s a htar hf hidx => ?_)
  have hsound : Sound { dl.data with snapshots := s } ml.catalog := hs.congr fun _ _ _ => rfl
  rw [StateMachine.snapshotMeta, wp_bind]
  refine wp_appliedLogId ord (fun hno => absurd hsound.based.indexed hno) fun applied happ => ?_
  exact ⟨s, a, _, rfl, rfl, htar, ⟨hf, (ord.perm _).map _, hidx⟩, happ⟩

/-- The leader's snapshot. -/
theorem buildSnapshot_run (hs : Sound dl.data ml.catalog) (ord : IterOrder) :
    ∃ info a l dl' ml', (StateMachine.buildSnapshot ord).run dl ml = (.ok info, dl', ml') ∧
      dl'.data.snapshots.currentTar = some a ∧ a.Holds dl.data ml.catalog l ∧
      AppliedAt dl ml info.lastLogId := by
  obtain ⟨info, _, ml', hrun, s, a, l, rfl, _, hrest⟩ :=
    run_ok_of_wp (StateMachine.wp_buildSnapshot hs ord)
  exact ⟨info, a, l, _, ml', hrun, hrest⟩

theorem Archive.Holds.reopened (h : a.Holds dl.data ml.catalog l) {m : Catalog}
    (hm : ∀ n, m.collections.find? n = openedFrom a.index (.ofList l) n) :
    Reopened dl.data ml.catalog m := by
  intro n
  rw [hm, openedFrom_of_perm h.perm]
  cases hf : ml.catalog.collections.find? n with
  | none => rfl
  | some e => rw [Option.bind_some, Option.bind_some, h.index n e hf]

theorem Archive.Holds.mem (h : a.Holds dl.data ml.catalog l) {n : String} {e : Catalog.Entry}
    (hf : ml.catalog.collections.find? n = some e) : (n, e.listed) ∈ l :=
  h.perm.mem_iff.mpr (mem_listing.mpr ⟨e, hf, rfl⟩)

theorem Archive.Holds.freeAt_iff (h : a.Holds dl.data ml.catalog l) {d : Disk} :
    d.FreeAt seq l ↔ ∀ u, d.dirs.contains u = true →
      (∀ n e, ml.catalog.collections.find? n = some e → e.uuid ≠ u) →
      Vacant (d.quarantined.lookup (u, seq)) := by
  have hlist : ∀ u, (∀ p ∈ l, p.2.uuid ≠ u) ↔
      ∀ n e, ml.catalog.collections.find? n = some e → e.uuid ≠ u := by
    intro u
    refine ⟨fun h' n e hf => h' _ (h.mem hf), fun h' p hp => ?_⟩
    obtain ⟨e, hf, hx⟩ := mem_listing.mp (h.perm.mem_iff.mp hp)
    rw [← hx]
    exact h' _ e hf
  simp only [Disk.FreeAt, hlist]

/-- An archive that could be installed met no place in quarantine that was taken. -/
theorem Archive.Holds.freeAt_of_run (h : a.Holds dl.data ml.catalog l) {info : SnapshotMeta}
    {ord : IterOrder} {d : NodeDisk} {m : StateMachine}
    (hrun : (StateMachine.installSnapshot ord info a).run df mf = (.ok (), d, m)) :
    df.data.FreeAt ml.catalog.seq l := by
  by_contra hblocked
  have hw : wp (StateMachine.installSnapshot ord info a) (fun _ _ _ => False)
      (fun _ _ _ => True) (fun _ => True) df mf := by
    rw [StateMachine.installSnapshot, wp_bind]
    exact wp_onCatalog _ _ (wp_mono _ (Catalog.wp_installSnapshot_blocked ord h.formed hblocked)
      (fun _ _ _ h => h.elim) (fun _ _ _ _ => trivial) fun _ _ => trivial)
  exact post_of_wp hw hrun

/-- With the archive installed the node has the other's collections. -/
theorem Archive.Holds.copied {d d' : Disk} {m : Catalog} (h : a.Holds dl.data ml.catalog l)
    (hi : Installed a d d' l)
    (hm : ∀ n, m.collections.find? n = openedFrom a.index (.ofList l) n) :
    Copied dl.data ml.catalog d' m where
  map := h.reopened hm
  index n e hf := (hi.index (h.mem hf)).trans (h.index n e hf)

/-- The follower after a transfer, in memory and on disk. -/
structure Follows (info : SnapshotMeta) (a : Archive) (dl : Disk) (ml : Catalog)
    (l : List (String × Listed)) (df : NodeDisk) (mf : StateMachine) : Prop where
  copied : Copied dl ml df.data mf.catalog
  membership : mf.lastMembership = info.lastMembership
  file : StateMachine.loadMembership df = .ok info.lastMembership
  installed : ∃ d, d.wal = ∅ ∧ Installed a d df.data l
  swept : ∀ u, df.data.dirs.contains u = true → ∃ p ∈ l, p.2.uuid = u

theorem Archive.Holds.wp_installSnapshot (h : a.Holds dl.data ml.catalog l)
    (hwal : df.data.wal = ∅) (hfree : df.data.FreeAt ml.catalog.seq l) (info : SnapshotMeta)
    (ord : IterOrder) (mf : StateMachine) :
    wp (StateMachine.installSnapshot ord info a)
      (fun _ df' mf' => Follows info a dl.data ml.catalog l df' mf' ∧
        mf'.lastApplied = info.lastLogId)
      (fun _ _ _ => False) (fun _ => True) df mf := by
  rw [StateMachine.installSnapshot, wp_bind]
  refine wp_onCatalog _ _ (wp_mono _ (Catalog.wp_installSnapshot ord h.formed hfree)
    (fun _ x y hx => ?_) (fun _ _ _ he => he) fun _ _ => trivial)
  obtain ⟨hi, hall, hm⟩ := hx
  rw [wp_bind]
  refine wp_persistMembership _ (fun _ => trivial) trivial ?_
  refine ⟨⟨h.copied hi hm, rfl, ?_, ⟨df.data, hwal, hi⟩, hall⟩, rfl⟩
  simp only [StateMachine.loadMembership, Codec.decode_encode, StoredMembership.tryFrom_toProto]

/-- The applied point in memory does not outlive a restart. -/
theorem StateMachine.lastApplied_restart {ord : IterOrder} {df' : NodeDisk} {mf' : StateMachine}
    (hrun : (StateMachine.restart ord).run df default = (.ok (), df', mf')) :
    mf'.lastApplied = none := by
  have hw : wp (StateMachine.restart ord) (fun _ _ m => m.lastApplied = none)
      (fun _ _ _ => True) (fun _ => True) df default := by
    rw [StateMachine.restart, wp_bind]
    refine wp_mono _ (wp_trivial _) (fun _ d m _ => ?_) (fun _ _ _ _ => trivial)
      fun _ _ => trivial
    rw [StateMachine.openStateMachine, wp_bind, wp_getDisk, wp_bind]
    cases StateMachine.loadMembership d with
    | error e => trivial
    | ok membership => rfl
  exact post_of_wp hw hrun

/-- The follower keeps what it has over a restart, but for the applied point in
memory. -/
theorem Follows.wp_restart {info : SnapshotMeta}
    (h : Follows info a dl.data ml.catalog l df mf) (hh : a.Holds dl.data ml.catalog l)
    (ord : IterOrder) (m₀ : StateMachine) :
    wp (StateMachine.restart ord)
      (fun _ df' mf' => Copied dl.data ml.catalog df'.data mf'.catalog ∧
        mf'.lastMembership = info.lastMembership ∧ mf'.lastApplied = none)
      (fun _ _ _ => False) (fun _ => True) df m₀ := by
  obtain ⟨d, hwal, hi⟩ := h.installed
  have hl : df.data.Lists ml.catalog.seq l := by
    obtain ⟨bytes, hpb, hdec⟩ := hh.formed.catalogPb
    rw [Disk.Lists, Catalog.loadSnapshot, hi.catalogPb, hpb]
    simp only [hdec]
  rw [StateMachine.restart, wp_bind]
  refine wp_onCatalog _ _ (Catalog.wp_openCatalog_unlogged (hi.wal.trans hwal) ord _
    (fun _ _ hbad => ?_) fun l' m' hl' _ hm => ?_)
  · obtain ⟨p, hp, hnone⟩ := hbad l hl.decodes hh.formed.uuids
    have hsome := hh.formed.index p hp
    rw [← hi.index hp, hnone] at hsome
    contradiction
  · obtain rfl := hl.decodes.unique hl'
    have hm' := fun n => (hm n).trans (hi.openedFrom_eq n)
    have hno : NoOrphans df.data m' := fun u hu =>
      Catalog.mem_liveUuids.mp ((hh.formed.mem_liveUuids hm').mpr (h.swept u hu))
    refine hno.wp_sweepOrphans ord _ ?_
    have hload : StateMachine.loadMembership { df with data := df.data } = .ok info.lastMembership :=
      h.file
    rw [StateMachine.openStateMachine, wp_bind, wp_getDisk, wp_bind, hload, wp_ofExcept_ok,
      wp_modifyMem]
    exact ⟨hh.copied hi hm', rfl, rfl⟩

/-- What a snapshot is to bring to a follower: the collections of the leader,
and the applied point and membership of the metadata. -/
structure Transferred (info : SnapshotMeta) (dl : NodeDisk) (ml : StateMachine) (df : NodeDisk)
    (mf : StateMachine) : Prop where
  copied : Copied dl.data ml.catalog df.data mf.catalog
  applied : ∀ ord, ((StateMachine.appliedState ord).run df mf).1 =
    .ok (info.lastLogId, info.lastMembership)

omit [Ext] in
theorem Copied.transferred {info : SnapshotMeta} (hs : Sound dl.data ml.catalog)
    (hagree : MarksAgree dl.data ml.catalog) (happ : AppliedAt dl ml info.lastLogId)
    (hc : Copied dl.data ml.catalog df.data mf.catalog)
    (hmem : mf.lastMembership = info.lastMembership)
    (hempty : (∀ n, ml.catalog.collections.find? n = none) → mf.lastApplied = info.lastLogId) :
    Transferred info dl ml df mf := by
  refine ⟨hc, fun ord => ?_⟩
  obtain ⟨applied, happ', hrun⟩ := appliedState_run ord (hc.sound hs).based.indexed
  rw [hrun, happ.copied happ' hs hagree hc hempty, hmem]

/-- **A snapshot carries over** exactly when no directory the follower has to
sweep is in quarantine already under the leader's sequence number, and the
leader has a collection to take the applied point from after a restart. -/
theorem snapshot_round_trip_iff (hs : Sound dl.data ml.catalog)
    (hagree : MarksAgree dl.data ml.catalog) (hwal : df.data.wal = ∅)
    (ord ord' ord'' : IterOrder) :
    ∃ info a dl' ml', (StateMachine.buildSnapshot ord).run dl ml = (.ok info, dl', ml') ∧
      dl'.data.snapshots.currentTar = some a ∧
      ((∃ df' mf', (StateMachine.installSnapshot ord' info a).run df mf = (.ok (), df', mf') ∧
          Transferred info dl ml df' mf' ∧
          ∃ df'' mf'', (StateMachine.restart ord'').run df' default = (.ok (), df'', mf'') ∧
            Transferred info dl ml df'' mf'') ↔
        (∀ u, df.data.dirs.contains u = true →
          (∀ n e, ml.catalog.collections.find? n = some e → e.uuid ≠ u) →
          Vacant (df.data.quarantined.lookup (u, ml.catalog.seq))) ∧
        ((∃ n e, ml.catalog.collections.find? n = some e) ∨ ml.lastApplied = none)) := by
  obtain ⟨info, a, l, dl', ml', hbuild, htar, hh, happ⟩ := buildSnapshot_run hs ord
  refine ⟨info, a, dl', ml', hbuild, htar, ?_⟩
  rw [← hh.freeAt_iff]
  constructor
  · rintro ⟨df', mf', hinst, _, df'', mf'', hrestart, htrans⟩
    refine ⟨hh.freeAt_of_run hinst, ?_⟩
    by_contra hno
    rw [not_or] at hno
    -- without a collection the applied point is only in memory
    obtain ⟨applied, happ', hrun⟩ := appliedState_run ord'' (htrans.copied.sound hs).based.indexed
    rw [htrans.applied, Except.ok.injEq, Prod.mk.injEq] at hrun
    rcases happ' with ⟨_, rfl⟩ | ⟨mark, hlow, _⟩
    · rcases happ with ⟨_, happ⟩ | ⟨mark, hlow, _⟩
      · rw [← happ, hrun.1, StateMachine.lastApplied_restart hrestart] at hno
        exact hno.2 rfl
      · obtain ⟨⟨n, e, hf, _⟩, _⟩ := hlow
        exact hno.1 ⟨n, e, hf⟩
    · obtain ⟨⟨n, e, hf, _⟩, _⟩ := htrans.copied.lowestMark hs hlow
      exact hno.1 ⟨n, e, hf⟩
  · rintro ⟨hfree, hsome⟩
    obtain ⟨_, df', mf', hinst, hfol, hlast⟩ :=
      run_ok_of_wp (hh.wp_installSnapshot hwal hfree info ord' mf)
    obtain ⟨_, df'', mf'', hrestart, hcopied, hmem, hnone⟩ :=
      run_ok_of_wp (hfol.wp_restart hh ord'' default)
    refine ⟨df', mf', hinst, hfol.copied.transferred hs hagree happ hfol.membership fun _ => hlast,
      df'', mf'', hrestart, hcopied.transferred hs hagree happ hmem fun hempty => ?_⟩
    rw [hnone]
    rcases hsome with ⟨n, e, hf⟩ | hlast
    · rw [hempty n] at hf
      contradiction
    · rcases happ with ⟨_, happ⟩ | ⟨mark, hlow, _⟩
      · rw [happ, hlast]
      · obtain ⟨⟨n, e, hf, _⟩, _⟩ := hlow
        rw [hempty n] at hf
        contradiction

end

/-! ### a leader without collections, and a place in quarantine that is taken -/

section
open Reference

/-- The snapshot a node sends. -/
def sentSnapshot (x : NodeDisk × StateMachine) : Option (SnapshotMeta × Archive) :=
  match ((StateMachine.buildSnapshot .stored >>= fun _ => StateMachine.getCurrentSnapshot).run
    x.1 x.2).1 with
  | .ok sent => sent
  | .error _ => none

def freshNode : NodeDisk × StateMachine := (StateMachine.restart .stored).after (.empty, default)

/-- A leader that has applied a blank entry and has no collection. -/
def blankLeader : NodeDisk × StateMachine :=
  (StateMachine.applyEntry .stored ⟨⟨⟨1, 1⟩, 1⟩, .blank⟩).after freshNode

/-- A node with a collection. -/
def collectionNode : NodeDisk × StateMachine :=
  (StateMachine.applyEntry .stored
    ⟨⟨⟨1, 1⟩, 2⟩, .normal (createCommand "a" (exampleUuid 1) [])⟩).after freshNode

/-- The snapshot of a leader without collections: the applied point is gone
once the follower restarts.  And a follower that has its collection back, after
a snapshot without it has put it into quarantine, refuses the snapshot. -/
theorem snapshot_not_carried_over :
    ∃ p ∈ sentSnapshot blankLeader, p.1.lastLogId = some ⟨⟨1, 1⟩, 1⟩ ∧
      (let f := (StateMachine.installSnapshot .stored p.1 p.2).after freshNode
       let g := (StateMachine.restart .stored).after (f.1, default)
       ((StateMachine.appliedState .stored).run f.1 f.2).1 =
          .ok (some ⟨⟨1, 1⟩, 1⟩, p.1.lastMembership) ∧
        ((StateMachine.appliedState .stored).run g.1 g.2).1 = .ok (none, p.1.lastMembership)) ∧
      (let f := (StateMachine.applyEntry .stored
          ⟨⟨⟨1, 1⟩, 2⟩, .normal (createCommand "a" (exampleUuid 1) [])⟩).after
          ((StateMachine.installSnapshot .stored p.1 p.2).after collectionNode)
       ((StateMachine.installSnapshot .stored p.1 p.2).run f.1 f.2).1 =
          .error (.writeStateMachine (.core (.io .directoryNotEmpty)))) := by
  decide +kernel

/-- A leader with a collection, and a follower with another. -/
theorem snapshot_round_trip_other :
    ∃ info a dl ml, (StateMachine.buildSnapshot .stored).run ⟨oneCollection.1, none, none⟩
        ⟨oneCollection.2, some ⟨⟨1, 1⟩, 1⟩, default, none⟩ = (.ok info, dl, ml) ∧
      dl.data.snapshots.currentTar = some a ∧
      ∃ df mf, (StateMachine.installSnapshot .stored info a).run ⟨otherCollection.1, none, none⟩
          ⟨otherCollection.2, some ⟨⟨1, 1⟩, 1⟩, default, none⟩ = (.ok (), df, mf) ∧
        Transferred info ⟨oneCollection.1, none, none⟩
          ⟨oneCollection.2, some ⟨⟨1, 1⟩, 1⟩, default, none⟩ df mf ∧
        ∃ df' mf', (StateMachine.restart .stored).run df default = (.ok (), df', mf') ∧
          Transferred info ⟨oneCollection.1, none, none⟩
            ⟨oneCollection.2, some ⟨⟨1, 1⟩, 1⟩, default, none⟩ df' mf' := by
  have hagree : MarksAgree oneCollection.1 oneCollection.2 := by
    have hall : ∀ p ∈ oneCollection.2.collections.toList, ∀ q ∈ oneCollection.2.collections.toList,
        oneCollection.1.mark p.2.uuid = oneCollection.1.mark q.2.uuid := by decide +kernel
    intro n n' e e' hf hf' _
    exact hall _ (OrdMap.find?_eq_some_iff.mp hf) _ (OrdMap.find?_eq_some_iff.mp hf')
  have hwal : otherCollection.1.wal = ∅ := by decide +kernel
  have hq : otherCollection.1.quarantined = [] := by decide +kernel
  have hname : (oneCollection.2.collections.find? "a").isSome = true := by decide +kernel
  obtain ⟨e, he⟩ := Option.isSome_iff_exists.mp hname
  obtain ⟨info, a, dl, ml, hbuild, htar, hiff⟩ := @snapshot_round_trip_iff _
    ⟨oneCollection.1, none, none⟩ ⟨otherCollection.1, none, none⟩
    ⟨oneCollection.2, some ⟨⟨1, 1⟩, 1⟩, default, none⟩
    ⟨otherCollection.2, some ⟨⟨1, 1⟩, 1⟩, default, none⟩
    oneCollection_run.tidy.sound hagree hwal .stored .stored .stored
  refine ⟨info, a, dl, ml, hbuild, htar, hiff.mpr ⟨fun u _ _ => ?_, .inl ⟨"a", e, he⟩⟩⟩
  rw [hq]
  exact .inl rfl

end

end Lumen
