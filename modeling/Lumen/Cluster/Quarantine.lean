import Lumen.Cluster.Crash

/-!
# Lumen.Cluster.Quarantine

Directories that no catalog file lists, over any number of crashes.

A create makes its directory before the catalog file lists it, and a crash in
between leaves an orphan, which the next `open` moves to `_quarantine` under its
identity and the highest sequence number the catalog file knows.  In a cluster that
number only moves with the catalog file.  The create is then applied again with the
same identity; a second crash at the same place makes a second orphan for a name
that is taken.

* `open_quarantines_iff` — in every history, opening moves every orphan and keeps
  every earlier copy if and only if the orphans' places are free.
-/

namespace Lumen

open Lib Prog Replay

section
variable [Ext]

/-- The directories of collections the catalog file does not list. -/
def Disk.orphans (d : Disk) : List Uuid :=
  d.dirs.keys.filter fun u => d.snapshot.entries.all fun e => decide (parseUuid e.uuid ≠ some u)

/-- Nothing is lost when the directory of `u` is moved to its place: there is nothing,
or an empty directory takes the place of an empty one. -/
def Disk.PlaceFree (d : Disk) (u : Uuid) (seq : Nat) : Prop :=
  ∀ dir, d.quarantined.lookup (u, seq) = some dir →
    dir = .empty ∧ d.dirs.find? u = some .empty

/-- Every orphan is in quarantine, and every copy that was there still is. -/
structure Quarantines (d d' : Disk) : Prop where
  moved : ∀ u ∈ d.orphans, d'.dirs.find? u = none ∧
    d'.quarantined.lookup (u, d.highSeq) = d.dirs.find? u
  kept : ∀ key dir, d.quarantined.lookup key = some dir → d'.quarantined.lookup key = some dir

/-- The histories of a node's data directory, from an empty one.  The node runs with the
catalog `some m` and is down with `none`: it is stopped between two calls, or by a crash
inside an open, a create or a checkpoint.  Commands, checkpoints and commits come in any
order and under any mark. -/
inductive NodeHistory : Disk → Option Catalog → Prop where
  | fresh : NodeHistory .empty none
  | opened {d d' : Disk} {m : Catalog} (ord : IterOrder) (prev : NodeHistory d none)
      (h : (Catalog.openCatalog ord).run d .closed = (.ok (), d', m)) : NodeHistory d' (some m)
  | openFailed {d d' : Disk} {m : Catalog} {e : Error} (ord : IterOrder) (prev : NodeHistory d none)
      (h : (Catalog.openCatalog ord).run d .closed = (.error e, d', m)) : NodeHistory d' none
  | openCut {d cut : Disk} (ord : IterOrder) (prev : NodeHistory d none)
      (hcut : cut ∈ (Catalog.openCatalog ord).crashes d .closed) : NodeHistory cut none
  | apply {d d' : Disk} {m m' : Catalog} {outcome : ApplyOutcome} (ord : IterOrder)
      (mark : LogMark) (cmd : Proto.Command) (prev : NodeHistory d (some m))
      (h : (Catalog.applyCommand ord mark cmd).run d m = (.ok outcome, d', m')) :
      NodeHistory d' (some m')
  | createCut {d cut : Disk} {m : Catalog} (ord : IterOrder) (mark : LogMark)
      (create : Proto.CreateCollection) (prev : NodeHistory d (some m))
      (hcut : cut ∈ (Catalog.applyCommand ord mark ⟨some (.createCollection create)⟩).crashes d m) :
      NodeHistory cut none
  | checkpoint {d d' : Disk} {m m' : Catalog} {r : Except Error Unit} (ord : IterOrder)
      (mark : LogMark) (prev : NodeHistory d (some m))
      (h : (Catalog.checkpointApplied ord mark).run d m = (r, d', m')) : NodeHistory d' (some m')
  | checkpointCut {d cut : Disk} {m : Catalog} (ord : IterOrder) (mark : LogMark)
      (prev : NodeHistory d (some m))
      (hcut : cut ∈ (Catalog.checkpointApplied ord mark).crashes d m) : NodeHistory cut none
  | commit {d d' : Disk} {m m' : Catalog} {r : Except Error Unit} (name : String) (mark : LogMark)
      (prev : NodeHistory d (some m))
      (h : (Catalog.commitCollection name mark).run d m = (r, d', m')) : NodeHistory d' (some m')
  | stop {d : Disk} {m : Catalog} (prev : NodeHistory d (some m)) : NodeHistory d none

/-! ## what the catalog file lists -/

variable {d d' : Disk} {m m' : Catalog}

/-- A node that is down: the catalog file lists a sound map. -/
structure Resting (d : Disk) (m : Catalog) : Prop where
  sound : Sound d m
  current : Current d m
  wal : d.wal = ∅

/-- A node that runs: there are no other directories. -/
structure Hosting (d : Disk) (m : Catalog) : Prop extends Resting d m where
  noOrphans : NoOrphans d m

omit [Ext] in
theorem Catalog.mem_liveUuids_iff_listing {l : List (String × Listed)} (hl : l.Perm m.listing)
    {u : Uuid} : u ∈ m.liveUuids ↔ ∃ p ∈ l, p.2.uuid = u := by
  rw [Catalog.mem_liveUuids]
  constructor
  · rintro ⟨n, e, hf, rfl⟩
    exact ⟨(n, e.listed), hl.mem_iff.mpr (mem_listing.mpr ⟨e, hf, rfl⟩), rfl⟩
  · rintro ⟨⟨n, x⟩, hp, rfl⟩
    obtain ⟨e, hf, rfl⟩ := mem_listing.mp (hl.mem_iff.mp hp)
    exact ⟨n, e, hf, rfl⟩

theorem Disk.Lists.snapshot {a : Nat} {l : List (String × Listed)} (hl : d.Lists a l) :
    d.snapshot = ⟨a, l.map Listed.toProto⟩ := by
  rw [Disk.snapshot, hl]

theorem Resting.mem_orphans (h : Resting d m) {u : Uuid} :
    u ∈ d.orphans ↔ d.dirs.contains u = true ∧ u ∉ m.liveUuids := by
  obtain ⟨a, l, hl, hperm⟩ := h.current
  rw [Disk.orphans, hl.snapshot, List.mem_filter, OrdMap.mem_keys_iff,
    ← OrdMap.contains_eq_true_iff, Catalog.mem_liveUuids_iff_listing hperm]
  refine and_congr_right fun _ => ?_
  simp only [List.all_map, List.all_eq_true, Function.comp_apply, Listed.toProto,
    Ext.parseUuid_fmtUuid, decide_eq_true_eq, ne_eq, Option.some.injEq, not_exists, not_and]

/-! ## histories -/

omit [Ext] in
/-- A sweep leaves the listed collections where they are. -/
theorem Sweeping.sound {high : Nat} (h : Sweeping m.liveUuids high d d') (hs : Sound d m) :
    Sound d' m :=
  hs.congr fun n e hf => h.index_of_mem (Catalog.mem_liveUuids.mpr ⟨n, e, hf, rfl⟩)

theorem Resting.swept {high : Nat} (h : Resting d m) (hsw : Sweeping m.liveUuids high d d') :
    Resting d' m :=
  ⟨hsw.sound h.sound, h.current.congr hsw.catalogPb, hsw.wal.trans h.wal⟩

/-- However an open ends, the catalog file still lists what it listed. -/
theorem Resting.wp_open (h : Resting d m) (ord : IterOrder) (m₀ : Catalog) :
    wp (Catalog.openCatalog ord) (fun _ => Hosting) (fun _ d' _ => Resting d' m)
      (fun d' => Resting d' m) d m₀ := by
  refine h.current.wp_openCatalog h.sound h.wal ord m₀ fun m₁ hre hlive => ?_
  refine Catalog.wp_sweepOrphans_cases ord _ (fun d' hsw => h.swept (hlive ▸ hsw))
    (fun d' _ hsw _ _ _ => h.swept (hlive ▸ hsw)) fun d' hsw hall _ => ?_
  have hrest := h.swept (hlive ▸ hsw)
  obtain ⟨a, l, hl, hperm⟩ := hrest.current
  refine ⟨⟨hsw.sound (h.sound.reopened hre), ⟨a, l, hl, ?_⟩, hrest.wal⟩, fun u hu => ?_⟩
  · rw [hre.listing h.sound]
    exact hperm
  · exact Catalog.mem_liveUuids.mp (hall u hu)

/-- Opening a node that has no other directories. -/
theorem Hosting.reopens (h : Hosting d m) (ord : IterOrder) :
    ∃ d' m', (Catalog.openCatalog ord).run d .closed = (.ok (), d', m') ∧
      m'.listing = m.listing := by
  have hw : wp (Catalog.openCatalog ord) (fun _ _ m' => m'.listing = m.listing)
      (fun _ _ _ => False) (fun _ => True) d .closed := by
    refine h.current.wp_openCatalog h.sound h.wal ord .closed fun m₁ hre hlive => ?_
    have horphans : NoOrphans d m₁ := fun u hu => by
      rw [← Catalog.mem_liveUuids, hlive]
      exact Catalog.mem_liveUuids.mpr (h.noOrphans u hu)
    exact horphans.wp_sweepOrphans ord _ (hre.listing h.sound)
  obtain ⟨_, d', m', hrun, hlist⟩ := run_ok_of_wp hw
  exact ⟨d', m', hrun, hlist⟩

theorem Hosting.effect {ord : IterOrder} {i : Nat} {cmd : Proto.Command} (h : Hosting d m)
    (he : Effect ord i cmd d m d' m') : Hosting d' m' where
  sound := he.sound_of_schema h.sound fun n u x ix _ hix ho => by
    rw [h.noOrphans.index_eq_none ho] at hix
    contradiction
  current := he.current h.current
  wal := he.wal.trans h.wal
  noOrphans := he.noOrphans h.noOrphans

theorem Hosting.stable (mark : LogMark) : Stable Hosting mark where
  sound _ _ h := h.sound
  commit _ _ _ _ _ h hf hix :=
    ⟨⟨h.sound.committed hf hix mark, h.current.committed hf, h.wal⟩, h.noOrphans.committed hix⟩
  persist _ m ord h :=
    ⟨⟨h.sound.congr fun _ _ _ => rfl, Current.withCatalog ord m _, h.wal⟩, h.noOrphans⟩
  tmp _ _ _ h := ⟨⟨h.sound.congr fun _ _ _ => rfl, h.current.congr rfl, h.wal⟩, h.noOrphans⟩

/-- A create that is cut leaves at most one more directory. -/
theorem Hosting.createCut {ord : IterOrder} {i : Nat} {create : Proto.CreateCollection}
    {cut : Disk} (h : Hosting d m)
    (hcut : Cut ord i ⟨some (.createCollection create)⟩ d m cut) : ∃ m', Resting cut m' := by
  cases hcut with
  | making u dir tmp hno =>
    refine ⟨m, h.sound.congr fun n e hf => ?_, h.current.congr rfl, h.wal⟩
    obtain ⟨ix, hix, _⟩ := (h.sound.entry n e hf).index
    have hne : e.uuid ≠ u := by
      rintro rfl
      rw [Disk.contains_of_index hix] at hno
      contradiction
    show (d.setDir u dir).index e.uuid = _
    rw [Disk.index_setDir, if_neg hne]
  | writing tmp => exact ⟨m, h.sound.congr fun _ _ _ => rfl, h.current.congr rfl, h.wal⟩
  | emptied _ _ _ _ hop => simp at hop
  | removed _ _ _ _ hop => simp at hop
  | done he => exact ⟨_, (h.effect he).toResting⟩

/-- Every state of a history. -/
theorem NodeHistory.inv {running : Option Catalog} (h : NodeHistory d running) :
    match running with
    | some m => Hosting d m
    | none => ∃ m, Resting d m := by
  induction h with
  | fresh =>
    exact ⟨.closed, ⟨by simp [Catalog.closed], by simp [Catalog.closed]⟩, ⟨0, [], rfl, .nil⟩, rfl⟩
  | opened ord prev h ih =>
    obtain ⟨m, hm⟩ := ih
    exact post_of_wp (hm.wp_open ord .closed) h
  | openFailed ord prev h ih =>
    obtain ⟨m, hm⟩ := ih
    exact ⟨m, error_of_wp (hm.wp_open ord .closed) h⟩
  | openCut ord prev hcut ih =>
    obtain ⟨m, hm⟩ := ih
    exact ⟨m, crashes_of_wp (hm.wp_open ord .closed) _ hcut⟩
  | apply ord mark cmd prev h ih =>
    have hw : wp (Catalog.applyCommand ord mark cmd) (fun _ => Hosting) (fun _ _ _ => True)
        (fun _ => True) _ _ :=
      wp_applyCommand ih.sound.based (fun _ _ => trivial) (fun _ _ _ _ => trivial)
        fun _ _ _ he => ih.effect he
    exact post_of_wp hw h
  | createCut ord mark create prev hcut ih =>
    have hw : wp (Catalog.applyCommand ord mark ⟨some (.createCollection create)⟩)
        (fun _ _ _ => True) (fun _ _ _ => True) (fun cut => ∃ m', Resting cut m') _ _ :=
      wp_applyCommand ih.sound.based (fun _ hc => ih.createCut hc) (fun _ _ _ _ => trivial)
        fun _ _ _ _ => trivial
    exact crashes_of_wp hw _ hcut
  | checkpoint ord mark prev h ih => exact (Hosting.stable mark).checkpointApplied ih h
  | checkpointCut ord mark prev hcut ih =>
    have hw : wp (Catalog.checkpointApplied ord mark) (fun _ _ _ => True) (fun _ _ _ => True)
        (fun cut => ∃ m', Resting cut m') _ _ :=
      (Hosting.stable mark).wp_checkpointApplied ih (fun _ m' h' => ⟨m', h'.toResting⟩)
        (fun _ _ _ _ => trivial) ord
    exact crashes_of_wp hw _ hcut
  | commit name mark prev h ih => exact (Hosting.stable mark).commitCollection ih h
  | stop prev ih => exact ⟨_, ih.toResting⟩

/-! ## the sweep of an open -/

theorem Resting.quarantines (h : Resting d m)
    (hfree : ∀ u ∈ d.orphans, d.PlaceFree u d.highSeq)
    (hsw : Sweeping m.liveUuids d.highSeq d d')
    (hall : ∀ u, d'.dirs.contains u = true → u ∈ m.liveUuids) : Quarantines d d' where
  moved u hu := by
    obtain ⟨hc, hlive⟩ := h.mem_orphans.mp hu
    have hgone : d'.dirs.find? u = none :=
      OrdMap.contains_eq_false_iff.mp (Bool.eq_false_iff.mpr fun hc' => hlive (hall u hc'))
    exact ⟨hgone, hsw.moved u hc hgone⟩
  kept key dir hlook := by
    obtain ⟨u, seq⟩ := key
    cases hc : d.dirs.contains u with
    | false => rw [hsw.kept u seq hc, hlook]
    | true =>
      rcases hsw.quarantined u seq with hq | ⟨rfl, hlive, _, hq⟩
      · rw [hq, hlook]
      · obtain ⟨rfl, hempty⟩ := hfree u (h.mem_orphans.mpr ⟨hc, hlive⟩) dir hlook
        rw [hq, hempty]

/-- **Quarantine never blocks an open** if and only if every orphan's place is free: in
every history of a data directory, opening then moves every orphan to quarantine and
keeps every copy that is there. -/
theorem open_quarantines_iff (h : NodeHistory d none) (ord : IterOrder) :
    (∃ d' m', (Catalog.openCatalog ord).run d .closed = (.ok (), d', m') ∧ Quarantines d d') ↔
      ∀ u ∈ d.orphans, d.PlaceFree u d.highSeq := by
  obtain ⟨m, hm⟩ := h.inv
  constructor
  · rintro ⟨d', m', hrun, hq⟩ u hu dir hlook
    obtain ⟨hc, hlive⟩ := hm.mem_orphans.mp hu
    by_cases hempty : dir = .empty
    · refine ⟨hempty, ?_⟩
      rw [← (hq.moved u hu).2, hq.kept _ _ hlook, hempty]
    · have hw : wp (Catalog.openCatalog ord) (fun _ _ _ => False) (fun _ _ _ => True)
          (fun _ => True) d .closed :=
        hm.current.wp_openCatalog hm.sound hm.wal ord .closed fun m₁ _ hl =>
          Catalog.wp_sweepOrphans_blocked ord hc (hl ▸ hlive) (by simp [Vacant, hlook, hempty])
      exact (post_of_wp hw hrun).elim
  · intro hfree
    have hw : wp (Catalog.openCatalog ord) (fun _ d' _ => Quarantines d d') (fun _ _ _ => False)
        (fun _ => True) d .closed := by
      refine hm.current.wp_openCatalog hm.sound hm.wal ord .closed fun m₁ _ hl => ?_
      refine Catalog.wp_sweepOrphans ord _ (fun u hu hlive => ?_) (fun _ _ => trivial)
        fun d' hsw hall => hm.quarantines hfree (hl ▸ hsw) (hl ▸ hall)
      have hplace := hfree u (hm.mem_orphans.mpr ⟨hu, hl ▸ hlive⟩)
      cases hlook : d.quarantined.lookup (u, d.highSeq) with
      | none => exact .inl rfl
      | some dir => exact .inr (by rw [(hplace dir hlook).1])
    obtain ⟨_, d', m', hrun, hq⟩ := run_ok_of_wp hw
    exact ⟨d', m', hrun, hq⟩

end

/-! ### a create that is cut twice -/

section
open Reference

/-- The create that is applied at index 1 after every restart. -/
def firstCreate : Proto.CreateCollection := ⟨"a", fmtUuid (exampleUuid 1), some ⟨[]⟩⟩

/-- Open the directory, apply the create, and crash once the index is made. -/
def createAndCrash (d : Disk) : Disk :=
  let x := (Catalog.openCatalog .stored).after (d, .closed)
  (((Catalog.applyCommand .stored ⟨1, 1, 1⟩ ⟨some (.createCollection firstCreate)⟩).crashes
    x.1 x.2)[2]?).getD x.1

theorem NodeHistory.createAndCrash {d : Disk} (h : NodeHistory d none)
    (hopen : ((Catalog.openCatalog .stored).run d .closed).1 = .ok ())
    (hcut : Lumen.createAndCrash d ∈
      (Catalog.applyCommand .stored ⟨1, 1, 1⟩ ⟨some (.createCollection firstCreate)⟩).crashes
        ((Catalog.openCatalog .stored).after (d, .closed)).1
        ((Catalog.openCatalog .stored).after (d, .closed)).2) :
    NodeHistory (Lumen.createAndCrash d) none :=
  .createCut .stored ⟨1, 1, 1⟩ firstCreate (.opened .stored h (Prod.ext hopen rfl)) hcut

theorem cutOnce_history : NodeHistory (createAndCrash .empty) none :=
  NodeHistory.fresh.createAndCrash (by decide +kernel) (by decide +kernel)

/-- After one crash the orphan's place is free. -/
theorem open_quarantines_cutOnce :
    ∃ d' m', (Catalog.openCatalog .stored).run (createAndCrash .empty) .closed = (.ok (), d', m') ∧
      Quarantines (createAndCrash .empty) d' := by
  refine (open_quarantines_iff cutOnce_history .stored).mpr fun u _ dir hlook => ?_
  cases hlook

/-- After a second crash at the same place the data directory does not open any more. -/
theorem open_blocked_by_quarantine :
    NodeHistory (createAndCrash (createAndCrash .empty)) none ∧
      ((Catalog.openCatalog .stored).run (createAndCrash (createAndCrash .empty)) .closed).1 =
        .error (.io .directoryNotEmpty) :=
  ⟨cutOnce_history.createAndCrash (by decide +kernel) (by decide +kernel), by decide +kernel⟩

end

end Lumen
