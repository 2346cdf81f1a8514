import Lumen.Catalog.Listing
import Lumen.Cluster.Apply

/-!
# Lumen.Cluster.Crash

A crash inside a command or a checkpoint of a node, and the next `open`.  A
create makes its directory before the catalog file names it, so a crash leaves
at most an orphan; a drop removes its directory before the catalog file forgets
it, so a crash in between leaves a listed collection that cannot be opened.
`reopen_after_crash_iff` says that this is the only case.
-/

namespace Lumen

open Lib Prog Replay

/-- The identity and the mapping of a collection. -/
def Catalog.named (m : Catalog) (name : String) : Option (Uuid × Mapping) :=
  (m.collections.find? name).map fun e => (e.uuid, e.collection.mapping)

/-- The identity and the mapping of a collection of the reference. -/
def Contents.named (st : Contents) (name : String) : Option (Uuid × Mapping) :=
  (st name).map fun g => (g.uuid, g.info)

section
variable {st : Contents} {d d' : Disk} {m m' : Catalog}

theorem Holds.named (h : Holds st d m) (n : String) : m.named n = st.named n := by
  rw [Contents.named, ← h.live n, slotOf_live, Catalog.named, Option.map_map]
  rfl

theorem Sound.congr (hs : Sound d m)
    (hidx : ∀ n e, m.collections.find? n = some e → d'.index e.uuid = d.index e.uuid) :
    Sound d' m :=
  ⟨fun n e hf => (hs.entry n e hf).congr (hidx n e hf), hs.inj⟩

variable [Ext]

/-- The directories of a node that is not in the middle of a command. -/
structure Settled (d : Disk) (m : Catalog) : Prop where
  current : Current d m
  wal : d.wal = ∅
  quarantined : d.quarantined = []

theorem Current.congr (h : Current d m) (hpb : d'.catalogPb = d.catalogPb) : Current d' m := by
  obtain ⟨a, l, hl, hperm⟩ := h
  refine ⟨a, l, ?_, hperm⟩
  rw [Disk.Lists, Catalog.loadSnapshot, hpb]
  exact hl

theorem Settled.effect {ord : IterOrder} {i : Nat} {cmd : Proto.Command} (h : Settled d m)
    (he : Effect ord i cmd d m d' m') : Settled d' m' where
  current := he.current h.current
  wal := he.wal.trans h.wal
  quarantined := by cases he <;> exact h.quarantined

theorem Settled.stable (mark : LogMark) : Stable (fun d m => Sound d m ∧ Settled d m) mark where
  sound _ _ h := h.1
  commit _ _ _ _ _ h hf hix :=
    ⟨h.1.committed hf hix mark, h.2.current.committed hf, h.2.wal, h.2.quarantined⟩
  persist _ m ord h :=
    ⟨h.1.congr fun _ _ _ => rfl, Current.withCatalog ord m _, h.2.wal, h.2.quarantined⟩
  tmp _ _ _ h :=
    ⟨h.1.congr fun _ _ _ => rfl, h.2.current.congr rfl, h.2.wal, h.2.quarantined⟩

theorem ApplyRun.settled {next : Nat} {cmds : List Proto.Command} (h : ApplyRun d m next cmds) :
    Settled d m := by
  induction h with
  | opened ord m₀ h =>
    have hb : Base (fun _ => ⟨none⟩) 0 .empty Catalog.closed := Base.empty _ fun _ => rfl
    have hw : wp (Catalog.openCatalog ord) (fun _ d m => Settled d m) (fun _ _ _ => True)
        (fun _ => True) .empty m₀ :=
      hb.wp_openCatalog ord m₀ fun m' hre => ⟨(hb.reopened hre).current, rfl, rfl⟩
    exact post_of_wp hw h
  | apply ord mark cmd prev hnext h ih =>
    have hw : wp (Catalog.applyCommand ord mark cmd) (fun _ => Settled) (fun _ _ _ => True)
        (fun _ => True) _ _ :=
      wp_applyCommand prev.tidy.sound.based (fun _ _ => trivial) (fun _ _ _ _ => trivial)
        fun _ _ _ he => ih.effect he
    exact post_of_wp hw h
  | checkpoint ord mark prev hmark h ih =>
    exact ((Settled.stable mark).checkpointApplied ⟨prev.tidy.sound, ih⟩ h).2
  | commit name mark prev hmark h ih =>
    exact ((Settled.stable mark).commitCollection ⟨prev.tidy.sound, ih⟩ h).2

/-! ## reopening -/

/-- Opening brings the collections of a settled node back, whatever other
directories there are. -/
theorem Settled.reopen (h : Settled d m) (hs : Sound d m) (ord : IterOrder) (m₀ : Catalog) :
    ∃ d' m', (Catalog.openCatalog ord).run d m₀ = (.ok (), d', m') ∧
      ∀ n, m'.named n = m.named n := by
  have hw : wp (Catalog.openCatalog ord) (fun _ _ m' => ∀ n, m'.named n = m.named n)
      (fun _ _ _ => False) (fun _ => True) d m₀ := by
    refine h.current.wp_openCatalog hs h.wal ord m₀ fun m' hre _ => ?_
    refine Catalog.wp_sweepOrphans ord _ (fun u _ _ => ?_) (fun _ _ => trivial) fun d' _ _ n => ?_
    · rw [h.quarantined]
      exact .inl rfl
    · rw [Catalog.named, Catalog.named, hre]
      cases hf : m.collections.find? n with
      | none => rfl
      | some e =>
        obtain ⟨ix, hix, _⟩ := (hs.entry n e hf).index
        simp [hix, Listed.opened, Catalog.Entry.listed, Collection.fromIndex]
  obtain ⟨_, d', m', hrun, hnamed⟩ := run_ok_of_wp hw
  exact ⟨d', m', hrun, hnamed⟩

/-- The removal of a collection's directory has begun and the catalog file
still lists it. -/
def Removing (d : Disk) (m : Catalog) (cut : Disk) : Prop :=
  cut.catalogPb = d.catalogPb ∧
    ∃ n e, m.collections.find? n = some e ∧ cut.index e.uuid = none

theorem Removing.open_error {cut : Disk} (h : Removing d m cut) (hset : Settled d m)
    (hw : cut.wal = ∅) (ord : IterOrder) (m₀ : Catalog) :
    ∃ e d' m', (Catalog.openCatalog ord).run cut m₀ = (.error e, d', m') := by
  obtain ⟨hpb, n, e, hf, hnone⟩ := h
  obtain ⟨a, l, hl, hperm⟩ := hset.current.congr hpb
  refine Catalog.openCatalog_error hl hw ⟨(n, e.listed), ?_, hnone⟩ ord m₀
  exact hperm.mem_iff.mpr (mem_listing.mpr ⟨e, hf, rfl⟩)

theorem Cut.wal {ord : IterOrder} {i : Nat} {cmd : Proto.Command} {cut : Disk}
    (h : Cut ord i cmd d m cut) : cut.wal = d.wal := by
  cases h with
  | done h => exact h.wal
  | _ => rfl

/-- A command that is cut outside a removal leaves the collections from before
it, or those from after it. -/
theorem Tidy.reopen_cut {ord ord' : IterOrder} {i next : Nat} {cmd : Proto.Command} {cut : Disk}
    (h : Tidy st next d m) (hset : Settled d m) (hi : next ≤ i) (hcut : Cut ord i cmd d m cut)
    (hno : ¬ Removing d m cut) (m₀ : Catalog) :
    ∃ d' m', (Catalog.openCatalog ord').run cut m₀ = (.ok (), d', m') ∧
      ((∀ n, m'.named n = st.named n) ∨ ∀ n, m'.named n = (st.apply cmd).named n) := by
  -- where the listed collections have their directories, the old ones come back
  have hold : ∀ x : Disk, x.catalogPb = d.catalogPb → x.wal = d.wal →
      x.quarantined = d.quarantined →
      (∀ n e, m.collections.find? n = some e → x.index e.uuid = d.index e.uuid) →
      ∃ d' m', (Catalog.openCatalog ord').run x m₀ = (.ok (), d', m') ∧
        ((∀ n, m'.named n = st.named n) ∨ ∀ n, m'.named n = (st.apply cmd).named n) := by
    intro x hpb hwal hq hidx
    have hsetx : Settled x m :=
      ⟨hset.current.congr hpb, hwal.trans hset.wal, hq.trans hset.quarantined⟩
    obtain ⟨d', m', hrun, hnamed⟩ := hsetx.reopen (h.sound.congr hidx) ord' m₀
    exact ⟨d', m', hrun, .inl fun n => (hnamed n).trans (h.toHolds.named n)⟩
  cases hcut with
  | making u dir tmp hnew =>
    refine hold _ rfl rfl rfl fun n e hf => ?_
    obtain ⟨ix, hix, _⟩ := (h.sound.entry n e hf).index
    have hne : e.uuid ≠ u := by
      rintro rfl
      rw [Disk.contains_of_index hix] at hnew
      contradiction
    show (d.setDir u dir).index e.uuid = _
    rw [Disk.index_setDir, if_neg hne]
  | writing tmp => exact hold _ rfl rfl rfl fun n e hf => rfl
  | emptied name e dir hf _ hdir =>
    exact absurd ⟨rfl, name, e, hf, by rw [Disk.index_setDir, if_pos rfl, hdir]⟩ hno
  | removed name e tmp hf _ =>
    refine absurd ⟨rfl, name, e, hf, ?_⟩ hno
    show (d.removeDir e.uuid).index e.uuid = none
    rw [Disk.index_removeDir, if_pos rfl]
  | @done d' m' he =>
    have h' := h.effect hi he
    obtain ⟨d'', m'', hrun, hnamed⟩ := (hset.effect he).reopen h'.sound ord' m₀
    exact ⟨d'', m'', hrun, .inr fun n => (hnamed n).trans (h'.toHolds.named n)⟩

variable {next : Nat} {cmds cmds' : List Proto.Command} {cut : Disk}

/-- A crash inside the next command, or inside a checkpoint: the disk it
leaves, and the commands applied once what was interrupted is done. -/
inductive Interrupted (d : Disk) (m : Catalog) (next : Nat) (cmds : List Proto.Command) :
    Disk → List Proto.Command → Prop where
  | command {cut : Disk} (ord : IterOrder) (mark : LogMark) (cmd : Proto.Command)
      (hnext : next ≤ mark.index)
      (hcut : cut ∈ (Catalog.applyCommand ord mark cmd).crashes d m) :
      Interrupted d m next cmds cut (cmds ++ [cmd])
  | checkpoint {cut : Disk} (ord : IterOrder) (mark : LogMark) (hmark : mark.index < next)
      (hcut : cut ∈ (Catalog.checkpointApplied ord mark).crashes d m) :
      Interrupted d m next cmds cut cmds

/-- **A node reopens after a crash**, with the collections from before or after
what was interrupted, exactly when the crash does not fall between the removal
of a dropped collection's directory and the rename of the catalog file. -/
theorem reopen_after_crash_iff (h : ApplyRun d m next cmds)
    (hcut : Interrupted d m next cmds cut cmds') (ord : IterOrder) :
    (∃ d' m', (Catalog.openCatalog ord).run cut .closed = (.ok (), d', m') ∧
        ((∀ n, m'.named n = (Contents.applyAll cmds).named n) ∨
          ∀ n, m'.named n = (Contents.applyAll cmds').named n)) ↔
      ¬ Removing d m cut := by
  have ht := h.tidy
  have hset := h.settled
  cases hcut with
  | command ord' mark cmd hnext hcut =>
    have hw : wp (Catalog.applyCommand ord' mark cmd) (fun _ _ _ => True) (fun _ _ _ => True)
        (Cut ord' mark.index cmd d m) d m :=
      wp_applyCommand ht.sound.based (fun _ hc => hc) (fun _ _ _ _ => trivial) fun _ _ _ _ => trivial
    have hc := crashes_of_wp hw cut hcut
    constructor
    · rintro ⟨d', m', hrun, _⟩ hrem
      obtain ⟨e, d'', m'', herr⟩ := hrem.open_error hset (hc.wal.trans hset.wal) ord .closed
      rw [hrun] at herr
      simp at herr
    · intro hno
      rw [Contents.applyAll_append]
      exact ht.reopen_cut hset hnext hc hno .closed
  | checkpoint ord' mark hmark hcut =>
    have hw : wp (Catalog.checkpointApplied ord' mark) (fun _ _ _ => True) (fun _ _ _ => True)
        (fun x => ∃ m', Holds (Contents.applyAll cmds) x m' ∧ Settled x m') d m :=
      ((Holds.stable _ mark).and (Settled.stable mark)).wp_checkpointApplied
        ⟨ht.toHolds, ht.sound, hset⟩ (fun _ m' h' => ⟨m', h'.1, h'.2.2⟩)
        (fun _ _ _ _ => trivial) ord'
    obtain ⟨m', hholds, hset'⟩ := crashes_of_wp hw cut hcut
    refine iff_of_true ?_ ?_
    · obtain ⟨d'', m'', hrun, hnamed⟩ := hset'.reopen hholds.sound ord .closed
      exact ⟨d'', m'', hrun, .inl fun n => (hnamed n).trans (hholds.named n)⟩
    · rintro ⟨_, n, e, hf, hnone⟩
      have hname : m'.named n = m.named n := (hholds.named n).trans (ht.toHolds.named n).symm
      rw [Catalog.named, Catalog.named, hf, Option.map_some, Option.map_eq_some_iff] at hname
      obtain ⟨e', hf', he'⟩ := hname
      obtain ⟨ix, hix, _⟩ := (hholds.sound.entry n e' hf').index
      rw [Prod.mk.injEq] at he'
      rw [he'.1, hnone] at hix
      contradiction

end

/-! ### crashes inside a create and inside a drop -/

section
open Reference

/-- A node that has created a collection. -/
def oneCollection : Disk × Catalog :=
  (Catalog.applyCommand .stored ⟨1, 1, 1⟩ (createCommand "a" (exampleUuid 1) [])).after <|
    (Catalog.openCatalog .stored).after (.empty, .closed)

theorem oneCollection_run :
    ApplyRun oneCollection.1 oneCollection.2 2 [createCommand "a" (exampleUuid 1) []] := by
  have hopen : ApplyRun ((Catalog.openCatalog .stored).after (.empty, .closed)).1
      ((Catalog.openCatalog .stored).after (.empty, .closed)).2 0 [] :=
    .opened .stored .closed (Prod.ext (by decide +kernel) rfl)
  exact hopen.applyAfter ⟨1, 1, 1⟩ (createCommand "a" (exampleUuid 1) []) (by decide)
    (by decide +kernel)

/-- A crash after the removal of the directory and before the rename of the
catalog file: the node does not open any more. -/
theorem reopen_fails_inside_drop :
    ∃ cut ∈ (Catalog.applyCommand .stored ⟨1, 1, 2⟩ (dropCommand "a")).crashes
        oneCollection.1 oneCollection.2,
      ((Catalog.openCatalog .stored).run cut .closed).1 =
        .error (.recovery ("catalog entry " ++ fmtUuid (exampleUuid 1) ++ " has no data dir")) := by
  decide +kernel

/-- A crash after the directory of a second collection was made: the node opens
with the first one. -/
theorem reopen_after_crash_inside_create :
    ∃ cut ∈ (Catalog.applyCommand .stored ⟨1, 1, 2⟩ (createCommand "b" (exampleUuid 2) [])).crashes
        oneCollection.1 oneCollection.2,
      ¬ Removing oneCollection.1 oneCollection.2 cut ∧
      ∃ d' m', (Catalog.openCatalog .stored).run cut .closed = (.ok (), d', m') ∧
        ((∀ n, m'.named n =
            (Contents.applyAll [createCommand "a" (exampleUuid 1) []]).named n) ∨
          ∀ n, m'.named n = (Contents.applyAll [createCommand "a" (exampleUuid 1) [],
            createCommand "b" (exampleUuid 2) []]).named n) := by
  have hcut : oneCollection.1.setDir (exampleUuid 2) .empty ∈
      (Catalog.applyCommand .stored ⟨1, 1, 2⟩ (createCommand "b" (exampleUuid 2) [])).crashes
        oneCollection.1 oneCollection.2 := by decide +kernel
  have hno : ¬ Removing oneCollection.1 oneCollection.2
      (oneCollection.1.setDir (exampleUuid 2) .empty) := by
    rintro ⟨_, n, e, hf, hnone⟩
    have hall : ∀ p ∈ oneCollection.2.collections.toList,
        (oneCollection.1.setDir (exampleUuid 2) .empty).index p.2.uuid ≠ none := by decide +kernel
    exact hall (n, e) (OrdMap.find?_eq_some_iff.mp hf) hnone
  exact ⟨_, hcut, hno, (reopen_after_crash_iff oneCollection_run
    (.command .stored ⟨1, 1, 2⟩ _ (by decide) hcut) .stored).mpr hno⟩

end

end Lumen
