import Lumen.Cluster.Writes
import Lumen.Leader.Moves

/-!
# Lumen.Leader.Inv

What holds in every state of a node's tasks: the catalog is steady, and every
mark a task carries is of an entry that is applied.  From it,
`applied_point_not_over_reported`: what is committed covers the applied point.
-/

namespace Lumen

open Lib Prog Raft Replay

/-! ## the halves of a commit -/

section
variable {d d' : Disk} {m m' : Catalog} {name : String} {target : Collection} {mark : LogMark}

theorem Catalog.held_eq_some {e : Catalog.Entry} :
    m.held name target = some e ↔ m.collections.find? name = some e ∧ e.uuid = target.uuid := by
  rw [Catalog.held, Option.filter_eq_some_iff]
  simp

theorem Catalog.publish_ok (h : Catalog.publish name target mark d m = .ok (d', m')) :
    ∃ e ix, m.collections.find? name = some e ∧ e.uuid = target.uuid ∧
      d.index e.uuid = some ix ∧ d' = d.committed e ix mark ∧
      m' = m.store name e.collection.flushed := by
  rw [Catalog.publish] at h
  split at h
  · contradiction
  · rename_i e he
    obtain ⟨hf, hu⟩ := Catalog.held_eq_some.mp he
    split at h
    · contradiction
    · rename_i ix hix
      injection h with h
      rw [Prod.mk.injEq] at h
      exact ⟨e, ix, hf, hu, hix, h.1.symm, h.2.symm⟩

theorem Catalog.reload_ok (h : Catalog.reload name target d m = .ok m') :
    ∃ e ix, m.collections.find? name = some e ∧ e.uuid = target.uuid ∧
      d.index e.uuid = some ix ∧ m' = m.store name (e.collection.reloaded ix) := by
  rw [Catalog.reload] at h
  split at h
  · contradiction
  · rename_i e he
    obtain ⟨hf, hu⟩ := Catalog.held_eq_some.mp he
    split at h
    · contradiction
    · rename_i ix hix
      injection h with h
      exact ⟨e, ix, hf, hu, hix, h.symm⟩

theorem Catalog.publish_error {err : Error} (h : Catalog.publish name target mark d m = .error err) :
    err = .tantivy "index does not exist" := by
  rw [Catalog.publish] at h
  grind

theorem Catalog.reload_error {err : Error} (h : Catalog.reload name target d m = .error err) :
    err = .tantivy "index does not exist" := by
  rw [Catalog.reload] at h
  grind

/-- A reload fails only for a collection that was dropped. -/
theorem Catalog.not_held_of_reload_error {err : Error} (hs : Based d m)
    (h : Catalog.reload name target d m = .error err) (e : Catalog.Entry)
    (hf : m.collections.find? name = some e) : e.uuid ≠ target.uuid := by
  intro hu
  obtain ⟨ix, hix, _⟩ := (hs.entry name e hf).index
  rw [Catalog.reload, Catalog.held_eq_some.mpr ⟨hf, hu⟩] at h
  simp only [hix] at h
  contradiction

theorem Catalog.committedMark_run (u : Uuid) : ((Catalog.committedMark u).run d m).1 =
    match d.index u with
    | none => .error (.tantivy "index does not exist")
    | some ix => .ok ix.payload := by
  show ((match d.index u with
    | none => Prog.throw (.tantivy "index does not exist")
    | some index => pure index.payload : CatalogM (Option LogMark)).run d m).1 = _
  cases d.index u <;> rfl

end

/-! ## what a step of each task does -/

section
variable [Ext]

/-- A step of a get, with the catalog and the phase it leads to. -/
inductive GetStep (s : Leader) (g : Get) : Disk → Catalog → GetPhase → Prop where
  | mark (hp : g.phase = .waiting) (hle : g.readIndex ≤ s.reportedMark.index) :
      GetStep s g s.disk.data s.sm.catalog (.marked s.reportedMark)
  | lookup (mark : LogMark) (e : Catalog.Entry) (hp : g.phase = .marked mark)
      (hf : s.sm.catalog.collections.find? g.collection = some e) :
      GetStep s g s.disk.data s.sm.catalog (.resolved mark e.collection)
  | behind (mark : LogMark) (target : Collection) (hp : g.phase = .resolved mark target) :
      GetStep s g s.disk.data s.sm.catalog (.behind mark target)
  | skip (mark : LogMark) (target : Collection) (ix : Index) (hp : g.phase = .resolved mark target)
      (hix : s.disk.data.index target.uuid = some ix)
      (hle : mark.index ≤ (ix.payload.getD default).index) :
      GetStep s g s.disk.data s.sm.catalog (.current mark)
  | publish (mark : LogMark) (target : Collection) (e : Catalog.Entry) (ix : Index)
      (hp : g.phase = .behind mark target)
      (hf : s.sm.catalog.collections.find? g.collection = some e) (hu : e.uuid = target.uuid)
      (hix : s.disk.data.index e.uuid = some ix) :
      GetStep s g (s.disk.data.committed e ix mark)
        (s.sm.catalog.store g.collection e.collection.flushed) (.published mark target)
  | reload (mark : LogMark) (target : Collection) (e : Catalog.Entry) (ix : Index)
      (hp : g.phase = .published mark target)
      (hf : s.sm.catalog.collections.find? g.collection = some e) (hu : e.uuid = target.uuid)
      (hix : s.disk.data.index e.uuid = some ix) :
      GetStep s g s.disk.data (s.sm.catalog.store g.collection (e.collection.reloaded ix))
        (.current mark)
  | fail (err : Error) (herr : ∀ id, err ≠ .documentNotFound id)
      (hp : ∀ mark target, g.phase = .published mark target →
        Catalog.reload g.collection target s.disk.data s.sm.catalog = .error err) :
      GetStep s g s.disk.data s.sm.catalog (.answered (.error err))
  | answer (mark : LogMark) (hp : g.phase = .current mark) (hlock : s.mapLocked = false) :
      GetStep s g s.disk.data s.sm.catalog
        (.answered ((Catalog.getDocument g.collection g.id).run s.disk.data s.sm.catalog).1)

/-- A step of the checkpoint loop. -/
inductive CheckpointStep (s : Leader) : Disk → Catalog → CheckpointPhase → Prop where
  | mark (id : LogId) (hp : s.checkpoint = .idle) (hid : s.reported = some id) :
      CheckpointStep s s.disk.data s.sm.catalog (.marked id.toMark)
  | enter (mark : LogMark) (targets : List (String × Collection))
      (hp : s.checkpoint = .marked mark) :
      CheckpointStep s s.disk.data s.sm.catalog (.committing mark targets)
  | publish (mark : LogMark) (name : String) (target : Collection)
      (rest : List (String × Collection)) (e : Catalog.Entry) (ix : Index)
      (hp : s.checkpoint = .committing mark ((name, target) :: rest))
      (hf : s.sm.catalog.collections.find? name = some e) (hu : e.uuid = target.uuid)
      (hix : s.disk.data.index e.uuid = some ix) :
      CheckpointStep s (s.disk.data.committed e ix mark)
        (s.sm.catalog.store name e.collection.flushed) (.published mark name target rest)
  | reload (mark : LogMark) (name : String) (target : Collection)
      (rest : List (String × Collection)) (e : Catalog.Entry) (ix : Index)
      (hp : s.checkpoint = .published mark name target rest)
      (hf : s.sm.catalog.collections.find? name = some e) (hu : e.uuid = target.uuid)
      (hix : s.disk.data.index e.uuid = some ix) :
      CheckpointStep s s.disk.data (s.sm.catalog.store name (e.collection.reloaded ix))
        (.committing mark rest)
  | finish (mark : LogMark) (hp : s.checkpoint = .committing mark []) :
      CheckpointStep s s.disk.data s.sm.catalog (.committed mark)
  | fail (hp : ∀ mark name target rest, s.checkpoint = .published mark name target rest →
        ∃ err, Catalog.reload name target s.disk.data s.sm.catalog = .error err) :
      CheckpointStep s s.disk.data s.sm.catalog .idle
  | persist (mark : LogMark) (d : Disk) (hp : s.checkpoint = .committed mark)
      (hdirs : d.dirs = s.disk.data.dirs) (hsnap : d.snapshots = s.disk.data.snapshots) :
      CheckpointStep s d s.sm.catalog .idle

/-- A step of the snapshot builder. -/
inductive BuildStep (s : Leader) : Leader → Prop where
  | list (ord : IterOrder) (hp : s.build = .idle) :
      BuildStep s { s.withCatalog ({ s.disk.data with snapshots := { s.disk.data.snapshots with
          build := some ⟨some (Ext.catalogSnapshot.encode
            (Catalog.snapshotProto ord s.sm.catalog s.sm.catalog.seq)), ∅⟩ } }) s.sm.catalog with
        build := .listed }
  | enter (ord : IterOrder) (hp : s.build = .listed) :
      BuildStep s { s with build := .archiving (ord.order s.sm.catalog.collections.toList) }
  | archive (name : String) (e : Catalog.Entry) (rest : List (String × Catalog.Entry)) (ix : Index)
      (hp : s.build = .archiving ((name, e) :: rest)) (hix : s.disk.data.index e.uuid = some ix) :
      BuildStep s { s.withCatalog ({ s.disk.data with snapshots := { s.disk.data.snapshots with
          build := s.disk.data.snapshots.build.map (Archive.add · e.uuid ix) } })
          (s.sm.catalog.store name
            { s.sm.catalog.deref name e.collection with searcher := ix.docs }) with
        build := .archiving rest }
  | pack (hp : s.build = .archiving []) :
      BuildStep s { s.withCatalog ({ s.disk.data with snapshots := { s.disk.data.snapshots with
          currentTar := s.disk.data.snapshots.build, currentTmp := none, build := none } })
          s.sm.catalog with
        build := .packed }
  | measure (ord : IterOrder) (hp : s.build = .packed) :
      BuildStep s { s with
        build := .measuring none (ord.order (s.sm.catalog.collections.toList.map fun p => p.2.uuid)) }
  | lower (min : Option LogMark) (u : Uuid) (rest : List Uuid)
      (hp : s.build = .measuring min (u :: rest)) (hix : (s.disk.data.index u).isSome) :
      BuildStep s { s with
        build := .measuring (some (Catalog.lowerMark min (s.disk.data.mark u))) rest }
  | finish (min : Option LogMark) (info : SnapshotMeta)
      (hinfo : info.lastLogId =
        match min with
        | some mark => some mark.toLogId
        | none => s.sm.lastApplied)
      (hp : s.build = .measuring min []) :
      BuildStep s { s with sm := { s.sm with currentSnapshot := some info }, build := .idle }
  | fail (hp : ∀ name e rest, s.build = .archiving ((name, e) :: rest) →
        s.disk.data.index e.uuid = none)
      (hp' : ∀ min u rest, s.build = .measuring min (u :: rest) → s.disk.data.index u = none) :
      BuildStep s { s with build := .idle }

variable {log : List Raft.Entry} {s s' : Leader}

omit [Ext] in
theorem Leader.advance_cases {g : Get} {phase : GetPhase} (h : s.advance g = some (s', phase)) :
    ∃ d m, s' = s.withCatalog d m ∧ GetStep s g d m phase := by
  rw [Leader.advance] at h
  have hsame : s = s.withCatalog s.disk.data s.sm.catalog := rfl
  split at h
  · rename_i hp
    split at h
    · rename_i hle
      cases h
      exact ⟨_, _, hsame, .mark hp hle⟩
    · contradiction
  · rename_i mark hp
    split at h
    · contradiction
    · split at h
      · cases h
        exact ⟨_, _, hsame, .fail _ (by simp) (by simp [hp])⟩
      · rename_i e hf
        cases h
        exact ⟨_, _, hsame, .lookup mark e hp hf⟩
  · rename_i mark target hp
    split at h
    · cases h
      exact ⟨_, _, hsame, .fail _ (by simp) (by simp [hp])⟩
    · rename_i ix hix
      split at h
      · cases h
        exact ⟨_, _, hsame, .behind mark target hp⟩
      · rename_i hle
        cases h
        exact ⟨_, _, hsame, .skip mark target ix hp hix (by omega)⟩
  · rename_i mark target hp
    split at h
    · rename_i err herr
      cases h
      exact ⟨_, _, hsame, .fail err (by simp [Catalog.publish_error herr]) (by simp [hp])⟩
    · rename_i d m hok
      cases h
      obtain ⟨e, ix, hf, hu, hix, rfl, rfl⟩ := Catalog.publish_ok hok
      exact ⟨_, _, rfl, .publish mark target e ix hp hf hu hix⟩
  · rename_i mark target hp
    split at h
    · rename_i err herr
      cases h
      refine ⟨_, _, hsame, .fail err (by simp [Catalog.reload_error herr]) ?_⟩
      rintro mark' target' hp'
      rw [hp] at hp'
      cases hp'
      exact herr
    · rename_i m hok
      cases h
      obtain ⟨e, ix, hf, hu, hix, rfl⟩ := Catalog.reload_ok hok
      exact ⟨_, _, rfl, .reload mark target e ix hp hf hu hix⟩
  · rename_i mark hp
    split at h
    · contradiction
    · rename_i hlock
      cases h
      exact ⟨_, _, hsame, .answer mark hp (by simpa using hlock)⟩
  · contradiction

theorem Leader.stepCheckpoint_cases {ord : IterOrder} (h : s.stepCheckpoint ord = some s') :
    ∃ d m phase, s' = { s.withCatalog d m with checkpoint := phase } ∧
      CheckpointStep s d m phase := by
  rw [Leader.stepCheckpoint] at h
  split at h
  · rename_i hp
    split at h
    · contradiction
    · rename_i id hid
      cases h
      exact ⟨_, _, _, rfl, .mark id hp hid⟩
  · rename_i mark hp
    split at h
    · contradiction
    · cases h
      exact ⟨_, _, _, rfl, .enter mark _ hp⟩
  · rename_i mark hp
    cases h
    exact ⟨_, _, _, rfl, .finish mark hp⟩
  · rename_i mark name target rest hp
    split at h
    · cases h
      exact ⟨_, _, _, rfl, .fail (by simp [hp])⟩
    · rename_i d m hok
      cases h
      obtain ⟨e, ix, hf, hu, hix, rfl, rfl⟩ := Catalog.publish_ok hok
      exact ⟨_, _, _, rfl, .publish mark name target rest e ix hp hf hu hix⟩
  · rename_i mark name target rest hp
    split at h
    · rename_i err herr
      cases h
      refine ⟨_, _, _, rfl, .fail ?_⟩
      rintro mark' name' target' rest' hp'
      rw [hp] at hp'
      cases hp'
      exact ⟨err, herr⟩
    · rename_i m hok
      cases h
      obtain ⟨e, ix, hf, hu, hix, rfl⟩ := Catalog.reload_ok hok
      exact ⟨_, _, _, rfl, .reload mark name target rest e ix hp hf hu hix⟩
  · rename_i mark hp
    split at h
    · contradiction
    · cases h
      exact ⟨_, _, _, rfl, .persist mark _ hp rfl rfl⟩

theorem Leader.stepBuild_cases {ord : IterOrder} (h : s.stepBuild ord = some s') :
    BuildStep s s' := by
  rw [Leader.stepBuild] at h
  split at h
  · rename_i hp
    split at h
    · contradiction
    · cases h
      exact .list ord hp
  · rename_i hp
    split at h
    · contradiction
    · cases h
      exact .enter ord hp
  · rename_i hp
    cases h
    exact .pack hp
  · rename_i name e rest hp
    have hw : wp (Catalog.archiveInto name e)
        (fun _ d m => ∃ ix, s.disk.data.index e.uuid = some ix ∧
          d = { s.disk.data with snapshots := { s.disk.data.snapshots with
            build := s.disk.data.snapshots.build.map (Archive.add · e.uuid ix) } } ∧
          m = s.sm.catalog.store name
            { s.sm.catalog.deref name e.collection with searcher := ix.docs })
        (fun _ d m => s.disk.data.index e.uuid = none ∧ d = s.disk.data ∧ m = s.sm.catalog)
        (fun _ => True) s.disk.data s.sm.catalog := by
      simp only [Catalog.archiveInto, wp_bind, wp_getDisk]
      cases hix : s.disk.data.index e.uuid with
      | none => exact ⟨rfl, rfl, rfl⟩
      | some ix => exact ⟨trivial, ix, rfl, rfl, rfl⟩
    split at h
    · rename_i hrun
      cases h
      obtain ⟨hix, rfl, rfl⟩ := error_of_wp hw hrun
      refine .fail ?_ (by simp [hp])
      rintro name' e' rest' hp'
      rw [hp] at hp'
      cases hp'
      exact hix
    · rename_i hrun
      cases h
      obtain ⟨ix, hix, rfl, rfl⟩ := post_of_wp hw hrun
      exact .archive name e rest ix hp hix
  · rename_i hp
    split at h
    · contradiction
    · cases h
      exact .measure ord hp
  · rename_i min hp
    cases h
    exact .finish min _ rfl hp
  · rename_i min u rest hp
    cases hix : s.disk.data.index u with
    | none =>
      rw [Catalog.committedMark_run, hix] at h
      cases h
      refine .fail (by simp [hp]) ?_
      rintro min' u' rest' hp'
      rw [hp] at hp'
      cases hp'
      exact hix
    | some ix =>
      rw [Catalog.committedMark_run, hix] at h
      cases h
      have hmark : s.disk.data.mark u = ix.payload.getD default := by simp [Disk.mark, hix]
      rw [← hmark]
      exact .lower min u rest hp (by rw [hix]; rfl)

/-! ## the invariant -/

/-- The mark a get carries. -/
def GetPhase.mark? : GetPhase → Option LogMark
  | .marked mark => some mark
  | .resolved mark _ => some mark
  | .behind mark _ => some mark
  | .published mark _ => some mark
  | .current mark => some mark
  | _ => none

/-- The mark of a round of the checkpoint loop. -/
def CheckpointPhase.mark? : CheckpointPhase → Option LogMark
  | .idle => none
  | .marked mark => some mark
  | .committing mark _ => some mark
  | .published mark _ _ _ => some mark
  | .committed mark => some mark

/-- The collections the builder is still to go through are in the map. -/
def BuildPhase.Listed (m : Catalog) : BuildPhase → Prop
  | .archiving rest => ∀ p ∈ rest, p.2.collection.uuid = p.2.uuid ∧
      ∃ e, m.collections.find? p.1 = some e ∧ e.uuid = p.2.uuid
  | .measuring _ rest => ∀ u ∈ rest, ∃ n e, m.collections.find? n = some e ∧ e.uuid = u
  | _ => True

/-- A node that has applied the entries before `next`, with its tasks: their
marks are of entries that are applied. -/
structure Leader.Inv (log : List Raft.Entry) (s : Leader) : Prop where
  steady : Steady log s.next s.disk.data s.sm.catalog
  reported : s.reportedMark.index ≤ s.next - 1
  checkpoint : ∀ mark, s.checkpoint.mark? = some mark → mark.index ≤ s.next - 1
  gets : ∀ g ∈ s.gets, ∀ mark, g.phase.mark? = some mark →
    g.readIndex ≤ mark.index ∧ mark.index ≤ s.next - 1
  build : s.build.Listed s.sm.catalog

variable {d d' : Disk} {m m' : Catalog}

variable (log) in
theorem GetStep.moves {g : Get} {phase : GetPhase} (h : GetStep s g d m phase)
    (hmark : ∀ mark, g.phase.mark? = some mark → mark.index ≤ s.next - 1) :
    Moves log s.next s.disk.data s.sm.catalog s.next d m := by
  cases h with
  | publish mark target e ix hp hf hu hix =>
    exact (Move.publish _ e ix mark hf hix (hmark mark (by rw [hp]; rfl))).moves
  | reload mark target e ix hp hf hu hix => exact (Move.reload _ e ix hf hix).moves
  | _ => exact .refl

variable (log) in
theorem CheckpointStep.moves {phase : CheckpointPhase} (h : CheckpointStep s d m phase)
    (hmark : ∀ mark, s.checkpoint.mark? = some mark → mark.index ≤ s.next - 1) :
    Moves log s.next s.disk.data s.sm.catalog s.next d m := by
  cases h with
  | publish mark name target rest e ix hp hf hu hix =>
    exact (Move.publish _ e ix mark hf hix (hmark mark (by rw [hp]; rfl))).moves
  | reload mark name target rest e ix hp hf hu hix => exact (Move.reload _ e ix hf hix).moves
  | persist mark d hp hdirs hsnap => exact (Move.files hdirs).moves
  | _ => exact .refl

omit [Ext] in
/-- Archiving a collection reloads its reader. -/
theorem BuildPhase.Listed.reloaded {name : String} {e : Catalog.Entry} {ix : Index}
    {rest : List (String × Catalog.Entry)}
    (h : (BuildPhase.archiving ((name, e) :: rest)).Listed m) (hix : d.index e.uuid = some ix) :
    ∃ e', m.collections.find? name = some e' ∧ d.index e'.uuid = some ix ∧
      m.store name { m.deref name e.collection with searcher := ix.docs } =
        m.store name (e'.collection.reloaded ix) := by
  obtain ⟨hu, e', hf, hu'⟩ := h (name, e) List.mem_cons_self
  have hderef : m.deref name e.collection = e'.collection := by
    rw [Catalog.deref, hf]
    exact if_pos (hu'.trans hu.symm)
  exact ⟨e', hf, hu' ▸ hix, by rw [hderef]; rfl⟩

variable (log) in
theorem BuildStep.moves (h : BuildStep s s')
    (hl : s.build.Listed s.sm.catalog) :
    Moves log s.next s.disk.data s.sm.catalog s.next s'.disk.data s'.sm.catalog := by
  cases h with
  | list ord hp => exact .step .refl (.files (by rfl))
  | pack hp => exact .step .refl (.files (by rfl))
  | archive name e rest ix hp hix =>
    rw [hp] at hl
    obtain ⟨e', hf, hix', hstore⟩ := hl.reloaded hix
    have hreload : Move log s.next s.disk.data s.sm.catalog s.next s.disk.data
        (s.sm.catalog.store name (e'.collection.reloaded ix)) := .reload name e' ix hf hix'
    refine .step hreload.moves ?_
    rw [hstore]
    exact .files (by rfl)
  | _ => exact .refl

omit [Ext] in
theorem BuildPhase.Listed.congr {phase : BuildPhase} (h : phase.Listed m)
    (hfind : ∀ n e, m.collections.find? n = some e →
      ∃ e', m'.collections.find? n = some e' ∧ e'.uuid = e.uuid) : phase.Listed m' := by
  cases phase with
  | archiving rest =>
    intro p hp
    obtain ⟨hpu, e, hf, heu⟩ := h p hp
    obtain ⟨e', hf', heu'⟩ := hfind _ _ hf
    exact ⟨hpu, e', hf', heu'.trans heu⟩
  | measuring min rest =>
    intro u hmem
    obtain ⟨n, e, hf, heu⟩ := h u hmem
    obtain ⟨e', hf', heu'⟩ := hfind _ _ hf
    exact ⟨n, e', hf', heu'.trans heu⟩
  | _ => trivial

/-- What a step of the builder still has to go through is in the map. -/
theorem BuildStep.listed (h : BuildStep s s') (hs : Based s.disk.data s.sm.catalog)
    (hl : s.build.Listed s.sm.catalog) : s'.build.Listed s.sm.catalog := by
  cases h with
  | enter ord hp =>
    intro p hp
    rw [ord.mem] at hp
    have hf := OrdMap.find?_eq_some_iff.mpr hp
    exact ⟨(hs.entry _ _ hf).uuid, p.2, hf, rfl⟩
  | archive name e rest ix hp hix =>
    rw [hp] at hl
    exact fun p hp => hl p (List.mem_cons_of_mem _ hp)
  | measure ord hp =>
    intro u hu
    rw [ord.mem, List.mem_map] at hu
    obtain ⟨p, hp, rfl⟩ := hu
    exact ⟨p.1, p.2, OrdMap.find?_eq_some_iff.mpr hp, rfl⟩
  | lower min u rest hp hix =>
    rw [hp] at hl
    exact fun u' hu => hl u' (List.mem_cons_of_mem _ hu)
  | _ => trivial

omit [Ext] in
/-- The marks a get has come by are applied. -/
theorem GetStep.mark_le {g : Get} {phase : GetPhase} (h : GetStep s g d m phase)
    (hrep : s.reportedMark.index ≤ s.next - 1)
    (hg : ∀ mark, g.phase.mark? = some mark → g.readIndex ≤ mark.index ∧ mark.index ≤ s.next - 1)
    (mark : LogMark) (hm : phase.mark? = some mark) :
    g.readIndex ≤ mark.index ∧ mark.index ≤ s.next - 1 := by
  cases h with
  | mark hp hle =>
    injection hm with hm
    subst hm
    exact ⟨hle, hrep⟩
  | fail err herr hp => contradiction
  | answer mark hp hlock => contradiction
  | _ => exact hg mark (by simp_all [GetPhase.mark?])

omit [Ext] in
theorem CheckpointStep.mark_le {phase : CheckpointPhase} (h : CheckpointStep s d m phase)
    (hrep : s.reportedMark.index ≤ s.next - 1)
    (hc : ∀ mark, s.checkpoint.mark? = some mark → mark.index ≤ s.next - 1)
    (mark : LogMark) (hm : phase.mark? = some mark) : mark.index ≤ s.next - 1 := by
  cases h with
  | mark id hp hid =>
    injection hm with hm
    subst hm
    rwa [Leader.reportedMark, hid] at hrep
  | fail hp => contradiction
  | persist mark d hp hdirs hsnap => contradiction
  | _ => exact hc mark (by simp_all [CheckpointPhase.mark?])

/-- A committed log: its first entry is not a command, and the entries are
numbered by their places. -/
structure CommittedLog (log : List Raft.Entry) : Prop where
  first : commandAt log 0 = ⟨none⟩
  index : ∀ (i : Nat) entry, log[i]? = some entry → entry.logId.index = i

/-- The apply task moves the catalog over one entry. -/
theorem Leader.Inv.apply_cases {ord : IterOrder} (h : s.Inv log) (hlog : CommittedLog log)
    (hs : s.apply log ord = some s') : s.build = .idle ∧
      ∃ d m, s' = { s with disk := d, sm := m, next := s.next + 1 } ∧
        Effect ord s.next (commandAt log s.next) s.disk.data s.sm.catalog d.data m.catalog := by
  rw [Leader.apply] at hs
  split at hs
  · rename_i entry hb hentry
    split at hs
    · rename_i r d m hrun
      cases hs
      have hw := wp_applyEntry (E := fun _ _ _ => True) (C := fun _ => True)
        (Q := fun _ d' m' => Effect ord entry.logId.index entry.command s.disk.data s.sm.catalog
          d'.data m'.catalog) ord entry h.steady.based (fun _ => trivial) (fun _ _ _ _ => trivial)
        fun _ _ _ he => he
      have he := post_of_wp hw hrun
      rw [hlog.index _ _ hentry] at he
      refine ⟨hb, d, m, rfl, ?_⟩
      rwa [commandAt, hentry]
    · contradiction
  · contradiction

omit [Ext] in
theorem Leader.get_cases {i : Nat} (hs : s.get i = some s') : ∃ g d m phase,
    s.gets[i]? = some g ∧ GetStep s g d m phase ∧
      s' = { s.withCatalog d m with gets := s.gets.set i { g with phase := phase } } := by
  rw [Leader.get] at hs
  split at hs
  · contradiction
  · rename_i g hg
    split at hs
    · contradiction
    · rename_i s₁ phase hadv
      cases hs
      obtain ⟨d, m, rfl, hstep⟩ := Leader.advance_cases hadv
      exact ⟨g, d, m, phase, hg, hstep, rfl⟩

omit [Ext] in
theorem Leader.stepFetch_cases (hs : s.stepFetch = some s') :
    ∃ phase, s' = { s with fetch := phase } ∧
      (phase = .idle ∨ (∃ info, s.sm.currentSnapshot = some info ∧ phase = .read info) ∨
        ∃ info a, s.fetch = .read info ∧ s.disk.data.snapshots.currentTar = some a ∧
          phase = .returned info a) := by
  rw [Leader.stepFetch] at hs
  split at hs
  · rename_i info hp
    split at hs
    · cases hs
      exact ⟨_, rfl, .inl rfl⟩
    · rename_i a ha
      cases hs
      exact ⟨_, rfl, .inr (.inr ⟨info, a, hp, ha, rfl⟩)⟩
  · split at hs
    · rename_i info _ hinfo
      cases hs
      exact ⟨_, rfl, .inr (.inl ⟨info, hinfo, rfl⟩)⟩
    · contradiction

/-- **Every step keeps the invariant.** -/
theorem Leader.Inv.step {a : Leader.Action} (h : s.Inv log) (hlog : CommittedLog log)
    (hs : s.step log a = some s') : s'.Inv log := by
  have hrep := h.reported
  cases a with
  | apply ord =>
    obtain ⟨hb, d, m, rfl, he⟩ := h.apply_cases hlog hs
    refine ⟨(Move.apply ord he).steady h.steady hlog.first, ?_, fun mark hm => ?_,
      fun g hg mark hm => ?_, by rw [hb]; trivial⟩
    · exact hrep.trans (by simp)
    · exact (h.checkpoint mark hm).trans (by simp)
    · have hgm := h.gets g hg mark hm
      exact ⟨hgm.1, hgm.2.trans (by simp)⟩
  | report index =>
    rw [Leader.step, Leader.report] at hs
    split at hs
    · rename_i entry hentry
      split at hs
      · cases hs
        refine ⟨h.steady, ?_, h.checkpoint, h.gets, h.build⟩
        show entry.logId.index ≤ s.next - 1
        rw [hlog.index _ _ hentry]
        omega
      · contradiction
    · contradiction
  | call collection id readIndex =>
    cases hs
    refine ⟨h.steady, hrep, h.checkpoint, fun g hg mark hm => ?_, h.build⟩
    rcases List.mem_append.mp hg with hg | hg
    · exact h.gets g hg mark hm
    · rw [List.mem_singleton.mp hg] at hm
      contradiction
  | get i =>
    obtain ⟨g, d, m, phase, hg, hstep, rfl⟩ := Leader.get_cases hs
    have hmem := List.mem_of_getElem? hg
    have hmoves := hstep.moves log fun mark hm => (h.gets g hmem mark hm).2
    refine ⟨hmoves.steady h.steady hlog.first, hrep, h.checkpoint, fun g' hg' => ?_,
      h.build.congr fun n e => hmoves.find_of_eq⟩
    rcases List.mem_or_eq_of_mem_set hg' with hg' | rfl
    · exact h.gets g' hg'
    · exact hstep.mark_le hrep (h.gets g hmem)
  | checkpoint ord =>
    obtain ⟨d, m, phase, rfl, hstep⟩ := Leader.stepCheckpoint_cases hs
    have hmoves := hstep.moves log h.checkpoint
    exact ⟨hmoves.steady h.steady hlog.first, hrep, hstep.mark_le hrep h.checkpoint, h.gets,
      h.build.congr fun n e => hmoves.find_of_eq⟩
  | build ord =>
    have hstep := Leader.stepBuild_cases hs
    have hmoves := hstep.moves log h.build
    have hl := (hstep.listed h.steady.based h.build).congr fun n e => hmoves.find_of_eq
    have hsteady := hmoves.steady h.steady hlog.first
    cases hstep <;> exact ⟨hsteady, hrep, h.checkpoint, h.gets, hl⟩
  | fetch =>
    obtain ⟨phase, rfl, _⟩ := Leader.stepFetch_cases hs
    exact ⟨h.steady, hrep, h.checkpoint, h.gets, h.build⟩

/-- A node on empty directories holds nothing. -/
theorem Leader.start_eq : ∃ cat membership, (∀ n, cat.collections.find? n = none) ∧
    Leader.start =
      ⟨.empty, ⟨cat, none, membership, none⟩, 0, none, [], .idle, .idle, .idle⟩ := by
  have hb : Base (fun _ => ⟨none⟩) 0 NodeDisk.empty.data default :=
    Base.empty default fun _ => rfl
  have hw : wp (StateMachine.restart .stored) (fun _ d m => d = NodeDisk.empty ∧
      ∃ cat membership, (∀ n, cat.collections.find? n = none) ∧ m = ⟨cat, none, membership, none⟩)
      (fun _ _ _ => False) (fun _ => True) NodeDisk.empty default :=
    hb.wp_restart .stored (by rintro e m ⟨⟩) fun cat membership hre =>
      ⟨rfl, cat, membership, fun n => by rw [hre n]; rfl, rfl⟩
  obtain ⟨_, _, _, hrun, rfl, cat, membership, hnone, rfl⟩ := run_ok_of_wp hw
  exact ⟨cat, membership, hnone, by simp only [Leader.start, Prog.after, hrun]⟩

theorem Leader.inv_start (log : List Raft.Entry) : Leader.start.Inv log := by
  obtain ⟨cat, membership, hnone, hstart⟩ := Leader.start_eq
  have hlive : ∀ n, (slotOf NodeDisk.empty.data cat n).live = none := by
    intro n
    rw [slotOf_live, hnone n]
    rfl
  rw [hstart]
  refine ⟨⟨⟨?_, ?_⟩, hlive, ?_, ?_⟩, Nat.le_refl 0, by simp [CheckpointPhase.mark?], by simp,
    trivial⟩
  · exact fun n e hf => by simp [hnone n] at hf
  · exact fun n n' e e' hf => by simp [hnone n] at hf
  · exact fun u hu => by simp [NodeDisk.empty, Disk.empty, OrdMap.contains] at hu
  · exact fun n e hf => by simp [hnone n] at hf

/-- **The applied point never over-reports**: in every state of a run, what is
committed of a live collection is what the log says of it up to some entry that
is not before the one reported as applied. -/
theorem applied_point_not_over_reported (hlog : CommittedLog log)
    (h : (Leader.system log).Reach (fun _ _ => true) s) (ord : IterOrder) :
    ∃ applied, ((StateMachine.appliedState ord).run s.disk s.sm).1 = .ok applied ∧
      ∀ n e, s.sm.catalog.collections.find? n = some e →
        ∃ ix k, s.disk.data.index e.uuid = some ix ∧ positionOf applied.1 ≤ k ∧ k < s.next ∧
          ShownAt log n e.uuid ix.docs k := by
  have hinv : s.Inv log := by
    refine h.invariant ?_ fun s a s' hI _ hs => hI.step hlog hs
    rintro s rfl
    exact Leader.inv_start log
  obtain ⟨applied, happ, hrun⟩ := appliedState_run ord hinv.steady.based.indexed
  refine ⟨_, hrun, fun n e hf => ?_⟩
  obtain ⟨ix, r, c, hix, _, hc, _, hcn, _, hshown⟩ := hinv.steady.within n e hf
  refine ⟨ix, c, hix, (happ.le hf).trans hc, ?_, hshown⟩
  have hlt := (hinv.steady.within n e hf).mark_lt
  omega

end

section
open Reference

theorem createThenIndexLog_committed : CommittedLog createThenIndexLog where
  first := rfl
  index i entry h := by
    match i with
    | 0 => cases h; rfl
    | 1 => cases h; rfl
    | 2 => cases h; rfl
    | _ + 3 => contradiction

/-- A document is indexed after the checkpoint has read its mark, and before it
commits the collection. -/
def commitWithOlderMark : List Leader.Action :=
  [.apply .stored, .apply .stored, .report 1, .checkpoint .stored, .checkpoint .stored,
    .apply .stored, .checkpoint .stored]

/-- The commit holds the document; the applied point is the entry before. -/
theorem applied_point_not_over_reported_older_mark :
    ∃ s, (Leader.system createThenIndexLog).exec (fun _ _ => true) Leader.start
        commitWithOlderMark = some s ∧
      (s.sm.catalog.collections.find? "a").isSome ∧
      ∃ applied, ((StateMachine.appliedState .stored).run s.disk s.sm).1 = .ok applied ∧
        positionOf applied.1 = 1 ∧
        ∀ n e, s.sm.catalog.collections.find? n = some e →
          ∃ ix k, s.disk.data.index e.uuid = some ix ∧ positionOf applied.1 ≤ k ∧ k < s.next ∧
            ShownAt createThenIndexLog n e.uuid ix.docs k := by
  have hrun : ((Leader.system createThenIndexLog).exec (fun _ _ => true) Leader.start
      commitWithOlderMark).any (fun s => (s.sm.catalog.collections.find? "a").isSome &&
        match ((StateMachine.appliedState .stored).run s.disk s.sm).1 with
        | .ok applied => decide (positionOf applied.1 = 1)
        | .error _ => false) = true := by
    decide +kernel
  obtain ⟨s, hs, hp⟩ := exists_of_any hrun
  obtain ⟨hname, hpos⟩ := (Bool.and_eq_true _ _).mp hp
  have hreach := System.Reach.exec (.start rfl) hs
  obtain ⟨applied, happ, hall⟩ :=
    applied_point_not_over_reported createThenIndexLog_committed hreach .stored
  rw [happ] at hpos
  exact ⟨s, hs, hname, applied, happ, of_decide_eq_true hpos, hall⟩

end

end Lumen
