import Lumen.Log.Map

/-!
# Lumen.Log.Purge

Which files a purge unlinks.  The unlink test reads the start of the next segment,
the list of starts is thinned by the records that are left; `MapInv.dense` makes the
two agree.

* `purge_unlinks_dead_segments` — in every state of a run the files are those the log
  lists, and a purge unlinks exactly the inactive ones without a record above its
  bound.
-/

namespace Lumen

open Lib Prog

/-- The files are those the log lists, in order, the active one last; every segment
behind the first starts above zero. -/
structure FilesListed (dir : LogDir) (log : SegmentedLog) : Prop where
  files : dir.keys = log.starts
  sorted : log.starts.Pairwise (· < ·)
  active : log.active.map Active.start = log.starts.getLast?
  pos : ∀ next ∈ log.starts.tail, 1 ≤ next

section
variable {dir : LogDir} {log : SegmentedLog} {rs : List Rec} {floor : Option Nat} {index : Nat}

theorem MapInv.keys_eq (h : MapInv dir log rs floor) : dir.keys = log.starts := by
  have hkeys : dir.keys.Pairwise (· < ·) := List.pairwise_map.mpr dir.sorted
  refine List.Pairwise.eq_of_mem_iff hkeys h.sorted fun k => ?_
  rw [OrdMap.mem_keys_iff]
  exact ⟨fun ⟨bytes, hb⟩ => h.listed k bytes hb, h.files k⟩

theorem MapInv.filesListed (h : MapInv dir log rs floor) : FilesListed dir log := by
  refine ⟨h.keys_eq, h.sorted, h.active_start, fun next hnext => ?_⟩
  have hsorted := h.sorted
  cases hl : log.starts with
  | nil => simp [hl] at hnext
  | cons s l =>
    rw [hl] at hsorted hnext
    have := (List.pairwise_cons.mp hsorted).1 next hnext
    omega

/-- What a purge does to the files. -/
structure Purges (index : Nat) (dir : LogDir) (log : SegmentedLog) (dir' : LogDir)
    (log' : SegmentedLog) : Prop where
  unlinked : ∀ k ∈ log.starts, dir'.find? k = none ↔ DeadSegment log index k
  kept : ∀ k, ¬ DeadSegment log index k → dir'.find? k = dir.find? k
  live : ∀ i loc, log'.records.find? i = some loc → dir'.contains loc.segmentStart = true
  swept : ∀ k ∈ dir'.keys, some k = log'.active.map Active.start ∨
    ∃ i loc, log'.records.find? i = some loc ∧ loc.segmentStart = k

theorem MapInv.purges (h : MapInv dir log rs floor) {dir' : LogDir} {log' : SegmentedLog}
    (h' : MapInv dir' log' (rs.filter fun r => index < r.index) (some index))
    (hgone : ∀ k, DeadSegment log index k → dir'.find? k = none)
    (hold : ∀ k, ¬ DeadSegment log index k → dir'.find? k = dir.find? k)
    (hact : log'.active = log.active) : Purges index dir log dir' log' where
  unlinked k hk := by
    refine ⟨fun hnone => ?_, hgone k⟩
    by_contra hd
    obtain ⟨bytes, hb⟩ := h.files k hk
    rw [hold k hd, hb] at hnone
    contradiction
  kept := hold
  live i loc hfind := by
    obtain ⟨r, hr, _, rfl⟩ := h'.find?.mp hfind
    obtain ⟨bytes, hb⟩ := h'.files _ (h'.segment r hr).1
    rw [OrdMap.contains, hb]
    rfl
  swept k hk := by
    obtain ⟨bytes, hb⟩ := OrdMap.mem_keys_iff.mp hk
    have hd : ¬ DeadSegment log index k := fun hd => by
      rw [hgone k hd] at hb
      contradiction
    rw [hold k hd] at hb
    rw [hact, h.active_start]
    refine ((h.not_dead_iff (h.listed k bytes hb)).mp hd).imp_right ?_
    rintro ⟨r, hr, hlt, he⟩
    exact ⟨r.index, r.loc, h'.find?.mpr ⟨r, by simpa using ⟨hr, hlt⟩, rfl, rfl⟩, he⟩

end

section
variable [Ext] {dir : LogDir} {log : SegmentedLog} {map : OrdMap Nat Bytes} {floor : Option Nat}

/-- **A purge deletes exactly the dead segments**, in every state of every run under
the callers' discipline, at every segment size. -/
theorem purge_unlinks_dead_segments {segmentMax : Nat} (h : MapRun segmentMax dir log map floor) :
    FilesListed dir log ∧ ∀ index, (∀ p, floor = some p → p ≤ index) → ∃ dir' log',
      (SegmentedLog.purgeThrough index).run dir log = (.ok (), dir', log') ∧
        Purges index dir log dir' log' := by
  obtain ⟨rs, hinv, _⟩ := h.stands
  refine ⟨hinv.filesListed, fun index hmono => ?_⟩
  have hw : wp (SegmentedLog.purgeThrough index)
      (fun _ dir' log' => Purges index dir log dir' log') (fun _ _ _ => False) (fun _ => True) dir
      log := hinv.wp_purgeThrough hmono (fun _ => trivial) fun dir' log' hinv' hgone hold hact =>
    hinv.purges hinv' hgone hold hact
  obtain ⟨_, dir', log', hrun, hpost⟩ := run_ok_of_wp hw
  exact ⟨dir', log', hrun, hpost⟩

end

section
open Reference

/-- Three records in a segment each. -/
def oneRecordEach : LogDir × SegmentedLog :=
  after (SegmentedLog.append 2 [30]) <|
    after (SegmentedLog.append 1 [20]) <|
      after (SegmentedLog.append 0 [10]) <|
        after (SegmentedLog.openWithSegmentMax 1) (∅, .closed)

theorem oneRecordEach_run : ∃ map, MapRun 1 oneRecordEach.1 oneRecordEach.2 map none := by
  refine ⟨_, .append 2 [30] (.append 1 [20] (.append 0 [10]
      (.opened .closed (Prod.ext (by decide +kernel) rfl)) ?_ (Prod.ext (by decide +kernel) rfl)) ?_
    (Prod.ext (by decide +kernel) rfl)) ?_ (Prod.ext (by decide +kernel) rfl)⟩
  · exact fun _ h => nomatch h
  · rfl
  · rfl

/-- Two of the segments are dead when the first two records are purged. -/
theorem purge_unlinks_dead_segments_oneRecordEach :
    oneRecordEach.1.keys = [0, 1, 2] ∧ ∃ dir' log',
      (SegmentedLog.purgeThrough 1).run oneRecordEach.1 oneRecordEach.2 = (.ok (), dir', log') ∧
        Purges 1 oneRecordEach.1 oneRecordEach.2 dir' log' ∧ dir'.keys = [2] := by
  obtain ⟨map, hmap⟩ := oneRecordEach_run
  obtain ⟨dir', log', hrun, hpurges⟩ := (purge_unlinks_dead_segments hmap).2 1 (by simp)
  have hkeys : ((SegmentedLog.purgeThrough 1).run oneRecordEach.1 oneRecordEach.2).2.1.keys =
      [2] := by decide +kernel
  rw [hrun] at hkeys
  exact ⟨by decide +kernel, dir', log', hrun, hpurges, hkeys⟩

end

end Lumen
