import Lumen.Leader.Inv
import Lumen.Snapshot.Install

/-!
# Lumen.Leader.Build

Snapshots built while other tasks commit.  The builder copies the last commit of
every collection and reads the committed marks afterwards; nothing is applied in
between, but a collection can be committed after it was copied, and then its
mark speaks of documents the copy does not hold.

`snapshot_meta_covered`: where no commit raises the mark of a collection between
its copy and the reading of its mark, every archive holds what the metadata it
goes with claims, also the pair that `get_current_snapshot` returns.
-/

namespace Lumen

open Lib Prog Raft Replay

/-! ## what an archive holds -/

section
variable [Ext]

/-- An archive was made at an applied point that is not before `i`, and has
every collection of that point as the log had it at `i` or later. -/
def Archive.Covers (log : List Raft.Entry) (next : Nat) (a : Archive) (i : Nat) : Prop :=
  ∃ q, i ≤ q ∧ q ≤ next - 1 ∧ ∀ n st, bound log q n = some st →
    ∃ ix k, a.index st.uuid = some ix ∧ i ≤ k ∧ k ≤ q ∧ ShownAt log n st.uuid ix.docs k

variable {log : List Raft.Entry} {next next' i j : Nat} {a : Archive} {d : Disk} {n : String}
  {e : Catalog.Entry}

theorem Archive.Covers.mono (h : a.Covers log next i) (hnext : next ≤ next') (hj : j ≤ i) :
    a.Covers log next' j := by
  obtain ⟨q, hq, hqn, hall⟩ := h
  refine ⟨q, by omega, by omega, fun n st hst => ?_⟩
  obtain ⟨ix, k, hix, hk, hkq, hshown⟩ := hall n st hst
  exact ⟨ix, k, hix, by omega, hkq, hshown⟩

omit [Ext] in
theorem Archive.index_add (u : Uuid) (ix : Index) (u' : Uuid) :
    (a.add u ix).index u' = if u' = u then some ix else a.index u' := by
  rw [Archive.index, Archive.add, OrdMap.find?_insert]
  split <;> rfl

theorem Within.sup {lo lo₁ lo₂ : Nat} (h₁ : Within log next lo lo₁ d n e)
    (h₂ : Within log next lo lo₂ d n e) : Within log next lo (max lo₁ lo₂) d n e := by
  rcases Nat.le_total lo₁ lo₂ with hle | hle
  · rwa [Nat.max_eq_right hle]
  · rwa [Nat.max_eq_left hle]

end

/-! ## where the builder is -/

namespace BuildPhase

/-- The collection has been copied. -/
def archived (u : Uuid) : BuildPhase → Bool
  | archiving rest => !rest.any fun p => p.2.uuid = u
  | packed => true
  | measuring _ _ => true
  | _ => false

/-- The mark of the collection has been read. -/
def measured (u : Uuid) : BuildPhase → Bool
  | measuring _ rest => !rest.any fun u' => u' = u
  | _ => false

/-- The lowest mark read so far. -/
def lowest : BuildPhase → Option LogMark
  | measuring min _ => min
  | _ => none

end BuildPhase

namespace Leader

/-- A commit with the mark does not raise that of a collection that has been
copied and whose mark is still to be read. -/
def keepsMark (s : Leader) (target : Collection) (mark : LogMark) : Bool :=
  !s.build.archived target.uuid || s.build.measured target.uuid ||
    mark.index ≤ (s.disk.data.mark target.uuid).index

/-- No commit raises the mark of a collection between its copy and the reading
of its mark. -/
def settled (s : Leader) : Action → Bool
  | .get i =>
    match s.gets[i]? with
    | some ⟨_, _, _, .behind mark target⟩ => s.keepsMark target mark
    | _ => true
  | .checkpoint _ =>
    match s.checkpoint with
    | .committing mark ((_, target) :: _) => s.keepsMark target mark
    | _ => true
  | _ => true

/-- The position the metadata of the current snapshot claims, or that a call of
`get_current_snapshot` has read, whichever is higher. -/
def claimed (s : Leader) : Nat :=
  max (positionOf (s.sm.currentSnapshot.bind SnapshotMeta.lastLogId))
    (match s.fetch with
    | .read info => positionOf info.lastLogId
    | _ => 0)

/-- The archive the builder is working on. -/
def target? (s : Leader) : Option Archive :=
  match s.build with
  | .idle => none
  | .listed => s.disk.data.snapshots.build
  | .archiving _ => s.disk.data.snapshots.build
  | .packed => s.disk.data.snapshots.currentTar
  | .measuring _ _ => s.disk.data.snapshots.currentTar

end Leader

section
variable [Ext] {log : List Raft.Entry} {next i j claimed : Nat} {a : Archive} {s s' : Leader}
  {d d' : Disk} {m m' : Catalog} {n : String} {e : Catalog.Entry} {phase : BuildPhase}

/-! ## copies -/

/-- A copy is at a position that no claim exceeds: those made before, the mark
of the collection while that is still to be read, and the lowest mark of the new
snapshot after that. -/
structure CopiedAt (d : Disk) (claimed : Nat) (phase : BuildPhase) (u : Uuid) (k : Nat) : Prop where
  claimed : claimed ≤ k
  mark : phase.measured u = false → (d.mark u).index ≤ k
  lowest : phase.measured u = true → ∃ mark, phase.lowest = some mark ∧ mark.index ≤ k

/-- What the archive under construction holds. -/
structure Copies (log : List Raft.Entry) (next : Nat) (d : Disk) (m : Catalog) (claimed : Nat)
    (phase : BuildPhase) (a : Archive) : Prop where
  copied : ∀ n e, m.collections.find? n = some e → phase.archived e.uuid = true →
    ∃ ix k, a.index e.uuid = some ix ∧ k ≤ next - 1 ∧ ShownAt log n e.uuid ix.docs k ∧
      CopiedAt d claimed phase e.uuid k
  measured : ∀ n e, m.collections.find? n = some e → phase.measured e.uuid = true →
    ∃ mark, phase.lowest = some mark ∧ Within log next 0 mark.index d n e
  lowest : ∀ mark, phase.lowest = some mark → mark.index ≤ next - 1

structure Leader.BuildInv (log : List Raft.Entry) (s : Leader) : Prop where
  inv : s.Inv log
  applied : positionOf s.sm.lastApplied ≤ s.next - 1
  claimed_le : s.claimed ≤ s.next - 1
  within : ∀ n e, s.sm.catalog.collections.find? n = some e →
    Within log s.next 0 s.claimed s.disk.data n e
  current : ∀ a, s.disk.data.snapshots.currentTar = some a → a.Covers log s.next s.claimed
  fetch : ∀ info a, s.fetch = .returned info a → a.Covers log s.next (positionOf info.lastLogId)
  build : s.build ≠ .idle → ∃ a, s.target? = some a ∧
    Copies log s.next s.disk.data s.sm.catalog s.claimed s.build a

/-- What other tasks do keeps the copies, unless they raise a mark. -/
theorem Copies.moves (h : Copies log next d m claimed phase a)
    (hm : Moves log next d m next d' m') (hs : Steady log next d m)
    (hfirst : commandAt log 0 = ⟨none⟩)
    (hmark : ∀ u, phase.archived u = true → phase.measured u = false →
      (d'.mark u).index ≤ (d.mark u).index) :
    Copies log next d' m' claimed phase a where
  copied n e' hf' harch := by
    obtain ⟨e, hf, hu⟩ := hm.find_of_eq' hf'
    rw [← hu] at harch ⊢
    obtain ⟨ix, k, hix, hk, hshown, hc⟩ := h.copied n e hf harch
    exact ⟨ix, k, hix, hk, hshown, hc.claimed,
      fun hmeas => (hmark _ harch hmeas).trans (hc.mark hmeas), hc.lowest⟩
  measured n e' hf' hmeas := by
    obtain ⟨e, hf, hu⟩ := hm.find_of_eq' hf'
    obtain ⟨mark, hlow, _⟩ := h.measured n e hf (hu ▸ hmeas)
    have hshows : ShowsFrom log next 0 mark.index d m n (phase.measured · = true) := by
      intro e hf hmeas
      obtain ⟨mark', hlow', hw⟩ := h.measured n e hf hmeas
      rw [hlow, Option.some.injEq] at hlow'
      exact hlow' ▸ hw
    exact ⟨mark, hlow, hm.showsFrom hs hfirst (Nat.zero_le _) (h.lowest mark hlow) hshows e' hf' hmeas⟩
  lowest := h.lowest

/-- A finished archive covers what is claimed of it. -/
theorem Copies.covers (h : Copies log next d m claimed phase a) (hs : Steady log next d m)
    (harch : ∀ u, phase.archived u = true) (hi : i ≤ next - 1)
    (hle : ∀ n e k, m.collections.find? n = some e → CopiedAt d claimed phase e.uuid k → i ≤ k) :
    a.Covers log next i := by
  refine ⟨next - 1, hi, le_rfl, fun n st hst => ?_⟩
  rw [← hs.live, slotOf_live] at hst
  obtain ⟨e, hf, rfl⟩ := Option.map_eq_some_iff.mp hst
  obtain ⟨ix, k, hix, hk, hshown, hc⟩ := h.copied n e hf (harch _)
  exact ⟨ix, k, hix, hle n e k hf hc, hk, hshown⟩

theorem Copies.mono (h : Copies log next d m claimed phase a) (hle : j ≤ claimed) :
    Copies log next d m j phase a where
  copied n e hf harch := by
    obtain ⟨ix, k, hix, hk, hshown, hc⟩ := h.copied n e hf harch
    exact ⟨ix, k, hix, hk, hshown, hle.trans hc.claimed, hc.mark, hc.lowest⟩
  measured := h.measured
  lowest := h.lowest

/-! ## the steps of the other tasks -/

theorem Leader.BuildInv.moves (h : s.BuildInv log) (hfirst : commandAt log 0 = ⟨none⟩)
    {gets : List Get} {c : CheckpointPhase}
    (hinv : Leader.Inv log { s.withCatalog d m with gets := gets, checkpoint := c })
    (hm : Moves log s.next s.disk.data s.sm.catalog s.next d m)
    (hsnap : d.snapshots = s.disk.data.snapshots)
    (hmark : ∀ u, s.build.archived u = true → s.build.measured u = false →
      (d.mark u).index ≤ (s.disk.data.mark u).index) :
    Leader.BuildInv log { s.withCatalog d m with gets := gets, checkpoint := c } where
  inv := hinv
  applied := h.applied
  claimed_le := h.claimed_le
  within n e hf := by
    have hshows : ShowsFrom log s.next 0 s.claimed s.disk.data s.sm.catalog n fun _ => True :=
      fun e hf _ => h.within n e hf
    exact hm.showsFrom h.inv.steady hfirst (Nat.zero_le _) h.claimed_le hshows e hf trivial
  current a ha := h.current a (by rw [← hsnap]; exact ha)
  fetch := h.fetch
  build hne := by
    obtain ⟨a, ha, hcopies⟩ := h.build hne
    refine ⟨a, ?_, hcopies.moves hm h.inv.steady hfirst hmark⟩
    rw [← ha]
    simp only [Leader.target?, Leader.withCatalog, hsnap]

omit [Ext] in
/-- A commit that keeps the marks still to be read. -/
theorem Leader.mark_committed_le {target : Collection} {ix : Index} {mark : LogMark}
    (hkeep : s.keepsMark target mark = true) (hu : e.uuid = target.uuid) {u : Uuid}
    (harch : s.build.archived u = true) (hmeas : s.build.measured u = false) :
    ((s.disk.data.committed e ix mark).mark u).index ≤ (s.disk.data.mark u).index := by
  by_cases hue : u = e.uuid
  · have hmark : (s.disk.data.committed e ix mark).mark u = mark := by
      simp [Disk.mark, Disk.committed, Disk.index_setDir, hue, Index.committed]
    rw [hmark]
    simpa [Leader.keepsMark, ← hu, ← hue, harch, hmeas] using hkeep
  · have hsame : (s.disk.data.committed e ix mark).index u = s.disk.data.index u := by
      rw [Disk.committed, Disk.index_setDir, if_neg hue]
    rw [Disk.mark_congr hsame]

omit [Ext] in
/-- A step of a get raises no mark that is still to be read. -/
theorem GetStep.mark_le_of_settled {g : Get} {phase : GetPhase} (hstep : GetStep s g d m phase)
    (hi : s.gets[i]? = some g) (hset : s.settled (.get i) = true) (u : Uuid)
    (harch : s.build.archived u = true) (hmeas : s.build.measured u = false) :
    (d.mark u).index ≤ (s.disk.data.mark u).index := by
  cases hstep with
  | publish mark target e ix hp hf hu hix =>
    obtain ⟨collection, id, readIndex, _⟩ := g
    obtain rfl : _ = GetPhase.behind mark target := hp
    simp only [Leader.settled, hi] at hset
    exact Leader.mark_committed_le hset hu harch hmeas
  | _ => exact le_rfl

omit [Ext] in
theorem CheckpointStep.mark_le_of_settled {ord : IterOrder} {phase : CheckpointPhase}
    (hstep : CheckpointStep s d m phase) (hset : s.settled (.checkpoint ord) = true) (u : Uuid)
    (harch : s.build.archived u = true) (hmeas : s.build.measured u = false) :
    (d.mark u).index ≤ (s.disk.data.mark u).index := by
  cases hstep with
  | publish mark name target rest e ix hp hf hu hix =>
    simp only [Leader.settled, hp] at hset
    exact Leader.mark_committed_le hset hu harch hmeas
  | persist mark d hp hdirs hsnap =>
    have hsame : d.index u = s.disk.data.index u := by rw [Disk.index, Disk.index, hdirs]
    rw [Disk.mark_congr hsame]
  | _ => exact le_rfl

omit [Ext] in
theorem GetStep.snapshots {g : Get} {phase : GetPhase} (hstep : GetStep s g d m phase) :
    d.snapshots = s.disk.data.snapshots := by
  cases hstep <;> rfl

omit [Ext] in
theorem CheckpointStep.snapshots {phase : CheckpointPhase} (hstep : CheckpointStep s d m phase) :
    d.snapshots = s.disk.data.snapshots := by
  cases hstep with
  | persist mark d hp hdirs hsnap => exact hsnap
  | _ => rfl

/-! ## the apply task -/

theorem Effect.snapshots {ord : IterOrder} {cmd : Proto.Command} (h : Effect ord i cmd d m d' m') :
    d'.snapshots = d.snapshots := by
  cases h <;> rfl

/-- Applying an entry moves the applied point and leaves the metadata of the
snapshot. -/
theorem Leader.apply_frame {ord : IterOrder} (hlog : CommittedLog log)
    (hs : s.apply log ord = some s') :
    positionOf s'.sm.lastApplied = s.next ∧ s'.sm.currentSnapshot = s.sm.currentSnapshot := by
  rw [Leader.apply] at hs
  split at hs
  · rename_i entry hb hentry
    split at hs
    · rename_i r d m hrun
      cases hs
      have hw : wp (StateMachine.applyEntry ord entry)
          (fun _ _ m' => m'.lastApplied = some entry.logId ∧
            m'.currentSnapshot = s.sm.currentSnapshot) (fun _ _ _ => True) (fun _ => True)
          s.disk s.sm := by
        rw [StateMachine.applyEntry, wp_bind, wp_modifyMem]
        cases entry.payload with
        | blank => exact ⟨rfl, rfl⟩
        | membership membership =>
          rw [StateMachine.applyPayload, wp_bind]
          exact wp_persistMembership _ (fun _ => trivial) trivial ⟨rfl, rfl⟩
        | normal command =>
          rw [StateMachine.applyPayload, wp_bind]
          exact wp_onCatalog _ _ (wp_imp (wp_trivial _) fun _ _ _ _ => ⟨rfl, rfl⟩)
      obtain ⟨hlast, hcur⟩ := post_of_wp hw hrun
      refine ⟨?_, hcur⟩
      rw [hlast]
      exact hlog.index _ _ hentry
    · contradiction
  · contradiction

/-! ## the builder -/

omit [Ext] in
theorem BuildPhase.archived_archiving {rest : List (String × Catalog.Entry)} {u : Uuid} :
    (BuildPhase.archiving rest).archived u = true ↔ ∀ p ∈ rest, p.2.uuid ≠ u := by
  simp [BuildPhase.archived]

omit [Ext] in
theorem BuildPhase.measured_measuring {min : Option LogMark} {rest : List Uuid} {u : Uuid} :
    (BuildPhase.measuring min rest).measured u = true ↔ u ∉ rest := by
  rw [BuildPhase.measured, Bool.not_eq_true', List.any_eq_false]
  simp only [decide_eq_true_iff]
  exact ⟨fun h hu => h u hu rfl, fun h u' hu' heq => h (heq ▸ hu')⟩

omit [Ext] in
theorem Catalog.lowerMark_le (min : Option LogMark) (mark : LogMark) :
    (Catalog.lowerMark min mark).index ≤ mark.index ∧
      ∀ c, min = some c → (Catalog.lowerMark min mark).index ≤ c.index := by
  cases min with
  | none => simp [Catalog.lowerMark]
  | some c =>
    simp only [Catalog.lowerMark, Option.some.injEq, forall_eq']
    split <;> omega

/-- Copying a collection: the copy is its last commit. -/
theorem Copies.archive {name : String} {ix : Index} {rest : List (String × Catalog.Entry)}
    (h : Copies log next d m claimed (.archiving ((name, e) :: rest)) a)
    (hs : Steady log next d m)
    (hw : ∀ n e, m.collections.find? n = some e → Within log next 0 claimed d n e)
    (hix : d.index e.uuid = some ix) :
    Copies log next d m claimed (.archiving rest) (a.add e.uuid ix) where
  copied n e' hf harch := by
    rw [Archive.index_add]
    by_cases hu : e'.uuid = e.uuid
    · obtain ⟨ix', _, k, hix', _, hle, _, hk, _, hshown⟩ := (hw n e' hf).sup (hs.within n e' hf)
      rw [hu, hix, Option.some.injEq] at hix'
      subst hix'
      exact ⟨ix, k, if_pos hu, hk, hshown, by omega, fun _ => by omega, by simp [BuildPhase.measured]⟩
    · rw [if_neg hu]
      have hold : (BuildPhase.archiving ((name, e) :: rest)).archived e'.uuid = true := by
        refine BuildPhase.archived_archiving.mpr fun p hp => ?_
        rcases List.mem_cons.mp hp with rfl | hp
        · exact fun h => hu h.symm
        · exact BuildPhase.archived_archiving.mp harch p hp
      obtain ⟨ix', k, hix', hk, hshown, hc⟩ := h.copied n e' hf hold
      exact ⟨ix', k, hix', hk, hshown, hc.claimed, fun _ => hc.mark rfl, by simp [BuildPhase.measured]⟩
  measured n e hf hmeas := by simp [BuildPhase.measured] at hmeas
  lowest mark hlow := by simp [BuildPhase.lowest] at hlow

/-- Reading the mark of a collection. -/
theorem Copies.lower {min : Option LogMark} {u : Uuid} {rest : List Uuid}
    (h : Copies log next d m claimed (.measuring min (u :: rest)) a) (hs : Steady log next d m)
    (hu : (d.mark u).index ≤ next - 1) :
    Copies log next d m claimed
      (.measuring (some (Catalog.lowerMark min (d.mark u))) rest) a where
  copied n e hf harch := by
    obtain ⟨ix, k, hix, hk, hshown, hc⟩ := h.copied n e hf rfl
    obtain ⟨hle, hmin⟩ := Catalog.lowerMark_le min (d.mark u)
    refine ⟨ix, k, hix, hk, hshown, hc.claimed, fun hmeas => hc.mark ?_, fun hmeas => ⟨_, rfl, ?_⟩⟩
    · rw [← Bool.not_eq_true, BuildPhase.measured_measuring, not_not] at hmeas ⊢
      exact List.mem_cons_of_mem _ hmeas
    · by_cases heu : e.uuid = u
      · have hmark := hc.mark (by simp [BuildPhase.measured, heu])
        rw [heu] at hmark
        omega
      · rw [BuildPhase.measured_measuring] at hmeas
        obtain ⟨mark, hlow, hmk⟩ := hc.lowest
          (BuildPhase.measured_measuring.mpr (by simp [heu, hmeas]))
        exact (hmin mark hlow).trans hmk
  measured n e hf hmeas := by
    obtain ⟨hle, hmin⟩ := Catalog.lowerMark_le min (d.mark u)
    refine ⟨_, rfl, ?_⟩
    by_cases heu : e.uuid = u
    · exact (hs.within n e hf).mono le_rfl le_rfl (by rw [heu]; exact hle)
    · rw [BuildPhase.measured_measuring] at hmeas
      obtain ⟨mark, hlow, hw⟩ := h.measured n e hf
        (BuildPhase.measured_measuring.mpr (by simp [heu, hmeas]))
      exact hw.mono le_rfl le_rfl (hmin mark hlow)
  lowest mark hlow := by
    cases hlow
    exact (Catalog.lowerMark_le min (d.mark u)).1.trans hu

/-- No claim of the new metadata exceeds a copy. -/
theorem Copies.finish {min : Option LogMark} {last point : Option LogId}
    (hpoint : point =
      match min with
      | some mark => some mark.toLogId
      | none => last)
    (h : Copies log next d m claimed (.measuring min []) a) (hlast : positionOf last ≤ next - 1) :
    positionOf point ≤ next - 1 ∧
      (∀ n e, m.collections.find? n = some e → Within log next 0 (positionOf point) d n e) ∧
      ∀ n e k, m.collections.find? n = some e → CopiedAt d claimed (.measuring min []) e.uuid k →
        positionOf point ≤ k := by
  subst hpoint
  cases min with
  | none =>
    -- without a mark there is no collection
    refine ⟨hlast, fun n e hf => ?_, fun n e k hf _ => ?_⟩ <;>
    · obtain ⟨mark, hlow, _⟩ := h.measured n e hf rfl
      contradiction
  | some mark =>
    refine ⟨h.lowest mark rfl, fun n e hf => ?_, fun n e k hf hc => ?_⟩
    · obtain ⟨mark', hlow, hw⟩ := h.measured n e hf rfl
      cases hlow
      exact hw
    · obtain ⟨mark', hlow, hle⟩ := hc.lowest rfl
      cases hlow
      exact hle

/-- **Every step of the builder keeps the invariant.** -/
theorem Leader.BuildInv.build_step (h : s.BuildInv log) (hfirst : commandAt log 0 = ⟨none⟩)
    (hinv : s'.Inv log) (hstep : BuildStep s s') : s'.BuildInv log := by
  have hs := h.inv.steady
  have hmoves := hstep.moves log h.inv.build
  have hl := h.inv.build
  -- a reader that is reloaded, and files of the snapshots, leave the bounds
  have hwithin : ∀ n e, s'.sm.catalog.collections.find? n = some e →
      Within log s.next 0 s.claimed s'.disk.data n e := fun n e hf =>
    hmoves.showsFrom hs hfirst (Nat.zero_le _) h.claimed_le (p := fun _ => True)
      (fun e hf _ => h.within n e hf) e hf trivial
  cases hstep with
  | list ord hp =>
    refine ⟨hinv, h.applied, h.claimed_le, hwithin, h.current, h.fetch, fun _ => ⟨_, rfl, ?_⟩⟩
    exact ⟨by simp [BuildPhase.archived], by simp [BuildPhase.measured], by simp [BuildPhase.lowest]⟩
  | enter ord hp =>
    obtain ⟨a, ha, hcopies⟩ := h.build (by simp [hp])
    refine ⟨hinv, h.applied, h.claimed_le, hwithin, h.current, h.fetch, fun _ => ⟨a, ?_, ?_⟩⟩
    · simpa [Leader.target?, hp] using ha
    · refine ⟨fun n e hf harch => ?_, by simp [BuildPhase.measured], by simp [BuildPhase.lowest]⟩
      exact absurd rfl (BuildPhase.archived_archiving.mp harch (n, e)
        (ord.mem.mpr (OrdMap.find?_eq_some_iff.mp hf)))
  | archive name e rest ix hp hix =>
    obtain ⟨a, ha, hcopies⟩ := h.build (by simp [hp])
    refine ⟨hinv, h.applied, h.claimed_le, hwithin, h.current, h.fetch,
      fun _ => ⟨a.add e.uuid ix, ?_, ?_⟩⟩
    · have ha : s.disk.data.snapshots.build = some a := by simpa [Leader.target?, hp] using ha
      simp [Leader.target?, Leader.withCatalog, ha]
    · rw [hp] at hcopies
      exact (hcopies.archive hs h.within hix).moves hmoves hs hfirst fun _ _ _ => le_rfl
  | pack hp =>
    obtain ⟨a, ha, hcopies⟩ := h.build (by simp [hp])
    have ha : s.disk.data.snapshots.build = some a := by simpa [Leader.target?, hp] using ha
    rw [hp] at hcopies
    refine ⟨hinv, h.applied, h.claimed_le, hwithin, fun a' ha' => ?_, h.fetch,
      fun _ => ⟨a, by simpa [Leader.target?, Leader.withCatalog] using ha, ?_⟩⟩
    · have ha' : s.disk.data.snapshots.build = some a' := ha'
      rw [ha, Option.some.injEq] at ha'
      subst ha'
      exact hcopies.covers hs (fun _ => rfl) h.claimed_le fun n e k _ hc => hc.claimed
    · refine ⟨fun n e hf _ => ?_, by simp [BuildPhase.measured], by simp [BuildPhase.lowest]⟩
      obtain ⟨ix, k, hix, hk, hshown, hc⟩ := hcopies.copied n e hf rfl
      exact ⟨ix, k, hix, hk, hshown, hc.claimed, fun _ => hc.mark rfl, by simp [BuildPhase.measured]⟩
  | measure ord hp =>
    obtain ⟨a, ha, hcopies⟩ := h.build (by simp [hp])
    have hunread : ∀ n e, s.sm.catalog.collections.find? n = some e →
        (BuildPhase.measuring none (ord.order
          (s.sm.catalog.collections.toList.map fun p => p.2.uuid))).measured e.uuid ≠ true := by
      intro n e hf hmeas
      refine BuildPhase.measured_measuring.mp hmeas (ord.mem.mpr ?_)
      exact List.mem_map.mpr ⟨(n, e), OrdMap.find?_eq_some_iff.mp hf, rfl⟩
    refine ⟨hinv, h.applied, h.claimed_le, hwithin, h.current, h.fetch,
      fun _ => ⟨a, by simpa [Leader.target?, hp] using ha, ?_⟩⟩
    rw [hp] at hcopies
    refine ⟨fun n e hf _ => ?_, fun n e hf hmeas => absurd hmeas (hunread n e hf),
      by simp [BuildPhase.lowest]⟩
    obtain ⟨ix, k, hix, hk, hshown, hc⟩ := hcopies.copied n e hf rfl
    exact ⟨ix, k, hix, hk, hshown, hc.claimed, fun _ => hc.mark rfl,
      fun hmeas => absurd hmeas (hunread n e hf)⟩
  | lower min u rest hp hix =>
    obtain ⟨a, ha, hcopies⟩ := h.build (by simp [hp])
    rw [hp] at hl hcopies
    obtain ⟨n, e, hf, rfl⟩ := hl u List.mem_cons_self
    have hlt := (hs.within n e hf).mark_lt
    exact ⟨hinv, h.applied, h.claimed_le, hwithin, h.current, h.fetch,
      fun _ => ⟨a, by simpa [Leader.target?, hp] using ha, hcopies.lower hs (by omega)⟩⟩
  | finish min info hinfo hp =>
    obtain ⟨a, ha, hcopies⟩ := h.build (by simp [hp])
    have ha : s.disk.data.snapshots.currentTar = some a := by simpa [Leader.target?, hp] using ha
    rw [hp] at hcopies
    obtain ⟨hle, hnew, hcov⟩ := Copies.finish hinfo hcopies h.applied
    -- what is claimed now was claimed before or is in the new metadata
    have hclaimed : Leader.claimed { s with
        sm := { s.sm with currentSnapshot := some info }, build := .idle } ≤
        max (positionOf info.lastLogId) s.claimed := by
      simp only [Leader.claimed, Option.bind_some]
      omega
    have hmax : max (positionOf info.lastLogId) s.claimed ≤ s.next - 1 :=
      Nat.max_le.mpr ⟨hle, h.claimed_le⟩
    refine ⟨hinv, h.applied, hclaimed.trans hmax, fun n e hf => ?_, fun a' ha' => ?_, h.fetch,
      fun hne => absurd rfl hne⟩
    · exact ((hnew n e hf).sup (h.within n e hf)).mono le_rfl le_rfl hclaimed
    · rw [ha, Option.some.injEq] at ha'
      subst ha'
      refine (hcopies.covers hs (fun _ => rfl) hmax fun n e k hf hc => ?_).mono le_rfl hclaimed
      exact Nat.max_le.mpr ⟨hcov n e k hf hc, hc.claimed⟩
  | fail hp hp' =>
    exact ⟨hinv, h.applied, h.claimed_le, hwithin, h.current, h.fetch, fun hne => absurd rfl hne⟩

/-- **Every step of a settled run keeps the invariant.** -/
theorem Leader.BuildInv.step {action : Leader.Action} (h : s.BuildInv log) (hlog : CommittedLog log)
    (hset : s.settled action = true) (hs : s.step log action = some s') : s'.BuildInv log := by
  have hinv := h.inv.step hlog hs
  cases action with
  | apply ord =>
    have hframe := Leader.apply_frame hlog hs
    obtain ⟨hb, d, m, rfl, he⟩ := h.inv.apply_cases hlog hs
    obtain ⟨hlast, hcur⟩ := hframe
    have hclaimed : Leader.claimed { s with disk := d, sm := m, next := s.next + 1 } = s.claimed := by
      simp only [Leader.claimed] at hcur ⊢
      rw [hcur]
    have hmove : Move log s.next s.disk.data s.sm.catalog (s.next + 1) d.data m.catalog :=
      .apply ord he
    refine ⟨hinv, ?_, ?_, fun n e hf => ?_, fun a ha => ?_, fun info a hf => ?_,
      fun hne => absurd hb hne⟩
    · exact hlast.le
    · rw [hclaimed]
      exact h.claimed_le.trans (by simp)
    · rw [hclaimed]
      exact hmove.within h.inv.steady hlog.first (Nat.zero_le _) h.claimed_le (p := fun _ => True)
        (fun e hf _ => h.within n e hf) e hf trivial
    · rw [hclaimed]
      exact (h.current a (by rw [← he.snapshots]; exact ha)).mono (Nat.le_succ _) le_rfl
    · exact (h.fetch info a hf).mono (Nat.le_succ _) le_rfl
  | report index =>
    rw [Leader.step, Leader.report] at hs
    split at hs
    · split at hs
      · cases hs
        exact ⟨hinv, h.applied, h.claimed_le, h.within, h.current, h.fetch, h.build⟩
      · contradiction
    · contradiction
  | call collection id readIndex =>
    cases hs
    exact ⟨hinv, h.applied, h.claimed_le, h.within, h.current, h.fetch, h.build⟩
  | get i =>
    obtain ⟨g, d, m, phase, hi, hstep, rfl⟩ := Leader.get_cases hs
    have hmoves := hstep.moves log fun mark hm =>
      (h.inv.gets g (List.mem_of_getElem? hi) mark hm).2
    exact h.moves hlog.first hinv hmoves hstep.snapshots (hstep.mark_le_of_settled hi hset)
  | checkpoint ord =>
    obtain ⟨d, m, phase, rfl, hstep⟩ := Leader.stepCheckpoint_cases hs
    have hmoves := hstep.moves log h.inv.checkpoint
    exact h.moves hlog.first hinv hmoves hstep.snapshots (hstep.mark_le_of_settled hset)
  | build ord => exact h.build_step hlog.first hinv (Leader.stepBuild_cases hs)
  | fetch =>
    obtain ⟨phase, rfl, hphase⟩ := Leader.stepFetch_cases hs
    have hclaimed : Leader.claimed { s with fetch := phase } ≤ s.claimed := by
      rcases hphase with rfl | ⟨info, hinfo, rfl⟩ | ⟨info, a, hp, ha, rfl⟩
      · simp [Leader.claimed]
      · simp [Leader.claimed, hinfo]
      · simp [Leader.claimed]
    refine ⟨hinv, h.applied, hclaimed.trans h.claimed_le,
      fun n e hf => (h.within n e hf).mono le_rfl le_rfl hclaimed,
      fun a ha => (h.current a ha).mono le_rfl hclaimed, fun info a hf => ?_, fun hne => ?_⟩
    · rcases hphase with rfl | ⟨info', _, rfl⟩ | ⟨info', a', hp, ha, rfl⟩
      · contradiction
      · contradiction
      · cases hf
        refine (h.current a ha).mono le_rfl ?_
        simp [Leader.claimed, hp]
    · obtain ⟨a, ha, hcopies⟩ := h.build hne
      exact ⟨a, ha, hcopies.mono hclaimed⟩

/-- **A snapshot's metadata never claims more than its archive holds**, in every
run where no commit raises the mark of a collection between its copy and the
reading of its mark; nor does the metadata that `get_current_snapshot` returns
with an archive. -/
theorem snapshot_meta_covered (hlog : CommittedLog log)
    (h : (Leader.system log).Reach Leader.settled s) :
    (∀ info a, s.sm.currentSnapshot = some info → s.disk.data.snapshots.currentTar = some a →
      a.Covers log s.next (positionOf info.lastLogId)) ∧
    ∀ info a, s.fetch = .returned info a → a.Covers log s.next (positionOf info.lastLogId) := by
  have hinv : s.BuildInv log := by
    refine h.invariant ?_ fun s a s' hI hset hs => hI.step hlog hset hs
    rintro s rfl
    have hstart := Leader.inv_start log
    obtain ⟨cat, membership, hnone, heq⟩ := Leader.start_eq
    rw [heq] at hstart ⊢
    exact ⟨hstart, le_rfl, le_rfl, fun n e hf => by simp [hnone n] at hf,
      fun a ha => by contradiction, fun info a hf => by contradiction, fun hne => absurd rfl hne⟩
  refine ⟨fun info a hinfo ha => (hinv.current a ha).mono le_rfl ?_, hinv.fetch⟩
  simp [Leader.claimed, hinfo]

end

section
open Reference

/-- A get finds the collection of `createThenIndexLog` behind its mark, and
commits it after the builder has copied it and before it reads its mark. -/
def commitAfterCopy : List Leader.Action :=
  [.apply .stored, .apply .stored, .apply .stored, .report 2, .call "a" "x" 2, .get 0, .get 0,
    .get 0, .build .stored, .build .stored, .build .stored, .build .stored, .get 0,
    .build .stored, .build .stored, .build .stored]

/-- The metadata claims the entry of the document, which the archive does not
hold. -/
theorem snapshot_meta_ahead_of_archive :
    ∃ s, (Leader.system createThenIndexLog).Reach (fun _ _ => true) s ∧
      ∃ info a, s.sm.currentSnapshot = some info ∧ s.disk.data.snapshots.currentTar = some a ∧
        positionOf info.lastLogId = 2 ∧ ¬ a.Covers createThenIndexLog s.next 2 := by
  have hrun : ((Leader.system createThenIndexLog).exec (fun _ _ => true) Leader.start
      commitAfterCopy).any (fun s => decide (s.next = 3) &&
        s.sm.currentSnapshot.any (fun info => decide (positionOf info.lastLogId = 2)) &&
        s.disk.data.snapshots.currentTar.any fun a =>
          decide ((a.index (exampleUuid 1)).map (fun ix => view ix.docs "x") = some none)) = true := by
    decide +kernel
  have hdoc : (bound createThenIndexLog 2 "a").map (fun st => (st.uuid, st.docs "x")) =
      some (exampleUuid 1, some textSource) := by
    decide +kernel
  obtain ⟨s, hs, hp⟩ := exists_of_any hrun
  simp only [Bool.and_eq_true] at hp
  obtain ⟨⟨hnext, hinfo⟩, htar⟩ := hp
  obtain ⟨info, hinfo, hpos⟩ := exists_of_any hinfo
  obtain ⟨a, ha, hview⟩ := exists_of_any htar
  refine ⟨s, System.Reach.exec (.start rfl) hs, info, a, hinfo, ha, of_decide_eq_true hpos, ?_⟩
  rw [of_decide_eq_true hnext]
  rintro ⟨q, hq, hq', hall⟩
  obtain rfl : q = 2 := by omega
  obtain ⟨st, hst, hdoc⟩ := Option.map_eq_some_iff.mp hdoc
  rw [Prod.mk.injEq] at hdoc
  obtain ⟨ix, k, hix, hk, hkq, st', hst', _, hdocs⟩ := hall "a" st hst
  obtain rfl : k = 2 := by omega
  rw [hst, Option.some.injEq] at hst'
  rw [← hdoc.1, hix, Option.map_some, hdocs, ← hst', hdoc.2] at hview
  simp at hview

/-- The same calls, with the commit before the copy. -/
def commitBeforeCopy : List Leader.Action :=
  [.apply .stored, .apply .stored, .apply .stored, .report 2, .call "a" "x" 2, .get 0, .get 0,
    .get 0, .build .stored, .build .stored, .get 0, .build .stored, .build .stored,
    .build .stored, .build .stored, .build .stored, .fetch, .fetch]

theorem snapshot_meta_covered_before_copy :
    ∃ s, (Leader.system createThenIndexLog).exec Leader.settled Leader.start
        commitBeforeCopy = some s ∧
      ∃ info a, s.fetch = .returned info a ∧ positionOf info.lastLogId = 2 ∧
        a.Covers createThenIndexLog s.next (positionOf info.lastLogId) := by
  have hrun : ((Leader.system createThenIndexLog).exec Leader.settled Leader.start
      commitBeforeCopy).any (fun s =>
        match s.fetch with
        | .returned info _ => decide (positionOf info.lastLogId = 2)
        | _ => false) = true := by
    decide +kernel
  obtain ⟨s, hs, hp⟩ := exists_of_any hrun
  cases hf : s.fetch with
  | returned info a =>
    rw [hf] at hp
    exact ⟨s, hs, info, a, hf, of_decide_eq_true hp, (snapshot_meta_covered
      createThenIndexLog_committed (System.Reach.exec (.start rfl) hs)).2 info a hf⟩
  | _ =>
    rw [hf] at hp
    exact absurd hp Bool.false_ne_true

end

end Lumen
