import Lumen.Cluster.Replay
import Lumen.Cluster.Transfer

/-!
# Lumen.Cluster.Replicas

All nodes of a cluster over one committed log.  A node applies entries, commits,
builds snapshots, restarts, and takes over the archive of another node, which has run
likewise and may have taken over an archive itself.

An archive has the last commits of its node, so installing one puts a node where a
restart would put the node that has built it (`ReplicaInv.installed`): it goes on
behind the position the metadata names, with collections that may be ahead of it.
What replay keeps over restarts it keeps over installations.

* `replicas_agree` — two nodes that have reached one position hold the same, which is what
  the log says.
* `replicas_apply` — no node stops at an entry of a replayable log.
-/

namespace Lumen

open Lib Prog Raft Replay

section
variable [Ext]

/-- The states of a node of a cluster over a log, with its position and the last position its
collections have seen.  `back` says which moves of the position a restart or a snapshot may
make. -/
inductive ReplicaRun (log : Nat → Raft.Entry) (back : Nat → Nat → Prop) :
    NodeDisk → StateMachine → Nat → Nat → Prop where
  | start {d : NodeDisk} {m : StateMachine} (ord : IterOrder)
      (h : (StateMachine.restart ord).run .empty default = (.ok (), d, m)) :
      ReplicaRun log back d m 0 0
  | apply {d d' : NodeDisk} {m m' : StateMachine} {r top : Nat} {response : Response}
      (ord : IterOrder) (prev : ReplicaRun log back d m r top)
      (h : (StateMachine.applyEntry ord (log (r + 1))).run d m = (.ok response, d', m')) :
      ReplicaRun log back d' m' (r + 1) (max top (r + 1))
  | checkpoint {d d' : NodeDisk} {m m' : StateMachine} {r top : Nat} (ord : IterOrder)
      (mark : LogMark) (prev : ReplicaRun log back d m r top) (hmark : mark.index ≤ r)
      (h : (nodeCheckpoint ord mark).run d m = (.ok (), d', m')) : ReplicaRun log back d' m' r top
  | commit {d d' : NodeDisk} {m m' : StateMachine} {r top : Nat} (name : String)
      (mark : LogMark) (prev : ReplicaRun log back d m r top) (hmark : mark.index ≤ r)
      (h : (nodeCommit name mark).run d m = (.ok (), d', m')) : ReplicaRun log back d' m' r top
  | restart {d d₁ d' : NodeDisk} {m m' : StateMachine} {r top : Nat}
      {applied : Option LogId × StoredMembership} (ord ord' : IterOrder)
      (prev : ReplicaRun log back d m r top)
      (hcrash : d₁ = d ∨ ∃ ord mark, mark.index ≤ r ∧ d₁ ∈ (nodeCheckpoint ord mark).crashes d m)
      (h : (StateMachine.restart ord).run d₁ default = (.ok (), d', m'))
      (happlied : ((StateMachine.appliedState ord').run d' m').1 = .ok applied)
      (hback : back r (positionOf applied.1)) :
      ReplicaRun log back d' m' (positionOf applied.1) top
  | build {d d' : NodeDisk} {m m' : StateMachine} {r top : Nat} {info : SnapshotMeta}
      (ord : IterOrder) (prev : ReplicaRun log back d m r top)
      (h : (StateMachine.buildSnapshot ord).run d m = (.ok info, d', m')) :
      ReplicaRun log back d' m' r top
  | install {d d' dl dl' : NodeDisk} {m m' ml ml' : StateMachine} {r top rl topl : Nat}
      {info : SnapshotMeta} {a : Archive} (ord ordl : IterOrder)
      (donor : ReplicaRun log back dl ml rl topl)
      (hbuild : (StateMachine.buildSnapshot ordl).run dl ml = (.ok info, dl', ml'))
      (ha : dl'.data.snapshots.currentTar = some a)
      (hback : back rl (positionOf info.lastLogId)) (prev : ReplicaRun log back d m r top)
      (h : (StateMachine.installSnapshot ord info a).run d m = (.ok (), d', m')) :
      ReplicaRun log back d' m' (positionOf info.lastLogId) topl

/-- A node that takes over no snapshots. -/
theorem ReplayRun.replica {log : Nat → Raft.Entry} {back : Nat → Nat → Prop} {d : NodeDisk}
    {m : StateMachine} {r top : Nat} (h : ReplayRun log back d m r top) :
    ReplicaRun log back d m r top := by
  induction h with
  | start ord h => exact .start ord h
  | apply ord _ h ih => exact .apply ord ih h
  | checkpoint ord mark _ hmark h ih => exact .checkpoint ord mark ih hmark h
  | commit name mark _ hmark h ih => exact .commit name mark ih hmark h
  | restart ord ord' _ hcrash h happlied hback ih =>
    exact .restart ord ord' ih hcrash h happlied hback

/-! ## snapshots -/

variable {cmds : Nat → Proto.Command} {top : Nat}

theorem Base.withSnapshots {d : Disk} {m : Catalog} (h : Base cmds top d m) (s : SnapshotsDir) :
    Base cmds top { d with snapshots := s } m where
  sound := ⟨fun n e hf => (h.sound.entry n e hf).congr rfl, h.sound.inj⟩
  owned := ⟨h.owned.dir, h.owned.live⟩
  current := h.current
  noOrphans := h.noOrphans
  wal := h.wal

variable {d dl : NodeDisk} {m ml : StateMachine} {a : Archive} {info : SnapshotMeta}
  {l : List (String × Listed)}

/-- What has been built and could be installed. -/
theorem Archive.Holds.follows (h : a.Holds dl.data ml.catalog l) (hwal : d.data.wal = ∅)
    {ord : IterOrder} {d' : NodeDisk} {m' : StateMachine}
    (hrun : (StateMachine.installSnapshot ord info a).run d m = (.ok (), d', m')) :
    Follows info a dl.data ml.catalog l d' m' :=
  (post_of_wp (h.wp_installSnapshot hwal (h.freeAt_of_run hrun) info ord m) hrun).1

/-- A node that follows has the directories of the other, and no more. -/
theorem Follows.index_eq (h : Follows info a dl.data ml.catalog l d m)
    (hh : a.Holds dl.data ml.catalog l) (hb : Base cmds top dl.data ml.catalog) (u : Uuid) :
    d.data.index u = dl.data.index u := by
  by_cases hlive : ∃ n e, ml.catalog.collections.find? n = some e ∧ e.uuid = u
  · obtain ⟨n, e, hf, rfl⟩ := hlive
    exact h.copied.index n e hf
  · have hleader : dl.data.index u = none :=
      Option.eq_none_iff_forall_ne_some.mpr fun ix hix =>
        hlive (hb.noOrphans u (Disk.contains_of_index hix))
    have hfollower : d.data.index u = none := by
      refine Option.eq_none_iff_forall_ne_some.mpr fun ix hix => hlive ?_
      obtain ⟨p, hp, hpu⟩ := h.swept u (Disk.contains_of_index hix)
      obtain ⟨e, hf, hx⟩ := mem_listing.mp (hh.perm.mem_iff.mp hp)
      exact ⟨p.1, e, hf, by rw [← hpu, ← hx]; rfl⟩
    rw [hleader, hfollower]

/-- A node that follows is a node like the other after a restart. -/
theorem Follows.base (h : Follows info a dl.data ml.catalog l d m)
    (hh : a.Holds dl.data ml.catalog l) (hb : Base cmds top dl.data ml.catalog) :
    Base cmds top d.data m.catalog := by
  have hb' : Base cmds top dl.data m.catalog := hb.reopened h.copied.map
  obtain ⟨d₀, hwal, hi⟩ := h.installed
  refine ⟨h.copied.sound hb.sound, ⟨fun u ix hix => ?_, hb'.owned.live⟩, ?_, fun u hu => ?_,
    hi.wal.trans hwal⟩
  · rw [h.index_eq hh hb] at hix
    exact hb'.owned.dir u ix hix
  · obtain ⟨bytes, hpb, hdec⟩ := hh.formed.catalogPb
    refine ⟨ml.catalog.seq, l, ?_, ?_⟩
    · rw [Disk.Lists, Catalog.loadSnapshot, hi.catalogPb, hpb]
      simp only [hdec]
    · rw [h.copied.map.listing hb.sound]
      exact hh.perm
  · obtain ⟨p, hp, hpu⟩ := h.swept u hu
    obtain ⟨e, hf, hx⟩ := mem_listing.mp (hh.perm.mem_iff.mp hp)
    obtain ⟨e', hf', hu'⟩ := h.copied.find? hb.sound hf
    exact ⟨p.1, e', hf', by rw [hu', ← hpu, ← hx]; rfl⟩

/-! ## invariants of runs -/

/-- An invariant of the steps of a run that depends on the directories only. -/
structure ReplicaInv (cmds : Nat → Proto.Command) (back : Nat → Nat → Prop)
    (I : Nat → Nat → Disk → Catalog → Prop) : Prop extends RunInv cmds back I where
  congr : ∀ r top d d' m, I r top d m → Base cmds top d' m → (∀ u, d'.index u = d.index u) →
    I r top d' m

variable {back : Nat → Nat → Prop} {I : Nat → Nat → Disk → Catalog → Prop} {r : Nat}

/-- **An installation is a restart of the node that has built the archive.** -/
theorem ReplicaInv.installed (hI : ReplicaInv cmds back I) (h : I r top dl.data ml.catalog)
    (hh : a.Holds dl.data ml.catalog l) (happ : AppliedAt dl ml info.lastLogId)
    (hback : back r (positionOf info.lastLogId))
    (hfol : Follows info a dl.data ml.catalog l d m) :
    I (positionOf info.lastLogId) top d.data m.catalog := by
  have hb := hI.base _ _ _ _ h
  have hre : I (positionOf info.lastLogId) top dl.data m.catalog :=
    hI.reopen r top _ _ _ _ h hfol.copied.map hback fun n e hf => happ.le hf
  exact hI.congr _ _ _ _ _ hre (hfol.base hh hb) (hfol.index_eq hh hb)

variable {log : Nat → Raft.Entry} {d' : NodeDisk} {m' : StateMachine}

/-- **Every state of every node** satisfies an invariant of the steps. -/
theorem ReplicaRun.inv (hI : ReplicaInv (commandsOf log) back I)
    (hlog : ∀ i, (log i).logId.index = i) (h : ReplicaRun log back d m r top) :
    I r top d.data m.catalog := by
  induction h with
  | start ord h => exact hI.started h
  | apply ord prev h ih => exact hI.applied hlog ih h
  | checkpoint ord mark prev hmark h ih => exact post_of_wp (hI.wp_nodeCheckpoint ih hmark ord) h
  | commit name mark prev hmark h ih => exact hI.committed ih hmark h
  | restart ord ord' prev hcrash h happlied hback ih =>
    exact hI.restarted ih hcrash h happlied hback
  | build ord prev h ih =>
    have hb := hI.base _ _ _ _ ih
    obtain ⟨s, _, _, rfl, hcat, _⟩ := post_of_wp (StateMachine.wp_buildSnapshot hb.sound ord) h
    rw [hcat]
    exact hI.congr _ _ _ _ _ ih (hb.withSnapshots s) fun _ => rfl
  | install ord ordl donor hbuild ha hback prev h ihl ih =>
    have hb := hI.base _ _ _ _ ih
    have hbl := hI.base _ _ _ _ ihl
    obtain ⟨s, a', l, rfl, _, htar, hh, happ⟩ :=
      post_of_wp (StateMachine.wp_buildSnapshot hbl.sound ordl) hbuild
    have hsame : a' = _ := Option.some.inj (htar.symm.trans ha)
    subst hsame
    exact hI.installed ihl hh happ hback (hh.follows hb.wal h)

/-! ## agreement -/

omit [Ext] in
theorem slotOf_congr {d d' : Disk} {m : Catalog} (h : ∀ u, d'.index u = d.index u) (n : String) :
    slotOf d' m n = slotOf d m n := by
  have hidx : d'.index = d.index := funext h
  simp only [slotOf, Catalog.Entry.toGen, Collection.pending, hidx]

theorem Converging.replicaInv (hd : DistinctUuids cmds) (hstale : ∀ n, (logOf cmds n).NoStale) :
    ReplicaInv cmds (fun r r' => r' ≤ r) (Converging cmds) where
  toRunInv := Converging.runInv hd hstale
  congr r top d d' m h hb hidx := ⟨hb, fun n => by rw [slotOf_congr hidx]; exact h.slots n⟩

theorem Tracked.replicaInv (hd : DistinctUuids cmds) (back : Nat → Nat → Prop) :
    ReplicaInv cmds back (Tracked cmds) where
  toRunInv := Tracked.runInv hd back
  congr r top d d' m h hb hidx := by
    refine ⟨hb, fun n e hf => ?_⟩
    rw [Disk.mark_congr (hidx e.uuid)]
    exact h.birth n e hf

/-- **Replicas agree.**  Two nodes of a cluster that have applied the log up to `n`, each with
its own checkpoints, restarts, snapshots and installations of snapshots of others, show the
same collections after a checkpoint: those of the log. -/
theorem replicas_agree (hlog : ∀ i, (log i).logId.index = i)
    (hd : DistinctUuids (commandsOf log)) (hstale : ∀ n, (logOf (commandsOf log) n).NoStale)
    {d₁ d₂ d₁' d₂' : NodeDisk} {m₁ m₂ m₁' m₂' : StateMachine} {n : Nat} {ord₁ ord₂ : IterOrder}
    {mark₁ mark₂ : LogMark} (h₁ : ReplicaRun log (fun r r' => r' ≤ r) d₁ m₁ n n)
    (h₂ : ReplicaRun log (fun r r' => r' ≤ r) d₂ m₂ n n) (hmark₁ : mark₁.index ≤ n)
    (hmark₂ : mark₂.index ≤ n)
    (hcheck₁ : (nodeCheckpoint ord₁ mark₁).run d₁ m₁ = (.ok (), d₁', m₁'))
    (hcheck₂ : (nodeCheckpoint ord₂ mark₂).run d₂ m₂ = (.ok (), d₂', m₂')) (name : String) :
    m₁'.catalog.contents name = m₂'.catalog.contents name ∧
      m₁'.catalog.contents name =
        ((logOf (commandsOf log) name).stateAt n).map fun g => (g.uuid, g.info, g.docs) := by
  have hI := Converging.replicaInv hd hstale
  have hone := (h₁.inv hI hlog).contents hd hmark₁ hcheck₁ name
  have htwo := (h₂.inv hI hlog).contents hd hmark₂ hcheck₂ name
  exact ⟨hone.trans htwo.symm, hone⟩

/-- **Replicas go on.**  In every state of every node, whatever snapshots it has taken over, the
next entry of a replayable log is applied without an error and without a panic. -/
theorem replicas_apply (hlog : ∀ i, (log i).logId.index = i) (hc : Replayable (commandsOf log))
    (h : ReplicaRun log (fun _ _ => True) d m r top) (ord : IterOrder) :
    ∃ response d' m', (StateMachine.applyEntryWith ord (log (r + 1))).run d m =
      (.ok response, d', m') :=
  (h.inv (Tracked.replicaInv hc.distinct _) hlog).applies hlog hc ord

end

section
open Reference

/-- The node that has applied both entries, after a checkpoint. -/
def checkpointedTwo : NodeDisk × StateMachine :=
  after (nodeCheckpoint .stored ⟨1, 1, 2⟩) caughtUp

theorem checkpointedTwo_run (back : Nat → Nat → Prop) :
    ReplicaRun createAndIndex back checkpointedTwo.1 checkpointedTwo.2 2 2 :=
  .checkpoint .stored ⟨1, 1, 2⟩ (caughtUp_run back).replica (Nat.le_refl 2)
    (Prod.ext (by decide +kernel) rfl)

/-- Its snapshot, taken over by a new node. -/
theorem snapshotTaken_run (back : Nat → Nat → Prop) (hback : back 2 2) :
    ∃ info a d m, (StateMachine.installSnapshot .stored info a).run freshNode.1 freshNode.2 =
        (.ok (), d, m) ∧ ReplicaRun createAndIndex back d m 2 2 := by
  have hdonor := checkpointedTwo_run back
  have hsound := (hdonor.inv (Tracked.replicaInv createAndIndex_distinct back)
    (logOfCommands_index _)).base.sound
  obtain ⟨info, dl, ml, hbuild, s, a, l, rfl, _, htar, hh, happ⟩ :=
    run_ok_of_wp (StateMachine.wp_buildSnapshot hsound .stored)
  have hmarks : ∀ p ∈ checkpointedTwo.2.catalog.collections.toList,
      checkpointedTwo.1.data.mark p.2.uuid = ⟨1, 1, 2⟩ := by decide +kernel
  have hname : (checkpointedTwo.2.catalog.collections.find? "a").isSome = true := by decide +kernel
  have hpos : positionOf info.lastLogId = 2 := by
    rcases happ with ⟨hnone, _⟩ | ⟨mark, ⟨⟨n, e, hf, rfl⟩, _⟩, hinfo⟩
    · rw [hnone "a"] at hname
      contradiction
    · rw [hinfo, hmarks _ (OrdMap.find?_eq_some_iff.mp hf)]
      rfl
  have hwal : freshNode.1.data.wal = ∅ := by decide +kernel
  have hfree : freshNode.1.data.FreeAt checkpointedTwo.2.catalog.seq l := by
    intro u hu
    contradiction
  obtain ⟨_, d, m, hinst, _⟩ :=
    run_ok_of_wp (hh.wp_installSnapshot hwal hfree info .stored freshNode.2)
  refine ⟨info, a, d, m, hinst, ?_⟩
  have hrun := ReplicaRun.install .stored .stored hdonor hbuild htar (by rwa [hpos])
    (.start .stored (Prod.ext (by decide +kernel) rfl)) hinst
  rwa [hpos] at hrun

/-- The new node shows the document of the other. -/
theorem replicas_agree_after_install :
    ∃ info a d m d' m',
      (StateMachine.installSnapshot .stored info a).run freshNode.1 freshNode.2 = (.ok (), d, m) ∧
      (nodeCheckpoint .stored ⟨1, 1, 2⟩).run d m = (.ok (), d', m') ∧
      m'.catalog.contents "a" = checkpointedTwo.2.catalog.contents "a" ∧
      m'.catalog.contents "a" = ((logOf (commandsOf createAndIndex) "a").stateAt 2).map
        (fun g => (g.uuid, g.info, g.docs)) ∧
      (checkpointedTwo.2.catalog.contents "a").map (fun c => c.2.2 "x") =
        some (some "\x7b\x7d".toUTF8.toList) := by
  obtain ⟨info, a, d, m, hinst, hrun⟩ :=
    snapshotTaken_run (fun r r' => r' ≤ r) (Nat.le_refl 2)
  have hI := hrun.inv (Converging.replicaInv createAndIndex_distinct createAndIndex_noStale)
    (logOfCommands_index _)
  have hw : wp (nodeCheckpoint .stored ⟨1, 1, 2⟩) (fun _ _ _ => True) (fun _ _ _ => False)
      (fun _ => True) d m :=
    wp_onCatalog _ _ ((Converging.stable createAndIndex_distinct
      (Nat.le_refl 2)).wp_checkpointApplied hI (fun _ _ _ => trivial)
      (fun _ _ _ _ => trivial) .stored)
  obtain ⟨_, d', m', hcheck, _⟩ := run_ok_of_wp hw
  have hagree := replicas_agree (logOfCommands_index _) createAndIndex_distinct
    createAndIndex_noStale hrun (caughtUp_run _).replica (Nat.le_refl 2) (Nat.le_refl 2) hcheck
    (Prod.ext (by decide +kernel) rfl : (nodeCheckpoint .stored ⟨1, 1, 2⟩).run caughtUp.1
      caughtUp.2 = (.ok (), checkpointedTwo.1, checkpointedTwo.2)) "a"
  exact ⟨info, a, d, m, d', m', hinst, hcheck, hagree.1, hagree.2, by decide +kernel⟩

/-- The new node applies the next entry. -/
theorem replicas_apply_after_install :
    ∃ info a d m response d' m',
      (StateMachine.installSnapshot .stored info a).run freshNode.1 freshNode.2 = (.ok (), d, m) ∧
      (StateMachine.applyEntryWith .stored (createAndIndex 3)).run d m = (.ok response, d', m') := by
  obtain ⟨info, a, d, m, hinst, hrun⟩ := snapshotTaken_run (fun _ _ => True) trivial
  obtain ⟨response, d', m', happly⟩ :=
    replicas_apply (logOfCommands_index _) createAndIndex_replayable hrun .stored
  exact ⟨info, a, d, m, response, d', m', hinst, happly⟩

end

end Lumen
