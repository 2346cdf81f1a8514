import Lumen.Standalone.Recovery

/-!
# Lumen.Standalone.Marks

Sequence numbers and commit marks of a single node whose appends may fail.

A checkpoint marks its commits with the number the catalog has reached, whether
or not that number is in the write-ahead log.  `open` counts on from the catalog
file and the log.  `marks_within_seq` says that the marks never get ahead as long
as no checkpoint is cut between a commit and its rename right after a number was
drawn in vain.
-/

namespace Lumen

open Lib Prog Replay

section
variable [Ext]

/-- The call of an operation whose append fails and writes nothing. -/
def Op.callUnlogged (failure : Error) (minted : Uuid) (op : Op) : CatalogM Unit :=
  op.callWith (fun _ => do
    let _ ← Catalog.nextSeq
    Prog.throw failure) minted

/-- Runs of a node whose appends may fail.  In a `steady` run a cut checkpoint has
renamed its catalog file, or else the directory resumes at the number the catalog
has reached; and a cut `open` was replaying a safe tail. -/
inductive MarkedRun (steady : Prop) : Disk → Option Catalog → Spec → List Uuid → Prop where
  | start : MarkedRun steady .empty none (fun _ => none) []
  | opened {d d' : Disk} {m' : Catalog} {s : Spec} {used : List Uuid} (ord : IterOrder)
      (prev : MarkedRun steady d none s used)
      (h : (Catalog.openCatalog ord).run d .closed = (.ok (), d', m')) :
      MarkedRun steady d' (some m') s used
  | acknowledged {d d' : Disk} {m m' : Catalog} {s : Spec} {used : List Uuid} (op : Op)
      (minted : Uuid) (prev : MarkedRun steady d (some m) s used) (hnew : minted ∉ used)
      (h : (op.call minted).run d m = (.ok (), d', m')) :
      MarkedRun steady d' (some m') (op.apply minted s) (minted :: used)
  | refused {d d' : Disk} {m m' : Catalog} {s : Spec} {used : List Uuid} {err : Error} (op : Op)
      (minted : Uuid) (prev : MarkedRun steady d (some m) s used) (hnew : minted ∉ used)
      (h : (op.call minted).run d m = (.error err, d', m')) :
      MarkedRun steady d' (some m') s (minted :: used)
  | unlogged {d d' : Disk} {m m' : Catalog} {s : Spec} {used : List Uuid} {err : Error} (op : Op)
      (minted : Uuid) (failure : Error) (prev : MarkedRun steady d (some m) s used)
      (hnew : minted ∉ used)
      (h : (op.callUnlogged failure minted).run d m = (.error err, d', m')) :
      MarkedRun steady d' (some m') s (minted :: used)
  | checkpoint {d d' : Disk} {m m' : Catalog} {s : Spec} {used : List Uuid} (ord : IterOrder)
      (prev : MarkedRun steady d (some m) s used)
      (h : (Catalog.checkpoint ord).run d m = (.ok (), d', m')) :
      MarkedRun steady d' (some m') s used
  | stopped {d : Disk} {m : Catalog} {s : Spec} {used : List Uuid}
      (prev : MarkedRun steady d (some m) s used) : MarkedRun steady d none s used
  | cut {d d' : Disk} {m : Catalog} {s : Spec} {used : List Uuid} (ord : IterOrder)
      (prev : MarkedRun steady d (some m) s used)
      (hcut : d' ∈ (Catalog.checkpoint ord).crashes d m)
      (hsteady : steady → d.resumesAt = some m.seq ∨ d'.appliedSeq = some m.seq) :
      MarkedRun steady d' none s used
  | cutOpen {d d' : Disk} {s : Spec} {used : List Uuid} (ord : IterOrder)
      (prev : MarkedRun steady d none s used)
      (hcut : d' ∈ (Catalog.openCatalog ord).crashes d .closed) (hsteady : steady → TailOk d) :
      MarkedRun steady d' none s used

variable {cmds : Nat → Proto.Command} {top : Nat} {d d' : Disk} {m m' : Catalog} {s : Spec}
  {used : List Uuid} {minted : Uuid}

/-- Every mark of a live collection is within the catalog's number. -/
def MarksWithin (d : Disk) (m : Catalog) : Prop :=
  ∀ name e, m.collections.find? name = some e → (d.mark e.uuid).index ≤ m.seq

theorem Running.marksWithin (h : Running cmds top d m) : MarksWithin d m := by
  intro name e hf
  obtain ⟨a, l, es, hd, _⟩ := h.disk
  obtain ⟨ix, hix, hsaved⟩ := hd.dirs.saved name _ (h.exact.stateAt hf)
  have hix : d.index e.uuid = some ix := hix
  have hmark : (d.mark e.uuid).index = ix.mark := by
    rw [Disk.mark, hix]
    rfl
  rw [hmark]
  exact hsaved.mark_le.trans h.le

theorem Serving.marksWithin (h : Serving s used d m) : MarksWithin d m := by
  obtain ⟨cmds, top, hrun, _⟩ := h
  exact hrun.marksWithin

/-- An operation whose append fails has drawn a number at most. -/
theorem Running.wp_callUnlogged (h : Running cmds top d m) (op : Op) (failure : Error) :
    wp (op.callUnlogged failure minted) (fun _ _ _ => True)
      (fun _ d' m' => Running cmds top d' m') (fun _ => False) d m :=
  op.wp_callWith h.exact.sound (fun _ => h) (fun _ _ _ _ _ => trivial) fun _ _ _ => h.wasted

/-- **Every state of a steady run**: a running catalog serves, and a directory
holds, what the acknowledged operations amount to. -/
theorem MarkedRun.inv {o : Option Catalog} (h : MarkedRun True d o s used) :
    match o with
    | none => Holding s used d
    | some m => Serving s used d m := by
  induction h with
  | start => exact Holding.empty
  | opened ord prev h ih => exact (post_of_wp (ih.wp_open ord TailOk (tailSafe_of_tailOk _)) h).1
  | acknowledged op minted prev hnew h ih =>
    obtain ⟨cmds, top, hrun, rfl, hu⟩ := ih
    exact post_of_wp (hrun.wp_call hu hnew op) h
  | refused op minted prev hnew h ih =>
    obtain ⟨cmds, top, hrun, rfl, hu⟩ := ih
    exact error_of_wp (hrun.wp_call hu hnew op) h
  | unlogged op minted failure prev hnew h ih =>
    obtain ⟨cmds, top, hrun, rfl, hu⟩ := ih
    exact (error_of_wp (hrun.wp_callUnlogged op failure) h).serving hu
  | checkpoint ord prev h ih =>
    obtain ⟨cmds, top, hrun, rfl, hu⟩ := ih
    exact post_of_wp (hrun.wp_checkpoint hu ord) h
  | stopped prev ih => exact ih.holding
  | cut ord prev hcut hsteady ih =>
    obtain ⟨cmds, top, hrun, rfl, hu⟩ := ih
    exact crashes_of_wp (hrun.wp_checkpoint hu ord) _ hcut (hsteady trivial)
  | cutOpen ord prev hcut hsteady ih =>
    exact crashes_of_wp (ih.wp_open ord TailOk (tailSafe_of_tailOk _)) _ hcut (hsteady trivial)

/-- **Numbers stay ahead of marks**: in every state of a steady run, the marks of
the live collections are within the number of the catalog, and so no acknowledged
write is taken for committed: opening succeeds and shows them all. -/
theorem marks_within_seq {o : Option Catalog} (h : MarkedRun True d o s used) :
    (∀ m, o = some m → MarksWithin d m) ∧
      ∀ ord, ∃ d' m', (Catalog.openCatalog ord).run d .closed = (.ok (), d', m') ∧
        MarksWithin d' m' ∧ ∀ name, m'.shown name = s name := by
  have hhold : Holding s used d := by
    cases o with
    | none => exact h.inv
    | some m => exact Serving.holding h.inv
  refine ⟨?_, fun ord => ?_⟩
  · rintro m rfl
    exact Serving.marksWithin h.inv
  · obtain ⟨_, d', m', hrun, hserving, hshown⟩ :=
      run_ok_of_wp (hhold.wp_open ord TailOk (tailSafe_of_tailOk d))
    exact ⟨d', m', hrun, hserving.marksWithin, fun name => by rw [hshown]⟩

end

section
open Reference

/-- The node of `createdA` after a delete whose append failed. -/
def unloggedDelete : Disk × Catalog :=
  after ((Op.delete "a" "x").callUnlogged (.io .unexpectedEof) (exampleUuid 2)) checkpointedA

theorem checkpointedA_marked (steady : Prop) :
    MarkedRun steady checkpointedA.1 (some checkpointedA.2)
      ((Op.create "a" emptyMapping).apply (exampleUuid 1) fun _ => none) [exampleUuid 1] :=
  .checkpoint .stored
    (.acknowledged (.create "a" emptyMapping) (exampleUuid 1)
      (.opened .stored .start (Prod.ext (by decide +kernel) rfl)) (by decide)
      (Prod.ext (by decide +kernel) rfl)) (Prod.ext (by decide +kernel) rfl)

theorem unloggedDelete_marked (steady : Prop) :
    MarkedRun steady unloggedDelete.1 (some unloggedDelete.2)
      ((Op.create "a" emptyMapping).apply (exampleUuid 1) fun _ => none)
      [exampleUuid 2, exampleUuid 1] :=
  have hrun : ((Op.delete "a" "x").callUnlogged (.io .unexpectedEof) (exampleUuid 2)).run
      checkpointedA.1 checkpointedA.2 = (.error (.io .unexpectedEof), unloggedDelete) :=
    Prod.ext (by decide +kernel) rfl
  .unlogged (.delete "a" "x") (exampleUuid 2) (.io .unexpectedEof) (checkpointedA_marked steady)
    (by decide) hrun

/-- After a failed append the checkpoint may be cut once its catalog file is renamed. -/
theorem marks_within_seq_after_rename :
    ∃ cut ∈ (Catalog.checkpoint .stored).crashes unloggedDelete.1 unloggedDelete.2,
      (∀ m, none = some m → MarksWithin cut m) ∧
        ∀ ord, ∃ d' m', (Catalog.openCatalog ord).run cut .closed = (.ok (), d', m') ∧
          MarksWithin d' m' ∧ ∀ name, m'.shown name =
            (Op.create "a" emptyMapping).apply (exampleUuid 1) (fun _ => none) name := by
  obtain ⟨cut, hcut, happ⟩ : ∃ cut ∈ (Catalog.checkpoint .stored).crashes unloggedDelete.1
      unloggedDelete.2, cut.appliedSeq = some unloggedDelete.2.seq := by decide +kernel
  exact ⟨cut, hcut, marks_within_seq
    (.cut .stored (unloggedDelete_marked True) hcut fun _ => .inr happ)⟩

/-- The checkpoint that follows, cut behind its first commit. -/
def cutCheckpoint : Disk :=
  ((Catalog.checkpoint .stored).crashes unloggedDelete.1 unloggedDelete.2).headD .empty

/-- Cut before the rename, the mark is one ahead of the reopened catalog, and the
next acknowledged write is not replayed. -/
theorem mark_ahead_of_seq :
    MarkedRun False cutCheckpoint none
        ((Op.create "a" emptyMapping).apply (exampleUuid 1) fun _ => none)
        [exampleUuid 2, exampleUuid 1] ∧
      let reopened := after (Catalog.openCatalog .stored) (cutCheckpoint, .closed)
      let upsert := (Op.upsert "a" (some "x") emptyObject).call (exampleUuid 3)
      let recovered := (Catalog.openCatalog .stored).run (after upsert reopened).1 .closed
      ((Catalog.openCatalog .stored).run cutCheckpoint .closed).1 = .ok () ∧
        reopened.2.seq = 1 ∧
        (reopened.2.collections.find? "a").map (fun e => (reopened.1.mark e.uuid).index) = some 2 ∧
        (upsert.run reopened.1 reopened.2).1 = .ok () ∧ recovered.1 = .ok () ∧
        (recovered.2.2.shown "a").map (fun c => c.2 "x") = some none :=
  ⟨.cut .stored (unloggedDelete_marked False) (by decide +kernel) False.elim, by decide +kernel⟩

end

end Lumen
