import Lumen.Catalog.Builder
import Lumen.Catalog.Listing
import Lumen.StateMachine

/-!
# Lumen.Cluster.Run

Runs of one node over a committed log: entries applied one after the other,
checkpoints and commits of single collections in between, and restarts, after
which the node applies again from the position it reports.

`Base` is what every state of such a run satisfies, whatever the log.
-/

namespace Lumen

open Lib Prog Raft Replay

/-- The command an entry carries. -/
def Raft.Entry.command (e : Raft.Entry) : Proto.Command :=
  match e.payload with
  | .normal command => command
  | _ => ⟨none⟩

/-- The commands of a log. -/
def commandsOf (log : Nat → Raft.Entry) (i : Nat) : Proto.Command := (log i).command

/-- The position an applied point stands for. -/
def positionOf (applied : Option LogId) : Nat := (applied.map LogId.index).getD 0

section
variable [Ext]

/-- The checkpoint task's call. -/
def nodeCheckpoint (ord : IterOrder) (mark : LogMark) : NodeM Unit :=
  StateMachine.onCatalog StateMachine.writeSm (Catalog.checkpointApplied ord mark)

/-- The linearizable read path's call. -/
def nodeCommit (name : String) (mark : LogMark) : NodeM Unit :=
  StateMachine.onCatalog StateMachine.writeSm (Catalog.commitCollection name mark)

/-- The states of a node over a log: its disk and memory, the position it has
applied since its last start, and the last position it has ever applied.
Restarts happen between entries, also in the middle of a checkpoint; `back`
says which moves of the position a restart may make. -/
inductive ReplayRun (log : Nat → Raft.Entry) (back : Nat → Nat → Prop) :
    NodeDisk → StateMachine → Nat → Nat → Prop where
  | start {d : NodeDisk} {m : StateMachine} (ord : IterOrder)
      (h : (StateMachine.restart ord).run .empty default = (.ok (), d, m)) :
      ReplayRun log back d m 0 0
  | apply {d d' : NodeDisk} {m m' : StateMachine} {r top : Nat} {response : Response}
      (ord : IterOrder) (prev : ReplayRun log back d m r top)
      (h : (StateMachine.applyEntry ord (log (r + 1))).run d m = (.ok response, d', m')) :
      ReplayRun log back d' m' (r + 1) (max top (r + 1))
  | checkpoint {d d' : NodeDisk} {m m' : StateMachine} {r top : Nat} (ord : IterOrder)
      (mark : LogMark) (prev : ReplayRun log back d m r top) (hmark : mark.index ≤ r)
      (h : (nodeCheckpoint ord mark).run d m = (.ok (), d', m')) : ReplayRun log back d' m' r top
  | commit {d d' : NodeDisk} {m m' : StateMachine} {r top : Nat} (name : String)
      (mark : LogMark) (prev : ReplayRun log back d m r top) (hmark : mark.index ≤ r)
      (h : (nodeCommit name mark).run d m = (.ok (), d', m')) : ReplayRun log back d' m' r top
  | restart {d d₁ d' : NodeDisk} {m m' : StateMachine} {r top : Nat}
      {applied : Option LogId × StoredMembership} (ord ord' : IterOrder)
      (prev : ReplayRun log back d m r top)
      (hcrash : d₁ = d ∨ ∃ ord mark, mark.index ≤ r ∧ d₁ ∈ (nodeCheckpoint ord mark).crashes d m)
      (h : (StateMachine.restart ord).run d₁ default = (.ok (), d', m'))
      (happlied : ((StateMachine.appliedState ord').run d' m').1 = .ok applied)
      (hback : back r (positionOf applied.1)) :
      ReplayRun log back d' m' (positionOf applied.1) top

/-! ## what always holds -/

/-- What holds of a node's catalog after every step of a run. -/
structure Base (cmds : Nat → Proto.Command) (top : Nat) (d : Disk) (m : Catalog) : Prop where
  sound : Sound d m
  owned : Owned cmds top d m
  current : Current d m
  noOrphans : NoOrphans d m
  wal : d.wal = ∅

variable {cmds : Nat → Proto.Command} {top top' : Nat} {d d' : Disk} {m m' : Catalog}

theorem Owned.mono (h : Owned cmds top d m) (hle : top ≤ top') : Owned cmds top' d m where
  dir u ix hix := by
    obtain ⟨i, n, x, hi, hrest⟩ := h.dir u ix hix
    exact ⟨i, n, x, hi.trans hle, hrest⟩
  live n e hf := by
    obtain ⟨hseq, i, hi, hrest⟩ := h.live n e hf
    exact ⟨hseq.trans hle, i, hi.trans hle, hrest⟩

theorem Base.mono (h : Base cmds top d m) (hle : top ≤ top') : Base cmds top' d m :=
  { h with owned := h.owned.mono hle }

theorem Base.effect {ord : IterOrder} {i : Nat} (h : Base cmds top d m) (hd : DistinctUuids cmds)
    (hi : i ≤ top) (he : Effect ord i (cmds i) d m d' m') : Base cmds top d' m' where
  sound := he.sound rfl h.sound h.owned hd
  owned := he.owned rfl hi h.owned hd
  current := he.current h.current
  noOrphans := he.noOrphans h.noOrphans
  wal := he.wal.trans h.wal

theorem Base.committed {name : String} {e : Catalog.Entry} {ix : Index} (h : Base cmds top d m)
    (hf : m.collections.find? name = some e) (hix : d.index e.uuid = some ix) (mark : LogMark) :
    Base cmds top (d.committed e ix mark) (m.committed name e ix) where
  sound := h.sound.committed hf hix mark
  owned := h.owned.committed h.sound hf hix mark
  current := h.current.committed hf
  noOrphans := h.noOrphans.committed hix
  wal := h.wal

theorem Base.withCatalog (h : Base cmds top d m) (ord : IterOrder) (a : Nat) :
    Base cmds top (d.withCatalog (Catalog.snapshotProto ord m a)) m where
  sound := ⟨fun n e hf => (h.sound.entry n e hf).congr rfl, h.sound.inj⟩
  owned := ⟨h.owned.dir, h.owned.live⟩
  current := Current.withCatalog ord m a
  noOrphans := h.noOrphans
  wal := h.wal

/-- A temporary catalog file changes nothing. -/
theorem Base.withTmp (h : Base cmds top d m) (tmp : Option Bytes) :
    Base cmds top { d with catalogTmp := tmp } m where
  sound := ⟨fun n e hf => (h.sound.entry n e hf).congr rfl, h.sound.inj⟩
  owned := ⟨h.owned.dir, h.owned.live⟩
  current := h.current
  noOrphans := h.noOrphans
  wal := h.wal

/-! ## checkpoints -/

section
variable {E : Error → Disk → Catalog → Prop} {C : Disk → Prop} {mark : LogMark}

/-- Properties of the directories and the map that a checkpoint keeps:
commits keep them, and so does anything that leaves the directories alone. -/
structure Stable (I : Disk → Catalog → Prop) (mark : LogMark) : Prop where
  sound : ∀ d m, I d m → Sound d m
  commit : ∀ d m name e ix, I d m → m.collections.find? name = some e →
    d.index e.uuid = some ix → I (d.committed e ix mark) (m.committed name e ix)
  persist : ∀ d m ord, I d m → I (d.withCatalog (Catalog.snapshotProto ord m mark.index)) m
  tmp : ∀ d m tmp, I d m → I { d with catalogTmp := tmp } m

theorem Stable.and {I J : Disk → Catalog → Prop} (hI : Stable I mark) (hJ : Stable J mark) :
    Stable (fun d m => I d m ∧ J d m) mark where
  sound d m h := hI.sound d m h.1
  commit d m name e ix h hf hix :=
    ⟨hI.commit d m name e ix h.1 hf hix, hJ.commit d m name e ix h.2 hf hix⟩
  persist d m ord h := ⟨hI.persist d m ord h.1, hJ.persist d m ord h.2⟩
  tmp d m tmp h := ⟨hI.tmp d m tmp h.1, hJ.tmp d m tmp h.2⟩

theorem Stable.wp_checkpointApplied {I : Disk → Catalog → Prop} (hI : Stable I mark)
    {Q : Unit → Disk → Catalog → Prop} (h : I d m) (hC : ∀ d m, I d m → C d)
    (hQ : ∀ d' m', I d' m' →
      (∀ n e, m'.collections.find? n = some e → e.collection.writer = []) → Q () d' m')
    (ord : IterOrder) : wp (Catalog.checkpointApplied ord mark) Q E C d m := by
  rw [Catalog.checkpointApplied, Catalog.commitAll, wp_bind, wp_getMem, wp_bind]
  refine wp_imp (Catalog.wp_commitLoop I hI.sound hI.commit hC (ord.perm _) h) fun _ d' m' h' => ?_
  obtain ⟨h', hempty⟩ := h'
  refine Catalog.wp_persist ord mark.index (fun tmp => hC _ m' (hI.tmp d' m' tmp h'))
    (hC _ m' (hI.persist d' m' ord h')) (hQ _ m' (hI.persist d' m' ord h')
      fun n e hf => (hempty n e hf).writer)

theorem Stable.wp_commitCollection {I : Disk → Catalog → Prop} (hI : Stable I mark)
    {Q : Unit → Disk → Catalog → Prop} (h : I d m) (hC : ∀ d m, I d m → C d) {name : String}
    (hQ : ∀ d' m', I d' m' → Q () d' m')
    (hE : ∀ err, m.collections.find? name = none → E err d m) :
    wp (Catalog.commitCollection name mark) Q E C d m := by
  have hs := hI.sound d m h
  rw [Catalog.commitCollection, wp_bind, Catalog.get, wp_bind, wp_getMem]
  cases hf : m.collections.find? name with
  | none => exact hE _ hf
  | some e =>
    have he := hs.entry name e hf
    obtain ⟨ix, hix, _⟩ := he.index
    have hI' := hI.commit d m name e ix h hf hix
    rw [wp_pure, Catalog.commitBehind, wp_bind, he.uuid]
    refine Catalog.wp_committedMark hix ?_
    split
    · exact Catalog.wp_commit hs.based hf he.uuid hix (hC _ _ hI') (hQ _ _ hI')
    · exact hQ d m h

theorem Stable.checkpointApplied {I : Disk → Catalog → Prop} (hI : Stable I mark) (h : I d m)
    {ord : IterOrder} {r : Except Error Unit}
    (hr : (Catalog.checkpointApplied ord mark).run d m = (r, d', m')) : I d' m' := by
  have hw : wp (Catalog.checkpointApplied ord mark) (fun _ => I) (fun _ => I) (fun _ => True) d m :=
    hI.wp_checkpointApplied h (fun _ _ _ => trivial) (fun _ _ h' _ => h') ord
  exact final_of_wp hw hr

theorem Stable.commitCollection {I : Disk → Catalog → Prop} (hI : Stable I mark) (h : I d m)
    {name : String} {r : Except Error Unit}
    (hr : (Catalog.commitCollection name mark).run d m = (r, d', m')) : I d' m' := by
  have hw : wp (Catalog.commitCollection name mark) (fun _ => I) (fun _ => I) (fun _ => True) d m :=
    hI.wp_commitCollection h (fun _ _ _ => trivial) (fun _ _ h' => h') fun _ _ => h
  exact final_of_wp hw hr

end

/-! ## opening -/

section
variable {E : Error → Disk → Catalog → Prop} {C : Disk → Prop}

/-- Opening the directories of a node brings its collections back, without
what their writers had buffered. -/
theorem Base.wp_openCatalog {Q : Unit → Disk → Catalog → Prop} (h : Base cmds top d m)
    (ord : IterOrder) (m₀ : Catalog) (hQ : ∀ m', Reopened d m m' → Q () d m') :
    wp (Catalog.openCatalog ord) Q E C d m₀ := by
  refine h.current.wp_openCatalog h.sound h.wal ord m₀ fun m' hre _ => ?_
  exact (h.noOrphans.reopened hre h.sound).wp_sweepOrphans ord _ (hQ m' hre)

end

theorem Base.reopened (h : Base cmds top d m) (hre : Reopened d m m') : Base cmds top d m' where
  sound := h.sound.reopened hre
  owned := by
    refine ⟨h.owned.dir, fun n e' hf => ?_⟩
    obtain ⟨e, ix, hfe, _, rfl⟩ := hre.find? hf
    exact h.owned.live n e hfe
  current := by
    obtain ⟨a, l, hl, hperm⟩ := h.current
    exact ⟨a, l, hl, by rw [hre.listing h.sound]; exact hperm⟩
  noOrphans := h.noOrphans.reopened hre h.sound
  wal := h.wal

/-- The slots after opening. -/
theorem Base.slotOf_reopened (h : Base cmds top d m) (hd : DistinctUuids cmds)
    (hre : Reopened d m m') (n : String) :
    (slotOf d m n).reopen.Agree (logOf cmds n) top (slotOf d m' n) := by
  cases hf : m.collections.find? n with
  | none =>
    have hlive : (slotOf d m n).live = none := by rw [slotOf_live, hf]; rfl
    have hopen : (slotOf d m n).reopen = ⟨none, fun _ => none⟩ := by rw [Slot.reopen, hlive]
    rw [hopen]
    constructor
    · rw [slotOf_live, hre n, hf]
      rfl
    · intro i u x hi hc
      -- a directory would belong to a collection of this name
      show (d.index u).map Index.toStore = none
      cases hix : d.index u with
      | none => rfl
      | some ix =>
        obtain ⟨n', e, hfe, he⟩ := h.noOrphans u (Disk.contains_of_index hix)
        obtain ⟨_, j, _, hj⟩ := h.owned.live n' e hfe
        rw [he] at hj
        rw [(hd.eq hj hc).2.1, hf] at hfe
        contradiction
  | some e =>
    have he := h.sound.entry n e hf
    obtain ⟨ix, hix, _⟩ := he.index
    have hlive : (slotOf d m n).live = some (e.toGen d) := by rw [slotOf_live, hf]; rfl
    have hst : (slotOf d m n).stores (e.toGen d).uuid = some ix.toStore := by
      show (d.index e.uuid).map Index.toStore = _
      rw [hix]
      rfl
    have hopen : (slotOf d m n).reopen = ⟨some { e.toGen d with docs := ix.toStore.docs },
        Function.update (fun _ => none) e.uuid (some ix.toStore)⟩ := by
      simp only [Slot.reopen, hlive, hst]
      rfl
    rw [hopen]
    constructor
    · rw [slotOf_live, hre n, hf, Option.bind_some, hix]
      simp [Listed.opened, Catalog.Entry.toGen, Collection.fromIndex, Collection.pending,
        WriterOp.execAll, Catalog.Entry.listed, hix, Index.toStore]
    · intro i u x hi hc
      show (d.index u).map Index.toStore = Function.update (fun _ => none) e.uuid _ u
      rw [Function.update_apply]
      split
      · rename_i hu
        rw [hu, hix]
        rfl
      · rename_i hu
        cases hixu : d.index u with
        | none => rfl
        | some ix' =>
          obtain ⟨n', e', hfe, he'⟩ := h.noOrphans u (Disk.contains_of_index hixu)
          obtain ⟨_, j, _, hj⟩ := h.owned.live n' e' hfe
          rw [he'] at hj
          rw [(hd.eq hj hc).2.1, hf, Option.some.injEq] at hfe
          exact absurd (hfe ▸ he'.symm) hu

/-! ## the node's operations -/

section
variable {α : Type} {d : NodeDisk} {m : StateMachine} {C : NodeDisk → Prop}
  {E : StorageError → NodeDisk → StateMachine → Prop}

omit [Ext] in
theorem wp_onCatalog {Q : α → NodeDisk → StateMachine → Prop} (wrap : Error → StorageError)
    (p : CatalogM α)
    (h : wp p (fun a x y => Q a { d with data := x } { m with catalog := y })
      (fun e x y => E (wrap e) { d with data := x } { m with catalog := y })
      (fun x => C { d with data := x }) d.data m.catalog) :
    wp (StateMachine.onCatalog wrap p) Q E C d m := by
  rw [StateMachine.onCatalog, wp_mapError, wp_zoom]
  exact h

/-- A crash leaves the old file with anything in the temporary one, or the new
file. -/
theorem wp_persistMembership {Q : Unit → NodeDisk → StateMachine → Prop} (s : StoredMembership)
    (hold : ∀ tmp, C { d with membershipTmp := tmp })
    (hnew : C { d with
      membershipPb := some (Ext.storedMembership.encode s.toProto), membershipTmp := none })
    (hQ : Q () { d with
      membershipPb := some (Ext.storedMembership.encode s.toProto), membershipTmp := none } m) :
    wp (StateMachine.persistMembership s) Q E C d m := by
  simp only [StateMachine.persistMembership, wp_bind, wp_step]
  exact ⟨hold _, hold _, hnew, hQ⟩

/-- Applying an entry has an effect of its command on the catalog. -/
theorem wp_applyEntry {Q : Response → NodeDisk → StateMachine → Prop} (ord : IterOrder)
    (entry : Raft.Entry) (hs : Based d.data m.catalog) (hC : ∀ d, C d)
    (hE : ∀ e d' m', ¬ Applicable d.data m.catalog entry.logId.index entry.command → E e d' m')
    (hQ : ∀ a d' m', Effect ord entry.logId.index entry.command d.data m.catalog d'.data m'.catalog →
      Q a d' m') :
    wp (StateMachine.applyEntry ord entry) Q E C d m := by
  have hsame : ∀ cmd : Proto.Command, cmd.op = none →
      Effect ord entry.logId.index cmd d.data m.catalog d.data m.catalog := by
    intro cmd hop
    exact .same fun n => by simp [eventOf, hop, Slot.apply]
  rw [StateMachine.applyEntry, wp_bind, wp_modifyMem]
  cases hp : entry.payload with
  | blank => exact hQ _ d _ (hsame _ (by simp [Raft.Entry.command, hp]))
  | membership membership =>
    rw [StateMachine.applyPayload, wp_bind]
    refine wp_persistMembership _ (fun _ => hC _) (hC _) ?_
    exact hQ _ _ _ (hsame _ (by simp [Raft.Entry.command, hp]))
  | normal command =>
    have hcmd : entry.command = command := by simp [Raft.Entry.command, hp]
    rw [StateMachine.applyPayload, wp_bind]
    refine wp_onCatalog _ _ (wp_applyCommand hs (fun _ _ => hC _) (fun e x y hna => ?_)
      fun a x y heff => ?_)
    · exact hE _ _ _ (by rw [hcmd]; exact hna)
    · exact hQ _ _ _ (by rw [hcmd]; exact heff)

/-! ## creates that Tantivy's builder refuses -/

def StateMachine.applyPayloadWith (ord : IterOrder) (logId : LogId) :
    EntryPayload → NodeM Response
  | .normal command => do
    let outcome ← onCatalog (applyErr logId)
      (Catalog.applyCommandWith ord logId.toMark command)
    pure ⟨outcome.id, outcome.created⟩
  | payload => applyPayload ord logId payload

/-- One round of the loop of `apply`, with what Tantivy's builder may answer. -/
def StateMachine.applyEntryWith (ord : IterOrder) (entry : Raft.Entry) : NodeM Response := do
  modifyMem fun m => { m with lastApplied := some entry.logId }
  applyPayloadWith ord entry.logId entry.payload

/-- A buildable entry is applied as if the builder took every schema. -/
theorem wp_applyEntryWith_iff {Q : Response → NodeDisk → StateMachine → Prop} {ord : IterOrder}
    {entry : Raft.Entry} (h : Buildable d.data m.catalog entry.command) :
    wp (StateMachine.applyEntryWith ord entry) Q E C d m ↔
      wp (StateMachine.applyEntry ord entry) Q E C d m := by
  obtain ⟨logId, payload⟩ := entry
  cases payload with
  | blank => rfl
  | membership membership => rfl
  | normal command =>
    simp only [StateMachine.applyEntryWith, StateMachine.applyEntry,
      StateMachine.applyPayloadWith, StateMachine.applyPayload, wp_bind, wp_modifyMem,
      StateMachine.onCatalog, wp_mapError, wp_zoom]
    exact Catalog.wp_applyCommandWith_iff h

/-- What returns returns as if the builder took every schema. -/
theorem applyEntry_of_applyEntryWith {ord : IterOrder} {entry : Raft.Entry} {a : Response}
    {d' : NodeDisk} {m' : StateMachine}
    (hrun : (StateMachine.applyEntryWith ord entry).run d m = (.ok a, d', m')) :
    (StateMachine.applyEntry ord entry).run d m = (.ok a, d', m') := by
  by_cases hb : Buildable d.data m.catalog entry.command
  · have hw : wp (StateMachine.applyEntry ord entry)
        (fun a d' m' => (StateMachine.applyEntry ord entry).run d m = (.ok a, d', m'))
        (fun _ _ _ => True) (fun _ => True) d m := by
      refine (wp_iff _).mpr ⟨fun _ _ => trivial, ?_⟩
      split
      · assumption
      · trivial
    exact post_of_wp ((wp_applyEntryWith_iff hb).mpr hw) hrun
  · have hw : wp (StateMachine.applyEntryWith ord entry) (fun _ _ _ => False)
        (fun _ _ _ => True) (fun _ => True) d m := by
      obtain ⟨logId, payload⟩ := entry
      cases payload with
      | blank => exact absurd (fun c u x hop => by contradiction) hb
      | membership membership => exact absurd (fun c u x hop => by contradiction) hb
      | normal command =>
        rw [StateMachine.applyEntryWith, wp_bind, wp_modifyMem, StateMachine.applyPayloadWith,
          wp_bind]
        exact wp_onCatalog _ _ (Catalog.wp_applyCommandWith_panics hb)
    exact (post_of_wp hw hrun).elim

/-- An applicable entry that the builder takes is applied. -/
theorem run_applyEntryWith (ord : IterOrder) (entry : Raft.Entry)
    (hs : Based d.data m.catalog)
    (happ : Applicable d.data m.catalog entry.logId.index entry.command)
    (hdash : entry.command.NoDash) :
    ∃ response d' m', (StateMachine.applyEntryWith ord entry).run d m =
      (.ok response, d', m') := by
  have hw : wp (StateMachine.applyEntryWith ord entry) (fun _ _ _ => True)
      (fun _ _ _ => False) (fun _ => True) d m :=
    (wp_applyEntryWith_iff (hdash.buildable _ _)).mpr <|
      wp_applyEntry ord entry hs (fun _ => trivial) (fun _ _ _ hna => hna happ)
        fun _ _ _ _ => trivial
  obtain ⟨response, d', m', hrun, _⟩ := run_ok_of_wp hw
  exact ⟨response, d', m', hrun⟩

/-! ## the applied point -/

/-- The lowest mark of the collections. -/
def LowestMark (d : Disk) (m : Catalog) (mark : LogMark) : Prop :=
  (∃ n e, m.collections.find? n = some e ∧ d.mark e.uuid = mark) ∧
    ∀ n e, m.collections.find? n = some e → mark.index ≤ (d.mark e.uuid).index

/-- What `applied_log_id` reports. -/
def AppliedAt (d : NodeDisk) (m : StateMachine) (applied : Option LogId) : Prop :=
  ((∀ n, m.catalog.collections.find? n = none) ∧ applied = m.lastApplied) ∨
    ∃ mark, LowestMark d.data m.catalog mark ∧ applied = some mark.toLogId

omit [Ext] in
theorem AppliedAt.le {applied : Option LogId} (h : AppliedAt d m applied) {n : String}
    {e : Catalog.Entry} (hf : m.catalog.collections.find? n = some e) :
    positionOf applied ≤ (d.data.mark e.uuid).index := by
  rcases h with ⟨hnone, _⟩ | ⟨mark, hlow, rfl⟩
  · rw [hnone n] at hf
    contradiction
  · exact hlow.2 n e hf

omit [Ext] in
/-- `applied_log_id` only reads; it fails where a collection has no index. -/
theorem wp_appliedLogId {Q : Option LogId → NodeDisk → StateMachine → Prop} (ord : IterOrder)
    (hE : ¬ Indexed d.data m.catalog → ∀ e, E e d m)
    (hQ : ∀ applied, AppliedAt d m applied → Q applied d m) :
    wp (StateMachine.appliedLogId ord) Q E C d m := by
  rw [StateMachine.appliedLogId, wp_bind]
  refine wp_onCatalog _ _ (Catalog.wp_minCommittedMark ord (fun hno e => hE hno _) (fun hnone => ?_)
    fun mark hmem hle => ?_)
  · exact hQ _ (.inl ⟨hnone, rfl⟩)
  · exact hQ _ (.inr ⟨mark, ⟨hmem, hle⟩, rfl⟩)

omit [Ext] in
/-- `applied_state` with the membership it goes with. -/
theorem appliedState_run (ord : IterOrder) (hidx : Indexed d.data m.catalog) :
    ∃ applied, AppliedAt d m applied ∧
      ((StateMachine.appliedState ord).run d m).1 = .ok (applied, m.lastMembership) := by
  have hw : wp (StateMachine.appliedState ord)
      (fun r _ _ => ∃ applied, AppliedAt d m applied ∧ r = (applied, m.lastMembership))
      (fun _ _ _ => False) (fun _ => True) d m := by
    rw [StateMachine.appliedState, wp_bind]
    exact wp_appliedLogId ord (fun hno => absurd hidx hno) fun applied h => ⟨applied, h, rfl⟩
  obtain ⟨r, _, _, hrun, applied, happ, rfl⟩ := run_ok_of_wp hw
  exact ⟨applied, happ, by rw [hrun]⟩

/-- A restart brings the collections back. -/
theorem Base.wp_restart {Q : Unit → NodeDisk → StateMachine → Prop} {cat : Catalog}
    (h : Base cmds top d.data cat) (ord : IterOrder)
    (hE : ∀ e m, StateMachine.loadMembership d = .error e → E e d m)
    (hQ : ∀ cat' membership, Reopened d.data cat cat' → Q () d ⟨cat', none, membership, none⟩) :
    wp (StateMachine.restart ord) Q E C d m := by
  rw [StateMachine.restart, wp_bind]
  refine wp_onCatalog _ _ (h.wp_openCatalog ord _ fun m' hre => ?_)
  rw [StateMachine.openStateMachine, wp_bind, wp_getDisk, wp_bind]
  cases hm : StateMachine.loadMembership d with
  | error e => exact hE _ _ hm
  | ok membership =>
    exact hQ _ _ hre

end

/-! ## invariants of runs -/

/-- A property of the position, the frontier and the catalog that the steps of
a run keep. -/
structure RunInv (cmds : Nat → Proto.Command) (back : Nat → Nat → Prop)
    (I : Nat → Nat → Disk → Catalog → Prop) : Prop where
  base : ∀ r top d m, I r top d m → Base cmds top d m
  start : ∀ m, (∀ n, m.collections.find? n = none) → I 0 0 .empty m
  apply : ∀ ord r top d m d' m', I r top d m →
    Effect ord (r + 1) (cmds (r + 1)) d m d' m' → I (r + 1) (max top (r + 1)) d' m'
  stable : ∀ r top mark, mark.index ≤ r → Stable (I r top) mark
  reopen : ∀ r top r' d m m', I r top d m → Reopened d m m' → back r r' →
    (∀ n e, m.collections.find? n = some e → r' ≤ (d.mark e.uuid).index) → I r' top d m'

theorem Base.empty (m : Catalog) (h : ∀ n, m.collections.find? n = none) :
    Base cmds top .empty m where
  sound := ⟨fun n e hf => by rw [h] at hf; contradiction,
    fun n _ e _ hf => by rw [h] at hf; contradiction⟩
  owned := ⟨fun u ix hix => by simp [Disk.index, Disk.empty] at hix,
    fun n e hf => by rw [h] at hf; contradiction⟩
  current := by
    have hempty : m.collections = ∅ := OrdMap.ext_find? fun k => by rw [h]; rfl
    exact ⟨0, [], rfl, by rw [Catalog.listing, hempty]; rfl⟩
  noOrphans u hu := by simp [Disk.empty, OrdMap.contains] at hu
  wal := rfl

section
variable {log : Nat → Raft.Entry} {back : Nat → Nat → Prop}
  {I : Nat → Nat → Disk → Catalog → Prop} {d d' : NodeDisk} {m m' : StateMachine} {r : Nat}

theorem RunInv.started (hI : RunInv cmds back I) {ord : IterOrder}
    (hrun : (StateMachine.restart ord).run .empty default = (.ok (), d, m)) :
    I 0 0 d.data m.catalog := by
  have hb : Base cmds 0 NodeDisk.empty.data Catalog.closed := Base.empty _ fun _ => rfl
  have hw := hb.wp_restart (m := default) (C := fun _ => True) (E := fun _ _ _ => True)
    (Q := fun _ d m => I 0 0 d.data m.catalog) ord (fun _ _ _ => trivial) fun _ _ hre =>
      hI.start _ fun n => by rw [hre n]; rfl
  exact post_of_wp hw hrun

theorem RunInv.applied (hI : RunInv (commandsOf log) back I) (hlog : ∀ i, (log i).logId.index = i)
    (h : I r top d.data m.catalog) {ord : IterOrder} {response : Response}
    (hrun : (StateMachine.applyEntry ord (log (r + 1))).run d m = (.ok response, d', m')) :
    I (r + 1) (max top (r + 1)) d'.data m'.catalog := by
  have hw := wp_applyEntry (C := fun _ => True) (E := fun _ _ _ => True)
    (Q := fun _ d' m' => I (r + 1) (max top (r + 1)) d'.data m'.catalog) ord (log (r + 1))
    (hI.base _ _ _ _ h).sound.based (fun _ => trivial) (fun _ _ _ _ => trivial)
    fun a d' m' heff => hI.apply ord _ _ _ _ _ _ h (by rw [hlog] at heff; exact heff)
  exact post_of_wp hw hrun

/-- A checkpoint keeps the invariant, also on the disk a crash inside it leaves. -/
theorem RunInv.wp_nodeCheckpoint (hI : RunInv cmds back I) (h : I r top d.data m.catalog)
    {mark : LogMark} (hmark : mark.index ≤ r) (ord : IterOrder) :
    wp (nodeCheckpoint ord mark) (fun _ d m => I r top d.data m.catalog) (fun _ _ _ => True)
      (fun d => ∃ cat, I r top d.data cat) d m :=
  wp_onCatalog _ _ ((hI.stable _ _ mark hmark).wp_checkpointApplied h (fun _ m h' => ⟨m, h'⟩)
    (fun _ _ h' _ => h') ord)

theorem RunInv.committed (hI : RunInv cmds back I) (h : I r top d.data m.catalog)
    {mark : LogMark} (hmark : mark.index ≤ r) {name : String}
    (hrun : (nodeCommit name mark).run d m = (.ok (), d', m')) : I r top d'.data m'.catalog := by
  have hw : wp (nodeCommit name mark) (fun _ d m => I r top d.data m.catalog)
      (fun _ _ _ => True) (fun _ => True) d m :=
    wp_onCatalog _ _ ((hI.stable _ _ mark hmark).wp_commitCollection h
      (fun _ _ _ => trivial) (fun _ _ h' => h') fun _ _ => trivial)
  exact post_of_wp hw hrun

/-- A restart on the disk a crash has left: that of a state with the invariant. -/
theorem RunInv.restarted (hI : RunInv cmds back I) (h : I r top d.data m.catalog)
    {d₁ : NodeDisk} {ord ord' : IterOrder} {applied : Option LogId × StoredMembership}
    (hcrash : d₁ = d ∨ ∃ ord mark, mark.index ≤ r ∧ d₁ ∈ (nodeCheckpoint ord mark).crashes d m)
    (hrun : (StateMachine.restart ord).run d₁ default = (.ok (), d', m'))
    (happlied : ((StateMachine.appliedState ord').run d' m').1 = .ok applied)
    (hback : back r (positionOf applied.1)) :
    I (positionOf applied.1) top d'.data m'.catalog := by
  obtain ⟨cat, hcat⟩ : ∃ cat, I r top d₁.data cat := by
    rcases hcrash with rfl | ⟨ord, mark, hmark, hmem⟩
    · exact ⟨_, h⟩
    · exact crashes_of_wp (hI.wp_nodeCheckpoint h hmark ord) d₁ hmem
  have hb := hI.base _ _ _ _ hcat
  have hw := hb.wp_restart (m := default) (C := fun _ => True) (E := fun _ _ _ => True)
    (Q := fun _ x m => x = d₁ ∧ Reopened d₁.data cat m.catalog) ord (fun _ _ _ => trivial)
    fun _ _ hre => ⟨rfl, hre⟩
  obtain ⟨rfl, hre⟩ := post_of_wp hw hrun
  obtain ⟨reported, happ, hstate⟩ := appliedState_run ord' (hb.reopened hre).sound.based.indexed
  obtain rfl : applied = (reported, m'.lastMembership) := by
    rw [happlied] at hstate
    injection hstate
  refine hI.reopen r top _ _ cat _ hcat hre hback fun n e hf => ?_
  obtain ⟨ix, hix, _⟩ := (hb.sound.entry n e hf).index
  exact happ.le (e := e.listed.opened ix) (by rw [hre n, hf]; simp [hix])

/-- **Every state of a run** satisfies an invariant of its steps. -/
theorem ReplayRun.inv (hI : RunInv (commandsOf log) back I) (hlog : ∀ i, (log i).logId.index = i)
    (h : ReplayRun log back d m r top) : I r top d.data m.catalog := by
  induction h with
  | start ord h => exact hI.started h
  | apply ord prev h ih => exact hI.applied hlog ih h
  | checkpoint ord mark prev hmark h ih => exact post_of_wp (hI.wp_nodeCheckpoint ih hmark ord) h
  | commit name mark prev hmark h ih => exact hI.committed ih hmark h
  | restart ord ord' prev hcrash h happlied hback ih =>
    exact hI.restarted ih hcrash h happlied hback

end

end

end Lumen
