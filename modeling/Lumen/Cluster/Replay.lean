import Lumen.Cluster.Run
import Lumen.Reference

/-!
# Lumen.Cluster.Replay

Replaying a committed log after restarts.  The position a node reports can lie
behind the catalog it has on disk, so commands are applied again to
collections that were created, dropped or committed after them.

* `replay_converges` — when no document command is left over for a collection
  created after it, and no restart skips positions, two nodes that reached the
  same position hold the same.
* `replay_total` — when every document fits every mapping a replay can put it
  under, applying the next entry succeeds in every state of every run.
-/

namespace Lumen

open Lib Prog Raft Replay

section
variable [Ext] {cmds : Nat → Proto.Command} {r top : Nat} {d d' : Disk} {m m' : Catalog}

/-! ## convergence -/

/-- The slot of every name satisfies the replay invariant. -/
structure Converging (cmds : Nat → Proto.Command) (r top : Nat) (d : Disk) (m : Catalog) :
    Prop where
  base : Base cmds top d m
  slots : ∀ n, Inv (logOf cmds n) r top (slotOf d m n)

theorem Converging.apply {ord : IterOrder} (hd : DistinctUuids cmds)
    (hstale : ∀ n, (logOf cmds n).NoStale) (h : Converging cmds r top d m)
    (he : Effect ord (r + 1) (cmds (r + 1)) d m d' m') :
    Converging cmds (r + 1) (max top (r + 1)) d' m' := by
  have hbase := h.base.mono (Nat.le_max_left top (r + 1))
  have hslots : ∀ n, Inv (logOf cmds n) r (max top (r + 1)) (slotOf d m n) := by
    intro n
    rcases Nat.lt_or_ge r top with hlt | hge
    · rw [Nat.max_eq_left hlt]
      exact h.slots n
    · obtain rfl : r = top := Nat.le_antisymm (h.slots n).le hge
      rw [Nat.max_eq_right (Nat.le_succ r)]
      refine (h.slots n).extend fun u x hb => ?_
      -- a new identity has no directory yet
      have hnone : d.index u = none := by
        cases hix : d.index u with
        | none => rfl
        | some ix =>
          obtain ⟨i, n', y, hi, hev, _⟩ := h.base.owned.dir u ix hix
          have := (hd.eq hev hb.2.1).1
          omega
      show HiddenOk _ _ _ ((d.index u).map Index.toStore)
      rw [hnone]
      trivial
  refine ⟨hbase.effect hd (Nat.le_max_right top (r + 1)) he, fun n => ?_⟩
  exact ((hslots n).apply (hstale n) (Nat.le_max_right top (r + 1))).congr
    (he.slots rfl h.base.sound hbase.owned hd n)

theorem Converging.stable (hd : DistinctUuids cmds) {mark : LogMark} (hmark : mark.index ≤ r) :
    Stable (Converging cmds r top) mark where
  sound _ _ h := h.base.sound
  commit d m name e ix h hf hix := by
    refine ⟨h.base.committed hf hix mark, fun n => ?_⟩
    by_cases hn : n = name
    · subst hn
      rw [slotOf_committed h.base.sound hf hix]
      exact (h.slots n).commit hmark
    · exact (h.slots n).congr (slotOf_committed_ne h.base.sound hf h.base.owned hd mark hn)
  persist d m ord h := ⟨h.base.withCatalog ord _, h.slots⟩
  tmp d m tmp h := ⟨h.base.withTmp tmp, h.slots⟩

omit [Ext] in
theorem Disk.mark_index {d : Disk} {u : Uuid} {ix : Index} (h : d.index u = some ix) :
    (d.mark u).index = ix.mark := by
  rw [Disk.mark, h]
  rfl

theorem Converging.runInv (hd : DistinctUuids cmds) (hstale : ∀ n, (logOf cmds n).NoStale) :
    RunInv cmds (fun r r' => r' ≤ r) (Converging cmds) where
  base _ _ _ _ h := h.base
  start m h := by
    refine ⟨Base.empty m h, fun n => ?_⟩
    have hslot : slotOf .empty m n = Slot.empty := by
      rw [slotOf, h n]
      rfl
    rw [hslot]
    exact Inv.empty
  apply _ _ _ _ _ _ _ h he := h.apply hd hstale he
  stable _ _ _ hmark := Converging.stable hd hmark
  reopen r top r' d m m' h hre hback hmark := by
    refine ⟨h.base.reopened hre, fun n => ?_⟩
    refine ((h.slots n).reopen hback fun hlive => ?_).congr (h.base.slotOf_reopened hd hre n)
    cases hf : m.collections.find? n with
    | none => simp [slotOf_live, hf] at hlive
    | some e =>
      obtain ⟨ix, hix, _⟩ := (h.base.sound.entry n e hf).index
      rw [slotOf_mark hf hix, ← Disk.mark_index hix]
      exact hmark n e hf

/-- The identity, the mapping and the stored documents of a collection, as a
reader sees them. -/
def Catalog.contents (m : Catalog) (name : String) :
    Option (Uuid × Mapping × (String → Option Bytes)) :=
  (m.collections.find? name).map fun e => (e.uuid, e.collection.mapping, e.collection.source)

omit [Ext] in
/-- With nothing buffered, a reader sees what the slot holds. -/
theorem Catalog.contents_eq (hs : Sound d m)
    (hempty : ∀ n e, m.collections.find? n = some e → e.collection.writer = []) (n : String) :
    m.contents n = (slotOf d m n).live.map fun g => (g.uuid, g.info, g.docs) := by
  rw [Catalog.contents, slotOf_live]
  cases hf : m.collections.find? n with
  | none => rfl
  | some e =>
    have he := hs.entry n e hf
    obtain ⟨ix, hix, _, hsearcher⟩ := he.index
    have hsource : e.collection.source = view e.collection.searcher := rfl
    simp [Catalog.Entry.toGen, Collection.pending, hempty n e hf, he.uuid, hix,
      WriterOp.execAll, hsource, hsearcher]

/-- After a checkpoint at the frontier, a reader sees the state of the log. -/
theorem Converging.contents (hd : DistinctUuids cmds) {d d' : NodeDisk} {m m' : StateMachine}
    {ord : IterOrder} {mark : LogMark} (h : Converging cmds r r d.data m.catalog)
    (hmark : mark.index ≤ r) (hcheck : (nodeCheckpoint ord mark).run d m = (.ok (), d', m'))
    (name : String) :
    m'.catalog.contents name =
      ((logOf cmds name).stateAt r).map fun g => (g.uuid, g.info, g.docs) := by
  have hw : wp (nodeCheckpoint ord mark) (fun _ d m => Converging cmds r r d.data m.catalog ∧
      ∀ n e, m.catalog.collections.find? n = some e → e.collection.writer = [])
      (fun _ _ _ => True) (fun _ => True) d m :=
    wp_onCatalog _ _ ((Converging.stable hd hmark).wp_checkpointApplied h
      (fun _ _ _ => trivial) (fun _ _ h he => ⟨h, he⟩) ord)
  obtain ⟨hc, hempty⟩ := post_of_wp hw hcheck
  rw [Catalog.contents_eq hc.base.sound hempty, (hc.slots name).live_eq]

/-- **Replay converges**: two runs over one log, with their own checkpoints and
restarts, that have applied it up to `n` show the same collections after a
checkpoint.  One of them may be the run that applies each entry once. -/
theorem replay_converges {log : Nat → Raft.Entry} (hlog : ∀ i, (log i).logId.index = i)
    (hd : DistinctUuids (commandsOf log)) (hstale : ∀ n, (logOf (commandsOf log) n).NoStale)
    {d₁ d₂ d₁' d₂' : NodeDisk} {m₁ m₂ m₁' m₂' : StateMachine} {n : Nat} {ord₁ ord₂ : IterOrder}
    {mark₁ mark₂ : LogMark} (h₁ : ReplayRun log (fun r r' => r' ≤ r) d₁ m₁ n n)
    (h₂ : ReplayRun log (fun r r' => r' ≤ r) d₂ m₂ n n) (hmark₁ : mark₁.index ≤ n)
    (hmark₂ : mark₂.index ≤ n)
    (hcheck₁ : (nodeCheckpoint ord₁ mark₁).run d₁ m₁ = (.ok (), d₁', m₁'))
    (hcheck₂ : (nodeCheckpoint ord₂ mark₂).run d₂ m₂ = (.ok (), d₂', m₂')) (name : String) :
    m₁'.catalog.contents name = m₂'.catalog.contents name := by
  have hI := Converging.runInv hd hstale
  rw [(h₁.inv hI hlog).contents hd hmark₁ hcheck₁, (h₂.inv hI hlog).contents hd hmark₂ hcheck₂]

/-! ## totality -/

/-- A log that can be replayed from any point: its create commands are well
formed, with mappings that Tantivy's builder takes, and a document fits the
mapping of every create of its collection's name that is not followed by a drop
before the document. -/
structure Replayable (cmds : Nat → Proto.Command) : Prop where
  distinct : DistinctUuids cmds
  create : ∀ i c, (cmds i).op = some (.createCollection c) →
    ∃ u x, Catalog.createUuid c = .ok u ∧ Catalog.createMapping c = .ok x ∧ x.NoDash
  document : ∀ i index j u x, (cmds i).op = some (.indexDocument index) →
    eventOf index.collection (cmds j) = .create u x → ¬ (logOf cmds index.collection).DropIn j i →
    ∃ parsed doc, fromSlice index.source = .ok parsed ∧
      buildDoc x.toSchema x index.id index.source parsed = .ok doc

/-- Every collection in the map was created by a command that no drop has
overtaken, neither up to the position nor up to its mark. -/
structure Tracked (cmds : Nat → Proto.Command) (r top : Nat) (d : Disk) (m : Catalog) : Prop where
  base : Base cmds top d m
  birth : ∀ n e, m.collections.find? n = some e → ∃ j, j ≤ top ∧
    eventOf n (cmds j) = .create e.uuid e.collection.mapping ∧
    ¬ (logOf cmds n).DropIn j (max r (d.mark e.uuid).index)

omit [Ext] in
theorem Disk.mark_congr {u : Uuid} (h : d'.index u = d.index u) : d'.mark u = d.mark u := by
  rw [Disk.mark, Disk.mark, h]

omit [Ext] in
/-- One position further, when the event there is not a drop. -/
theorem not_dropIn_succ {log : Log Uuid Mapping String Bytes} {j c : Nat}
    (h : ¬ log.DropIn j (max r c)) (hne : log (r + 1) ≠ .drop) :
    ¬ log.DropIn j (max (r + 1) c) := by
  rintro ⟨i, h1, h2, h3⟩
  refine h ⟨i, h1, ?_, h3⟩
  have hi : i ≠ r + 1 := fun hi => hne (hi ▸ h3)
  omega

theorem Tracked.apply {ord : IterOrder} (hd : DistinctUuids cmds) (h : Tracked cmds r top d m)
    (he : Effect ord (r + 1) (cmds (r + 1)) d m d' m') :
    Tracked cmds (r + 1) (max top (r + 1)) d' m' := by
  have hle : top ≤ max top (r + 1) := Nat.le_max_left top (r + 1)
  have hs := h.base.sound
  have hkeep : ∀ n e, m.collections.find? n = some e → eventOf n (cmds (r + 1)) ≠ .drop →
      ∃ j, j ≤ max top (r + 1) ∧ eventOf n (cmds j) = .create e.uuid e.collection.mapping ∧
        ¬ (logOf cmds n).DropIn j (max (r + 1) (d.mark e.uuid).index) := by
    intro n e hf hev
    obtain ⟨j, hj, hevj, hnd⟩ := h.birth n e hf
    exact ⟨j, hj.trans hle, hevj, not_dropIn_succ hnd hev⟩
  refine ⟨(h.base.mono hle).effect hd (Nat.le_max_right top (r + 1)) he,
    he.entries (P := fun d n e => ∃ j, j ≤ max top (r + 1) ∧
      eventOf n (cmds j) = .create e.uuid e.collection.mapping ∧
      ¬ (logOf cmds n).DropIn j (max (r + 1) (d.mark e.uuid).index)) hs.based
      (fun n e d' hf hidx hev => ?_) (fun n u x ix d' hev hix hidx => ?_)
      fun n e id v ops hf hev _ => hkeep n e hf (by simp [hev])⟩
  · rw [Disk.mark_congr hidx]
    exact hkeep n e hf hev
  · -- every directory has its collection, so the one of a create is new
    have hnew : ix = ⟨x.toSchema, [], none⟩ := by
      rcases hix with ⟨hix, hopen⟩ | ⟨_, hix⟩
      · rw [h.base.noOrphans.index_eq_none hopen] at hix
        contradiction
      · exact hix
    refine ⟨r + 1, Nat.le_max_right top (r + 1), hev, ?_⟩
    rintro ⟨i, h1, h2, _⟩
    have hmark : (d'.mark u).index = 0 := by simp [Disk.mark, hidx, hnew]
    have h2 : i ≤ max (r + 1) (d'.mark u).index := h2
    omega

theorem Tracked.stable {mark : LogMark} (hmark : mark.index ≤ r) :
    Stable (Tracked cmds r top) mark where
  sound _ _ h := h.base.sound
  commit d m name e ix h hf hix := by
    refine ⟨h.base.committed hf hix mark, entries_committed (P := fun d n e => ∃ j, j ≤ top ∧
      eventOf n (cmds j) = .create e.uuid e.collection.mapping ∧
      ¬ (logOf cmds n).DropIn j (max r (d.mark e.uuid).index)) h.base.sound hf ?_
        fun n e' d' hf' hidx => ?_⟩
    · obtain ⟨j, hj, hevj, hnd⟩ := h.birth name e hf
      refine ⟨j, hj, hevj, fun hdrop => hnd (hdrop.mono le_rfl ?_)⟩
      have hm : (Disk.mark (d.committed e ix mark) e.uuid).index = mark.index := by
        simp [Disk.mark, Disk.committed, Disk.index_setDir, Index.committed]
      show max r (Disk.mark (d.committed e ix mark) e.uuid).index ≤ _
      omega
    · obtain ⟨j, hj, hevj, hnd⟩ := h.birth n e' hf'
      exact ⟨j, hj, hevj, by rw [Disk.mark_congr hidx]; exact hnd⟩
  persist d m ord h := ⟨h.base.withCatalog ord _, h.birth⟩
  tmp d m tmp h := ⟨h.base.withTmp tmp, h.birth⟩

theorem Tracked.runInv (hd : DistinctUuids cmds) (back : Nat → Nat → Prop) :
    RunInv cmds back (Tracked cmds) where
  base _ _ _ _ h := h.base
  start m h := ⟨Base.empty m h, fun n e hf => by rw [h n] at hf; contradiction⟩
  apply _ _ _ _ _ _ _ h he := h.apply hd he
  stable _ _ _ hmark := Tracked.stable hmark
  reopen r top r' d m m' h hre _ hmark := by
    refine ⟨h.base.reopened hre, fun n e' hf' => ?_⟩
    obtain ⟨e, ix, hf, _, rfl⟩ := hre.find? hf'
    obtain ⟨j, hj, hevj, hnd⟩ := h.birth n e hf
    refine ⟨j, hj, hevj, fun hdrop => hnd (hdrop.mono le_rfl ?_)⟩
    have := hmark n e hf
    show max r' (d.mark e.uuid).index ≤ _
    omega

/-- In a tracked state the next command of a replayable log is applicable. -/
theorem Tracked.applicable (hc : Replayable cmds) (h : Tracked cmds r top d m) :
    Applicable d m (r + 1) (cmds (r + 1)) := by
  rw [Applicable]
  split
  · rename_i c hop
    obtain ⟨u, x, hu, hx, _⟩ := hc.create (r + 1) c hop
    refine ⟨⟨x, hx⟩, fun hfree => ⟨u, hu, fun hcontains => ?_⟩⟩
    -- a directory of this identity would belong to this very command's collection
    obtain ⟨n, e, hf, he⟩ := h.base.noOrphans u hcontains
    obtain ⟨_, j, _, hj⟩ := h.base.owned.live n e hf
    have hev : eventOf c.collection (cmds (r + 1)) = .create u x := by
      rw [eventOf_create hop hu hx, if_pos rfl]
    rw [he] at hj
    rw [(hc.distinct.eq hj hev).2.1, hfree] at hf
    contradiction
  · rename_i index hop
    intro e hf hmark
    obtain ⟨j, _, hevj, hnd⟩ := h.birth _ e hf
    have hschema := (h.base.sound.entry _ e hf).schema
    rw [hschema]
    refine hc.document (r + 1) index j _ _ hop hevj fun hdrop => ?_
    refine hnd ?_
    obtain ⟨i, h1, h2, h3⟩ := hdrop
    refine ⟨i, h1, ?_, h3⟩
    have hi : i ≠ r + 1 := by
      rintro rfl
      simp [logOf, eventOf, hop] at h3
    omega
  · trivial

theorem Replayable.noDash (h : Replayable cmds) (i : Nat) : (cmds i).NoDash := by
  intro c x hop hx
  obtain ⟨_, y, _, hy, hdash⟩ := h.create i c hop
  rw [hy, Except.ok.injEq] at hx
  exact hx ▸ hdash

/-- In a tracked state the next entry of a replayable log is applied. -/
theorem Tracked.applies {log : Nat → Raft.Entry} (hlog : ∀ i, (log i).logId.index = i)
    (hc : Replayable (commandsOf log)) {d : NodeDisk} {m : StateMachine}
    (h : Tracked (commandsOf log) r top d.data m.catalog) (ord : IterOrder) :
    ∃ response d' m', (StateMachine.applyEntryWith ord (log (r + 1))).run d m =
      (.ok response, d', m') :=
  run_applyEntryWith ord (log (r + 1)) h.base.sound.based
    (by rw [hlog]; exact h.applicable hc) (hc.noDash (r + 1))

/-- **Replay is total**: in every state of every run over a replayable log, the
next entry is applied without an error and without a panic. -/
theorem replay_total {log : Nat → Raft.Entry} (hlog : ∀ i, (log i).logId.index = i)
    (hc : Replayable (commandsOf log)) {d : NodeDisk} {m : StateMachine}
    (h : ReplayRun log (fun _ _ => True) d m r top) (ord : IterOrder) :
    ∃ response d' m', (StateMachine.applyEntryWith ord (log (r + 1))).run d m =
      (.ok response, d', m') :=
  (h.inv (Tracked.runInv hc.distinct _) hlog).applies hlog hc ord

end

/-! ## runs on fixed logs -/

section
open Reference

/-- A committed entry of term 1 of node 1. -/
def committedEntry (command : Proto.Command) (index : Nat) : Raft.Entry :=
  ⟨⟨⟨1, 1⟩, index⟩, .normal command⟩

def createCommand (name : String) (uuid : Uuid) (fields : List Proto.Field) : Proto.Command :=
  ⟨some (.createCollection ⟨name, fmtUuid uuid, some ⟨fields⟩⟩)⟩

def indexCommand (name id source : String) : Proto.Command :=
  ⟨some (.indexDocument ⟨name, id, source.toUTF8.toList⟩)⟩

def dropCommand (name : String) : Proto.Command := ⟨some (.dropCollection ⟨name⟩)⟩

/-- A log of the given commands; everything behind them is blank. -/
def logOfCommands (cmds : List Proto.Command) (i : Nat) : Raft.Entry :=
  match cmds[i - 1]? with
  | some command => if i = 0 then ⟨⟨⟨1, 1⟩, i⟩, .blank⟩ else committedEntry command i
  | none => ⟨⟨⟨1, 1⟩, i⟩, .blank⟩

/-- Apply the positions from `r + 1` on. -/
def applyFrom (log : Nat → Raft.Entry) (r : Nat) : Nat → NodeM Unit
  | 0 => pure ()
  | k + 1 => do
    let _ ← StateMachine.applyEntry .stored (log (r + 1))
    applyFrom log (r + 1) k

/-- Start on the directories, and apply the log from the reported position up
to `n`. -/
def catchUp (log : Nat → Raft.Entry) (n : Nat) : NodeM Unit := do
  StateMachine.restart .stored
  let applied ← StateMachine.appliedState .stored
  applyFrom log (positionOf applied.1) (n - positionOf applied.1)

/-- What a node shows of a document after a checkpoint. -/
def documentAfter (p : NodeM Unit) (d : NodeDisk) (mark : LogMark) (name id : String) :
    Option Bytes :=
  let s := ((do p; nodeCheckpoint .stored mark : NodeM Unit).run d default).2.2
  (s.catalog.collections.find? name).bind fun e => e.collection.source id

/-- A document command finds no collection, then the collection is created.
Applied once, the collection is empty; after a crash and a restart, the
document is in it. -/
theorem replay_revives_document_of_absent_collection :
    let log := logOfCommands [indexCommand "a" "x" "\x7b\x7d", createCommand "a" (exampleUuid 1) []]
    let crashed := ((catchUp log 2).run .empty default).2.1
    ((catchUp log 2).run .empty default).1 = .ok () ∧
      ((catchUp log 2).run crashed default).1 = .ok () ∧
      documentAfter (catchUp log 2) .empty ⟨1, 1, 2⟩ "a" "x" = none ∧
      documentAfter (catchUp log 2) crashed ⟨1, 1, 2⟩ "a" "x" = some "\x7b\x7d".toUTF8.toList := by
  decide +kernel

/-- A document of a dropped collection meets the mapping of the collection that
took its name: applied once the log succeeds, after a crash and a restart it
does not. -/
theorem replay_fails_on_recreated_collection :
    let log := logOfCommands [createCommand "a" (exampleUuid 1) [⟨"f", 1, true, false⟩],
      indexCommand "a" "x" "\x7b\"f\":\"v\"\x7d", dropCommand "a",
      createCommand "a" (exampleUuid 2) [⟨"f", 3, true, false⟩]]
    let first := (catchUp log 4).run .empty default
    first.1 = .ok () ∧
      ((catchUp log 4).run first.2.1 default).1 =
        .error (.apply ⟨⟨1, 1⟩, 2⟩ (.core (.validation "field value does not match type I64"))) := by
  decide +kernel

/-! ### a log with one create, and a run with a restart -/

theorem logOfCommands_index (cmds : List Proto.Command) (i : Nat) :
    (logOfCommands cmds i).logId.index = i := by
  unfold logOfCommands
  split
  · split <;> rfl
  · rfl

/-- A collection is created and a document indexed. -/
def createAndIndex : Nat → Raft.Entry :=
  logOfCommands [createCommand "a" (exampleUuid 1) [], indexCommand "a" "x" "\x7b\x7d"]

theorem createAndIndex_one : (commandsOf createAndIndex 1).op =
    some (.createCollection ⟨"a", fmtUuid (exampleUuid 1), some ⟨[]⟩⟩) := rfl

theorem createAndIndex_two : (commandsOf createAndIndex 2).op =
    some (.indexDocument ⟨"a", "x", "\x7b\x7d".toUTF8.toList⟩) := rfl

theorem createAndIndex_create {i : Nat} {n : String} {u : Uuid} {x : Mapping}
    (h : eventOf n (commandsOf createAndIndex i) = .create u x) : i = 1 := by
  obtain ⟨c, hop, _⟩ := eventOf_eq_create_iff.mp h
  match i with
  | 0 => contradiction
  | 1 => rfl
  | 2 => simp [createAndIndex_two] at hop
  | _ + 3 => contradiction

theorem createAndIndex_distinct : DistinctUuids (commandsOf createAndIndex) :=
  fun _ _ _ _ _ _ _ hi hj => (createAndIndex_create hi).trans (createAndIndex_create hj).symm

theorem createAndIndex_noStale (n : String) : (logOf (commandsOf createAndIndex) n).NoStale := by
  intro i k v _ _ j u x hlt hj
  have := createAndIndex_create hj
  omega

/-- Whether a document command builds under a create command's mapping. -/
def buildsUnder (c : Proto.CreateCollection) (index : Proto.IndexDocument) : Bool :=
  match Catalog.createMapping c, fromSlice index.source with
  | .ok x, .ok parsed => (buildDoc x.toSchema x index.id index.source parsed).toBool
  | _, _ => false

theorem exists_of_buildsUnder {c : Proto.CreateCollection} {index : Proto.IndexDocument}
    {x : Mapping} (hx : Catalog.createMapping c = .ok x) (h : buildsUnder c index = true) :
    ∃ parsed doc, fromSlice index.source = .ok parsed ∧
      buildDoc x.toSchema x index.id index.source parsed = .ok doc := by
  rw [buildsUnder, hx] at h
  cases hp : fromSlice index.source with
  | error e => simp [hp] at h
  | ok parsed =>
    simp only [hp] at h
    cases hb : buildDoc x.toSchema x index.id index.source parsed with
    | error e => simp [hb, Except.toBool] at h
    | ok doc => exact ⟨parsed, doc, rfl, hb⟩

theorem createAndIndex_replayable : Replayable (commandsOf createAndIndex) where
  distinct := createAndIndex_distinct
  create i c hop := by
    match i with
    | 0 => contradiction
    | 1 =>
      obtain rfl : _ = c := by simpa [createAndIndex_one] using hop
      exact ⟨exampleUuid 1, ⟨∅, rfl⟩, by decide +kernel, by decide +kernel,
        Mapping.noDash_iff.mpr (by decide)⟩
    | 2 => simp [createAndIndex_two] at hop
    | _ + 3 => contradiction
  document i index j u x hop hcreate _ := by
    obtain rfl := createAndIndex_create hcreate
    obtain ⟨c, hc, _, _, hx⟩ := eventOf_eq_create_iff.mp hcreate
    match i with
    | 0 => contradiction
    | 1 => simp [createAndIndex_one] at hop
    | 2 =>
      obtain rfl : _ = index := by simpa [createAndIndex_two] using hop
      obtain rfl : _ = c := by simpa [createAndIndex_one] using hc
      exact exists_of_buildsUnder hx (by decide +kernel)
    | _ + 3 => contradiction

theorem ReplayRun.applyAfter {log : Nat → Raft.Entry} {back : Nat → Nat → Prop}
    {x : NodeDisk × StateMachine} {r top : Nat} (prev : ReplayRun log back x.1 x.2 r top)
    (hok : ((StateMachine.applyEntry .stored (log (r + 1))).run x.1 x.2).1.toBool = true) :
    ReplayRun log back (after (StateMachine.applyEntry .stored (log (r + 1))) x).1
      (after (StateMachine.applyEntry .stored (log (r + 1))) x).2 (r + 1) (max top (r + 1)) := by
  cases hr : ((StateMachine.applyEntry .stored (log (r + 1))).run x.1 x.2).1 with
  | error e => rw [hr] at hok; contradiction
  | ok response => exact .apply .stored prev (Prod.ext hr rfl)

/-- A node that has applied both entries. -/
def caughtUp : NodeDisk × StateMachine :=
  after (StateMachine.applyEntry .stored (createAndIndex 2)) <|
    after (StateMachine.applyEntry .stored (createAndIndex 1)) <|
      after (StateMachine.restart .stored) (.empty, default)

/-- The same node after a crash, with both entries to apply again. -/
def crashedAndRestarted : NodeDisk × StateMachine :=
  after (StateMachine.restart .stored) (caughtUp.1, default)

/-- The restarted node, caught up again. -/
def caughtUpAgain : NodeDisk × StateMachine :=
  after (StateMachine.applyEntry .stored (createAndIndex 2)) <|
    after (StateMachine.applyEntry .stored (createAndIndex 1)) crashedAndRestarted

theorem caughtUp_run (back : Nat → Nat → Prop) :
    ReplayRun createAndIndex back caughtUp.1 caughtUp.2 2 2 :=
  ReplayRun.applyAfter (x := after (StateMachine.applyEntry .stored (createAndIndex 1)) <|
      after (StateMachine.restart .stored) (.empty, default))
    (ReplayRun.applyAfter (x := after (StateMachine.restart .stored) (.empty, default))
      (.start .stored (Prod.ext (by decide +kernel) rfl)) (by decide +kernel)) (by decide +kernel)

theorem crashedAndRestarted_run {back : Nat → Nat → Prop} (hback : back 2 0) :
    ReplayRun createAndIndex back crashedAndRestarted.1 crashedAndRestarted.2 0 2 := by
  have hopen : (StateMachine.restart .stored).run caughtUp.1 default =
      (.ok (), crashedAndRestarted.1, crashedAndRestarted.2) :=
    Prod.ext (by decide +kernel) rfl
  have happlied : ((StateMachine.appliedState .stored).run crashedAndRestarted.1
      crashedAndRestarted.2).1 = .ok (some ⟨⟨0, 0⟩, 0⟩, default) := by decide +kernel
  have hrun := ReplayRun.restart .stored .stored (caughtUp_run back) (.inl rfl) hopen happlied hback
  exact hrun

theorem caughtUpAgain_run {back : Nat → Nat → Prop} (hback : back 2 0) :
    ReplayRun createAndIndex back caughtUpAgain.1 caughtUpAgain.2 2 2 :=
  ReplayRun.applyAfter (x := after (StateMachine.applyEntry .stored (createAndIndex 1))
      crashedAndRestarted)
    (ReplayRun.applyAfter (crashedAndRestarted_run hback) (by decide +kernel)) (by decide +kernel)

/-- The two nodes show the same after a checkpoint, and it is the document. -/
theorem replay_converges_after_restart :
    let check := nodeCheckpoint .stored ⟨1, 1, 2⟩
    (after check caughtUp).2.catalog.contents "a" =
        (after check caughtUpAgain).2.catalog.contents "a" ∧
      ((after check caughtUpAgain).2.catalog.contents "a").map (fun c => c.2.2 "x") =
        some (some "\x7b\x7d".toUTF8.toList) :=
  ⟨replay_converges (logOfCommands_index _) createAndIndex_distinct createAndIndex_noStale
    (caughtUp_run _) (caughtUpAgain_run (Nat.zero_le 2)) (Nat.le_refl 2) (Nat.le_refl 2)
    (Prod.ext (by decide +kernel) rfl) (Prod.ext (by decide +kernel) rfl) "a", by decide +kernel⟩

/-- The restarted node applies the first entry again. -/
theorem replay_total_after_restart :
    ∃ response d' m', (StateMachine.applyEntryWith .stored (createAndIndex 1)).run
      crashedAndRestarted.1 crashedAndRestarted.2 = (.ok response, d', m') :=
  replay_total (logOfCommands_index _) createAndIndex_replayable
    (crashedAndRestarted_run trivial) .stored

end

end Lumen
