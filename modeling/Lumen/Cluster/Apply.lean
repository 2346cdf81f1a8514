import Lumen.Cluster.Replay

/-!
# Lumen.Cluster.Apply

A node that applies commands in index order and is never restarted, with
checkpoints and commits of single collections anywhere in between.

`Contents.apply` is the reference: what a command does to a map from names to
identities, mappings and documents, with no marks, buffers or directories.
`Tidy` ties a catalog to the reference; `ApplyRun.tidy` says that every state
of a run satisfies it, and `checkpoints_unobservable` what a reader sees then.
-/

namespace Lumen

open Lib Prog Replay

/-- What a catalog holds, by name. -/
abbrev Contents := String → Option (Gen Uuid Mapping String Bytes)

section
variable [Ext]

/-- What a command does to the contents: a create keeps an existing
collection, and document commands on an absent collection do nothing. -/
def Contents.apply (st : Contents) (cmd : Proto.Command) : Contents :=
  match cmd.op with
  | some (.createCollection create) =>
    match Catalog.createUuid create, Catalog.createMapping create with
    | .ok uuid, .ok mapping =>
      Function.update st create.collection
        ((st create.collection).or (some ⟨uuid, mapping, fun _ => none⟩))
    | _, _ => st
  | some (.dropCollection drop) => Function.update st drop.collection none
  | some (.indexDocument index) =>
    Function.update st index.collection ((st index.collection).map fun g =>
      { g with docs := Function.update g.docs index.id (some index.source) })
  | some (.deleteDocument delete) =>
    Function.update st delete.collection ((st delete.collection).map fun g =>
      { g with docs := Function.update g.docs delete.id none })
  | none => st

/-- The reference fold. -/
def Contents.applyAll (cmds : List Proto.Command) : Contents :=
  cmds.foldl Contents.apply fun _ => none

theorem Contents.applyAll_append (cmds : List Proto.Command) (cmd : Proto.Command) :
    Contents.applyAll (cmds ++ [cmd]) = (Contents.applyAll cmds).apply cmd := by
  rw [Contents.applyAll, List.foldl_append]
  rfl

/-- One name of the contents takes the command's event. -/
theorem Contents.apply_eq (st : Contents) (cmd : Proto.Command) (n : String) :
    st.apply cmd n = (eventOf n cmd).step (st n) := by
  have hedit : ∀ (name : String) (id : String) (v : Option Bytes),
      Function.update st name ((st name).map fun g => { g with docs := Function.update g.docs id v })
        n = (if name = n then .edit id v else .skip : Event Uuid Mapping String Bytes).step (st n) := by
    intro name id v
    by_cases hn : name = n
    · subst hn
      rw [Function.update_self, if_pos rfl]
      cases st name <;> rfl
    · rw [Function.update_of_ne (Ne.symm hn), if_neg hn, Event.step]
  simp only [Contents.apply, eventOf]
  cases cmd.op with
  | none => rfl
  | some op =>
    cases op with
    | createCollection c =>
      by_cases hn : c.collection = n
      · subst hn
        simp only [if_true]
        cases Catalog.createUuid c with
        | error e => rfl
        | ok u =>
          cases Catalog.createMapping c with
          | error e => rfl
          | ok x =>
            simp only [Function.update_self]
            cases st c.collection <;> rfl
      · simp only [if_neg hn, Event.step]
        cases Catalog.createUuid c with
        | error e => rfl
        | ok u =>
          cases Catalog.createMapping c with
          | error e => rfl
          | ok x => exact Function.update_of_ne (Ne.symm hn) _ _
    | dropCollection c =>
      by_cases hn : c.collection = n
      · subst hn
        simp only [Function.update_self, if_true, Event.step]
      · simp only [Function.update_of_ne (Ne.symm hn), if_neg hn, Event.step]
    | indexDocument index => exact hedit index.collection index.id (some index.source)
    | deleteDocument delete => exact hedit delete.collection delete.id none

/-! ## one command -/

variable {ord : IterOrder} {i next : Nat} {cmd : Proto.Command} {d d' : Disk} {m m' : Catalog}
  {st : Contents}

/-- What a name holds after a command, in a catalog without left-over
directories whose marks are behind the command. -/
theorem Effect.live (h : Effect ord i cmd d m d' m') (hs : Based d m) (hno : NoOrphans d m)
    {n : String} (hmark : (slotOf d m n).live.isSome → (slotOf d m n).mark < i) :
    (slotOf d' m' n).live = (eventOf n cmd).step (slotOf d m n).live := by
  cases h with
  | same h =>
    rw [← Slot.live_apply hmark fun u x hev hl => ?_, h n]
    -- a create that finds nothing fills the slot
    have hsame := h n
    obtain ⟨s, happ, _⟩ := Slot.apply_create hl i u x
    rw [hev, happ] at hsame
    have hlive := congrArg Slot.live hsame
    rw [hl] at hlive
    contradiction
  | create c u x ix hop hu hx hfree hix =>
    have hnew : ix = ⟨x.toSchema, [], none⟩ := by
      rcases hix with ⟨hix, ho⟩ | ⟨_, hix⟩
      · rw [hno.index_eq_none ho] at hix
        contradiction
      · exact hix
    rw [eventOf_create hop hu hx]
    by_cases hn : c.collection = n
    · subst hn
      have hl : (slotOf d m c.collection).live = none := by rw [slotOf_live, hfree]; rfl
      rw [if_pos rfl, hl, slotOf_live, Catalog.find?_inserted, if_pos rfl]
      simp [Event.step, Catalog.Entry.toGen, Collection.fromIndex, Collection.pending,
        WriterOp.execAll, Disk.index_setDir, hnew, view_nil]
    · rw [if_neg hn]
      refine slotOf_live_congr hs ?_ fun e hf => ?_
      · rw [Catalog.find?_inserted, if_neg (Ne.symm hn)]
      · rw [Disk.index_withCatalog, Disk.index_setDir, if_neg (hs.uuid_ne hix hf)]
  | drop name e hop hfind =>
    rw [eventOf_drop hop]
    by_cases hn : name = n
    · subst hn
      rw [if_pos rfl, slotOf_live, Catalog.find?_erased, if_pos rfl]
      rfl
    · rw [if_neg hn]
      refine slotOf_live_congr hs ?_ fun e' hf => ?_
      · rw [Catalog.find?_erased, if_neg (Ne.symm hn)]
      · rw [Disk.index_withCatalog, Disk.index_removeDir,
          if_neg fun hu => hn (hs.inj n name e' e hf hfind hu).symm]
  | edit name id v e ops hev hfind hmark hops =>
    have hstore := Catalog.find?_store_self (c := e.collection.buffer ops) hfind
      (hs.entry name e hfind).uuid
    rw [hev, slotOf_live, hstore]
    by_cases hn : name = n
    · subst hn
      rw [if_pos rfl, if_pos rfl, Option.map_some, toGen_buffer hops, slotOf_live, hfind]
      rfl
    · rw [if_neg (Ne.symm hn), if_neg hn]
      rfl

/-- A map that holds what the reference says. -/
structure Holds (st : Contents) (d : Disk) (m : Catalog) : Prop where
  sound : Sound d m
  live : ∀ n, (slotOf d m n).live = st n

/-- A catalog that has applied the entries before `next`: every directory has
its collection, and no mark is ahead. -/
structure Tidy (st : Contents) (next : Nat) (d : Disk) (m : Catalog) : Prop
    extends Holds st d m where
  noOrphans : NoOrphans d m
  mark_lt : ∀ n e, m.collections.find? n = some e → (d.mark e.uuid).index < next

omit [Ext] in
theorem Tidy.slot_mark_lt (h : Tidy st next d m) (n : String)
    (hlive : (slotOf d m n).live.isSome) : (slotOf d m n).mark < next := by
  cases hf : m.collections.find? n with
  | none => simp [slotOf_live, hf] at hlive
  | some e =>
    obtain ⟨ix, hix, _⟩ := (h.sound.entry n e hf).index
    rw [slotOf_mark hf hix, ← Disk.mark_index hix]
    exact h.mark_lt n e hf

/-- A command moves the reference, and the catalog with it. -/
theorem Tidy.effect (h : Tidy st next d m) (hi : next ≤ i)
    (he : Effect ord i cmd d m d' m') : Tidy (st.apply cmd) (i + 1) d' m' where
  sound := he.sound_of_schema h.sound fun n u x ix _ hix ho => by
    rw [h.noOrphans.index_eq_none ho] at hix
    contradiction
  live n := by
    rw [Contents.apply_eq, ← h.live n]
    exact he.live h.sound.based h.noOrphans fun hl => (h.slot_mark_lt n hl).trans_le hi
  noOrphans := he.noOrphans h.noOrphans
  mark_lt := by
    have hold : ∀ n e, m.collections.find? n = some e → (d.mark e.uuid).index < i + 1 :=
      fun n e hf => (h.mark_lt n e hf).trans_le (by omega)
    refine he.entries (P := fun d _ e => (d.mark e.uuid).index < i + 1) h.sound.based
      (fun n e d' hf hidx _ => ?_) (fun n u x ix d' _ hix hidx => ?_)
      fun n e _ _ _ hf _ _ => hold n e hf
    · rw [Disk.mark_congr hidx]
      exact hold n e hf
    · rcases hix with ⟨hix, ho⟩ | ⟨_, rfl⟩
      · rw [h.noOrphans.index_eq_none ho] at hix
        contradiction
      · simp [Disk.mark, hidx]

/-! ## checkpoints and commits -/

theorem Holds.stable (st : Contents) (mark : LogMark) : Stable (Holds st) mark where
  sound _ _ h := h.sound
  commit _ _ _ _ _ h hf hix :=
    ⟨h.sound.committed hf hix mark,
      fun n => (slotOf_committed_live h.sound hf hix mark n).trans (h.live n)⟩
  persist _ _ _ h := ⟨⟨fun n e hf => (h.sound.entry n e hf).congr rfl, h.sound.inj⟩, h.live⟩
  tmp _ _ _ h := ⟨⟨fun n e hf => (h.sound.entry n e hf).congr rfl, h.sound.inj⟩, h.live⟩

theorem Tidy.stable {mark : LogMark} (hmark : mark.index < next) : Stable (Tidy st next) mark where
  sound _ _ h := h.sound
  commit d m name e ix h hf hix := by
    refine ⟨(Holds.stable st mark).commit d m name e ix h.toHolds hf hix,
      h.noOrphans.committed hix, entries_committed (P := fun d _ e => (d.mark e.uuid).index < next)
        h.sound hf ?_ fun n e' d' hf' hidx => ?_⟩
    · simpa [Disk.mark, Disk.committed, Disk.index_setDir, Index.committed] using hmark
    · rw [Disk.mark_congr hidx]
      exact h.mark_lt n e' hf'
  persist d m ord h := ⟨(Holds.stable st mark).persist d m ord h.toHolds, h.noOrphans, h.mark_lt⟩
  tmp d m tmp h := ⟨(Holds.stable st mark).tmp d m tmp h.toHolds, h.noOrphans, h.mark_lt⟩

/-! ## runs -/

/-- The catalogs a node reaches from an empty directory: commands applied in
index order, none of them failing, with calls of `checkpoint_applied` and
`commit_collection` in between whose marks are not ahead of the last entry.
`next` is the first index not yet applied, `cmds` what was applied. -/
inductive ApplyRun : Disk → Catalog → Nat → List Proto.Command → Prop where
  | opened {d : Disk} {m : Catalog} (ord : IterOrder) (m₀ : Catalog)
      (h : (Catalog.openCatalog ord).run .empty m₀ = (.ok (), d, m)) : ApplyRun d m 0 []
  | apply {d d' : Disk} {m m' : Catalog} {next : Nat} {cmds : List Proto.Command}
      {outcome : ApplyOutcome} (ord : IterOrder) (mark : LogMark) (cmd : Proto.Command)
      (prev : ApplyRun d m next cmds) (hnext : next ≤ mark.index)
      (h : (Catalog.applyCommand ord mark cmd).run d m = (.ok outcome, d', m')) :
      ApplyRun d' m' (mark.index + 1) (cmds ++ [cmd])
  | checkpoint {d d' : Disk} {m m' : Catalog} {next : Nat} {cmds : List Proto.Command}
      {result : Except Error Unit} (ord : IterOrder) (mark : LogMark)
      (prev : ApplyRun d m next cmds) (hmark : mark.index < next)
      (h : (Catalog.checkpointApplied ord mark).run d m = (result, d', m')) :
      ApplyRun d' m' next cmds
  | commit {d d' : Disk} {m m' : Catalog} {next : Nat} {cmds : List Proto.Command}
      {result : Except Error Unit} (name : String) (mark : LogMark)
      (prev : ApplyRun d m next cmds) (hmark : mark.index < next)
      (h : (Catalog.commitCollection name mark).run d m = (result, d', m')) :
      ApplyRun d' m' next cmds

omit [Ext] in
theorem Tidy.empty (m : Catalog) (h : ∀ n, m.collections.find? n = none) :
    Tidy (fun _ => none) next .empty m where
  sound := ⟨fun n e hf => by rw [h] at hf; contradiction,
    fun n _ e _ hf => by rw [h] at hf; contradiction⟩
  live n := by rw [slotOf_live, h]; rfl
  noOrphans u hu := by simp [Disk.empty, OrdMap.contains] at hu
  mark_lt n e hf := by rw [h] at hf; contradiction

/-- **Every state of a run** holds what the reference says. -/
theorem ApplyRun.tidy {cmds : List Proto.Command} (h : ApplyRun d m next cmds) :
    Tidy (Contents.applyAll cmds) next d m := by
  induction h with
  | opened ord m₀ h =>
    have hb : Base (fun _ => ⟨none⟩) 0 .empty Catalog.closed := Base.empty _ fun _ => rfl
    have hw : wp (Catalog.openCatalog ord) (fun _ d m => Tidy (fun _ => none) 0 d m)
        (fun _ _ _ => True) (fun _ => True) .empty m₀ :=
      hb.wp_openCatalog ord m₀ fun m' hre => Tidy.empty m' fun n => by rw [hre n]; rfl
    exact post_of_wp hw h
  | apply ord mark cmd prev hnext h ih =>
    rw [Contents.applyAll_append]
    have hw : wp (Catalog.applyCommand ord mark cmd)
        (fun _ d' m' => Tidy ((Contents.applyAll _).apply cmd) (mark.index + 1) d' m')
        (fun _ _ _ => True) (fun _ => True) _ _ :=
      wp_applyCommand ih.sound.based (fun _ _ => trivial) (fun _ _ _ _ => trivial)
        fun _ _ _ he => ih.effect hnext he
    exact post_of_wp hw h
  | checkpoint ord mark prev hmark h ih => exact (Tidy.stable hmark).checkpointApplied ih h
  | commit name mark prev hmark h ih => exact (Tidy.stable hmark).commitCollection ih h

/-- **Checkpoint timing is unobservable**: wherever checkpoints and commits were
placed, and whatever marks they carried, a last checkpoint succeeds and a
reader then sees the reference fold of the commands. -/
theorem checkpoints_unobservable {cmds : List Proto.Command} (h : ApplyRun d m next cmds)
    (ord : IterOrder) (mark : LogMark) :
    ∃ d' m', (Catalog.checkpointApplied ord mark).run d m = (.ok (), d', m') ∧
      ∀ name, m'.contents name =
        (Contents.applyAll cmds name).map fun g => (g.uuid, g.info, g.docs) := by
  have hw : wp (Catalog.checkpointApplied ord mark)
      (fun _ d' m' => Holds (Contents.applyAll cmds) d' m' ∧
        ∀ n e, m'.collections.find? n = some e → e.collection.writer = [])
      (fun _ _ _ => False) (fun _ => True) d m :=
    (Holds.stable _ mark).wp_checkpointApplied h.tidy.toHolds (fun _ _ _ => trivial)
      (fun _ _ h' hempty => ⟨h', hempty⟩) ord
  obtain ⟨_, d', m', hrun, h', hempty⟩ := run_ok_of_wp hw
  exact ⟨d', m', hrun, fun name => by rw [Catalog.contents_eq h'.sound hempty, h'.live]⟩

end

/-! ### a run with marks that go backwards -/

section
open Reference

def deleteCommand (name id : String) : Proto.Command := ⟨some (.deleteDocument ⟨name, id⟩)⟩

theorem ApplyRun.applyAfter {x : Disk × Catalog} {next : Nat} {cmds : List Proto.Command}
    (prev : ApplyRun x.1 x.2 next cmds) (mark : LogMark) (cmd : Proto.Command)
    (hnext : next ≤ mark.index)
    (hok : ((Catalog.applyCommand .stored mark cmd).run x.1 x.2).1.toBool = true) :
    ApplyRun ((Catalog.applyCommand .stored mark cmd).after x).1
      ((Catalog.applyCommand .stored mark cmd).after x).2 (mark.index + 1) (cmds ++ [cmd]) := by
  cases hr : ((Catalog.applyCommand .stored mark cmd).run x.1 x.2).1 with
  | error e => rw [hr] at hok; contradiction
  | ok outcome => exact .apply .stored mark cmd prev hnext (Prod.ext hr rfl)

theorem ApplyRun.checkpointAfter {x : Disk × Catalog} {next : Nat} {cmds : List Proto.Command}
    (prev : ApplyRun x.1 x.2 next cmds) (mark : LogMark) (hmark : mark.index < next) :
    ApplyRun ((Catalog.checkpointApplied .stored mark).after x).1
      ((Catalog.checkpointApplied .stored mark).after x).2 next cmds :=
  .checkpoint .stored mark prev hmark rfl

theorem ApplyRun.commitAfter {x : Disk × Catalog} {next : Nat} {cmds : List Proto.Command}
    (prev : ApplyRun x.1 x.2 next cmds) (name : String) (mark : LogMark)
    (hmark : mark.index < next) :
    ApplyRun ((Catalog.commitCollection name mark).after x).1
      ((Catalog.commitCollection name mark).after x).2 next cmds :=
  .commit name mark prev hmark rfl

/-- A collection is created and checkpointed, a document indexed, the
collection committed twice, the second time under an older mark, and another
document indexed and the first one deleted. -/
def regressing : Disk × Catalog :=
  (Catalog.applyCommand .stored ⟨1, 1, 5⟩ (deleteCommand "a" "x")).after <|
    (Catalog.applyCommand .stored ⟨1, 1, 4⟩ (indexCommand "a" "y" "\x7b\x7d")).after <|
      (Catalog.checkpointApplied .stored ⟨1, 1, 1⟩).after <|
        (Catalog.commitCollection "a" ⟨1, 1, 2⟩).after <|
          (Catalog.applyCommand .stored ⟨1, 1, 2⟩ (indexCommand "a" "x" "\x7b\x7d")).after <|
            (Catalog.checkpointApplied .stored ⟨1, 1, 1⟩).after <|
              (Catalog.applyCommand .stored ⟨1, 1, 1⟩ (createCommand "a" (exampleUuid 1) [])).after <|
                (Catalog.openCatalog .stored).after (.empty, .closed)

def regressingCommands : List Proto.Command :=
  [createCommand "a" (exampleUuid 1) [], indexCommand "a" "x" "\x7b\x7d",
    indexCommand "a" "y" "\x7b\x7d", deleteCommand "a" "x"]

theorem regressing_run : ApplyRun regressing.1 regressing.2 6 regressingCommands := by
  have hopen : ApplyRun ((Catalog.openCatalog .stored).after (.empty, .closed)).1
      ((Catalog.openCatalog .stored).after (.empty, .closed)).2 0 [] :=
    .opened .stored .closed (Prod.ext (by decide +kernel) rfl)
  have hcreate := hopen.applyAfter ⟨1, 1, 1⟩ (createCommand "a" (exampleUuid 1) []) (by decide)
    (by decide +kernel)
  have hx := (hcreate.checkpointAfter ⟨1, 1, 1⟩ (by decide)).applyAfter ⟨1, 1, 2⟩
    (indexCommand "a" "x" "\x7b\x7d") (by decide) (by decide +kernel)
  have hcommit := (hx.commitAfter "a" ⟨1, 1, 2⟩ (by decide)).checkpointAfter ⟨1, 1, 1⟩ (by decide)
  have hy := hcommit.applyAfter ⟨1, 1, 4⟩ (indexCommand "a" "y" "\x7b\x7d") (by decide)
    (by decide +kernel)
  exact hy.applyAfter ⟨1, 1, 5⟩ (deleteCommand "a" "x") (by decide) (by decide +kernel)

/-- After a last checkpoint, a reader finds the second document only. -/
theorem checkpoints_unobservable_regressing :
    ∃ d' m', (Catalog.checkpointApplied .stored ⟨1, 1, 5⟩).run regressing.1 regressing.2 =
        (.ok (), d', m') ∧
      (m'.contents "a").map (fun c => (c.1, c.2.2 "x", c.2.2 "y")) =
        some (exampleUuid 1, none, some "\x7b\x7d".toUTF8.toList) := by
  obtain ⟨d', m', hrun, hall⟩ := checkpoints_unobservable regressing_run .stored ⟨1, 1, 5⟩
  exact ⟨d', m', hrun, by rw [hall]; decide +kernel⟩

end

end Lumen
