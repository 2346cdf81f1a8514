import Lumen.Cluster.Quarantine
import Lumen.Lib.System

/-!
# Lumen.Cluster.Persist

Two tasks of a node write `catalog.pb`: the one that applies commands, after a
create or a drop, and the checkpoint loop.  `persist` takes the listing under the
lock of the map and writes it outside any lock, both tasks under one temporary
name.

A step is an access to the map, a change of a directory, a commit, or one of the
creation, the write and the rename of the temporary file.  A handle stays with its
file when the other task renames it (`Place`).  `apply_alone` and
`checkpoint_alone` say that these are the steps of `applyCommand` and
`checkpointApplied`.
-/

namespace Lumen.Persisting

open Lib Prog

/-! ## tasks -/

/-- The name of the file behind an open handle. -/
inductive Place where
  | tmp
  | pb
  | gone
  deriving DecidableEq

/-- Where a task is in `write_snapshot`. -/
inductive Write where
  | listed (bytes : Bytes)
  | created (bytes : Bytes) (place : Place)
  | written
  deriving DecidableEq

/-- Where a task is; `ω` is what it does before it persists. -/
inductive Phase (ω : Type) where
  | idle
  | working (work : ω)
  | persisting (seq : Nat)
  | writing (w : Write)
  | failed (e : Error)
  deriving DecidableEq

/-- What the apply task does with a command. -/
inductive Applying where
  | indexing (mark : LogMark) (index : Proto.IndexDocument) (target : Collection)
  | deleting (mark : LogMark) (delete : Proto.DeleteDocument) (target : Collection)
  | making (name : String) (uuid : Uuid) (mapping : Mapping) (seq : Nat)
  | made (name : String) (uuid : Uuid) (seq : Nat) (collection : Collection)
  | dropping (uuid : Uuid) (seq : Nat)

/-- The loop of `commit_all`, which holds the lock of the map. -/
structure Committing where
  mark : LogMark
  rest : List (String × Catalog.Entry)

section
variable {ω ω' : Type}

def Phase.isWriting : Phase ω → Bool
  | .writing _ => true
  | _ => false

/-- The call has returned. -/
def Phase.returned : Phase ω → Bool
  | .idle => true
  | .failed _ => true
  | _ => false

def Place.renamed : Place → Place
  | .tmp => .pb
  | .pb => .gone
  | .gone => .gone

/-- The other task has renamed the temporary file. -/
def Phase.renamed : Phase ω → Phase ω
  | .writing (.created bytes place) => .writing (.created bytes place.renamed)
  | p => p

/-- `write_all` at the start of a file. -/
def overwrite (bytes old : Bytes) : Bytes := bytes ++ old.drop bytes.length

def writeAt (bytes : Bytes) (d : Disk) : Place → Disk
  | .tmp => { d with catalogTmp := d.catalogTmp.map (overwrite bytes) }
  | .pb => { d with catalogPb := d.catalogPb.map (overwrite bytes) }
  | .gone => d

/-- The phase after a call. -/
def Phase.ofResult {α : Type} (next : α → Phase ω) : Except Error α → Phase ω
  | .ok a => next a
  | .error e => .failed e

/-- A call of the sequential model as one step. -/
def ran {α : Type} (p : CatalogM α) (next : α → Phase ω) (d : Disk) (m : Catalog) :
    Disk × Catalog × Phase ω :=
  let x := p.run d m
  (x.2.1, x.2.2, .ofResult next x.1)

variable [Ext]

/-- The next step of `persist`, with the phase of the other task. -/
def persistStep (ord : IterOrder) (m : Catalog) (d : Disk) (other : Phase ω') :
    Phase ω → Option (Disk × Phase ω × Phase ω')
  | .persisting seq =>
    some (d, .writing (.listed (Ext.catalogSnapshot.encode (Catalog.snapshotProto ord m seq))),
      other)
  | .writing (.listed bytes) =>
    some ({ d with catalogTmp := some [] }, .writing (.created bytes .tmp), other)
  | .writing (.created bytes place) => some (writeAt bytes d place, .writing .written, other)
  | .writing .written =>
    match d.catalogTmp with
    | none => some (d, .failed (.io .notFound), other)
    | some bytes =>
      some ({ d with catalogPb := some bytes, catalogTmp := none }, .idle, other.renamed)
  | _ => none

end

/-! ## the interleaving -/

/-- Where the apply task was when its last command began. -/
structure Began where
  disk : Disk
  catalog : Catalog
  mark : LogMark
  cmd : Proto.Command

/-- A running node. -/
structure State where
  disk : Disk
  catalog : Catalog
  apply : Phase Applying
  checkpoint : Phase Committing
  began : Option Began

inductive Task where
  | apply
  | checkpoint
  deriving DecidableEq

/-- What can happen next: a task is called, or makes its next step.  The order is
that of the iteration over the map. -/
inductive Action where
  | apply (mark : LogMark) (cmd : Proto.Command)
  | checkpoint (mark : LogMark) (ord : IterOrder)
  | next (who : Task) (ord : IterOrder)

namespace State

/-- `commit_all` holds the lock of the map while it commits. -/
def mapLocked (s : State) : Bool :=
  match s.checkpoint with
  | .working _ => true
  | _ => false

section
variable [Ext]

/-- `apply_command` up to its first access to the map. -/
def begin (s : State) (mark : LogMark) : Option Proto.Op → Option State
  | some (.createCollection create) =>
    match Catalog.createMapping create with
    | .error e => some { s with apply := .failed e }
    | .ok mapping =>
      if s.mapLocked then none
      else
        match s.catalog.collections.find? create.collection with
        | some _ => some s
        | none =>
          match Catalog.createUuid create with
          | .error e => some { s with apply := .failed e }
          | .ok uuid =>
            some { s with
              apply := .working (.making create.collection uuid mapping mark.index) }
  | some (.dropCollection drop) =>
    if s.mapLocked then none
    else
      match s.catalog.collections.find? drop.collection with
      | none => some s
      | some e =>
        some { s with
          catalog := s.catalog.erased drop.collection
          apply := .working (.dropping e.uuid mark.index) }
  | some (.indexDocument index) =>
    if s.mapLocked then none
    else
      match s.catalog.collections.find? index.collection with
      | none => some s
      | some e => some { s with apply := .working (.indexing mark index e.collection) }
  | some (.deleteDocument delete) =>
    if s.mapLocked then none
    else
      match s.catalog.collections.find? delete.collection with
      | none => some s
      | some e => some { s with apply := .working (.deleting mark delete e.collection) }
  | none => some s

/-- The apply task has made a step. -/
def withApply (s : State) (x : Disk × Catalog × Phase Applying) : State :=
  { s with disk := x.1, catalog := x.2.1, apply := x.2.2 }

def withCheckpoint (s : State) (x : Disk × Catalog × Phase Committing) : State :=
  { s with disk := x.1, catalog := x.2.1, checkpoint := x.2.2 }

def persistApply (s : State) (ord : IterOrder) : Option State :=
  (persistStep ord s.catalog s.disk s.checkpoint s.apply).map fun x =>
    { s with disk := x.1, apply := x.2.1, checkpoint := x.2.2 }

def persistCheckpoint (s : State) (ord : IterOrder) : Option State :=
  (persistStep ord s.catalog s.disk s.apply s.checkpoint).map fun x =>
    { s with disk := x.1, apply := x.2.2, checkpoint := x.2.1 }

/-- The next step of `apply_command`. -/
def nextApply (s : State) (ord : IterOrder) : Option State :=
  match s.apply with
  | .working (.indexing mark index target) =>
    some (s.withApply (ran (Catalog.applyIndexTo mark index target) (fun _ => .idle)
      s.disk s.catalog))
  | .working (.deleting mark delete target) =>
    some (s.withApply (ran (Catalog.applyDeleteTo mark delete target) (fun _ => .idle)
      s.disk s.catalog))
  | .working (.making name uuid mapping seq) =>
    some (s.withApply (ran (Catalog.openOrCreate uuid mapping)
      (fun c => .working (.made name uuid seq c)) s.disk s.catalog))
  | .working (.made name uuid seq c) =>
    if s.mapLocked then none
    else
      some { s with
        catalog :=
          { s.catalog with collections := s.catalog.collections.insert name ⟨uuid, seq, c⟩ }
        apply := .persisting seq }
  | .working (.dropping uuid seq) =>
    some (s.withApply (ran (Catalog.dropDir uuid) (fun _ => .persisting seq) s.disk s.catalog))
  | .persisting _ => if s.mapLocked then none else s.persistApply ord
  | _ => s.persistApply ord

/-- The next step of `checkpoint_applied`. -/
def nextCheckpoint (s : State) (ord : IterOrder) : Option State :=
  match s.checkpoint with
  | .working ⟨mark, p :: rest⟩ =>
    some (s.withCheckpoint (ran (Catalog.commit p.1 p.2.collection mark)
      (fun _ => .working ⟨mark, rest⟩) s.disk s.catalog))
  | .working ⟨mark, []⟩ => some { s with checkpoint := .persisting mark.index }
  | _ => s.persistCheckpoint ord

def step (s : State) : Action → Option State
  | .apply mark cmd =>
    match s.apply with
    | .idle => { s with began := some ⟨s.disk, s.catalog, mark, cmd⟩ }.begin mark cmd.op
    | _ => none
  | .checkpoint mark ord =>
    if s.checkpoint.returned then
      some { s with checkpoint := .working ⟨mark, ord.order s.catalog.collections.toList⟩ }
    else none
  | .next .apply ord => s.nextApply ord
  | .next .checkpoint ord => s.nextCheckpoint ord

/-- A node between two calls of either task. -/
def Opened (s : State) : Prop :=
  NodeHistory s.disk (some s.catalog) ∧ s.apply = .idle ∧ s.checkpoint = .idle ∧ s.began = none

end

end State

section
variable [Ext]

def system : System State Action where
  init := State.Opened
  step := State.step

def anyStep (_ : State) (_ : Action) : Bool := true

/-- The commit takes back the mark behind which a document command that is on its
way would be skipped. -/
def State.Unskips (s : State) (mark : LogMark) (name : String) : Bool :=
  match s.apply with
  | .working (.indexing i index target) =>
    index.collection = name && mark.index < i.index && i.index ≤ (s.disk.mark target.uuid).index
  | _ => false

/-- No listing is taken while the other task is between its own and its rename. -/
def exclusive (s : State) : Action → Bool
  | .next .apply _ =>
    match s.apply with
    | .persisting _ => !s.checkpoint.isWriting
    | _ => true
  | .next .checkpoint _ =>
    match s.checkpoint with
    | .persisting _ => !s.apply.isWriting
    | .working ⟨mark, p :: _⟩ => !s.Unskips mark p.1
    | _ => true
  | _ => true

/-! ## one task alone -/

section
variable {α ω : Type} {p : CatalogM α} {d d' : Disk} {m m' : Catalog}

omit [Ext] in
/-- A call as one step. -/
theorem ran_eq {next : α → Phase ω} {r : Except Error α} (h : p.run d m = (r, d', m')) :
    ran p next d m = (d', m', .ofResult next r) := by
  rw [ran, h]

end

/-- A task comes from one state to another by its own steps. -/
def ByItself (who : Task) (ord : IterOrder) (s s' : State) : Prop :=
  ∃ k, system.exec anyStep s (List.replicate k (.next who ord)) = some s'

section
variable {who : Task} {ord : IterOrder} {s s' s₁ : State}

theorem ByItself.refl : ByItself who ord s s := ⟨0, rfl⟩

theorem ByItself.step (h : s.step (.next who ord) = some s₁) (h₁ : ByItself who ord s₁ s') :
    ByItself who ord s s' := by
  obtain ⟨k, hk⟩ := h₁
  refine ⟨k + 1, ?_⟩
  have hstep : system.step s (.next who ord) = some s₁ := h
  simpa [List.replicate_succ, System.exec, anyStep, hstep] using hk

theorem ByItself.persistApply (d : Disk) (m : Catalog) (seq : Nat) (began : Option Began) :
    ByItself .apply ord ⟨d, m, .persisting seq, .idle, began⟩
      ⟨d.withCatalog (Catalog.snapshotProto ord m seq), m, .idle, .idle, began⟩ := by
  refine .step rfl (.step rfl (.step rfl (.step rfl ?_)))
  simp only [overwrite, List.drop_nil, List.append_nil]
  exact .refl

theorem ByItself.persistCheckpoint (d : Disk) (m : Catalog) (seq : Nat) (began : Option Began) :
    ByItself .checkpoint ord ⟨d, m, .idle, .persisting seq, began⟩
      ⟨d.withCatalog (Catalog.snapshotProto ord m seq), m, .idle, .idle, began⟩ := by
  refine .step rfl (.step rfl (.step rfl (.step rfl ?_)))
  simp only [overwrite, List.drop_nil, List.append_nil]
  exact .refl

end

/-- A command that is applied alone ends with a result in a state. -/
def AppliesAlone (ord : IterOrder) (mark : LogMark) (cmd : Proto.Command) (s : State)
    (r : Except Error ApplyOutcome) (d' : Disk) (m' : Catalog) : Prop :=
  ∃ s₁, s.step (.apply mark cmd) = some s₁ ∧
    ByItself .apply ord s₁ ⟨d', m', .ofResult (fun _ => .idle) r, .idle,
      some ⟨s.disk, s.catalog, mark, cmd⟩⟩

section
variable {ord : IterOrder} {mark : LogMark} {cmd : Proto.Command} {d : Disk} {m : Catalog}
  {began : Option Began}

theorem create_alone {create : Proto.CreateCollection}
    (hop : cmd.op = some (.createCollection create)) :
    wp (Catalog.applyCreate ord mark create)
      (fun _ d' m' => AppliesAlone ord mark cmd ⟨d, m, .idle, .idle, began⟩ (.ok default) d' m')
      (fun e d' m' => AppliesAlone ord mark cmd ⟨d, m, .idle, .idle, began⟩ (.error e) d' m')
      (fun _ => True) d m := by
  simp only [AppliesAlone, State.step, hop, wp_bind, Catalog.applyCreate, State.begin,
    State.mapLocked]
  cases hx : Catalog.createMapping create with
  | error e => exact ⟨_, rfl, .refl⟩
  | ok x =>
    simp only [wp_ofExcept_ok, Catalog.wp_lookup]
    cases hf : m.collections.find? create.collection with
    | some e => exact ⟨_, rfl, .refl⟩
    | none =>
      simp only [Option.map_none, Catalog.applyNewCreate, wp_bind]
      cases hu : Catalog.createUuid create with
      | error e => exact ⟨_, rfl, .refl⟩
      | ok u =>
        simp only [wp_ofExcept_ok, Catalog.installCollection, wp_bind]
        rcases hr : (Catalog.openOrCreate u x).run d m with ⟨r, d', m'⟩
        have hmade : State.step ⟨d, m, .working (.making create.collection u x mark.index),
            .idle, some ⟨d, m, mark, cmd⟩⟩ (.next .apply ord) = some ⟨d', m',
              .ofResult (fun c => .working (.made create.collection u mark.index c)) r, .idle,
              some ⟨d, m, mark, cmd⟩⟩ := by
          simp [State.step, State.nextApply, ran_eq hr, State.withApply]
        cases r with
        | error e => exact wp_of_run_error hr ⟨_, rfl, .step hmade .refl⟩
        | ok c =>
          refine wp_of_run_ok hr ?_
          simp only [wp_modifyMem, wp_pure]
          exact Catalog.wp_persist ord mark.index (fun _ => trivial) trivial
            ⟨_, rfl, .step hmade (.step rfl (.persistApply ..))⟩

theorem drop_alone {drop : Proto.DropCollection} (hop : cmd.op = some (.dropCollection drop)) :
    wp (Catalog.applyDrop ord mark drop.collection)
      (fun _ d' m' => AppliesAlone ord mark cmd ⟨d, m, .idle, .idle, began⟩ (.ok default) d' m')
      (fun e d' m' => AppliesAlone ord mark cmd ⟨d, m, .idle, .idle, began⟩ (.error e) d' m')
      (fun _ => True) d m := by
  simp only [AppliesAlone, State.step, hop, wp_bind, Catalog.applyDrop, State.begin,
    State.mapLocked, wp_getMem, wp_modifyMem]
  cases hf : m.collections.find? drop.collection with
  | none =>
    rw [OrdMap.erase_of_find?_none hf]
    exact ⟨_, rfl, .refl⟩
  | some e =>
    rcases hr : (Catalog.dropDir e.uuid).run d (m.erased drop.collection) with ⟨r, d', m'⟩
    have hremoved : State.step ⟨d, m.erased drop.collection, .working (.dropping e.uuid mark.index),
        .idle, some ⟨d, m, mark, cmd⟩⟩ (.next .apply ord) = some ⟨d', m',
          .ofResult (fun _ => .persisting mark.index) r, .idle, some ⟨d, m, mark, cmd⟩⟩ := by
      simp [State.step, State.nextApply, ran_eq hr, State.withApply]
    rw [wp_bind]
    cases r with
    | error e => exact wp_of_run_error hr ⟨_, rfl, .step hremoved .refl⟩
    | ok c =>
      refine wp_of_run_ok hr ?_
      exact Catalog.wp_persist ord mark.index (fun _ => trivial) trivial
        ⟨_, rfl, .step hremoved (.persistApply ..)⟩

/-- A document command is one step once it has its collection. -/
theorem document_alone {p : CatalogM ApplyOutcome} {s s₁ : State}
    (hbegin : s.step (.apply mark cmd) = some s₁)
    (hnext : ∀ r d' m', p.run d m = (r, d', m') → s₁.step (.next .apply ord) = some ⟨d', m',
      .ofResult (fun _ => .idle) r, .idle, some ⟨s.disk, s.catalog, mark, cmd⟩⟩) :
    wp p (fun a d' m' => AppliesAlone ord mark cmd s (.ok a) d' m')
      (fun e d' m' => AppliesAlone ord mark cmd s (.error e) d' m') (fun _ => True) d m := by
  rcases hr : p.run d m with ⟨r, d', m'⟩
  cases r with
  | error e => exact wp_of_run_error hr ⟨s₁, hbegin, .step (hnext _ _ _ hr) .refl⟩
  | ok a => exact wp_of_run_ok hr ⟨s₁, hbegin, .step (hnext _ _ _ hr) .refl⟩

theorem index_alone {index : Proto.IndexDocument} (hop : cmd.op = some (.indexDocument index)) :
    wp (Catalog.applyIndex mark index)
      (fun a d' m' => AppliesAlone ord mark cmd ⟨d, m, .idle, .idle, began⟩ (.ok a) d' m')
      (fun e d' m' => AppliesAlone ord mark cmd ⟨d, m, .idle, .idle, began⟩ (.error e) d' m')
      (fun _ => True) d m := by
  rw [Catalog.applyIndex, wp_bind, Catalog.wp_lookup]
  cases hf : m.collections.find? index.collection with
  | none =>
    simp only [AppliesAlone, State.step, hop, State.begin, State.mapLocked, hf]
    exact ⟨_, rfl, .refl⟩
  | some e =>
    refine document_alone (p := Catalog.applyIndexTo mark index e.collection)
      (by simp only [State.step, hop, State.begin, State.mapLocked, hf]; rfl) fun r d' m' hr => ?_
    simp [State.step, State.nextApply, ran_eq hr, State.withApply]

theorem delete_alone {delete : Proto.DeleteDocument}
    (hop : cmd.op = some (.deleteDocument delete)) :
    wp (Catalog.applyDeleteDoc mark delete)
      (fun a d' m' => AppliesAlone ord mark cmd ⟨d, m, .idle, .idle, began⟩ (.ok a) d' m')
      (fun e d' m' => AppliesAlone ord mark cmd ⟨d, m, .idle, .idle, began⟩ (.error e) d' m')
      (fun _ => True) d m := by
  rw [Catalog.applyDeleteDoc, wp_bind, Catalog.wp_lookup]
  cases hf : m.collections.find? delete.collection with
  | none =>
    simp only [AppliesAlone, State.step, hop, State.begin, State.mapLocked, hf]
    exact ⟨_, rfl, .refl⟩
  | some e =>
    refine document_alone (p := Catalog.applyDeleteTo mark delete e.collection)
      (by simp only [State.step, hop, State.begin, State.mapLocked, hf]; rfl) fun r d' m' hr => ?_
    simp [State.step, State.nextApply, ran_eq hr, State.withApply]

end

/-- **The steps of the apply task** are those of `applyCommand`. -/
theorem apply_alone (ord : IterOrder) (mark : LogMark) (cmd : Proto.Command) (d : Disk)
    (m : Catalog) (began : Option Began) :
    let r := (Catalog.applyCommand ord mark cmd).run d m
    AppliesAlone ord mark cmd ⟨d, m, .idle, .idle, began⟩ r.1 r.2.1 r.2.2 := by
  refine result_of_wp (C := fun _ => True)
    (R := AppliesAlone ord mark cmd ⟨d, m, .idle, .idle, began⟩) ?_
  rw [Catalog.applyCommand]
  split
  · rename_i create hop
    rw [wp_bind]
    exact create_alone hop
  · rename_i drop hop
    rw [wp_bind]
    exact drop_alone hop
  · rename_i index hop
    exact index_alone hop
  · rename_i delete hop
    exact delete_alone hop
  · rename_i hop
    exact ⟨_, by simp [State.step, hop, State.begin, Phase.ofResult], .refl⟩

/-- **The steps of the checkpoint** are those of `checkpointApplied`. -/
theorem checkpoint_alone (ord : IterOrder) (mark : LogMark) (d : Disk) (m : Catalog)
    (began : Option Began) :
    let r := (Catalog.checkpointApplied ord mark).run d m
    ∃ s₁, State.step ⟨d, m, .idle, .idle, began⟩ (.checkpoint mark ord) = some s₁ ∧
      ByItself .checkpoint ord s₁ ⟨r.2.1, r.2.2, .idle, .ofResult (fun _ => .idle) r.1, began⟩ := by
  refine ⟨_, rfl, ?_⟩
  refine result_of_wp (C := fun _ => True) (R := fun r d' m' => ByItself .checkpoint ord _
    ⟨d', m', .idle, .ofResult (fun _ => .idle) r, began⟩) ?_
  rw [Catalog.checkpointApplied, Catalog.commitAll, wp_bind, wp_getMem]
  generalize ord.order m.collections.toList = rest
  induction rest generalizing d m with
  | nil =>
    refine Catalog.wp_persist ord mark.index (fun _ => trivial) trivial ?_
    exact .step rfl (.persistCheckpoint ..)
  | cons p rest ih =>
    rcases hr : (Catalog.commit p.1 p.2.collection mark).run d m with ⟨r, d', m'⟩
    have hnext : State.step ⟨d, m, .idle, .working ⟨mark, p :: rest⟩, began⟩
        (.next .checkpoint ord) = some ⟨d', m', .idle,
          .ofResult (fun _ => .working ⟨mark, rest⟩) r, began⟩ := by
      simp [State.step, State.nextCheckpoint, ran_eq hr, State.withCheckpoint]
    rw [forEach, wp_bind, wp_bind']
    cases r with
    | error e => exact wp_of_run_error hr (.step hnext .refl)
    | ok u =>
      refine wp_of_run_ok hr ?_
      exact (wp_bind _ _).mp (wp_mono _ (ih d' m') (fun _ _ _ h => .step hnext h)
        (fun _ _ _ h => .step hnext h) fun _ hc => hc)

end

end Lumen.Persisting
