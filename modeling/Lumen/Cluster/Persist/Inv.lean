import Lumen.Cluster.Persist

/-!
# Lumen.Cluster.Persist.Inv

What the apply task and the checkpoint keep when no listing is taken while the
other one writes.  The one that writes has the temporary file to itself; the
catalog file lists the map, or the apply task is still to write it; and a command
fails only where it would fail alone.
-/

namespace Lumen.Persisting

open Lib Prog

/-! ## what is written -/

section
variable {d d' : Disk} {ω : Type} {P : Bytes → Prop}

/-- A task that writes has the temporary file to itself, and `P` of what it
writes. -/
def Phase.Writes (d : Disk) (P : Bytes → Prop) : Phase ω → Prop
  | .writing (.listed bytes) => P bytes
  | .writing (.created bytes place) => P bytes ∧ place = .tmp ∧ d.catalogTmp = some []
  | .writing .written => ∃ bytes, d.catalogTmp = some bytes ∧ P bytes
  | _ => True

theorem Phase.Writes.mono {P' : Bytes → Prop} {phase : Phase ω} (h : phase.Writes d P)
    (htmp : d'.catalogTmp = d.catalogTmp) (hP : ∀ bytes, P bytes → P' bytes) :
    phase.Writes d' P' := by
  rcases phase with _ | _ | _ | w | _
  case writing =>
      cases w with
      | listed bytes => exact hP bytes h
      | created bytes place => exact ⟨hP bytes h.1, h.2.1, htmp.trans h.2.2⟩
      | written =>
        obtain ⟨bytes, ht, hb⟩ := h
        exact ⟨bytes, htmp.trans ht, hP bytes hb⟩
  all_goals trivial

theorem Phase.Writes.of_not_writing {phase : Phase ω} (h : phase.isWriting = false) :
    phase.Writes d P := by
  cases phase <;> trivial

theorem Phase.renamed_of_not_writing {phase : Phase ω} (h : phase.isWriting = false) :
    phase.renamed = phase := by
  cases phase <;> first | rfl | cases h

end

section
variable [Ext]

/-! ## the catalog file -/

variable {d d' : Disk} {m m' : Catalog} {ω ω' : Type} {P : Bytes → Prop}

/-- The bytes are a catalog file that lists the map. -/
def ListsMap (bytes : Bytes) (m : Catalog) : Prop :=
  ∃ (a : Nat) (l : List (String × Listed)),
    Ext.catalogSnapshot.decode bytes = .ok ⟨a, l.map Listed.toProto⟩ ∧ l.Perm m.listing

theorem ListsMap.encode (ord : IterOrder) (m : Catalog) (seq : Nat) :
    ListsMap (Ext.catalogSnapshot.encode (Catalog.snapshotProto ord m seq)) m := by
  refine ⟨seq, (ord.order m.collections.toList).map fun p => (p.1, p.2.listed), ?_,
    (ord.perm _).map _⟩
  rw [Codec.decode_encode, Catalog.snapshotProto, List.map_map]
  rfl

theorem ListsMap.current {bytes : Bytes} (h : ListsMap bytes m) (hpb : d.catalogPb = some bytes) :
    Current d m := by
  obtain ⟨a, l, hdec, hperm⟩ := h
  exact ⟨a, l, by simp [Disk.Lists, Catalog.loadSnapshot, hpb, hdec], hperm⟩

theorem ListsMap.congr {bytes : Bytes} (h : ListsMap bytes m) (hl : m'.listing = m.listing) :
    ListsMap bytes m' := by
  rwa [ListsMap, hl]

/-- What one step of `persist` does while the other task does not write. -/
inductive Persisted (P : Bytes → Prop) (d : Disk) : Disk → Phase ω → Prop where
  | wrote (tmp : Option Bytes) {w : Write}
      (h : (Phase.writing w : Phase ω).Writes { d with catalogTmp := tmp } P) :
      Persisted P d { d with catalogTmp := tmp } (.writing w)
  | renamed {bytes : Bytes} (h : P bytes) :
      Persisted P d { d with catalogPb := some bytes, catalogTmp := none } .idle

theorem persisted_of_step {ord : IterOrder} {phase phase' : Phase ω} {other other' : Phase ω'}
    (h : persistStep ord m d other phase = some (d', phase', other')) (hw : phase.Writes d P)
    (hlist : ∀ seq, P (Ext.catalogSnapshot.encode (Catalog.snapshotProto ord m seq)))
    (hother : other.isWriting = false) : other' = other ∧ Persisted P d d' phase' := by
  rcases phase with _ | _ | seq | w | _
  case persisting =>
      cases h
      exact ⟨rfl, .wrote d.catalogTmp (hlist seq)⟩
  case writing =>
      cases w with
      | listed bytes =>
        cases h
        exact ⟨rfl, .wrote _ ⟨hw, rfl, rfl⟩⟩
      | created bytes place =>
        obtain ⟨hb, rfl, htmp⟩ := hw
        cases h
        rw [writeAt, htmp]
        exact ⟨rfl, .wrote _ ⟨bytes, by simp [overwrite], hb⟩⟩
      | written =>
        obtain ⟨bytes, htmp, hb⟩ := hw
        rw [persistStep, htmp] at h
        cases h
        exact ⟨Phase.renamed_of_not_writing hother, .renamed hb⟩
  all_goals cases h

/-! ## what the tasks rely on -/

/-- The map has changed, and the file is still to be written. -/
def Phase.owes : Phase Applying → Bool
  | .working (.dropping _ _) => true
  | .persisting _ => true
  | .writing _ => true
  | _ => false

/-- The directory of a collection that is not in the map yet, or not any more. -/
def Phase.spare : Phase Applying → Option Uuid
  | .working (.made _ uuid _ _) => some uuid
  | .working (.dropping uuid _) => some uuid
  | _ => none

/-- The command fails in the same way when it is applied alone from where it
began. -/
def FailsAlone (began : Option Began) (err : Error) : Prop :=
  ∃ b, began = some b ∧ ∀ ord,
    ((Catalog.applyCommand ord b.mark b.cmd).run b.disk b.catalog).1 = .error err

/-- What the apply task knows of the map and the directories. -/
def Phase.Works (began : Option Began) (d : Disk) (m : Catalog) : Phase Applying → Prop
  | .working (.indexing mark index target) =>
    ∃ e, m.collections.find? index.collection = some e ∧ target.uuid = e.uuid ∧
      ∀ err, (d.mark e.uuid).index < mark.index →
        Catalog.docOf e.collection index = .error err → FailsAlone began err
  | .working (.deleting _ delete target) =>
    ∃ e, m.collections.find? delete.collection = some e ∧ target.uuid = e.uuid
  | .working (.making name uuid _ _) =>
    m.collections.find? name = none ∧
      (m.isOpen uuid = true → FailsAlone began (.tantivy "writer lock busy"))
  | .working (.made name uuid _ c) =>
    m.collections.find? name = none ∧ m.isOpen uuid = false ∧
      ∃ x ix, c = .fromIndex uuid x ix ∧ d.index uuid = some ix ∧ ix.schema = x.toSchema
  | .working (.dropping uuid _) => m.isOpen uuid = false
  | .failed e => FailsAlone began e
  | _ => True

/-- What is still to be committed is in the map. -/
def Phase.Commits (m : Catalog) : Phase Committing → Prop
  | .working c => ∀ p ∈ c.rest, ∃ e, m.collections.find? p.1 = some e ∧ p.2.collection.uuid = e.uuid
  | .failed _ => False
  | _ => True

/-- What holds in every state. -/
structure State.Inv (s : State) : Prop where
  sound : Sound s.disk s.catalog
  wal : s.disk.wal = ∅
  dirs : ∀ u, s.disk.dirs.contains u = true → u ∈ s.catalog.liveUuids ∨ s.apply.spare = some u
  works : s.apply.Works s.began s.disk s.catalog
  commits : s.checkpoint.Commits s.catalog
  current : s.apply.owes = true ∨ Current s.disk s.catalog
  applyFile : s.apply.Writes s.disk fun bytes => ListsMap bytes s.catalog
  checkpointFile : s.checkpoint.Writes s.disk fun bytes =>
    s.apply.owes = true ∨ ListsMap bytes s.catalog
  apart : s.apply.isWriting = true → s.checkpoint.isWriting = false

omit [Ext] in
theorem Phase.Commits.congr {phase : Phase Committing} (hc : phase.Commits m)
    (h : m'.listing = m.listing) : phase.Commits m' := by
  cases phase with
  | working c =>
    intro p hp
    obtain ⟨e, hf, hu⟩ := hc p hp
    obtain ⟨e', hf', hu'⟩ := Catalog.find?_uuid_congr h hf
    exact ⟨e', hf', hu.trans hu'.symm⟩
  | failed e => exact hc
  | _ => trivial

/-! ### commands that fail alone -/

theorem failsAlone_of_wp {mark : LogMark} {cmd : Proto.Command} {err : Error}
    (h : ∀ ord, wp (Catalog.applyCommand ord mark cmd) (fun _ _ _ => False)
      (fun e _ _ => e = err) (fun _ => True) d m) : FailsAlone (some ⟨d, m, mark, cmd⟩) err := by
  refine ⟨_, rfl, fun ord => ?_⟩
  obtain ⟨_, _, _, hrun, rfl⟩ := run_error_of_wp (h ord)
  rw [hrun]

section
variable {mark : LogMark} {cmd : Proto.Command} {create : Proto.CreateCollection}
  (hop : cmd.op = some (.createCollection create))
include hop

theorem failsAlone_createMapping {err : Error} (hx : Catalog.createMapping create = .error err) :
    FailsAlone (some ⟨d, m, mark, cmd⟩) err := by
  refine failsAlone_of_wp fun ord => ?_
  simp [Catalog.applyCommand, hop, Catalog.applyCreate, hx]

variable {x : Mapping} (hx : Catalog.createMapping create = .ok x)
  (hf : m.collections.find? create.collection = none)
include hx hf

theorem failsAlone_createUuid {err : Error} (hu : Catalog.createUuid create = .error err) :
    FailsAlone (some ⟨d, m, mark, cmd⟩) err := by
  refine failsAlone_of_wp fun ord => ?_
  simp [Catalog.applyCommand, hop, Catalog.applyCreate, hx, Catalog.wp_lookup, hf,
    Catalog.applyNewCreate, hu]

/-- A create with the identity of a collection that is there. -/
theorem failsAlone_isOpen {u : Uuid} (hu : Catalog.createUuid create = .ok u) (hs : Sound d m)
    (ho : m.isOpen u = true) :
    FailsAlone (some ⟨d, m, mark, cmd⟩) (.tantivy "writer lock busy") := by
  obtain ⟨n, e, he, rfl⟩ := Catalog.mem_liveUuids.mp (Catalog.isOpen_iff.mp ho)
  obtain ⟨ix, hix, _⟩ := (hs.entry n e he).index
  refine failsAlone_of_wp fun ord => ?_
  simp [Catalog.applyCommand, hop, Catalog.applyCreate, hx, Catalog.wp_lookup, hf,
    Catalog.applyNewCreate, hu, Catalog.installCollection, Catalog.openOrCreate,
    Disk.contains_of_index hix, Catalog.openCollection, hix, ho]

end

theorem failsAlone_docOf {mark : LogMark} {cmd : Proto.Command} {index : Proto.IndexDocument}
    {e : Catalog.Entry} {err : Error} (hop : cmd.op = some (.indexDocument index))
    (hs : Sound d m) (hf : m.collections.find? index.collection = some e)
    (hlt : (d.mark e.uuid).index < mark.index)
    (hdoc : Catalog.docOf e.collection index = .error err) :
    FailsAlone (some ⟨d, m, mark, cmd⟩) err := by
  have he := hs.entry _ e hf
  obtain ⟨ix, hix, _⟩ := he.index
  rw [Disk.mark_of_index hix] at hlt
  refine failsAlone_of_wp fun ord => ?_
  simp only [Catalog.applyCommand, hop]
  rw [Catalog.applyIndex, wp_bind, Catalog.wp_lookup, hf]
  refine wp_applyIndexTo hop hf he.uuid hix (fun err' _ hdoc' => ?_)
    fun _ d' m' hfits (_ : Effect ord mark.index cmd d m d' m') => ?_
  · rw [hdoc] at hdoc'
    exact (Except.error.inj hdoc').symm
  · obtain ⟨doc, hok⟩ := hfits hlt
    rw [hdoc] at hok
    cases hok

/-! ### steps of the apply task -/

variable {s s' : State}

/-- A step of the apply task outside `persist`. -/
theorem State.Inv.worked (h : s.Inv) {phase : Phase Applying} {began : Option Began}
    (hfiles : d.catalogPb = s.disk.catalogPb ∧ d.catalogTmp = s.disk.catalogTmp ∧
      d.wal = s.disk.wal) (hw : phase.isWriting = false)
    (hlist : phase.owes = true ∨ s.apply.owes = false ∧ m.listing = s.catalog.listing)
    (hsound : Sound d m)
    (hdirs : ∀ u, d.dirs.contains u = true → u ∈ m.liveUuids ∨ phase.spare = some u)
    (hworks : phase.Works began d m) (hcommits : s.checkpoint.Commits m) :
    State.Inv ⟨d, m, phase, s.checkpoint, began⟩ where
  sound := hsound
  wal := hfiles.2.2.trans h.wal
  dirs := hdirs
  works := hworks
  commits := hcommits
  current := hlist.imp_right fun hsame => by
    obtain ⟨a, l, hl, hperm⟩ := (h.current.resolve_left (by simp [hsame.1])).congr hfiles.1
    exact ⟨a, l, hl, hsame.2 ▸ hperm⟩
  applyFile := .of_not_writing hw
  checkpointFile := h.checkpointFile.mono hfiles.2.1 fun bytes hb => hlist.imp_right fun hsame =>
    (hb.resolve_left (by simp [hsame.1])).congr hsame.2
  apart hwriting := by simp [hw] at hwriting

/-- The apply task turns to something else. -/
theorem State.Inv.turned (h : s.Inv) {phase : Phase Applying} {began : Option Began}
    (howes : s.apply.owes = false) (hspare : s.apply.spare = none) (hw : phase.isWriting = false)
    (hworks : phase.Works began s.disk s.catalog) :
    State.Inv ⟨s.disk, s.catalog, phase, s.checkpoint, began⟩ :=
  h.worked ⟨rfl, rfl, rfl⟩ hw (.inr ⟨howes, rfl⟩) h.sound
    (fun u hu => .inl ((h.dirs u hu).resolve_right (by simp [hspare]))) hworks h.commits

omit [Ext] in
/-- Where the checkpoint does not hold the lock, the map may change. -/
theorem Phase.Commits.of_unlocked (hlock : ¬ s.mapLocked = true) (hc : s.checkpoint.Commits m) :
    s.checkpoint.Commits m' := by
  cases hp : s.checkpoint with
  | working c => simp [State.mapLocked, hp] at hlock
  | failed e =>
    rw [hp] at hc
    exact hc
  | _ => trivial

/-- A collection leaves the map. -/
theorem State.Inv.dropped (h : s.Inv) (hspare : s.apply.spare = none)
    (hlock : ¬ s.mapLocked = true) {name : String} {e : Catalog.Entry}
    (hf : s.catalog.collections.find? name = some e) (seq : Nat) (began : Option Began) :
    State.Inv ⟨s.disk, s.catalog.erased name, .working (.dropping e.uuid seq), s.checkpoint,
      began⟩ := by
  refine h.worked ⟨rfl, rfl, rfl⟩ rfl (.inl rfl) (h.sound.erased name) (fun u hu => ?_)
    (Catalog.isOpen_eq_false fun n e' hf' hu => ?_) (h.commits.of_unlocked hlock)
  · have hlive := (h.dirs u hu).resolve_right (by simp [hspare])
    obtain ⟨n, e', hf', rfl⟩ := Catalog.mem_liveUuids.mp hlive
    by_cases hn : n = name
    · rw [hn, hf] at hf'
      cases hf'
      exact .inr rfl
    · exact .inl (Catalog.mem_liveUuids.mpr ⟨n, e', by rw [Catalog.find?_erased, if_neg hn, hf'], rfl⟩)
  · rw [Catalog.find?_erased] at hf'
    split at hf'
    · contradiction
    · rename_i hn
      exact hn (h.sound.inj n name e' e hf' hf hu)

section
variable {mark : LogMark} {cmd : Proto.Command} {checkpoint : Phase Committing}
  {began : Option Began} (h : State.Inv ⟨d, m, .idle, checkpoint, began⟩)
include h

/-- A command begins with a change of the phase only. -/
theorem State.Inv.begun {phase : Phase Applying} (hw : phase.isWriting = false)
    (hworks : phase.Works (some ⟨d, m, mark, cmd⟩) d m) :
    State.Inv ⟨d, m, phase, checkpoint, some ⟨d, m, mark, cmd⟩⟩ :=
  h.turned rfl rfl hw hworks

theorem State.Inv.beginCreate {create : Proto.CreateCollection}
    (hop : cmd.op = some (.createCollection create))
    (hstep : State.begin ⟨d, m, .idle, checkpoint, some ⟨d, m, mark, cmd⟩⟩ mark
      (some (.createCollection create)) = some s') : s'.Inv := by
  rw [State.begin] at hstep
  cases hx : Catalog.createMapping create with
  | error e =>
    rw [hx] at hstep
    cases hstep
    exact h.begun rfl (failsAlone_createMapping hop hx)
  | ok x =>
    simp only [hx] at hstep
    split at hstep
    · contradiction
    cases hf : m.collections.find? create.collection with
    | some e =>
      simp only [hf] at hstep
      cases hstep
      exact h.begun rfl trivial
    | none =>
      simp only [hf] at hstep
      cases hu : Catalog.createUuid create with
      | error e =>
        rw [hu] at hstep
        cases hstep
        exact h.begun rfl (failsAlone_createUuid hop hx hf hu)
      | ok u =>
        rw [hu] at hstep
        cases hstep
        exact h.begun rfl ⟨hf, failsAlone_isOpen hop hx hf hu h.sound⟩

theorem State.Inv.beginDrop {drop : Proto.DropCollection}
    (hstep : State.begin ⟨d, m, .idle, checkpoint, some ⟨d, m, mark, cmd⟩⟩ mark
      (some (.dropCollection drop)) = some s') : s'.Inv := by
  rw [State.begin] at hstep
  split at hstep
  · contradiction
  rename_i hlock
  cases hf : m.collections.find? drop.collection with
  | none =>
    simp only [hf] at hstep
    cases hstep
    exact h.begun rfl trivial
  | some e =>
    simp only [hf] at hstep
    cases hstep
    exact h.dropped rfl hlock hf mark.index _

theorem State.Inv.beginIndex {index : Proto.IndexDocument}
    (hop : cmd.op = some (.indexDocument index))
    (hstep : State.begin ⟨d, m, .idle, checkpoint, some ⟨d, m, mark, cmd⟩⟩ mark
      (some (.indexDocument index)) = some s') : s'.Inv := by
  rw [State.begin] at hstep
  split at hstep
  · contradiction
  cases hf : m.collections.find? index.collection with
  | none =>
    simp only [hf] at hstep
    cases hstep
    exact h.begun rfl trivial
  | some e =>
    simp only [hf] at hstep
    cases hstep
    exact h.begun rfl ⟨e, hf, (h.sound.entry _ e hf).uuid, fun err hlt hdoc =>
      failsAlone_docOf hop h.sound hf hlt hdoc⟩

theorem State.Inv.beginDelete {delete : Proto.DeleteDocument}
    (hstep : State.begin ⟨d, m, .idle, checkpoint, some ⟨d, m, mark, cmd⟩⟩ mark
      (some (.deleteDocument delete)) = some s') : s'.Inv := by
  rw [State.begin] at hstep
  split at hstep
  · contradiction
  cases hf : m.collections.find? delete.collection with
  | none =>
    simp only [hf] at hstep
    cases hstep
    exact h.begun rfl trivial
  | some e =>
    simp only [hf] at hstep
    cases hstep
    exact h.begun rfl ⟨e, hf, (h.sound.entry _ e hf).uuid⟩

end

/-- A command begins. -/
theorem State.Inv.begin {mark : LogMark} {cmd : Proto.Command} (h : s.Inv)
    (hstep : s.step (.apply mark cmd) = some s') : s'.Inv := by
  obtain ⟨d, m, phase, checkpoint, began⟩ := s
  cases phase with
  | idle =>
    simp only [State.step] at hstep
    cases hop : cmd.op with
    | none =>
      rw [hop] at hstep
      cases hstep
      exact h.begun rfl trivial
    | some op =>
      rw [hop] at hstep
      cases op with
      | createCollection create => exact h.beginCreate hop hstep
      | dropCollection drop => exact h.beginDrop hstep
      | indexDocument index => exact h.beginIndex hop hstep
      | deleteDocument delete => exact h.beginDelete hstep
  | _ => cases hstep

omit [Ext] in
/-- A call as one step ends where its precondition says. -/
theorem ran_of_wp {α : Type} {p : CatalogM α} {next : α → Phase ω}
    {R : Disk × Catalog × Phase ω → Prop}
    (h : wp p (fun a d' m' => R (d', m', next a)) (fun e d' m' => R (d', m', .failed e))
      (fun _ => True) d m) : R (ran p next d m) :=
  result_of_wp (R := fun r d' m' => R (d', m', .ofResult next r)) h

/-- A document command is applied. -/
theorem State.Inv.edited (h : s.Inv) (howes : s.apply.owes = false)
    (hspare : s.apply.spare = none) {ord : IterOrder} {i : Nat} {cmd : Proto.Command}
    (he : Effect ord i cmd s.disk s.catalog d m)
    (hcreate : ∀ create, cmd.op ≠ some (.createCollection create))
    (hdrop : ∀ drop, cmd.op ≠ some (.dropCollection drop)) :
    State.Inv ⟨d, m, .idle, s.checkpoint, s.began⟩ := by
  have hsound := he.sound_of_schema h.sound fun n u x ix hev _ _ => by
    obtain ⟨create, hop, _⟩ := eventOf_eq_create_iff.mp hev
    exact absurd hop (hcreate create)
  obtain ⟨rfl, hlist⟩ := he.document hcreate hdrop
  refine h.worked ⟨rfl, rfl, rfl⟩ rfl (.inr ⟨howes, hlist⟩) hsound (fun u hu => ?_) trivial
    (h.commits.congr hlist)
  rw [Catalog.liveUuids_congr hlist]
  exact .inl ((h.dirs u hu).resolve_right (by simp [hspare]))

theorem State.Inv.indexed {mark : LogMark} {index : Proto.IndexDocument} {target : Collection}
    (h : s.Inv) (ord : IterOrder) (hphase : s.apply = .working (.indexing mark index target)) :
    (s.withApply (ran (Catalog.applyIndexTo mark index target) (fun _ => .idle)
      s.disk s.catalog)).Inv := by
  have hworks := h.works
  rw [hphase] at hworks
  obtain ⟨e, hf, ht, hblame⟩ := hworks
  have howes : s.apply.owes = false := by rw [hphase]; rfl
  have hspare : s.apply.spare = none := by rw [hphase]; rfl
  obtain ⟨ix, hix, _⟩ := (h.sound.entry _ e hf).index
  rw [Disk.mark_of_index hix] at hblame
  have hop : (⟨some (.indexDocument index)⟩ : Proto.Command).op = some (.indexDocument index) := rfl
  refine ran_of_wp (R := fun x => (s.withApply x).Inv) ?_
  refine wp_applyIndexTo hop hf ht hix (fun err hlt hdoc => ?_)
    fun _ d' m' _ (he : Effect ord _ _ _ _ d' m') => ?_
  · exact h.turned howes hspare rfl (hblame err hlt hdoc)
  · exact h.edited howes hspare he (by simp) (by simp)

theorem State.Inv.deleted {mark : LogMark} {delete : Proto.DeleteDocument} {target : Collection}
    (h : s.Inv) (ord : IterOrder) (hphase : s.apply = .working (.deleting mark delete target)) :
    (s.withApply (ran (Catalog.applyDeleteTo mark delete target) (fun _ => .idle)
      s.disk s.catalog)).Inv := by
  have hworks := h.works
  rw [hphase] at hworks
  obtain ⟨e, hf, ht⟩ := hworks
  have howes : s.apply.owes = false := by rw [hphase]; rfl
  have hspare : s.apply.spare = none := by rw [hphase]; rfl
  have hop : (⟨some (.deleteDocument delete)⟩ : Proto.Command).op =
    some (.deleteDocument delete) := rfl
  refine ran_of_wp (R := fun x => (s.withApply x).Inv) ?_
  refine wp_applyDeleteTo hop (h.sound.entry _ e hf).based hf ht
    fun _ d' m' (he : Effect ord _ _ _ _ d' m') => ?_
  exact h.edited howes hspare he (by simp) (by simp)

/-- The directory of a new collection is made. -/
theorem State.Inv.made {name : String} {u : Uuid} {x : Mapping} {seq : Nat} (h : s.Inv)
    (hphase : s.apply = .working (.making name u x seq)) :
    (s.withApply (ran (Catalog.openOrCreate u x) (fun c => .working (.made name u seq c))
      s.disk s.catalog)).Inv := by
  have hworks := h.works
  rw [hphase] at hworks
  obtain ⟨hfree, hbusy⟩ := hworks
  have howes : s.apply.owes = false := by rw [hphase]; rfl
  have hspare : s.apply.spare = none := by rw [hphase]; rfl
  have hlive : ∀ u', s.disk.dirs.contains u' = true → u' ∈ s.catalog.liveUuids :=
    fun u' hu => (h.dirs u' hu).resolve_right (by simp [hspare])
  refine ran_of_wp (R := fun x => (s.withApply x).Inv) ?_
  cases ho : s.catalog.isOpen u with
  | true =>
    obtain ⟨n, e, he, rfl⟩ := Catalog.mem_liveUuids.mp (Catalog.isOpen_iff.mp ho)
    obtain ⟨ix, hix, _⟩ := (h.sound.entry n e he).index
    simp only [Catalog.openOrCreate, wp_bind, wp_getDisk, Disk.contains_of_index hix, if_true,
      Catalog.openCollection, wp_getMem, hix, ho, wp_throw]
    exact h.turned howes hspare rfl (hbusy ho)
  | false =>
    have hno : s.disk.dirs.contains u = false := by
      refine Bool.eq_false_iff.mpr fun hc => ?_
      rw [Catalog.isOpen_iff.mpr (hlive u hc)] at ho
      cases ho
    refine Catalog.wp_openOrCreate u x (fun _ _ _ => trivial)
      (fun e hi => absurd (fun hc => by rw [hno] at hc; cases hc) hi) (fun ix hix _ => ?_)
      fun _ => ?_
    · rw [Disk.contains_of_index hix] at hno
      cases hno
    refine h.worked ⟨rfl, rfl, rfl⟩ rfl (.inr ⟨howes, rfl⟩)
      (h.sound.congr fun n e hf => ?_) (fun u' hu' => ?_)
      ⟨hfree, ho, x, _, rfl, by simp [Disk.index_setDir], rfl⟩ h.commits
    · rw [Disk.index_setDir, if_neg (Catalog.uuid_ne_of_isOpen ho hf)]
    · rw [Disk.contains_setDir] at hu'
      rcases (Bool.or_eq_true _ _).mp hu' with hu' | hu'
      · exact .inr (congrArg some (of_decide_eq_true hu').symm)
      · exact .inl (hlive u' hu')

/-- The new collection is entered into the map. -/
theorem State.Inv.entered {name : String} {u : Uuid} {seq : Nat} {c : Collection} (h : s.Inv)
    (hphase : s.apply = .working (.made name u seq c)) (hlock : ¬ s.mapLocked = true) :
    State.Inv ⟨s.disk,
      { s.catalog with collections := s.catalog.collections.insert name ⟨u, seq, c⟩ },
      .persisting seq, s.checkpoint, s.began⟩ := by
  have hworks := h.works
  rw [hphase] at hworks
  obtain ⟨hfree, ho, x, ix, rfl, hix, hschema⟩ := hworks
  refine h.worked ⟨rfl, rfl, rfl⟩ rfl (.inl rfl) (h.sound.inserted ho hix hschema seq)
    (fun u' hu' => .inl (Catalog.mem_liveUuids.mpr ?_)) trivial (h.commits.of_unlocked hlock)
  rcases h.dirs u' hu' with hlive | hspare
  · obtain ⟨n, e, hf, he⟩ := Catalog.mem_liveUuids.mp hlive
    have hn : n ≠ name := fun hn => by rw [hn, hfree] at hf; cases hf
    exact ⟨n, e, by rw [OrdMap.find?_insert_ne hn, hf], he⟩
  · rw [hphase] at hspare
    exact ⟨name, _, OrdMap.find?_insert_self _ _ _, Option.some.inj hspare⟩

/-- The directory of a dropped collection is removed. -/
theorem State.Inv.removed {u : Uuid} {seq : Nat} (h : s.Inv)
    (hphase : s.apply = .working (.dropping u seq)) :
    (s.withApply (ran (Catalog.dropDir u) (fun _ => .persisting seq) s.disk s.catalog)).Inv := by
  have hworks := h.works
  rw [hphase] at hworks
  refine ran_of_wp (R := fun x => (s.withApply x).Inv) ?_
  refine Catalog.wp_dropDir u (fun _ _ => trivial) trivial ?_
  refine h.worked ⟨rfl, rfl, rfl⟩ rfl (.inl rfl) (h.sound.congr fun n e hf => ?_)
    (fun u' hu' => ?_) trivial h.commits
  · rw [Disk.index_removeDir, if_neg (Catalog.uuid_ne_of_isOpen hworks hf)]
  · rw [Disk.contains_removeDir] at hu'
    obtain ⟨hne, hc⟩ := (Bool.and_eq_true _ _).mp hu'
    refine .inl ((h.dirs u' hc).resolve_right fun hspare => ?_)
    rw [hphase] at hspare
    exact of_decide_eq_true hne (Option.some.inj hspare).symm

/-- The apply task makes a step of `persist`. -/
theorem State.Inv.persistApply {ord : IterOrder} (h : s.Inv) (hspare : s.apply.spare = none)
    (hother : s.checkpoint.isWriting = false) (hstep : s.persistApply ord = some s') : s'.Inv := by
  obtain ⟨⟨d', phase', other'⟩, hp, rfl⟩ := Option.map_eq_some_iff.mp hstep
  obtain ⟨rfl, hdone⟩ := persisted_of_step hp h.applyFile (ListsMap.encode ord s.catalog) hother
  have hlive : ∀ u, s.disk.dirs.contains u = true → u ∈ s.catalog.liveUuids :=
    fun u hu => (h.dirs u hu).resolve_right (by simp [hspare])
  cases hdone with
  | wrote tmp hw =>
    exact ⟨h.sound.congr fun _ _ _ => rfl, h.wal, fun u hu => .inl (hlive u hu), trivial,
      h.commits, .inl rfl, hw, .of_not_writing hother, fun _ => hother⟩
  | renamed hb =>
    exact ⟨h.sound.congr fun _ _ _ => rfl, h.wal, fun u hu => .inl (hlive u hu), trivial,
      h.commits, .inr (hb.current rfl), trivial, .of_not_writing hother, fun _ => hother⟩

/-- The next step of the apply task. -/
theorem State.Inv.nextApply {ord : IterOrder} (h : s.Inv)
    (hok : exclusive s (.next .apply ord) = true)
    (hstep : s.step (.next .apply ord) = some s') : s'.Inv := by
  simp only [State.step, State.nextApply] at hstep
  cases hphase : s.apply with
  | idle => simp [hphase, State.persistApply, persistStep] at hstep
  | failed e => simp [hphase, State.persistApply, persistStep] at hstep
  | persisting seq =>
    simp only [exclusive, hphase, Bool.not_eq_true'] at hok
    simp only [hphase] at hstep
    split at hstep
    · contradiction
    · exact h.persistApply (by rw [hphase]; rfl) hok hstep
  | writing w =>
    rw [hphase] at hstep
    exact h.persistApply (by rw [hphase]; rfl) (h.apart (by rw [hphase]; rfl)) hstep
  | working work =>
    rw [hphase] at hstep
    cases work with
    | indexing mark index target =>
      cases hstep
      exact h.indexed ord hphase
    | deleting mark delete target =>
      cases hstep
      exact h.deleted ord hphase
    | making name u x seq =>
      cases hstep
      exact h.made hphase
    | made name u seq c =>
      simp only at hstep
      split at hstep
      · contradiction
      · rename_i hlock
        cases hstep
        exact h.entered hphase hlock
    | dropping u seq =>
      cases hstep
      exact h.removed hphase

/-! ### steps of the checkpoint -/

/-- What the apply task knows after a commit. -/
theorem Phase.Works.committed {phase : Phase Applying} {began : Option Began} {name : String}
    {e : Catalog.Entry} {ix : Index} {mark : LogMark} (h : phase.Works began d m)
    (hs : Sound d m) (hf : m.collections.find? name = some e)
    (hkeep : ∀ i index target, phase = .working (.indexing i index target) →
      index.collection = name → mark.index < i.index → (d.mark target.uuid).index < i.index) :
    phase.Works began (d.committed e ix mark) (m.committed name e ix) := by
  have hlist : (m.committed name e ix).listing = m.listing := Catalog.listing_store hf rfl
  have hfind := Catalog.find?_committed hs hf ix
  cases phase with
  | working work =>
    cases work with
    | indexing i index target =>
      obtain ⟨e', hf', ht, hblame⟩ := h
      by_cases hn : index.collection = name
      · rw [hn, hf] at hf'
        cases hf'
        refine ⟨{ e with collection := e.collection.committed ix }, by rw [hfind, if_pos hn], ht,
          fun err hlt hdoc => hblame err ?_ hdoc⟩
        have hmark : (d.committed e ix mark).mark e.uuid = mark := by
          simp [Disk.mark, Disk.committed, Disk.index_setDir, Index.committed]
        rw [hmark] at hlt
        exact ht ▸ hkeep i index target rfl hn hlt
      · have hne : e'.uuid ≠ e.uuid := fun hu => hn (hs.inj _ name e' e hf' hf hu)
        refine ⟨e', by rw [hfind, if_neg hn, hf'], ht, fun err hlt hdoc => hblame err ?_ hdoc⟩
        rwa [Disk.mark, Disk.committed, Disk.index_setDir, if_neg hne] at hlt
    | deleting i delete target =>
      obtain ⟨e', hf', ht⟩ := h
      obtain ⟨e'', hf'', hu⟩ := Catalog.find?_uuid_congr hlist hf'
      exact ⟨e'', hf'', ht.trans hu.symm⟩
    | making n u x seq =>
      exact ⟨Catalog.find?_eq_none_congr hlist h.1, fun ho => h.2 (Catalog.isOpen_congr hlist u ▸ ho)⟩
    | made n u seq c =>
      obtain ⟨hfree, ho, x, ix', rfl, hix', hschema⟩ := h
      refine ⟨Catalog.find?_eq_none_congr hlist hfree, Catalog.isOpen_congr hlist u ▸ ho, x, ix', rfl,
        ?_, hschema⟩
      rw [Disk.committed, Disk.index_setDir,
        if_neg (Catalog.uuid_ne_of_isOpen ho hf).symm, hix']
    | dropping u seq => exact (Catalog.isOpen_congr hlist u).trans h
  | failed e => exact h
  | _ => trivial

/-- The checkpoint commits the next collection. -/
theorem State.Inv.committed {mark : LogMark} {p : String × Catalog.Entry}
    {rest : List (String × Catalog.Entry)} (h : s.Inv)
    (hphase : s.checkpoint = .working ⟨mark, p :: rest⟩) (hok : s.Unskips mark p.1 = false) :
    (s.withCheckpoint (ran (Catalog.commit p.1 p.2.collection mark)
      (fun _ => .working ⟨mark, rest⟩) s.disk s.catalog)).Inv := by
  have hcommits := h.commits
  rw [hphase] at hcommits
  obtain ⟨e, hf, hu⟩ := hcommits p List.mem_cons_self
  obtain ⟨ix, hix, _⟩ := (h.sound.entry p.1 e hf).index
  have hlist : (s.catalog.committed p.1 e ix).listing = s.catalog.listing :=
    Catalog.listing_store hf rfl
  have hrest : (Phase.working ⟨mark, rest⟩).Commits s.catalog :=
    fun q hq => hcommits q (List.mem_cons_of_mem p hq)
  refine ran_of_wp (R := fun x => (s.withCheckpoint x).Inv) ?_
  refine Catalog.wp_commit h.sound.based hf hu hix trivial ?_
  refine ⟨h.sound.committed hf hix mark, h.wal, fun u hc => ?_,
    h.works.committed h.sound hf fun i index target hi hn hlt => ?_, hrest.congr hlist,
    h.current.imp_right fun hc => hc.committed hf,
    h.applyFile.mono rfl fun bytes hb => hb.congr hlist, trivial, fun _ => rfl⟩
  · have hc : u = e.uuid ∨ s.disk.dirs.contains u = true := by
      simpa [State.withCheckpoint, Disk.committed, Disk.contains_setDir] using hc
    have hlive := Catalog.liveUuids_congr hlist
    rcases hc with rfl | hc
    · exact .inl (hlive ▸ Catalog.mem_liveUuids.mpr ⟨p.1, e, hf, rfl⟩)
    · exact (h.dirs u hc).imp_left fun hl => hlive ▸ hl
  · simp only [State.Unskips, hi, hn, decide_true, Bool.true_and, hlt] at hok
    simpa using hok

/-- The files are nothing the apply task relies on. -/
theorem Phase.Works.files {phase : Phase Applying} {began : Option Began}
    (h : phase.Works began d m) (pb tmp : Option Bytes) :
    phase.Works began { d with catalogPb := pb, catalogTmp := tmp } m := by
  cases phase with
  | working work => cases work <;> exact h
  | _ => exact h

/-- The checkpoint makes a step of `persist`. -/
theorem State.Inv.persistCheckpoint {ord : IterOrder} (h : s.Inv)
    (hother : s.apply.isWriting = false) (hstep : s.persistCheckpoint ord = some s') : s'.Inv := by
  obtain ⟨⟨d', phase', other'⟩, hp, rfl⟩ := Option.map_eq_some_iff.mp hstep
  obtain ⟨rfl, hdone⟩ := persisted_of_step hp h.checkpointFile
    (fun seq => .inr (ListsMap.encode ord s.catalog seq)) hother
  have hapart : ∀ b, s.apply.isWriting = true → b = false := fun b hw => by simp [hother] at hw
  cases hdone with
  | wrote tmp hw =>
    exact ⟨h.sound.congr fun _ _ _ => rfl, h.wal, h.dirs, h.works.files _ _, trivial,
      h.current.imp_right fun hc => hc.congr rfl, .of_not_writing hother, hw, hapart _⟩
  | renamed hb =>
    exact ⟨h.sound.congr fun _ _ _ => rfl, h.wal, h.dirs, h.works.files _ _, trivial,
      hb.imp_right fun hl => hl.current rfl, .of_not_writing hother, trivial, hapart _⟩

/-- The next step of the checkpoint. -/
theorem State.Inv.nextCheckpoint {ord : IterOrder} (h : s.Inv)
    (hok : exclusive s (.next .checkpoint ord) = true)
    (hstep : s.step (.next .checkpoint ord) = some s') : s'.Inv := by
  simp only [State.step, State.nextCheckpoint] at hstep
  cases hphase : s.checkpoint with
  | idle => simp [hphase, State.persistCheckpoint, persistStep] at hstep
  | failed e => simp [hphase, State.persistCheckpoint, persistStep] at hstep
  | persisting seq =>
    simp only [exclusive, hphase, Bool.not_eq_true'] at hok
    rw [hphase] at hstep
    exact h.persistCheckpoint hok hstep
  | writing w =>
    rw [hphase] at hstep
    refine h.persistCheckpoint (Bool.eq_false_iff.mpr fun hw => ?_) hstep
    have hother := h.apart hw
    rw [hphase] at hother
    cases hother
  | working c =>
    obtain ⟨mark, rest⟩ := c
    rw [hphase] at hstep
    cases rest with
    | cons p rest =>
      simp only [exclusive, hphase, Bool.not_eq_true'] at hok
      cases hstep
      exact h.committed hphase hok
    | nil =>
      cases hstep
      exact ⟨h.sound, h.wal, h.dirs, h.works, trivial, h.current, h.applyFile, trivial,
        fun _ => rfl⟩

/-- The checkpoint is called. -/
theorem State.Inv.called {mark : LogMark} {ord : IterOrder} (h : s.Inv)
    (hstep : s.step (.checkpoint mark ord) = some s') : s'.Inv := by
  simp only [State.step] at hstep
  split at hstep
  · cases hstep
    refine ⟨h.sound, h.wal, h.dirs, h.works, fun p hp => ?_, h.current, h.applyFile, trivial,
      fun _ => rfl⟩
    have hf := OrdMap.find?_eq_some_iff.mpr (ord.mem.mp hp)
    exact ⟨p.2, hf, (h.sound.entry p.1 p.2 hf).uuid⟩
  · contradiction

end

end Lumen.Persisting
