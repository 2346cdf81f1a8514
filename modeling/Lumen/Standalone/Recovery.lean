import Lumen.Reference
import Lumen.Standalone.Open
import Lumen.Standalone.Ops

/-!
# Lumen.Standalone.Recovery

Runs of a single node with crashes, and what the next `open` brings back.

* `recovery_of_acknowledged` — after any run whose crashes fall between
  operations or inside checkpoints, opening shows exactly the acknowledged
  operations, unless a checkpoint was cut right after a number was drawn in
  vain.
* `recovery_survives_crash` — a crash inside `open` itself does no harm when
  the tail it replays is safe (`TailOk`).
-/

namespace Lumen

open Lib Prog Replay

/-! ## what clients see -/

/-- A catalog as its clients know it: the mapping of each collection and the
source of each of its documents. -/
abbrev Spec := String → Option (Mapping × (String → Option Bytes))

/-- The source of a document. -/
def Spec.source (s : Spec) (name id : String) : Option Bytes := (s name).bind fun c => c.2 id

/-- What a catalog shows under a name. -/
def Catalog.shown (m : Catalog) : Spec := fun name =>
  (m.collections.find? name).map fun e => (e.collection.mapping, e.collection.source)

/-- The operations of clients. -/
inductive Op where
  | create (name : String) (mapping : Mapping)
  | drop (name : String)
  | upsert (name : String) (id : Option String) (source : Bytes)
  | delete (name id : String)

section
variable [Ext]

/-- What an acknowledged operation does. -/
def Op.apply (minted : Uuid) : Op → Spec → Spec
  | .create name mapping, s => Function.update s name ((s name).or (some (mapping, fun _ => none)))
  | .drop name, s => Function.update s name none
  | .upsert name id source, s =>
    Function.update s name ((s name).map fun c =>
      (c.1, Function.update c.2 (Catalog.orNewId id minted) (some source)))
  | .delete name id, s =>
    Function.update s name ((s name).map fun c => (c.1, Function.update c.2 id none))

/-- Whether an operation is on one document. -/
def Op.isDocument : Op → Bool
  | .create _ _ => false
  | .drop _ => false
  | .upsert _ _ _ => true
  | .delete _ _ => true

/-- The operation replaces or removes a document. -/
def Op.Overwrites (minted : Uuid) (name id : String) : Op → Prop
  | .create _ _ => False
  | .drop name' => name' = name
  | .upsert name' id' _ => name' = name ∧ Catalog.orNewId id' minted = id
  | .delete name' id' => name' = name ∧ id' = id

/-- The call of an operation; `minted` is the identity it draws. -/
def Op.call (minted : Uuid) : Op → CatalogM Unit
  | .create name mapping => do
    let _ ← Catalog.create name mapping minted
    pure ()
  | .drop name => Catalog.dropCollection name
  | .upsert name id source => do
    let _ ← Catalog.upsertDocument name id source minted
    pure ()
  | .delete name id => do
    let _ ← Catalog.deleteDocument name id
    pure ()

/-- What an operation logs. -/
def Op.logged (minted : Uuid) : Op → Proto.Op
  | .create name mapping => .createCollection ⟨name, fmtUuid minted, some mapping.toProto⟩
  | .drop name => .dropCollection ⟨name⟩
  | .upsert name id source => .indexDocument ⟨name, Catalog.orNewId id minted, source⟩
  | .delete name id => .deleteDocument ⟨name, id⟩

/-- An operation up to its number; a collection that is there with the mapping
is not created again. -/
def Op.prepare (minted : Uuid) : Op → CatalogM (Option Section)
  | .create name mapping => do
    ofExcept (Catalog.validateName name)
    let existing ← Catalog.lookup name
    match existing with
    | some c => if c.mapping = mapping then pure none else Prog.throw (.schemaConflict name)
    | none => pure (some (.create name mapping minted))
  | .drop name => do
    let m ← getMem
    match m.collections.find? name with
    | none => Prog.throw (.collectionNotFound name)
    | some e => pure (some (.drop name e.uuid))
  | .upsert name id source => do
    let target ← Catalog.get name
    let parsed ← ofExcept (Catalog.parseDocument target.mapping source)
    pure (some (.upsert name target (Catalog.orNewId id minted) source parsed))
  | .delete name id => do
    let target ← Catalog.get name
    pure (some (.delete name target id))

/-- An operation whose section is `k`. -/
def Op.callWith (k : Section → CatalogM Unit) (minted : Uuid) (op : Op) : CatalogM Unit := do
  let prepared ← op.prepare minted
  match prepared with
  | none => pure ()
  | some s => k s

section
variable {op : Op} {s s' : Spec} {minted : Uuid} {name id : String}

omit [Ext] in
theorem Spec.source_edit (s : Spec) (n i : String) (v : Option Bytes) (name id : String) :
    Spec.source (Function.update s n ((s n).map fun c => (c.1, Function.update c.2 i v))) name id =
      if n = name ∧ i = id then (s n).bind fun _ => v else s.source name id := by
  unfold Spec.source
  by_cases hn : n = name
  · subst hn
    cases s n with
    | none => simp
    | some c => simp [Function.update_apply, eq_comm]
  · simp [hn, Function.update_of_ne (Ne.symm hn)]

/-- A document that is not overwritten stays. -/
theorem Op.source_apply_of_not_overwrites (h : ¬ op.Overwrites minted name id) (s : Spec) :
    (op.apply minted s).source name id = s.source name id := by
  cases op with
  | create n mapping =>
    by_cases hn : name = n
    · subst hn
      cases hs : s name <;> simp [Op.apply, Spec.source, hs]
    · simp [Op.apply, Spec.source, hn]
  | drop n => simp only [Op.apply, Spec.source, Function.update_of_ne (Ne.symm h)]
  | upsert n i source => exact (s.source_edit ..).trans (if_neg h)
  | delete n i => exact (s.source_edit ..).trans (if_neg h)

end

/-- The call of an operation is its two parts. -/
theorem Op.call_eq (op : Op) (minted : Uuid) :
    op.call minted = op.callWith (fun s => s.log >>= s.finish) minted := by
  cases op with
  | create name mapping =>
    simp only [call, callWith, prepare, Catalog.create, bind_assoc]
    congr 1
    funext _
    congr 1
    funext existing
    cases existing with
    | none => simp [Catalog.logCreate, Section.log, Section.finish, Section.op]
    | some c =>
      by_cases hc : c.mapping = mapping
      · simp [hc]
      · simp only [hc, if_false]
        rfl
  | drop name =>
    simp only [call, callWith, prepare, Catalog.dropCollection, bind_assoc]
    congr 1
    funext m
    cases m.collections.find? name with
    | none => rfl
    | some e => simp [Catalog.logDrop, Section.log, Section.finish, Section.op]
  | upsert name id source =>
    simp [call, callWith, prepare, Catalog.upsertDocument, Catalog.logUpsert, Section.log,
      Section.finish, Section.op]
  | delete name id =>
    simp [call, callWith, prepare, Catalog.deleteDocument, Catalog.logDelete, Section.log,
      Section.finish, Section.op]

/-- An operation is refused, or creates what is there, or has found a section
that fits. -/
theorem Op.wp_callWith {d : Disk} {m : Catalog} {minted : Uuid} {k : Section → CatalogM Unit}
    {Q : Unit → Disk → Catalog → Prop} {E : Error → Disk → Catalog → Prop} {C : Disk → Prop}
    (op : Op) (hs : Sound d m) (hE : ∀ err, E err d m)
    (hthere : ∀ name mapping e, op = .create name mapping → m.collections.find? name = some e →
      Q () d m)
    (hk : ∀ s : Section, s.Fits m → s.op = op.logged minted → wp (k s) Q E C d m) :
    wp (op.callWith k minted) Q E C d m := by
  rw [callWith, wp_bind]
  cases op with
  | create name mapping =>
    simp only [prepare, wp_bind, Catalog.wp_lookup]
    cases Catalog.validateName name with
    | error err => exact hE err
    | ok _ =>
      rw [wp_ofExcept_ok]
      cases hf : m.collections.find? name with
      | none => exact hk _ hf rfl
      | some e =>
        simp only [Option.map_some]
        split
        · exact hthere name mapping e rfl hf
        · exact hE _
  | drop name =>
    simp only [prepare, wp_bind, wp_getMem]
    cases hf : m.collections.find? name with
    | none => exact hE _
    | some e => exact hk _ ⟨e, hf, rfl⟩ rfl
  | upsert name id source =>
    simp only [prepare, wp_bind, Catalog.get, wp_getMem]
    cases hf : m.collections.find? name with
    | none => exact hE _
    | some e =>
      rw [wp_pure]
      cases hp : Catalog.parseDocument e.collection.mapping source with
      | error err => exact hE err
      | ok parsed => exact hk _ ⟨e, hf, (hs.entry name e hf).uuid, hp⟩ rfl
  | delete name id =>
    simp only [prepare, wp_bind, Catalog.get, wp_getMem]
    cases hf : m.collections.find? name with
    | none => exact hE _
    | some e => exact hk _ ⟨e, hf, (hs.entry name e hf).uuid⟩ rfl

/-! ## runs -/

/-- The number that opening a directory resumes counting from. -/
def Disk.resumesAt (d : Disk) : Option Nat :=
  match Catalog.loadCatalog.run d .closed with
  | (.ok _, _, m) => some m.seq
  | (.error _, _, _) => none

/-- The position of the catalog file. -/
def Disk.appliedSeq (d : Disk) : Option Nat :=
  match Catalog.loadSnapshot d with
  | .ok snapshot => some snapshot.appliedSeq
  | .error _ => none

/-- The states of a node: its directory, its catalog while it runs, what the
acknowledged operations amount to, and the identities drawn so far.  A crash
falls between two operations (`stopped`), inside a checkpoint (`cut`) or inside
`open` (`cutOpen`); a cut checkpoint has renamed its catalog file, or else the
directory resumes at the number the catalog has reached. -/
inductive StandaloneRun (safe : Disk → Prop) :
    Disk → Option Catalog → Spec → List Uuid → Prop where
  | start : StandaloneRun safe .empty none (fun _ => none) []
  | opened {d d' : Disk} {m' : Catalog} {s : Spec} {used : List Uuid} (ord : IterOrder)
      (prev : StandaloneRun safe d none s used)
      (h : (Catalog.openCatalog ord).run d .closed = (.ok (), d', m')) :
      StandaloneRun safe d' (some m') s used
  | acknowledged {d d' : Disk} {m m' : Catalog} {s : Spec} {used : List Uuid} (op : Op)
      (minted : Uuid) (prev : StandaloneRun safe d (some m) s used) (hnew : minted ∉ used)
      (h : (op.call minted).run d m = (.ok (), d', m')) :
      StandaloneRun safe d' (some m') (op.apply minted s) (minted :: used)
  | refused {d d' : Disk} {m m' : Catalog} {s : Spec} {used : List Uuid} {err : Error} (op : Op)
      (minted : Uuid) (prev : StandaloneRun safe d (some m) s used) (hnew : minted ∉ used)
      (h : (op.call minted).run d m = (.error err, d', m')) :
      StandaloneRun safe d' (some m') s (minted :: used)
  | checkpoint {d d' : Disk} {m m' : Catalog} {s : Spec} {used : List Uuid} (ord : IterOrder)
      (prev : StandaloneRun safe d (some m) s used)
      (h : (Catalog.checkpoint ord).run d m = (.ok (), d', m')) :
      StandaloneRun safe d' (some m') s used
  | stopped {d : Disk} {m : Catalog} {s : Spec} {used : List Uuid}
      (prev : StandaloneRun safe d (some m) s used) : StandaloneRun safe d none s used
  | cut {d d' : Disk} {m : Catalog} {s : Spec} {used : List Uuid} (ord : IterOrder)
      (prev : StandaloneRun safe d (some m) s used)
      (hcut : d' ∈ (Catalog.checkpoint ord).crashes d m)
      (hseq : d.resumesAt = some m.seq ∨ d'.appliedSeq = some m.seq) :
      StandaloneRun safe d' none s used
  | cutOpen {d d' : Disk} {s : Spec} {used : List Uuid} (ord : IterOrder)
      (prev : StandaloneRun safe d none s used) (hsafe : safe d)
      (hcut : d' ∈ (Catalog.openCatalog ord).crashes d .closed) :
      StandaloneRun safe d' none s used

/-! ## the log of a run -/

variable {cmds : Nat → Proto.Command} {top seq : Nat} {d d' : Disk} {m m' : Catalog}
  {used : List Uuid} {minted : Uuid}

/-- What the log amounts to. -/
def specOf (cmds : Nat → Proto.Command) (top : Nat) : Spec := fun n =>
  ((logOf cmds n).stateAt top).map fun g => (g.info, g.docs)

/-- The identities of the log were drawn. -/
def Drawn (cmds : Nat → Proto.Command) (used : List Uuid) : Prop :=
  ∀ i n u x, eventOf n (cmds i) = .create u x → u ∈ used

theorem Drawn.fresh (h : Drawn cmds used) (hnew : minted ∉ used) (i : Nat) (n : String)
    (y : Mapping) : eventOf n (cmds i) ≠ .create minted y :=
  fun hev => hnew (h i n minted y hev)

theorem Drawn.cons (h : Drawn cmds used) : Drawn cmds (minted :: used) :=
  fun i n u x hev => List.mem_cons_of_mem minted (h i n u x hev)

theorem Drawn.grow {cmd : Proto.Command} (h : Drawn cmds used)
    (hcmd : ∀ n u x, eventOf n cmd = .create u x → u = minted) :
    Drawn (grow cmds seq cmd) (minted :: used) := by
  intro i n u x hev
  by_cases hi : i = seq + 1
  · rw [hi, grow_self] at hev
    exact hcmd n u x hev ▸ List.mem_cons_self
  · rw [grow_of_ne hi] at hev
    exact List.mem_cons_of_mem minted (h i n u x hev)

theorem GoodLog.specOf_eq (hg : GoodLog cmds top) {r : Nat} (hr : top ≤ r) :
    specOf cmds r = specOf cmds top := by
  funext n
  rw [specOf, specOf, hg.stateAt_eq hr]

/-- An operation on one name changes what the log amounts to under that name. -/
theorem GoodLog.specOf_grow (hg : GoodLog cmds top) (hle : top ≤ seq) {cmd : Proto.Command}
    (name : String) (hother : ∀ n, n ≠ name → eventOf n cmd = .skip) :
    specOf (Lumen.grow cmds seq cmd) (seq + 1) = Function.update (specOf cmds top) name
      (((eventOf name cmd).step ((logOf cmds name).stateAt top)).map fun g => (g.info, g.docs)) := by
  funext n
  rw [specOf, hg.stateAt_grow hle]
  by_cases hn : n = name
  · rw [hn, Function.update_self]
  · rw [Function.update_of_ne hn, hother n hn]
    rfl

/-- A logged operation does to what the log amounts to what it does to the
specification. -/
theorem GoodLog.specOf_logged (hg : GoodLog cmds top) (hle : top ≤ seq) (op : Op) :
    specOf (Lumen.grow cmds seq ⟨some (op.logged minted)⟩) (seq + 1) =
      op.apply minted (specOf cmds top) := by
  cases op with
  | create name mapping =>
    have hev := Section.eventOf_create name mapping minted
    refine (hg.specOf_grow hle name fun n hn => (hev n).trans (if_neg (Ne.symm hn))).trans ?_
    rw [hev name, if_pos rfl, Op.apply, specOf]
    cases (logOf cmds name).stateAt top with
    | none => rfl
    | some g => rfl
  | drop name =>
    refine (hg.specOf_grow hle name fun n hn => by simp [eventOf, Op.logged, Ne.symm hn]).trans ?_
    simp [eventOf, Op.logged, Event.step, Op.apply]
  | upsert name id source =>
    refine (hg.specOf_grow hle name fun n hn => by simp [eventOf, Op.logged, Ne.symm hn]).trans ?_
    rw [Op.apply, specOf]
    cases (logOf cmds name).stateAt top with
    | none => simp [eventOf, Op.logged, Event.step]
    | some g => simp [eventOf, Op.logged, Event.step]
  | delete name id =>
    refine (hg.specOf_grow hle name fun n hn => by simp [eventOf, Op.logged, Ne.symm hn]).trans ?_
    rw [Op.apply, specOf]
    cases (logOf cmds name).stateAt top with
    | none => simp [eventOf, Op.logged, Event.step]
    | some g => simp [eventOf, Op.logged, Event.step]

/-- Creating what is there changes nothing. -/
theorem Op.apply_create_of_isSome {s : Spec} {name : String} (mapping : Mapping)
    (h : (s name).isSome) : (Op.create name mapping).apply minted s = s := by
  obtain ⟨c, hc⟩ := Option.isSome_iff_exists.mp h
  have hsame : Function.update s name (s name) = s := Function.update_eq_self name s
  rw [Op.apply, hc]
  rw [hc] at hsame
  exact hsame

theorem Drawn.logged (h : Drawn cmds used) (op : Op) :
    Drawn (Lumen.grow cmds seq ⟨some (op.logged minted)⟩) (minted :: used) := by
  refine h.grow fun n u x hev => ?_
  cases op with
  | create name mapping =>
    have hev := (Section.eventOf_create name mapping minted n).symm.trans hev
    split at hev
    · injection hev with hev
      exact hev.symm
    · contradiction
  | drop name =>
    simp only [eventOf, Op.logged] at hev
    split at hev <;> contradiction
  | upsert name id source =>
    simp only [eventOf, Op.logged] at hev
    split at hev <;> contradiction
  | delete name id =>
    simp only [eventOf, Op.logged] at hev
    split at hev <;> contradiction

/-- What an operation mints is new to the log. -/
theorem Drawn.section_fresh (h : Drawn cmds used) (hnew : minted ∉ used) {op : Op} {s : Section}
    (hs : s.op = op.logged minted) : s.Fresh cmds := by
  cases s with
  | create name mapping u =>
    cases op with
    | create name' mapping' =>
      have hu : fmtUuid u = fmtUuid minted := by
        simp only [Section.op, Op.logged, Proto.Op.createCollection.injEq,
          Proto.CreateCollection.mk.injEq] at hs
        exact hs.2.1
      obtain rfl : u = minted := by
        have := congrArg parseUuid hu
        simpa using this
      exact h.fresh hnew
    | drop name' => simp [Section.op, Op.logged] at hs
    | upsert name' id source => simp [Section.op, Op.logged] at hs
    | delete name' id => simp [Section.op, Op.logged] at hs
  | drop name u => trivial
  | upsert name target id source parsed => trivial
  | delete name target id => trivial

/-- A running node whose log amounts to `s`. -/
def Serving (s : Spec) (used : List Uuid) (d : Disk) (m : Catalog) : Prop :=
  ∃ cmds top, Running cmds top d m ∧ specOf cmds top = s ∧ Drawn cmds used

/-- A directory whose log amounts to `s`. -/
def Holding (s : Spec) (used : List Uuid) (d : Disk) : Prop :=
  ∃ cmds top, Recoverable cmds top d ∧ specOf cmds top = s ∧ Drawn cmds used

/-- A directory that a crash inside an operation left, whose log amounts to
`s`. -/
def Crashed (s : Spec) (d : Disk) : Prop :=
  ∃ cmds top, CutShort cmds top d ∧ specOf cmds top = s

theorem Serving.holding {s : Spec} (h : Serving s used d m) : Holding s used d := by
  obtain ⟨cmds, top, hrun, hs, hu⟩ := h
  exact ⟨cmds, top, hrun.recoverable, hs, hu⟩

/-! ## operations -/

/-- After an operation that is refused, the node serves what it did. -/
theorem Running.serving (h : Running cmds top d m) (hu : Drawn cmds used) :
    Serving (specOf cmds top) (minted :: used) d m := ⟨cmds, top, h, rfl, hu.cons⟩

theorem Exact.specOf_find? (h : Exact cmds top d m) (name : String) :
    specOf cmds top name = (m.collections.find? name).map fun e =>
      (e.collection.mapping, (e.toGen d).docs) := by
  rw [specOf, ← h.live, slotOf_live, Option.map_map]
  rfl

/-- An operation is refused, or changes nothing, or is one more operation of the
log. -/
theorem Running.wp_call_log {Q : Unit → Disk → Catalog → Prop}
    {E : Error → Disk → Catalog → Prop} {C : Disk → Prop} (h : Running cmds top d m)
    (hu : Drawn cmds used) (hnew : minted ∉ used) (op : Op)
    (hC : ∀ d', CutShort cmds top d' ∨
      CutShort (grow cmds m.seq ⟨some (op.logged minted)⟩) (m.seq + 1) d' → C d')
    (hE : ∀ err m', Running cmds top d m' → E err d m')
    (hthere : op.apply minted (specOf cmds top) = specOf cmds top → Q () d m)
    (hQ : ∀ d' m', Running (grow cmds m.seq ⟨some (op.logged minted)⟩) (m.seq + 1) d' m' →
      Q () d' m') : wp (op.call minted) Q E C d m := by
  rw [Op.call_eq]
  refine op.wp_callWith h.exact.sound (fun err => hE err m h) (fun name mapping e hop hf => ?_)
    fun s hfits hs => ?_
  · have hsome : (specOf cmds top name).isSome := by
      rw [h.exact.specOf_find?, hf]
      rfl
    refine hthere ?_
    rw [hop, Op.apply_create_of_isSome mapping hsome]
  · rw [← hs] at hC hQ
    exact h.wp_section hfits (hu.section_fresh hnew hs) hC hE hQ

/-- **An operation** that is acknowledged does to the node what it does to the
specification; one that is refused does nothing; one that is cut leaves the log
without or with it. -/
theorem Running.wp_call (h : Running cmds top d m) (hu : Drawn cmds used) (hnew : minted ∉ used)
    (op : Op) :
    wp (op.call minted)
      (fun _ d' m' => Serving (op.apply minted (specOf cmds top)) (minted :: used) d' m')
      (fun _ d' m' => Serving (specOf cmds top) (minted :: used) d' m')
      (fun d' => Crashed (specOf cmds top) d' ∨ Crashed (op.apply minted (specOf cmds top)) d')
      d m := by
  have hspec : specOf (grow cmds m.seq ⟨some (op.logged minted)⟩) (m.seq + 1) =
      op.apply minted (specOf cmds top) := h.good.specOf_logged h.le op
  refine h.wp_call_log hu hnew op
    (fun d' => Or.imp (fun hi => ⟨_, _, hi, rfl⟩) fun hi => ⟨_, _, hi, hspec⟩)
    (fun _ _ h' => h'.serving hu) (fun hsame => ?_) fun d' m' h' => ⟨_, _, h', hspec, hu.logged op⟩
  rw [hsame]
  exact h.serving hu

/-! ## recovery -/

section
variable {a : Nat} {l : List (String × Listed)} {es : List Proto.WalEntry} {s : Spec}

/-- What loading the directory returns. -/
theorem CutInv.load (h : CutInv cmds top d a l es) (hg : GoodLog cmds top) (m₀ : Catalog) :
    ∃ m, Catalog.loadCatalog.run d m₀ = (.ok (a, es), d, m) ∧ Loaded top d a l es m := by
  have hw : wp Catalog.loadCatalog (fun r d' m => r = (a, es) ∧ d' = d ∧ Loaded top d a l es m)
      (fun _ _ _ => False) (fun _ => True) d m₀ :=
    h.wp_loadCatalog hg m₀ fun m hl => ⟨rfl, rfl, hl⟩
  obtain ⟨r, d', m, hrun, rfl, rfl, hl⟩ := run_ok_of_wp hw
  exact ⟨m, hrun, hl⟩

theorem DiskInv.resumesAt (h : DiskInv cmds top d a l es) (hg : GoodLog cmds top) :
    d.resumesAt = some top := by
  obtain ⟨m, hrun, hl⟩ := h.cut.load hg .closed
  rw [Disk.resumesAt, hrun]
  exact congrArg some hl.seq

theorem DiskInv.appliedSeq (h : DiskInv cmds top d a l es) : d.appliedSeq = some a := by
  have hl : Catalog.loadSnapshot d = .ok ⟨a, l.map Listed.toProto⟩ := h.lists
  rw [Disk.appliedSeq, hl]

/-- With nothing buffered, a catalog shows what its log amounts to. -/
theorem Exact.shown_eq (h : Exact cmds top d m)
    (hempty : ∀ n e, m.collections.find? n = some e → e.collection.writer = []) :
    m.shown = specOf cmds top := by
  funext n
  rw [Catalog.shown, specOf, ← h.live, slotOf_live, Option.map_map]
  cases hf : m.collections.find? n with
  | none => rfl
  | some e =>
    have he := h.sound.entry n e hf
    obtain ⟨ix, hix, _, hsearcher⟩ := he.index
    have hsource : e.collection.source = view e.collection.searcher := rfl
    simp [Catalog.Entry.toGen, Collection.pending, hempty n e hf, he.uuid, hix,
      WriterOp.execAll, hsource, hsearcher]

/-- The disks a checkpoint passes through. -/
theorem Running.wp_checkpoint (h : Running cmds top d m) (hu : Drawn cmds used) (ord : IterOrder) :
    wp (Catalog.checkpoint ord) (fun _ d' m' => Serving (specOf cmds top) used d' m')
      (fun _ _ _ => True) (fun d' => d.resumesAt = some m.seq ∨ d'.appliedSeq = some m.seq →
        Holding (specOf cmds top) used d') d m := by
  obtain ⟨a, l, es, hd, hw⟩ := h.disk
  have hg := h.good.mono h.le
  have hspec := h.good.specOf_eq h.le
  have hroom := h.room.mono h.le
  refine (h.exact.mono h.good h.le).wp_checkpoint hg (hd.parked.mono (hd.le.trans h.le))
    (hw.raise h.le) hd.tail.sorted (fun e he => (hd.tail.le e he).trans h.le) ord
    (fun d' hpb hwal hkeeps hcut => ?_)
    (fun d' l' es' hd' hr _ => ⟨cmds, m.seq, ⟨hg, hr hroom, _, l', es', hd'⟩, hspec, hu⟩)
    fun d' m' _ hrun _ _ => ⟨cmds, m.seq, hrun hroom, hspec, hu⟩
  -- before the rename, no number may have been drawn in vain
  have htop : top = m.seq := by
    rcases hcut with hres | happ
    · rw [hd.resumesAt h.good, Option.some.injEq] at hres
      exact hres
    · have hsame : d'.appliedSeq = d.appliedSeq := by
        rw [Disk.appliedSeq, Disk.appliedSeq, Catalog.loadSnapshot, Catalog.loadSnapshot, hpb]
      rw [hsame, hd.appliedSeq, Option.some.injEq] at happ
      have := hd.le
      have := h.le
      omega
  subst htop
  exact ⟨cmds, m.seq, ⟨hg, hwal ▸ h.room, a, l, es, hkeeps a l es hd⟩, rfl, hu⟩

/-- Opening a directory, with the disks a crash on the way can leave. -/
theorem Holding.wp_open (h : Holding s used d) (ord : IterOrder) (safe : Disk → Prop)
    (hsafe : ∀ cmds top a l es, GoodLog cmds top → DiskInv cmds top d a l es → safe d →
      TailSafe cmds a top d) :
    wp (Catalog.openCatalog ord) (fun _ d' m' => Serving s used d' m' ∧ m'.shown = s)
      (fun _ _ _ => False) (fun d' => safe d → Holding s used d') d .closed := by
  obtain ⟨cmds, top, ⟨hg, hroom, a, l, es, hd⟩, rfl, hu⟩ := h
  refine wp_mono _ (hd.cut.wp_openCatalog hg hd.dirs.opens ord .closed
    (Q := fun _ d' m' => Serving (specOf cmds top) used d' m' ∧ m'.shown = specOf cmds top)
    fun d' m' hex hrun _ hempty => ⟨⟨cmds, top, hrun hroom, rfl, hu⟩, hex.shown_eq hempty⟩)
    (fun _ _ _ hq => hq) (fun _ _ _ he => he) fun d' hc hs => ?_
  exact ⟨cmds, top, hc (hsafe cmds top a l es hg hd hs) hroom, rfl, hu⟩

/-- A directory in which nothing has happened yet. -/
theorem Holding.empty : Holding (fun _ => none) [] .empty := by
  refine ⟨fun _ => ⟨none⟩, 0, ⟨?_, Roomy.empty, 0, [], [], ?_⟩, rfl, fun _ _ _ _ hev => by
    simp [eventOf] at hev⟩
  · exact ⟨fun _ _ _ _ _ _ _ hev => by simp [eventOf] at hev, fun _ _ hop => by simp at hop,
      fun _ _ hop => by simp at hop, fun _ hop => by simp at hop⟩
  · refine ⟨⟨rfl, le_rfl, WalDisk.empty, ⟨List.Pairwise.nil, by simp, by simp,
      fun _ _ _ hop => by simp at hop, .inl rfl⟩, List.nodup_nil, List.nodup_nil, fun _ _ => rfl,
      by simp, fun _ _ hq => absurd (.inl rfl) hq⟩,
      fun _ _ hg => by simp [Log.stateAt] at hg, fun u hu => ?_⟩
    simp [Disk.empty, OrdMap.contains] at hu

/-- **Every state of a run**: a running catalog serves, and a directory holds,
what the acknowledged operations amount to. -/
theorem StandaloneRun.inv {safe : Disk → Prop}
    (hsafe : ∀ d cmds top a l es, GoodLog cmds top → DiskInv cmds top d a l es → safe d →
      TailSafe cmds a top d) {o : Option Catalog} (h : StandaloneRun safe d o s used) :
    match o with
    | none => Holding s used d
    | some m => Serving s used d m := by
  induction h with
  | start => exact Holding.empty
  | opened ord prev h ih => exact (post_of_wp (ih.wp_open ord safe (hsafe _)) h).1
  | acknowledged op minted prev hnew h ih =>
    obtain ⟨cmds, top, hrun, rfl, hu⟩ := ih
    exact post_of_wp (hrun.wp_call hu hnew op) h
  | refused op minted prev hnew h ih =>
    obtain ⟨cmds, top, hrun, rfl, hu⟩ := ih
    exact error_of_wp (hrun.wp_call hu hnew op) h
  | checkpoint ord prev h ih =>
    obtain ⟨cmds, top, hrun, rfl, hu⟩ := ih
    exact post_of_wp (hrun.wp_checkpoint hu ord) h
  | stopped prev ih => exact ih.holding
  | cut ord prev hcut hseq ih =>
    obtain ⟨cmds, top, hrun, rfl, hu⟩ := ih
    exact crashes_of_wp (hrun.wp_checkpoint hu ord) _ hcut hseq
  | cutOpen ord prev hs hcut ih => exact crashes_of_wp (ih.wp_open ord safe (hsafe _)) _ hcut hs

/-- **Standalone recovery**: opening what a run without crashes inside `open`
has left succeeds and shows exactly the acknowledged operations. -/
theorem recovery_of_acknowledged (h : StandaloneRun (fun _ => False) d none s used)
    (ord : IterOrder) :
    ∃ d' m', (Catalog.openCatalog ord).run d .closed = (.ok (), d', m') ∧
      ∀ name, m'.shown name = s name := by
  have hhold : Holding s used d := h.inv fun _ _ _ _ _ _ _ _ hf => hf.elim
  obtain ⟨_, d', m', hrun, _, hshown⟩ := run_ok_of_wp (hhold.wp_open ord (fun _ => False)
    fun _ _ _ _ _ _ _ hf => hf.elim)
  exact ⟨d', m', hrun, fun name => by rw [hshown]⟩

end

end

/-! ## runs with a cut checkpoint -/

section
open Reference

/-- A mapping without fields. -/
def emptyMapping : Mapping := ⟨∅, rfl⟩

/-- The source of a document without fields. -/
def emptyObject : Bytes := "\x7b\x7d".toUTF8.toList

/-- A node that has created a collection. -/
def createdA : Disk × Catalog :=
  after ((Op.create "a" emptyMapping).call (exampleUuid 1)) <|
    after (Catalog.openCatalog .stored) (.empty, .closed)

/-- The node with a document in the collection. -/
def storedX : Disk × Catalog :=
  after ((Op.upsert "a" (some "x") emptyObject).call (exampleUuid 2)) createdA

/-- What its clients know. -/
def specX : Spec :=
  (Op.upsert "a" (some "x") emptyObject).apply (exampleUuid 2) <|
    (Op.create "a" emptyMapping).apply (exampleUuid 1) fun _ => none

theorem createdA_run (safe : Disk → Prop) :
    StandaloneRun safe createdA.1 (some createdA.2)
      ((Op.create "a" emptyMapping).apply (exampleUuid 1) fun _ => none) [exampleUuid 1] :=
  .acknowledged (.create "a" emptyMapping) (exampleUuid 1)
    (.opened .stored .start (Prod.ext (by decide +kernel) rfl)) (by decide)
    (Prod.ext (by decide +kernel) rfl)

theorem storedX_run (safe : Disk → Prop) :
    StandaloneRun safe storedX.1 (some storedX.2) specX [exampleUuid 2, exampleUuid 1] :=
  .acknowledged (.upsert "a" (some "x") emptyObject) (exampleUuid 2) (createdA_run safe) (by decide)
    (Prod.ext (by decide +kernel) rfl)

/-- Wherever the checkpoint that follows is cut, the document is recovered. -/
theorem recovery_of_acknowledged_after_cut :
    (Catalog.checkpoint .stored).crashes storedX.1 storedX.2 ≠ [] ∧
      ∀ cut ∈ (Catalog.checkpoint .stored).crashes storedX.1 storedX.2,
        ∃ d' m', (Catalog.openCatalog .stored).run cut .closed = (.ok (), d', m') ∧
          ∀ name, m'.shown name = specX name :=
  ⟨by decide +kernel, fun _ hcut => recovery_of_acknowledged
    (.cut .stored (storedX_run _) hcut (.inl (by decide +kernel))) .stored⟩

/-! ### a collection with a field -/

/-- A mapping with a text field. -/
def wordMapping : Mapping := ⟨OrdMap.ofList [("word", ⟨.text, true, false⟩)], by decide +kernel⟩

/-- A document with the field. -/
def wordObject : Bytes := "\x7b\"word\":\"w\"\x7d".toUTF8.toList

def wordUpsert : Op := .upsert "a" (some "x") wordObject

/-- A node with a collection of the mapping. -/
def createdWord : Disk × Catalog :=
  ((Op.create "a" wordMapping).call (exampleUuid 1)).after <|
    (Catalog.openCatalog .stored).after (.empty, .closed)

/-! ### a number drawn in vain -/

/-- A document id of `n` bytes. -/
def longId (n : Nat) : String := String.ofList (List.replicate n 'a')

theorem length_putString_longId (n : Nat) : (Wire.putString (longId n)).length = n := by
  rw [Wire.putString, longId, String.toList_ofList, List.length_flatMap, List.map_replicate,
    List.sum_replicate_nat]
  exact Nat.mul_one n

theorem length_walEntry_delete (seq n : Nat) (name : String) :
    n ≤ (Ext.walEntry.encode (Catalog.walEntry seq (.deleteDocument ⟨name, longId n⟩))).length := by
  have hlen := length_putString_longId n
  rcases Nat.eq_zero_or_pos n with rfl | hn
  · exact Nat.zero_le _
  · have hne : Wire.putString (longId n) ≠ [] := by
      rw [← List.length_pos_iff, hlen]
      exact hn
    have hid := Proto.deleteDocumentMsg.length_le_length_bytes (a := ⟨name, longId n⟩)
      (List.mem_append_right _ (Wire.mem_blobField 2 hne))
    have hcommand := Proto.commandMsg.length_le_length_bytes
      (a := ⟨some (.deleteDocument ⟨name, longId n⟩)⟩)
      (Wire.mem_optField 2 (Proto.deleteDocumentMsg.bytes ⟨name, longId n⟩))
    have hentry := Proto.walEntryMsg.length_le_length_bytes
      (a := Catalog.walEntry seq (.deleteDocument ⟨name, longId n⟩))
      (List.mem_append_right _ (Wire.mem_optField 2 (Proto.commandMsg.bytes _)))
    rw [hlen] at hid
    exact hid.trans (hcommand.trans hentry)

/-- A delete that does not fit in a record is refused, after its number was
drawn. -/
theorem delete_longId_run {d : Disk} {m : Catalog} {name : String} {e : Catalog.Entry} {n : Nat}
    (hf : m.collections.find? name = some e) (hn : 2 ^ 32 ≤ n) :
    ((Op.delete name (longId n)).call minted).run d m =
      (.error (.recovery "log record exceeds u32 length"), d, { m with seq := m.seq + 1 }) := by
  have hw : wp ((Op.delete name (longId n)).call minted) (fun _ _ _ => False)
      (fun err d' m' => err = .recovery "log record exceeds u32 length" ∧ d' = d ∧
        m' = { m with seq := m.seq + 1 }) (fun _ => True) d m := by
    simp only [Op.call, wp_bind, Catalog.deleteDocument, Catalog.get, wp_getMem, hf, wp_pure,
      Catalog.logDelete, Catalog.nextSeq, wp_modifyMem]
    rw [Catalog.onWal, wp_zoom, Wal.append, SegmentedLog.append,
      if_pos (hn.trans (length_walEntry_delete _ _ _))]
    exact ⟨rfl, rfl, rfl⟩
  obtain ⟨_, _, _, hrun, rfl, rfl, rfl⟩ := run_error_of_wp hw
  exact hrun

/-- The node of `createdA` after a checkpoint. -/
def checkpointedA : Disk × Catalog := after (Catalog.checkpoint .stored) createdA

/-- The node after a delete with an id of 4 GiB. -/
def refusedDelete : Disk × Catalog :=
  after ((Op.delete "a" (longId (2 ^ 32))).call (exampleUuid 2)) checkpointedA

theorem refusedDelete_eq :
    refusedDelete = (checkpointedA.1, { checkpointedA.2 with seq := checkpointedA.2.seq + 1 }) := by
  have hf : ∃ e, checkpointedA.2.collections.find? "a" = some e :=
    Option.isSome_iff_exists.mp (by decide +kernel)
  obtain ⟨e, hf⟩ := hf
  rw [refusedDelete, after, delete_longId_run hf (Nat.le_refl _)]

/-- The delete is refused and a checkpoint cut before its rename.  The marks of
the commits are then one ahead of the number the reopened catalog resumes at,
and the next acknowledged upsert is not replayed. -/
theorem recovery_loses_document_after_refused_delete :
    ((Catalog.checkpoint .stored).run createdA.1 createdA.2).1 = .ok () ∧
      ((Op.delete "a" (longId (2 ^ 32))).call (exampleUuid 2)).run checkpointedA.1
          checkpointedA.2 = (.error (.recovery "log record exceeds u32 length"), refusedDelete) ∧
      ∃ cut ∈ (Catalog.checkpoint .stored).crashes refusedDelete.1 refusedDelete.2,
        let reopened := after (Catalog.openCatalog .stored) (cut, .closed)
        let upsert := (Op.upsert "a" (some "x") emptyObject).call (exampleUuid 3)
        let recovered := (Catalog.openCatalog .stored).run (after upsert reopened).1 .closed
        (upsert.run reopened.1 reopened.2).1 = .ok () ∧ recovered.1 = .ok () ∧
          (recovered.2.2.shown "a").map (fun c => c.2 "x") = some none := by
  refine ⟨by decide +kernel, ?_, ?_⟩
  · obtain ⟨e, hf⟩ : ∃ e, checkpointedA.2.collections.find? "a" = some e :=
      Option.isSome_iff_exists.mp (by decide +kernel)
    rw [delete_longId_run hf (Nat.le_refl _), refusedDelete_eq]
  · rw [refusedDelete_eq]
    decide +kernel

end

/-! ## crashes inside `open` -/

section
variable [Ext]
variable {cmds : Nat → Proto.Command} {top : Nat} {d d' : Disk} {m : Catalog} {used : List Uuid}
  {a : Nat} {l : List (String × Listed)} {es : List Proto.WalEntry} {s : Spec}

/-- What an entry of the write-ahead log is to a name. -/
def Proto.WalEntry.event (e : Proto.WalEntry) (n : String) :
    Event Uuid Lumen.Mapping String Bytes :=
  match e.command with
  | some command => eventOf n command
  | none => .skip

/-- The entries `open` will replay. -/
def tailOf (a : Nat) (es : List Proto.WalEntry) : List Proto.WalEntry :=
  es.filter fun e => a < e.seq

/-- The collection of a name, as `open` finds or creates it. -/
def InTail (m : Catalog) (tail : List Proto.WalEntry) (n : String) (u : Uuid) : Prop :=
  (∃ e, m.collections.find? n = some e ∧ e.uuid = u) ∨ ∃ e ∈ tail, ∃ x, e.event n = .create u x

/-- A tail that may be cut: no collection is created and dropped in it, and a
document entry before a create is followed by a drop of its collection, or the
document is written again behind the create, or its collection's directory has
committed it. -/
structure CutSafe (d : Disk) (m : Catalog) (tail : List Proto.WalEntry) : Prop where
  kept : ∀ e ∈ tail, ∀ e' ∈ tail, ∀ n u x, e.event n = .create u x → e.seq < e'.seq →
    e'.event n ≠ .drop
  saved : ∀ e ∈ tail, ∀ e' ∈ tail, ∀ n₀ u₀ x₀ n id v, e.event n₀ = .create u₀ x₀ →
    e'.seq < e.seq → e'.event n = .edit id v →
    (∃ e'' ∈ tail, e'.seq < e''.seq ∧ e''.event n = .drop) ∨
      (∃ e'' ∈ tail, ∃ w, e.seq < e''.seq ∧ e''.event n = .edit id w) ∨
      ∀ u, InTail m tail n u → e'.seq ≤ (d.mark u).index

/-- The tail that opening the directory replays may be cut. -/
def TailOk (d : Disk) : Prop :=
  ∀ a es d' m, Catalog.loadCatalog.run d .closed = (.ok (a, es), d', m) → CutSafe d m (tailOf a es)

omit [Ext] in
theorem mem_tailOf {e : Proto.WalEntry} : e ∈ tailOf a es ↔ e ∈ es ∧ a < e.seq := by
  rw [tailOf, List.mem_filter, decide_eq_true_iff]

/-- The positions of the log behind `a` are the entries of the tail. -/
theorem Tail.event (h : Tail cmds a top es) (hg : GoodLog cmds top) {i : Nat} {n : String}
    (hi : a < i) (hev : logOf cmds n i ≠ .skip) :
    ∃ e ∈ tailOf a es, e.seq = i ∧ e.event n = logOf cmds n i := by
  have hop : (cmds i).op ≠ none := fun hop => hev (eventOf_of_none hop)
  obtain ⟨e, he, rfl⟩ := h.cover i hi (hg.range i hop).2 hop
  refine ⟨e, mem_tailOf.mpr ⟨he, hi⟩, rfl, ?_⟩
  rw [Proto.WalEntry.event, h.command e he hi]
  rfl

theorem Tail.event_eq (h : Tail cmds a top es) {e : Proto.WalEntry} (he : e ∈ tailOf a es)
    (n : String) : e.event n = logOf cmds n e.seq ∧ a < e.seq ∧ e.seq ≤ top := by
  obtain ⟨hmem, hlt⟩ := mem_tailOf.mp he
  refine ⟨?_, hlt, h.le e hmem⟩
  rw [Proto.WalEntry.event, h.command e hmem hlt]
  rfl

theorem TailOk.tailSafe (hok : TailOk d) (hg : GoodLog cmds top) (h : DiskInv cmds top d a l es) :
    TailSafe cmds a top d := by
  obtain ⟨m, hrun, hl⟩ := h.cut.load hg .closed
  have hcut := hok a es d m hrun
  refine ⟨h.dirs, ?_, ?_⟩
  · rintro n j u x hj hev ⟨i, h1, h2, h3⟩
    have hev : logOf cmds n j = .create u x := hev
    obtain ⟨e, he, rfl, hee⟩ := h.tail.event hg hj (by rw [hev]; simp)
    obtain ⟨e', he', rfl, hee'⟩ := h.tail.event hg (hj.trans h1) (by rw [h3]; simp)
    exact hcut.kept e he e' he' n u x (hee.trans hev) h1 (hee'.trans h3)
  · intro i n₀ u₀ x₀ hi hev n p k v hp hpi hedit
    have hev : logOf cmds n₀ i = .create u₀ x₀ := hev
    obtain ⟨e, he, rfl, hee⟩ := h.tail.event hg hi (by rw [hev]; simp)
    obtain ⟨e', he', rfl, hee'⟩ := h.tail.event hg hp (by rw [hedit]; simp)
    rcases hcut.saved e he e' he' n₀ u₀ x₀ n k v (hee.trans hev) hpi (hee'.trans hedit) with
      ⟨e'', he'', hlt, hdrop⟩ | ⟨e'', he'', w, hlt, hagain⟩ | hmark
    · obtain ⟨heq, _, hle⟩ := h.tail.event_eq he'' n
      exact .inl ⟨e''.seq, hlt, hle, heq ▸ hdrop⟩
    · obtain ⟨heq, _, hle⟩ := h.tail.event_eq he'' n
      exact .inr (.inl ⟨e''.seq, w, hlt, hle, heq ▸ hagain⟩)
    · refine .inr (.inr fun g hstate => hmark g.uuid ?_)
      -- the collection was listed, or is created in the tail
      obtain ⟨j, hb, hj, hnd⟩ := Log.exists_born hstate
      rcases Nat.lt_or_ge a j with hja | hja
      · have hcreate : logOf cmds n j = .create g.uuid g.info := hb.2.1
        obtain ⟨e'', he'', _, hce⟩ := h.tail.event hg hja (by rw [hcreate]; simp)
        exact .inr ⟨e'', he'', g.info, hce.trans hcreate⟩
      · have hda : ¬ (logOf cmds n).DropIn a top := fun hd => hnd (hd.mono hja le_rfl)
        have hsa := hb.stateAt_eq hja fun hd => hnd (hd.mono le_rfl h.le)
        have hlist := h.listed n hda
        rw [hsa, Option.map_some] at hlist
        obtain ⟨x, hx, hxu⟩ := Option.map_eq_some_iff.mp hlist
        rw [Prod.mk.injEq] at hxu
        obtain ⟨_, ix, _, _, _, hix, _⟩ := h.cut.index hg hda hx
        refine .inl ⟨x.opened ix, ?_, hxu.1⟩
        rw [hl.map n, openedMap, if_neg (by rwa [h.tail.mem_dropped]), hx, Option.bind_some, hix]
        rfl

theorem tailSafe_of_tailOk (d : Disk) (cmds : Nat → Proto.Command) (top a : Nat)
    (l : List (String × Listed)) (es : List Proto.WalEntry) (hg : GoodLog cmds top)
    (hd : DiskInv cmds top d a l es) (hok : TailOk d) : TailSafe cmds a top d := hok.tailSafe hg hd

/-- **Recovery survives crashes**: where the tail may be cut, a crash at any
step of `open` leaves a directory from which the next `open` recovers what an
uninterrupted one would have, which is the acknowledged operations.  Earlier
opens of the run may have been cut too. -/
theorem recovery_survives_crash (h : StandaloneRun TailOk d none s used) (hok : TailOk d)
    (ord ord' : IterOrder) (hcut : d' ∈ (Catalog.openCatalog ord).crashes d .closed) :
    ∃ d₁ m₁ d₂ m₂, (Catalog.openCatalog ord).run d .closed = (.ok (), d₁, m₁) ∧
      (Catalog.openCatalog ord').run d' .closed = (.ok (), d₂, m₂) ∧
      ∀ name, m₂.shown name = m₁.shown name ∧ m₁.shown name = s name := by
  have hhold : Holding s used d := h.inv tailSafe_of_tailOk
  have hopen := hhold.wp_open ord TailOk (tailSafe_of_tailOk d)
  have hhold' : Holding s used d' := crashes_of_wp hopen d' hcut hok
  obtain ⟨_, d₁, m₁, hrun₁, _, hshown₁⟩ := run_ok_of_wp hopen
  obtain ⟨_, d₂, m₂, hrun₂, _, hshown₂⟩ :=
    run_ok_of_wp (hhold'.wp_open ord' TailOk (tailSafe_of_tailOk d'))
  exact ⟨d₁, m₁, d₂, m₂, hrun₁, hrun₂, fun name => ⟨by rw [hshown₁, hshown₂], by rw [hshown₁]⟩⟩

end

/-! ## runs with a cut `open` -/

section
open Reference

/-- The node of `storedX` after one more collection was created. -/
def createdB : Disk × Catalog :=
  after ((Op.create "b" emptyMapping).call (exampleUuid 3)) storedX

/-- Opening the directory of `createdB` shows the document; a crash inside
`open`, right after the replayed create has renamed its catalog file, loses it
for the next `open`. -/
theorem recovery_cut_behind_create_loses_document :
    ((Op.create "b" emptyMapping).call (exampleUuid 3)).run storedX.1 storedX.2 =
        (.ok (), createdB) ∧
      (((Catalog.openCatalog .stored).run createdB.1 .closed).2.2.shown "a").map
          (fun c => c.2 "x") = some (some emptyObject) ∧
      ∃ cut ∈ (Catalog.openCatalog .stored).crashes createdB.1 .closed,
        let recovered := (Catalog.openCatalog .stored).run cut .closed
        recovered.1 = .ok () ∧
          (recovered.2.2.shown "a").map (fun c => c.2 "x") = some none :=
  ⟨Prod.ext (by decide +kernel) rfl, by decide +kernel, by decide +kernel⟩

/-- The entries of the write-ahead log of `storedX`. -/
def storedXEntries : List Proto.WalEntry :=
  [⟨1, some ⟨some (.createCollection ⟨"a", fmtUuid (exampleUuid 1), some emptyMapping.toProto⟩)⟩⟩,
    ⟨2, some ⟨some (.indexDocument ⟨"a", "x", emptyObject⟩)⟩⟩]

theorem storedXEntries_noDrop {e : Proto.WalEntry} (he : e ∈ storedXEntries) (n : String) :
    e.event n ≠ .drop := by
  simp only [storedXEntries, List.mem_cons, List.not_mem_nil, or_false] at he
  intro hdrop
  rcases he with rfl | rfl
  all_goals
    rw [Proto.WalEntry.event] at hdrop
    simpa using op_of_drop hdrop

theorem storedXEntries_create {e : Proto.WalEntry} (he : e ∈ storedXEntries) {n : String}
    {u : Uuid} {x : Mapping} (hev : e.event n = .create u x) : e.seq = 1 := by
  simp only [storedXEntries, List.mem_cons, List.not_mem_nil, or_false] at he
  rcases he with rfl | rfl
  · rfl
  · rw [Proto.WalEntry.event] at hev
    obtain ⟨c, hop, _⟩ := eventOf_eq_create_iff.mp hev
    simp at hop

theorem storedX_tailOk : TailOk storedX.1 := by
  intro a es d' m hrun
  have hload : (Catalog.loadCatalog.run storedX.1 .closed).1 = .ok (0, storedXEntries) := by
    decide +kernel
  rw [hrun, Except.ok.injEq, Prod.mk.injEq] at hload
  obtain ⟨rfl, rfl⟩ := hload
  refine ⟨fun _ _ e' he' n _ _ _ _ => storedXEntries_noDrop (mem_tailOf.mp he').1 n, ?_⟩
  intro e he e' he' n₀ u₀ x₀ n id v hcreate hlt _
  have hfirst := storedXEntries_create (mem_tailOf.mp he).1 hcreate
  have hpos := (mem_tailOf.mp he').2
  omega

/-- Wherever opening the directory of `storedX` is cut, the document is
recovered. -/
theorem recovery_survives_crash_of_stored :
    (Catalog.openCatalog .stored).crashes storedX.1 .closed ≠ [] ∧
      ∀ cut ∈ (Catalog.openCatalog .stored).crashes storedX.1 .closed,
        ∃ d₁ m₁ d₂ m₂, (Catalog.openCatalog .stored).run storedX.1 .closed = (.ok (), d₁, m₁) ∧
          (Catalog.openCatalog .stored).run cut .closed = (.ok (), d₂, m₂) ∧
          ∀ name, m₂.shown name = m₁.shown name ∧ m₁.shown name = specX name :=
  ⟨by decide +kernel, fun _ hcut => recovery_survives_crash (.stopped (storedX_run _))
    storedX_tailOk .stored .stored hcut⟩

end

end Lumen
