import Lumen.Standalone.Recovery

/-!
# Lumen.Standalone.Concurrent

Concurrent clients of one catalog.  `create`, `drop_collection` and `checkpoint`
hold the write lock from their first look at the map on.  `upsert_document` and
`delete_document` look their collection up first, and take the lock for the rest
of the call; in between, others may come in.

* `concurrent_calls_recovered` — when every document call finds its collection
  still in the map once it has the lock, opening after the last return shows what
  the live catalog shows after a checkpoint, with every acknowledged upsert that
  stands.
* `retyped_collection_does_not_open` — when the collection was dropped and created
  again with another mapping in between, the record is replayed into the new one.
-/

namespace Lumen

open Lib Prog Replay

section
variable [Ext]

/-! ## what is acknowledged -/

/-- An acknowledged operation, with the identity it drew. -/
abbrev Acked := Op × Uuid

/-- What the acknowledged operations amount to, in the order of the write-ahead
log. -/
def specAfter (acked : List Acked) : Spec := acked.foldl (fun s p => p.1.apply p.2 s) fun _ => none

theorem specAfter_concat (acked : List Acked) (p : Acked) :
    specAfter (acked ++ [p]) = p.1.apply p.2 (specAfter acked) := by
  simp [specAfter]

/-- An acknowledged upsert that was not overwritten, deleted or dropped since. -/
def Standing (acked : List Acked) (name id : String) (source : Bytes) : Prop :=
  ∃ before id' minted after, acked = before ++ (Op.upsert name id' source, minted) :: after ∧
    Catalog.orNewId id' minted = id ∧ ∀ p ∈ after, ¬ p.1.Overwrites p.2 name id

/-- The document is there. -/
def Spec.Has (s : Spec) (name id : String) (source : Bytes) : Prop :=
  ∃ c, s name = some c ∧ c.2 id = some source

variable {acked : List Acked} {op : Op} {minted : Uuid} {name id : String} {source : Bytes}
  {s : Spec}

theorem Standing.concat (h : Standing (acked ++ [(op, minted)]) name id source) :
    (Standing acked name id source ∧ ¬ op.Overwrites minted name id) ∨
      ∃ id', op = .upsert name id' source ∧ Catalog.orNewId id' minted = id := by
  obtain ⟨before, id', minted', after, heq, hid, hafter⟩ := h
  rcases List.eq_nil_or_concat' after with rfl | ⟨after, p, rfl⟩
  · obtain ⟨_, hlast⟩ := List.append_inj' heq rfl
    obtain ⟨rfl, rfl⟩ : op = .upsert name id' source ∧ minted = minted' := by simpa using hlast
    exact .inr ⟨id', rfl, hid⟩
  · have heq : acked ++ [(op, minted)] =
        (before ++ (Op.upsert name id' source, minted') :: after) ++ [p] := by simpa using heq
    obtain ⟨rfl, hlast⟩ := List.append_inj' heq rfl
    obtain rfl : (op, minted) = p := by simpa using hlast
    exact .inl ⟨⟨before, id', minted', after, rfl, hid, fun q hq => hafter q (by simp [hq])⟩,
      hafter (op, minted) (by simp)⟩

omit [Ext] in
theorem Spec.has_iff : s.Has name id source ↔ s.source name id = some source :=
  Option.bind_eq_some_iff.symm

/-- What is there and not overwritten stays. -/
theorem Spec.Has.apply (h : s.Has name id source) (hno : ¬ op.Overwrites minted name id) :
    (op.apply minted s).Has name id source := by
  rw [Spec.has_iff] at h ⊢
  rw [Op.source_apply_of_not_overwrites hno, h]

/-- An upsert into a collection that is there. -/
theorem Spec.has_upsert {id' : Option String} (hs : (s name).isSome) :
    ((Op.upsert name id' source).apply minted s).Has name (Catalog.orNewId id' minted) source := by
  obtain ⟨c, hc⟩ := Option.isSome_iff_exists.mp hs
  exact ⟨(c.1, Function.update c.2 (Catalog.orNewId id' minted) (some source)),
    by simp [Op.apply, hc], by simp⟩

/-- Every standing upsert is there. -/
def AllStand (acked : List Acked) : Prop :=
  ∀ name id source, Standing acked name id source → (specAfter acked).Has name id source

theorem AllStand.concat (h : AllStand acked)
    (hlive : ∀ name id source, op = .upsert name id source → (specAfter acked name).isSome) :
    AllStand (acked ++ [(op, minted)]) := by
  intro name id source hst
  rw [specAfter_concat]
  rcases hst.concat with ⟨hst, hno⟩ | ⟨id', rfl, rfl⟩
  · exact (h name id source hst).apply hno
  · exact Spec.has_upsert (hlive name id' source rfl)

/-! ## runs -/

/-- A document call that has looked its collection up and waits for the lock. -/
structure Waiting where
  op : Op
  minted : Uuid
  sec : Section

/-- What the call does once it has the lock. -/
def Waiting.call (w : Waiting) : CatalogM Unit := w.sec.log >>= w.sec.finish

/-- What a call that returned `r` adds to the acknowledged operations. -/
def ackOf (r : Except Error Unit) (op : Op) (minted : Uuid) : List Acked :=
  match r with
  | .ok _ => [(op, minted)]
  | .error _ => []

/-- The runs of concurrent calls: the directory, the catalog while the node
runs, what was acknowledged in the order of the write-ahead log, the identities
drawn, and the calls that wait for the lock.  A lookup sees the map before or
after a section, which changes it once; `ok` is asked of the section a waiting
call enters. -/
inductive ConcurrentRun (ok : Catalog → Section → Bool) :
    Disk → Option Catalog → List Acked → List Uuid → List Waiting → Prop where
  | start : ConcurrentRun ok .empty none [] [] []
  | opened {d d' : Disk} {m' : Catalog} {acked : List Acked} {used : List Uuid} (ord : IterOrder)
      (prev : ConcurrentRun ok d none acked used [])
      (h : (Catalog.openCatalog ord).run d .closed = (.ok (), d', m')) :
      ConcurrentRun ok d' (some m') acked used []
  | locked {d d' : Disk} {m m' : Catalog} {acked : List Acked} {used : List Uuid}
      {waiting : List Waiting} {r : Except Error Unit} (op : Op) (minted : Uuid)
      (prev : ConcurrentRun ok d (some m) acked used waiting) (hop : op.isDocument = false)
      (hnew : minted ∉ used) (h : (op.call minted).run d m = (r, d', m')) :
      ConcurrentRun ok d' (some m') (acked ++ ackOf r op minted) (minted :: used) waiting
  | lookedUp {d : Disk} {m : Catalog} {acked : List Acked} {used : List Uuid}
      {waiting : List Waiting} {sec : Section} (op : Op) (minted : Uuid)
      (prev : ConcurrentRun ok d (some m) acked used waiting) (hop : op.isDocument = true)
      (hnew : minted ∉ used) (h : ((op.prepare minted).run d m).1 = .ok (some sec)) :
      ConcurrentRun ok d (some m) acked (minted :: used) (⟨op, minted, sec⟩ :: waiting)
  | entered {d d' : Disk} {m m' : Catalog} {acked : List Acked} {used : List Uuid}
      {before behind : List Waiting} {w : Waiting} {r : Except Error Unit}
      (prev : ConcurrentRun ok d (some m) acked used (before ++ w :: behind))
      (hok : ok m w.sec = true) (h : w.call.run d m = (r, d', m')) :
      ConcurrentRun ok d' (some m') (acked ++ ackOf r w.op w.minted) used (before ++ behind)
  | checkpointed {d d' : Disk} {m m' : Catalog} {acked : List Acked} {used : List Uuid}
      {waiting : List Waiting} {r : Except Error Unit} (ord : IterOrder)
      (prev : ConcurrentRun ok d (some m) acked used waiting)
      (h : (Catalog.checkpoint ord).run d m = (r, d', m')) :
      ConcurrentRun ok d' (some m') acked used waiting
  | crashed {d : Disk} {m : Catalog} {acked : List Acked} {used : List Uuid}
      (prev : ConcurrentRun ok d (some m) acked used []) : ConcurrentRun ok d none acked used []

section
variable {ok : Catalog → Section → Bool} {x : Disk × Catalog} {acked : List Acked}
  {used : List Uuid} {waiting : List Waiting}

theorem ConcurrentRun.openedAfter {d : Disk} (prev : ConcurrentRun ok d none acked used [])
    (ord : IterOrder) (h : ((Catalog.openCatalog ord).run d .closed).1 = .ok ()) :
    ConcurrentRun ok ((Catalog.openCatalog ord).after (d, .closed)).1
      (some ((Catalog.openCatalog ord).after (d, .closed)).2) acked used [] :=
  .opened ord prev (Prod.ext h rfl)

theorem ConcurrentRun.lockedAfter (prev : ConcurrentRun ok x.1 (some x.2) acked used waiting)
    (op : Op) (minted : Uuid) (hop : op.isDocument = false) (hnew : minted ∉ used)
    (h : ((op.call minted).run x.1 x.2).1 = .ok ()) :
    ConcurrentRun ok ((op.call minted).after x).1 (some ((op.call minted).after x).2)
      (acked ++ [(op, minted)]) (minted :: used) waiting :=
  .locked op minted prev hop hnew (Prod.ext h rfl)

/-- The section of a document call that found its collection. -/
def lookedUpIn (x : Disk × Catalog) (op : Op) (minted : Uuid) : Option Section :=
  ((op.prepare minted).run x.1 x.2).1.toOption.join

theorem ConcurrentRun.lookedUpAfter {sec : Section}
    (prev : ConcurrentRun ok x.1 (some x.2) acked used waiting) (op : Op) (minted : Uuid)
    (hop : op.isDocument = true) (hnew : minted ∉ used) (h : lookedUpIn x op minted = some sec) :
    ConcurrentRun ok x.1 (some x.2) acked (minted :: used) (⟨op, minted, sec⟩ :: waiting) := by
  refine .lookedUp op minted prev hop hnew ?_
  cases hr : ((op.prepare minted).run x.1 x.2).1 with
  | error err => simp [lookedUpIn, hr, Except.toOption] at h
  | ok o => simpa [lookedUpIn, hr, Except.toOption] using h

theorem ConcurrentRun.checkpointedAfter
    (prev : ConcurrentRun ok x.1 (some x.2) acked used waiting) (ord : IterOrder)
    (h : ((Catalog.checkpoint ord).run x.1 x.2).1 = .ok ()) :
    ConcurrentRun ok ((Catalog.checkpoint ord).after x).1
      (some ((Catalog.checkpoint ord).after x).2) acked used waiting :=
  .checkpointed ord prev (Prod.ext h rfl)

theorem ConcurrentRun.enteredAfter {w : Waiting}
    (prev : ConcurrentRun ok x.1 (some x.2) acked used (w :: waiting)) (hok : ok x.2 w.sec = true)
    (h : (w.call.run x.1 x.2).1 = .ok ()) :
    ConcurrentRun ok (w.call.after x).1 (some (w.call.after x).2)
      (acked ++ [(w.op, w.minted)]) used waiting := by
  have hsplit : ConcurrentRun ok x.1 (some x.2) acked used ([] ++ w :: waiting) := prev
  exact .entered hsplit hok (Prod.ext h rfl)

end

/-- The collection that was looked up is still the one in the map. -/
def Catalog.stillThere (m : Catalog) : Section → Bool
  | .create _ _ _ => true
  | .drop _ _ => true
  | .upsert name target _ _ _ => (m.collections.find? name).any fun e => e.uuid = target.uuid
  | .delete name target _ => (m.collections.find? name).any fun e => e.uuid = target.uuid

/-! ## waiting calls -/

variable {cmds : Nat → Proto.Command} {top : Nat} {d d' : Disk} {m m' : Catalog}
  {used : List Uuid} {w : Waiting}

/-- What a waiting call has looked up, in terms of the log: the collection was
created there, and the document fits its mapping. -/
def Section.Ready (cmds : Nat → Proto.Command) (top : Nat) : Section → Prop
  | .create _ _ _ => False
  | .drop _ _ => False
  | .upsert name target _ source parsed =>
    (∃ i ≤ top, eventOf name (cmds i) = .create target.uuid target.mapping) ∧
      Catalog.parseDocument target.mapping source = .ok parsed
  | .delete _ _ _ => True

/-- The waiting call logs its operation. -/
structure Waiting.Ready (cmds : Nat → Proto.Command) (top : Nat) (w : Waiting) : Prop where
  isDocument : w.op.isDocument = true
  logs : w.sec.op = w.op.logged w.minted
  sec : w.sec.Ready cmds top

theorem Section.Ready.grow {sec : Section} {seq : Nat} {cmd : Proto.Command}
    (h : sec.Ready cmds top) (hle : top ≤ seq) : sec.Ready (Lumen.grow cmds seq cmd) (seq + 1) := by
  cases sec with
  | create name mapping minted => exact h
  | drop name uuid => exact h
  | upsert name target id source parsed =>
    obtain ⟨⟨i, hi, hev⟩, hp⟩ := h
    exact ⟨⟨i, by omega, by rw [grow_of_ne (by omega)]; exact hev⟩, hp⟩
  | delete name target id => trivial

theorem Section.Ready.mono {sec : Section} {top' : Nat} (h : sec.Ready cmds top)
    (hle : top ≤ top') : sec.Ready cmds top' := by
  cases sec with
  | create name mapping minted => exact h
  | drop name uuid => exact h
  | upsert name target id source parsed =>
    obtain ⟨⟨i, hi, hev⟩, hp⟩ := h
    exact ⟨⟨i, hi.trans hle, hev⟩, hp⟩
  | delete name target id => trivial

/-- A section whose collection is still there fits. -/
theorem Section.Ready.fits {sec : Section} (h : sec.Ready cmds top) (hrun : Running cmds top d m)
    (hok : m.stillThere sec = true) : sec.Fits m := by
  cases sec with
  | create name mapping minted => exact h.elim
  | drop name uuid => exact h.elim
  | upsert name target id source parsed =>
    obtain ⟨⟨i, _, hev⟩, hp⟩ := h
    obtain ⟨e, hf, hu⟩ : ∃ e, m.collections.find? name = some e ∧ e.uuid = target.uuid := by
      simpa [Catalog.stillThere, Option.any_eq_true] using hok
    obtain ⟨a, l, es, hd, _⟩ := hrun.disk
    -- both are the create command of the identity
    obtain ⟨_, j, _, hev'⟩ := (hrun.exact.owned hd.dirs).live name e hf
    rw [hu] at hev'
    obtain ⟨_, _, hx⟩ := hrun.good.distinct.eq hev hev'
    exact ⟨e, hf, hu.symm, by rw [← hx]; exact hp⟩
  | delete name target id =>
    obtain ⟨e, hf, hu⟩ : ∃ e, m.collections.find? name = some e ∧ e.uuid = target.uuid := by
      simpa [Catalog.stillThere, Option.any_eq_true] using hok
    exact ⟨e, hf, hu.symm⟩

/-- What a lookup finds. -/
theorem Running.ready_of_prepare (h : Running cmds top d m) (hop : op.isDocument = true)
    {sec : Section} (hrun : ((op.prepare minted).run d m).1 = .ok (some sec)) :
    Waiting.Ready cmds top ⟨op, minted, sec⟩ := by
  obtain ⟨a, l, es, hd, _⟩ := h.disk
  have hw : wp (op.prepare minted) (fun o _ _ => ∀ sec, o = some sec →
      Waiting.Ready cmds top ⟨op, minted, sec⟩) (fun _ _ _ => True) (fun _ => True) d m := by
    cases op with
    | create name mapping => cases hop
    | drop name => cases hop
    | upsert name id source =>
      simp only [Op.prepare, wp_bind, Catalog.get, wp_getMem]
      cases hf : m.collections.find? name with
      | none => trivial
      | some e =>
        rw [wp_pure]
        cases hp : Catalog.parseDocument e.collection.mapping source with
        | error err => trivial
        | ok parsed =>
          intro sec hsec
          obtain rfl := Option.some.inj hsec
          obtain ⟨_, i, hi, hev⟩ := (h.exact.owned hd.dirs).live name e hf
          rw [← (h.exact.sound.entry name e hf).uuid] at hev
          exact ⟨rfl, rfl, ⟨i, hi, hev⟩, hp⟩
    | delete name id =>
      simp only [Op.prepare, wp_bind, Catalog.get, wp_getMem]
      cases hf : m.collections.find? name with
      | none => trivial
      | some e =>
        intro sec hsec
        obtain rfl := Option.some.inj hsec
        exact ⟨rfl, rfl, trivial⟩
  obtain ⟨_, _, hready⟩ := value_of_wp hw hrun
  exact hready sec rfl

/-! ## runs whose calls find their collections -/

/-- A running node whose log amounts to the acknowledged operations, with the
calls that wait for its lock. -/
def Attending (acked : List Acked) (used : List Uuid) (waiting : List Waiting) (d : Disk)
    (m : Catalog) : Prop :=
  ∃ cmds top, Running cmds top d m ∧ specOf cmds top = specAfter acked ∧ Drawn cmds used ∧
    ∀ w ∈ waiting, w.Ready cmds top ∧ w.minted ∈ used

variable {waiting before behind : List Waiting}

theorem Attending.serving (h : Attending acked used waiting d m) :
    Serving (specAfter acked) used d m := by
  obtain ⟨cmds, top, hrun, hs, hu, _⟩ := h
  exact ⟨cmds, top, hrun, hs, hu⟩

/-- One more operation in the log. -/
theorem Attending.logged (hrun : Running cmds top d m) (hs : specOf cmds top = specAfter acked)
    (hu : Drawn cmds used) (hw : ∀ w ∈ waiting, w.Ready cmds top ∧ w.minted ∈ used)
    (h' : Running (grow cmds m.seq ⟨some (op.logged minted)⟩) (m.seq + 1) d' m') :
    Attending (acked ++ [(op, minted)]) (minted :: used) waiting d' m' := by
  refine ⟨_, _, h', ?_, hu.logged op, fun w hmem => ?_⟩
  · rw [specAfter_concat, ← hs]
    exact hrun.good.specOf_logged hrun.le op
  · obtain ⟨hready, hmint⟩ := hw w hmem
    exact ⟨⟨hready.isDocument, hready.logs, hready.sec.grow hrun.le⟩, List.mem_cons_of_mem minted hmint⟩

theorem Attending.wp_call (h : Attending acked used waiting d m) (hnew : minted ∉ used) (op : Op) :
    wp (op.call minted)
      (fun _ => Attending (acked ++ [(op, minted)]) (minted :: used) waiting)
      (fun _ => Attending acked (minted :: used) waiting) (fun _ => True) d m := by
  obtain ⟨cmds, top, hrun, hs, hu, hw⟩ := h
  have hw' : ∀ w ∈ waiting, w.Ready cmds top ∧ w.minted ∈ minted :: used := fun w hmem =>
    ⟨(hw w hmem).1, List.mem_cons_of_mem minted (hw w hmem).2⟩
  refine hrun.wp_call_log hu hnew op (fun _ _ => trivial)
    (fun _ m' h' => ⟨cmds, top, h', hs, hu.cons, hw'⟩) (fun hsame => ?_)
    fun d' m' h' => Attending.logged hrun hs hu hw h'
  refine ⟨cmds, top, hrun, ?_, hu.cons, hw'⟩
  rw [specAfter_concat, ← hs, hsame]

/-- The section of a call whose collection is still there. -/
theorem Attending.wp_section (h : Attending acked used (before ++ w :: behind) d m)
    (hok : m.stillThere w.sec = true) :
    wp w.call
      (fun _ => Attending (acked ++ [(w.op, w.minted)]) used (before ++ behind))
      (fun _ => Attending acked used (before ++ behind)) (fun _ => True) d m := by
  obtain ⟨cmds, top, hrun, hs, hu, hw⟩ := h
  obtain ⟨hready, hmint⟩ := hw w (by simp)
  have hrest : ∀ w' ∈ before ++ behind, w'.Ready cmds top ∧ w'.minted ∈ used := fun w' hmem =>
    hw w' (by rcases List.mem_append.mp hmem with h | h <;> simp [h])
  have hfresh : w.sec.Fresh cmds := by
    have hsec := hready.sec
    cases hc : w.sec with
    | create name mapping minted =>
      rw [hc] at hsec
      exact hsec.elim
    | drop name uuid => trivial
    | upsert name target id source parsed => trivial
    | delete name target id => trivial
  refine hrun.wp_section (hready.sec.fits hrun hok) hfresh (fun _ _ => trivial)
    (fun _ m' h' => ⟨cmds, top, h', hs, hu, hrest⟩) fun d' m' h' => ?_
  rw [hready.logs] at h'
  obtain ⟨cmds', top', hrun', hs', hu', hw'⟩ := Attending.logged hrun hs hu hrest h'
  refine ⟨cmds', top', hrun', hs', fun i n u x hev => ?_, fun w' hmem => ?_⟩
  · rcases List.mem_cons.mp (hu' i n u x hev) with rfl | hmem
    · exact hmint
    · exact hmem
  · exact ⟨(hw' w' hmem).1, (hrest w' hmem).2⟩

theorem Attending.wp_checkpoint (h : Attending acked used waiting d m) (ord : IterOrder) :
    wp (Catalog.checkpoint ord)
      (fun _ d' m' => Attending acked used waiting d' m' ∧ m'.shown = specAfter acked)
      (fun _ _ _ => False) (fun _ => True) d m := by
  obtain ⟨cmds, top, hrun, hs, hu, hw⟩ := h
  obtain ⟨a, l, es, hd, hlive⟩ := hrun.disk
  have hg := hrun.good.mono hrun.le
  have hspec : specOf cmds m.seq = specAfter acked := (hrun.good.specOf_eq hrun.le).trans hs
  refine (hrun.exact.mono hrun.good hrun.le).wp_checkpoint hg
    (hd.parked.mono (hd.le.trans hrun.le)) (hlive.raise hrun.le) hd.tail.sorted
    (fun e he => (hd.tail.le e he).trans hrun.le) ord (fun _ _ _ _ => trivial)
    (fun _ _ _ _ _ => trivial) fun d' m' hex hrun' _ hempty => ?_
  refine ⟨⟨cmds, m.seq, hrun' (hrun.room.mono hrun.le), hspec, hu, fun w hmem => ?_⟩, ?_⟩
  · obtain ⟨hready, hmint⟩ := hw w hmem
    exact ⟨⟨hready.isDocument, hready.logs, hready.sec.mono hrun.le⟩, hmint⟩
  · rw [hex.shown_eq hempty, hspec]

/-- An upsert that enters its section has its collection. -/
theorem Attending.isSome_of_upsert {id : Option String}
    (h : Attending acked used (before ++ w :: behind) d m) (hok : m.stillThere w.sec = true)
    (hop : w.op = .upsert name id source) : (specAfter acked name).isSome := by
  obtain ⟨cmds, top, hrun, hs, _, hw⟩ := h
  have hlogs := (hw w (by simp)).1.logs
  rw [hop] at hlogs
  cases hc : w.sec with
  | create name' mapping minted => simp [hc, Section.op, Op.logged] at hlogs
  | drop name' uuid => simp [hc, Section.op, Op.logged] at hlogs
  | upsert name' target id' source' parsed =>
    obtain ⟨rfl, _⟩ : name' = name ∧ id' = Catalog.orNewId id w.minted ∧ source' = source := by
      simpa [hc, Section.op, Op.logged] using hlogs
    rw [hc] at hok
    obtain ⟨e, hf, _⟩ : ∃ e, m.collections.find? name' = some e ∧ e.uuid = target.uuid := by
      simpa [Catalog.stillThere, Option.any_eq_true] using hok
    rw [← hs, hrun.exact.specOf_find?, hf]
    rfl
  | delete name' target id' => simp [hc, Section.op, Op.logged] at hlogs

/-- The node runs, or has left its directory. -/
def UpOrDown (acked : List Acked) (used : List Uuid) (waiting : List Waiting) (d : Disk) :
    Option Catalog → Prop
  | none => Holding (specAfter acked) used d
  | some m => Attending acked used waiting d m

/-- **Every state of a run** in which waiting calls find their collections. -/
theorem ConcurrentRun.inv {o : Option Catalog}
    (h : ConcurrentRun Catalog.stillThere d o acked used waiting) :
    AllStand acked ∧ UpOrDown acked used waiting d o := by
  induction h with
  | start =>
    refine ⟨fun name id source hst => ?_, Holding.empty⟩
    obtain ⟨before, id', minted, after, heq, _⟩ := hst
    simp at heq
  | opened ord prev h ih =>
    obtain ⟨hall, hhold⟩ := ih
    have hw := hhold.wp_open ord (fun _ => False) fun _ _ _ _ _ _ _ hf => hf.elim
    obtain ⟨⟨cmds, top, hrun, hs, hu⟩, _⟩ := post_of_wp hw h
    exact ⟨hall, cmds, top, hrun, hs, hu, by simp⟩
  | @locked d d' m m' acked used waiting r op minted prev hop hnew h ih =>
    obtain ⟨hall, hatt⟩ := ih
    cases r with
    | ok u =>
      refine ⟨hall.concat fun name id source hup => ?_, post_of_wp (hatt.wp_call hnew op) h⟩
      rw [hup] at hop
      cases hop
    | error err =>
      have hsame : acked ++ ackOf (.error err) op minted = acked := List.append_nil acked
      rw [hsame]
      exact ⟨hall, error_of_wp (hatt.wp_call hnew op) h⟩
  | @lookedUp d m acked used waiting sec op minted prev hop hnew h ih =>
    obtain ⟨hall, cmds, top, hrun, hs, hu, hw⟩ := ih
    refine ⟨hall, cmds, top, hrun, hs, hu.cons, List.forall_mem_cons.mpr ⟨?_, fun w hmem => ?_⟩⟩
    · exact ⟨hrun.ready_of_prepare hop h, List.mem_cons_self⟩
    · exact ⟨(hw w hmem).1, List.mem_cons_of_mem minted (hw w hmem).2⟩
  | @entered d d' m m' acked used before behind w r prev hok h ih =>
    obtain ⟨hall, hatt⟩ := ih
    cases r with
    | ok u =>
      exact ⟨hall.concat fun name id source hup => hatt.isSome_of_upsert hok hup,
        post_of_wp (hatt.wp_section hok) h⟩
    | error err =>
      have hsame : acked ++ ackOf (.error err) w.op w.minted = acked := List.append_nil acked
      rw [hsame]
      exact ⟨hall, error_of_wp (hatt.wp_section hok) h⟩
  | @checkpointed d d' m m' acked used waiting r ord prev h ih =>
    obtain ⟨hall, hatt⟩ := ih
    cases r with
    | ok u => exact ⟨hall, (post_of_wp (hatt.wp_checkpoint ord) h).1⟩
    | error err => exact (error_of_wp (hatt.wp_checkpoint ord) h).elim
  | crashed prev ih => exact ⟨ih.1, ih.2.serving.holding⟩

/-- **Concurrent clients.**  If every waiting call finds its collection still in
the map when it has the lock, then a crash after the last return is recovered
from: opening shows the acknowledged operations in the order of the write-ahead
log, which is what the live catalog shows after a checkpoint, and every
acknowledged upsert that stands is there. -/
theorem concurrent_calls_recovered (h : ConcurrentRun Catalog.stillThere d (some m) acked used [])
    (ord ord' : IterOrder) :
    ∃ d₁ m₁ d₂ m₂, (Catalog.openCatalog ord).run d .closed = (.ok (), d₁, m₁) ∧
      (Catalog.checkpoint ord').run d m = (.ok (), d₂, m₂) ∧
      m₁.shown = specAfter acked ∧ m₁.shown = m₂.shown ∧
      ∀ name id source, Standing acked name id source → m₁.shown.Has name id source := by
  obtain ⟨hall, hatt⟩ := h.inv
  obtain ⟨_, d₁, m₁, hopen, _, hshown⟩ := run_ok_of_wp (hatt.serving.holding.wp_open ord
    (fun _ => False) fun _ _ _ _ _ _ _ hf => hf.elim)
  obtain ⟨_, d₂, m₂, hcheck, _, hlive⟩ := run_ok_of_wp (hatt.wp_checkpoint ord')
  refine ⟨d₁, m₁, d₂, m₂, hopen, hcheck, hshown, hshown.trans hlive.symm, fun name id source hst => ?_⟩
  rw [hshown]
  exact hall name id source hst

end

/-! ### a document that waits for the lock -/

section
open Reference

/-- The field of `wordMapping` as a number. -/
def countMapping : Mapping := ⟨OrdMap.ofList [("word", ⟨.i64, true, false⟩)], by decide +kernel⟩

/-- The upsert, waiting. -/
def waitingUpsert : Waiting :=
  ⟨wordUpsert, exampleUuid 2,
    (lookedUpIn createdWord wordUpsert (exampleUuid 2)).getD (.drop "a" (exampleUuid 1))⟩

theorem waitingUpsert_run (ok : Catalog → Section → Bool) :
    ConcurrentRun ok createdWord.1 (some createdWord.2)
      [(.create "a" wordMapping, exampleUuid 1)] [exampleUuid 2, exampleUuid 1] [waitingUpsert] := by
  have hstart : ConcurrentRun ok .empty none [] [] [] := .start
  have hopened := hstart.openedAfter .stored (by decide +kernel)
  have hcreated := hopened.lockedAfter (.create "a" wordMapping) (exampleUuid 1) rfl (by decide)
    (by decide +kernel)
  have hfound : (lookedUpIn createdWord wordUpsert (exampleUuid 2)).isSome = true := by
    decide +kernel
  have hsec : lookedUpIn createdWord wordUpsert (exampleUuid 2) = some waitingUpsert.sec := by
    obtain ⟨sec, hsec⟩ := Option.isSome_iff_exists.mp hfound
    simp [waitingUpsert, hsec]
  exact hcreated.lookedUpAfter wordUpsert (exampleUuid 2) rfl (by decide) hsec

/-- A checkpoint runs while the upsert waits. -/
def enteredInTime : Disk × Catalog :=
  waitingUpsert.call.after ((Catalog.checkpoint .stored).after createdWord)

/-- The document is in the directory's write-ahead log only, and it is recovered. -/
theorem concurrent_calls_recovered_waiting :
    ∃ d₁ m₁ d₂ m₂, (Catalog.openCatalog .stored).run enteredInTime.1 .closed = (.ok (), d₁, m₁) ∧
      (Catalog.checkpoint .stored).run enteredInTime.1 enteredInTime.2 = (.ok (), d₂, m₂) ∧
      m₁.shown = m₂.shown ∧ m₁.shown.Has "a" "x" wordObject := by
  have hchecked := (waitingUpsert_run Catalog.stillThere).checkpointedAfter .stored
    (by decide +kernel)
  have hrun := hchecked.enteredAfter (by decide +kernel) (by decide +kernel)
  obtain ⟨d₁, m₁, d₂, m₂, hopen, hcheck, _, hshown, hall⟩ :=
    concurrent_calls_recovered hrun .stored .stored
  refine ⟨d₁, m₁, d₂, m₂, hopen, hcheck, hshown, hall "a" "x" _ ?_⟩
  exact ⟨[(.create "a" wordMapping, exampleUuid 1)], some "x", exampleUuid 2, [], rfl, rfl, by simp⟩

/-- The collection is dropped and created again with the second mapping while the
upsert waits, and the upsert returns. -/
def enteredLate : Disk × Catalog :=
  waitingUpsert.call.after <|
    ((Op.create "a" countMapping).call (exampleUuid 4)).after <|
      ((Op.drop "a").call (exampleUuid 3)).after createdWord

/-- Every call has returned `Ok`; the record is replayed into the new collection,
whose mapping refuses it, and the catalog does not open. -/
theorem retyped_collection_does_not_open :
    ConcurrentRun (fun _ _ => true) enteredLate.1 (some enteredLate.2)
        [(.create "a" wordMapping, exampleUuid 1), (.drop "a", exampleUuid 3),
          (.create "a" countMapping, exampleUuid 4), (wordUpsert, exampleUuid 2)]
        [exampleUuid 4, exampleUuid 3, exampleUuid 2, exampleUuid 1] [] ∧
      ((Catalog.openCatalog .stored).run enteredLate.1 .closed).1 =
        .error (.validation "field value does not match type I64") := by
  have hdropped := (waitingUpsert_run fun _ _ => true).lockedAfter (.drop "a") (exampleUuid 3) rfl
    (by decide) (by decide +kernel)
  have hcreated := hdropped.lockedAfter (.create "a" countMapping) (exampleUuid 4) rfl (by decide)
    (by decide +kernel)
  exact ⟨hcreated.enteredAfter rfl (by decide +kernel), by decide +kernel⟩

end

end Lumen
