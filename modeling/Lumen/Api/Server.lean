import Lumen.Api.Database
import Lumen.Catalog.Distinct
import Lumen.Standalone.Upsert

/-!
# Lumen.Api.Server

A single-node server answers like a database.

Each operation of the standalone engine simulates the same operation of
`databaseEngine` (`Mirrors.simulates_…`); the handlers are written over an engine, so
they simulate each other too (`Mirrors.simulates`).  By induction over the run, every
trace of a server is a trace of a database (`ServerRun.inv`).
-/

namespace Lumen

open Lib Prog

/-! ## what reads show -/

/-- What the readers of a catalog go through. -/
def Catalog.readerDocs (m : Catalog) (name : String) : List Doc :=
  match m.collections.find? name with
  | some e => e.collection.searcher
  | none => []

section
variable {m : Catalog} {name : String} {e : Catalog.Entry}

theorem Catalog.shown_insert (m : Catalog) (name : String) (e : Catalog.Entry) (seq : Nat)
    (log : SegmentedLog) :
    Catalog.shown { m with seq := seq, wal := log, collections := m.collections.insert name e } =
      Function.update m.shown name (some (e.collection.mapping, e.collection.source)) := by
  funext n
  by_cases hn : n = name
  · subst hn
    rw [Function.update_self, shown, OrdMap.find?_insert_self, Option.map_some]
  · rw [Function.update_of_ne hn, shown, shown, OrdMap.find?_insert_ne hn]

theorem Catalog.shown_erase (m : Catalog) (name : String) (seq : Nat) (log : SegmentedLog) :
    ({ m with seq := seq, wal := log, collections := m.collections.erase name } : Catalog).shown =
      Function.update m.shown name none := by
  funext n
  by_cases hn : n = name
  · subst hn
    rw [Function.update_self, shown, OrdMap.find?_erase, if_pos rfl, Option.map_none]
  · rw [Function.update_of_ne hn, shown, shown, OrdMap.find?_erase, if_neg hn]

/-- What is buffered is not shown. -/
theorem Catalog.shown_store (hf : m.collections.find? name = some e) (ops : List WriterOp) :
    (m.store name (e.collection.buffer ops)).shown = m.shown := by
  funext n
  rw [shown, shown, Catalog.find?_store]
  split
  · rename_i hn
    subst hn
    rw [hf, Option.map_some, Option.map_some, Option.map_some]
    split <;> rfl
  · rfl

end

section
variable [Ext] {d d' : Disk} {m m' : Catalog} {db : Database} {used : List Uuid} {minted : Uuid}
  {name : String} {e : Catalog.Entry}

/-- A node whose log amounts to what the database holds, and whose readers show what it
shows. -/
structure Mirrors (db : Database) (used : List Uuid) (d : Disk) (m : Catalog) : Prop where
  serving : Serving db.held used d m
  shown : m.shown = db.shown

namespace Mirrors

theorem cons (h : Mirrors db used d m) : Mirrors db (minted :: used) d m := by
  obtain ⟨cmds, top, hrun, hs, hu⟩ := h.serving
  exact ⟨⟨cmds, top, hrun, hs, hu.cons⟩, h.shown⟩

theorem wellFormed (h : Mirrors db used d m) : Catalog.WellFormed d m := by
  obtain ⟨cmds, top, hrun, _⟩ := h.serving
  exact hrun.wellFormed

theorem held_of_none (h : Mirrors db used d m) (hf : m.collections.find? name = none) :
    db.held name = none := by
  obtain ⟨cmds, top, hrun, hs, _⟩ := h.serving
  rw [← hs, hrun.exact.specOf_find?, hf, Option.map_none]

theorem run_get (h : Mirrors db used d m) (hf : m.collections.find? name = none) :
    (Database.get name).run () db = (.error (.core (.collectionNotFound name)), (), db) := by
  refine run_eq_error_of_wp (C := fun _ => True) ?_
  simp [Database.get, h.held_of_none hf]

theorem held_of_some (h : Mirrors db used d m) (hf : m.collections.find? name = some e) :
    ∃ docs, db.held name = some (e.collection.mapping, docs) := by
  obtain ⟨cmds, top, hrun, hs, _⟩ := h.serving
  exact ⟨(e.toGen d).docs, by rw [← hs, hrun.exact.specOf_find?, hf, Option.map_some]⟩

theorem visible_of_some (h : Mirrors db used d m) (hf : m.collections.find? name = some e) :
    db.visible name = e.collection.source := by
  funext id
  rw [Database.visible, ← h.shown, Spec.source, Catalog.shown, hf, Option.map_some,
    Option.bind_some]

theorem held_isSome (h : Mirrors db used d m) (name : String) :
    (db.held name).isSome = (m.collections.find? name).isSome := by
  cases hf : m.collections.find? name with
  | none => rw [h.held_of_none hf]; rfl
  | some e =>
    obtain ⟨docs, hd⟩ := h.held_of_some hf
    rw [hd]
    rfl

end Mirrors

/-! ## logging -/

/-- An operation behind its record, or a record that is too long. -/
theorem Catalog.WellFormed.wp_log {α : Type} {Q : α → Disk → Catalog → Prop}
    {E : Error → Disk → Catalog → Prop} (h : Catalog.WellFormed d m) {op : Proto.Op}
    {rest : Nat → CatalogM α}
    (hE : 2 ^ 32 ≤ (Ext.walEntry.encode (Catalog.walEntry (m.seq + 1) op)).length →
      E (.recovery "log record exceeds u32 length") d { m with seq := m.seq + 1 })
    (hQ : ∀ dir log, wp (rest (m.seq + 1)) Q E (fun _ => True) { d with wal := dir }
      { m with seq := m.seq + 1, wal := log }) :
    wp (Catalog.nextSeq >>= fun seq =>
      Catalog.onWal (Wal.append (Catalog.walEntry seq op)) >>= fun _ => rest seq) Q E
      (fun _ => True) d m := by
  simp only [wp_bind, Catalog.nextSeq, wp_modifyMem, wp_getMem, wp_pure]
  exact Catalog.wp_onWal _ (wp_append_gained h.log hE fun dir log _ => hQ dir log)

/-! ## operations -/

variable {α : Type} {op : Op} {p : Prog Disk Catalog ApiError α} {q : Prog Unit Database ApiError α}

/-- A write returns and throws what it does on the database, shows what the database then
shows, and is refused beyond that only for its length. -/
def Writes (op : Op) (minted : Uuid) (p : Prog Disk Catalog ApiError α)
    (q : Prog Unit Database ApiError α) (db : Database) (d : Disk) (m : Catalog) : Prop :=
  wp p (fun a _ m' => ∃ db', q.run () db = (.ok a, (), db') ∧
      db'.held = op.apply minted db.held ∧ m'.shown = db'.shown)
    (fun e _ m' => m'.shown = db.shown ∧ (q.run () db = (.error e, (), db) ∨ e = overlongError ∧
      ∃ seq, 2 ^ 32 ≤ (Ext.walEntry.encode (Catalog.walEntry seq (op.logged minted))).length))
    (fun _ => True) d m

/-- The states of a node and of a database behind a call. -/
def Behind (minted : Uuid) (used : List Uuid) (d : Disk) (m : Catalog) (_ : Unit)
    (db : Database) : Prop := Mirrors db (minted :: used) d m

namespace Mirrors

theorem wp_call (h : Mirrors db used d m) (hnew : minted ∉ used) (op : Op) :
    wp (op.call minted)
      (fun _ d' m' => Serving (op.apply minted db.held) (minted :: used) d' m')
      (fun _ d' m' => Serving db.held (minted :: used) d' m') (fun _ => True) d m := by
  obtain ⟨cmds, top, hrun, hs, hu⟩ := h.serving
  rw [← hs]
  exact wp_mono _ (hrun.wp_call hu hnew op) (fun _ _ _ hq => hq) (fun _ _ _ he => he)
    fun _ _ => trivial

end Mirrors

omit [Ext] in
theorem Catalog.validateName_error {err : Error} (h : Catalog.validateName name = .error err) :
    ∃ msg, err = .validation msg := by
  unfold Catalog.validateName at h
  grind

/-- The directory of a new identity is not there. -/
theorem Mirrors.not_contains (h : Mirrors db used d m) (hnew : minted ∉ used) :
    d.dirs.contains minted = false := by
  obtain ⟨cmds, top, hrun, _, hu⟩ := h.serving
  obtain ⟨a, l, es, hd, _⟩ := hrun.disk
  exact hd.dirs.not_contains (hu.fresh hnew)

variable [Queries] {names : List String} {docs : String → List Doc}

namespace Mirrors

theorem writes_create (h : Mirrors db used d m) (hnew : minted ∉ used) (name : String)
    (mapping : Mapping) :
    Writes (.create name mapping) minted ((standaloneEngine minted).createCollection name mapping)
      ((databaseEngine names docs minted).createCollection name mapping) db d m := by
  simp only [Writes, standaloneEngine, StandaloneEngine.run, databaseEngine, wp_bind, wp_mapError,
    Catalog.create, Catalog.wp_lookup]
  cases hv : Catalog.validateName name with
  | error err =>
    obtain ⟨msg, rfl⟩ := Catalog.validateName_error hv
    exact ⟨h.shown, .inl rfl⟩
  | ok _ =>
    rw [wp_ofExcept_ok]
    cases hf : m.collections.find? name with
    | some e =>
      obtain ⟨held, hheld⟩ := h.held_of_some hf
      simp only [Option.map_some]
      by_cases hsame : e.collection.mapping = mapping
      · simp only [hsame, if_true, wp_pure]
        refine ⟨db, ?_, ?_, h.shown⟩
        · refine run_eq_ok_of_wp (C := fun _ => True) ?_
          simp [Except.mapError, hheld, hsame]
        · rw [Op.apply_create_of_isSome mapping (by rw [hheld]; rfl)]
      · simp only [hsame, if_false, wp_throw]
        refine ⟨h.shown, .inl (run_eq_error_of_wp (C := fun _ => True) ?_)⟩
        simp [Except.mapError, hheld, hsame, StandaloneEngine.taskError]
    | none =>
      have hheld := h.held_of_none hf
      simp only [Option.map_none, Catalog.logCreate]
      refine h.wellFormed.wp_log (fun hlong => ⟨h.shown, .inr ⟨rfl, _, hlong⟩⟩)
        fun dir log => ?_
      rw [wp_bind, Catalog.installCollection, wp_bind]
      have hno := h.not_contains hnew
      refine Catalog.wp_openOrCreate minted mapping (fun _ _ _ => trivial)
        (fun _ hi => absurd (fun hc => by rw [hno] at hc; contradiction) hi)
        (fun ix hix _ => ?_) fun _ => ?_
      · have hc : d.dirs.contains minted = true := Disk.contains_of_index hix
        rw [hno] at hc
        contradiction
      · refine ⟨db.write minted (.create name mapping), ?_, rfl, ?_⟩
        · refine run_eq_ok_of_wp (C := fun _ => True) ?_
          simp only [Except.mapError, wp_bind, wp_ofExcept_ok, wp_getMem, hheld, wp_modifyMem,
            wp_pure]
          exact ⟨rfl, trivial, trivial⟩
        · have hshown : m.shown name = none := by rw [Catalog.shown, hf, Option.map_none]
          refine (Catalog.shown_insert m name _ _ _).trans ?_
          rw [Database.write, ← h.shown]
          simp only [Op.reveal, Op.apply, hshown, Option.none_or]
          rfl

theorem writes_drop (h : Mirrors db used d m) (name : String) :
    Writes (.drop name) minted ((standaloneEngine minted).dropCollection name)
      ((databaseEngine names docs minted).dropCollection name) db d m := by
  simp only [Writes, standaloneEngine, StandaloneEngine.run, databaseEngine, wp_bind, wp_mapError,
    Catalog.dropCollection, wp_getMem]
  cases hf : m.collections.find? name with
  | none => exact ⟨h.shown, .inl (run_bind_error (h.run_get hf))⟩
  | some e =>
    obtain ⟨held, hheld⟩ := h.held_of_some hf
    simp only [Catalog.logDrop]
    refine h.wellFormed.wp_log (fun hlong => ⟨h.shown, .inr ⟨rfl, _, hlong⟩⟩) fun dir log => ?_
    refine Catalog.wp_dropDir e.uuid (fun _ _ => trivial) trivial
      ⟨db.write minted (.drop name), run_eq_ok_of_wp (C := fun _ => True) ?_, rfl, ?_⟩
    · simp [Database.get, hheld]
    · refine (Catalog.shown_erase m name _ _).trans ?_
      rw [h.shown]
      rfl

omit [Queries] in
/-- A document operation: the record, then what is buffered. -/
theorem shown_buffered (h : Mirrors db used d m) (hf : m.collections.find? name = some e)
    (seq : Nat) (log : SegmentedLog) (ops : List WriterOp) :
    (({ m with seq := seq, wal := log } : Catalog).store name (e.collection.buffer ops)).shown =
      db.shown :=
  (Catalog.shown_store hf ops).trans h.shown

omit [Queries] in
theorem deref_logged (h : Mirrors db used d m) (hf : m.collections.find? name = some e)
    (seq : Nat) (log : SegmentedLog) :
    ({ m with seq := seq, wal := log } : Catalog).deref name e.collection = e.collection :=
  Catalog.deref_of_uuid hf (h.wellFormed.uuid name e hf)

theorem writes_upsert (h : Mirrors db used d m) (name : String) (id : Option String)
    (source : Bytes) :
    Writes (.upsert name id source) minted ((standaloneEngine minted).index name id source)
      ((databaseEngine names docs minted).index name id source) db d m := by
  simp only [Writes, standaloneEngine, StandaloneEngine.run, databaseEngine, wp_bind, wp_mapError,
    Catalog.upsertDocument, Catalog.get, wp_getMem]
  cases hf : m.collections.find? name with
  | none => exact ⟨h.shown, .inl (run_bind_error (h.run_get hf))⟩
  | some e =>
    obtain ⟨held, hheld⟩ := h.held_of_some hf
    rw [wp_pure]
    rcases Catalog.parseDocument_cases e.collection.mapping source with
      ⟨msg, hp⟩ | ⟨parsed, hp, _, hvalid⟩
    · rw [hp]
      refine ⟨h.shown, .inl (run_eq_error_of_wp (C := fun _ => True) ?_)⟩
      simp [Database.get, hheld, hp, Except.mapError, StandaloneEngine.taskError]
    · obtain ⟨values, hbuild⟩ := buildDoc_of_validate (Catalog.orNewId id minted) source hvalid
      rw [← h.wellFormed.schema name e hf] at hbuild
      rw [hp, wp_ofExcept_ok, Catalog.logUpsert]
      refine h.wellFormed.wp_log (fun hlong => ⟨h.shown, .inr ⟨rfl, _, hlong⟩⟩) fun dir log => ?_
      simp only [Catalog.applyUpsert, wp_bind, wp_getMem, h.deref_logged hf,
        Collection.applyUpsert, hbuild, wp_ofExcept_ok, wp_modifyMem, wp_pure]
      refine ⟨db.write minted (.upsert name id source), run_eq_ok_of_wp (C := fun _ => True) ?_,
        rfl, h.shown_buffered hf _ log _⟩
      -- whether the document is new is what the reader says
      have hnew : (db.visible name (Catalog.orNewId id minted)).isNone =
          !e.collection.idExists (Catalog.orNewId id minted) := by
        rw [h.visible_of_some hf, Collection.source, Collection.idExists, Option.isNone_map,
          ← Option.not_isSome, List.isSome_find?]
      simp only [Database.get, wp_bind, wp_getMem, hheld, wp_pure, hp, Except.mapError,
        wp_ofExcept_ok, wp_modifyMem, hnew, and_self]

theorem writes_delete (h : Mirrors db used d m) (name id : String) :
    Writes (.delete name id) minted ((standaloneEngine minted).delete name id)
      ((databaseEngine names docs minted).delete name id) db d m := by
  simp only [Writes, standaloneEngine, StandaloneEngine.run, databaseEngine, wp_bind, wp_mapError,
    Catalog.deleteDocument, Catalog.get, wp_getMem]
  cases hf : m.collections.find? name with
  | none => exact ⟨h.shown, .inl (run_bind_error (h.run_get hf))⟩
  | some e =>
    obtain ⟨held, hheld⟩ := h.held_of_some hf
    obtain ⟨field, hfield⟩ := getField_idField e.collection.mapping
    rw [← h.wellFormed.schema name e hf] at hfield
    rw [wp_pure, Catalog.logDelete]
    refine h.wellFormed.wp_log (fun hlong => ⟨h.shown, .inr ⟨rfl, _, hlong⟩⟩) fun dir log => ?_
    simp only [Catalog.applyDelete, wp_bind, wp_getMem, h.deref_logged hf,
      Collection.applyDelete, hfield, wp_ofExcept_ok, wp_modifyMem, wp_pure]
    refine ⟨db.write minted (.delete name id), run_eq_ok_of_wp (C := fun _ => True) ?_, rfl,
      h.shown_buffered hf _ log _⟩
    simp [Database.get, hheld]

/-! ## reads -/

variable {F : ApiError → Disk → Catalog → Prop}

theorem simulates_describe (h : Mirrors db used d m) (name : String) :
    Simulates (Behind minted used) F ((standaloneEngine minted).describe name)
      ((databaseEngine names docs minted).describe name) d m () db := by
  simp only [Simulates, standaloneEngine, StandaloneEngine.run, databaseEngine, wp_mapError,
    Catalog.describe, Catalog.get, wp_bind, wp_getMem]
  cases hf : m.collections.find? name with
  | none => exact .inl ⟨(), db, h.run_get hf, h.cons⟩
  | some e =>
    obtain ⟨held, hheld⟩ := h.held_of_some hf
    refine ⟨(), db, run_eq_ok_of_wp (C := fun _ => True) ?_, h.cons⟩
    simp [Database.get, hheld]

theorem simulates_getDocument (h : Mirrors db used d m) (name id : String) :
    Simulates (Behind minted used) F ((standaloneEngine minted).getDocument name id)
      ((databaseEngine names docs minted).getDocument name id) d m () db := by
  simp only [Simulates, standaloneEngine, StandaloneEngine.run, databaseEngine, wp_mapError,
    Catalog.getDocument, Catalog.get, wp_bind, wp_getMem]
  cases hf : m.collections.find? name with
  | none => exact .inl ⟨(), db, run_bind_error (h.run_get hf), h.cons⟩
  | some e =>
    obtain ⟨held, hheld⟩ := h.held_of_some hf
    rw [wp_pure]
    cases hs : e.collection.source id with
    | none =>
      refine .inl ⟨(), db, run_eq_error_of_wp (C := fun _ => True) ?_, h.cons⟩
      simp [Database.get, hheld, h.visible_of_some hf, hs, StandaloneEngine.taskError]
    | some source =>
      refine ⟨(), db, run_eq_ok_of_wp (C := fun _ => True) ?_, h.cons⟩
      simp [Database.get, hheld, h.visible_of_some hf, hs]

theorem simulates_search (h : Mirrors db used d m) (name query : String) (limit offset : Nat) :
    Simulates (Behind minted used) F ((standaloneEngine minted).search name query limit offset)
      ((databaseEngine names m.readerDocs minted).search name query limit offset) d m () db := by
  simp only [Simulates, standaloneEngine, StandaloneEngine.run, databaseEngine, wp_mapError,
    Catalog.search, Catalog.get, wp_bind, wp_getMem]
  cases hf : m.collections.find? name with
  | none => exact .inl ⟨(), db, run_bind_error (h.run_get hf), h.cons⟩
  | some e =>
    obtain ⟨held, hheld⟩ := h.held_of_some hf
    have hdocs : m.readerDocs name = e.collection.searcher := by
      simp only [Catalog.readerDocs, hf]
    rw [wp_pure, Collection.search, h.wellFormed.schema name e hf]
    cases hr : execute e.collection.mapping.toSchema e.collection.searcher query limit offset with
    | error err =>
      refine .inl ⟨(), db, run_eq_error_of_wp (C := fun _ => True) ?_, h.cons⟩
      simp [Database.get, hheld, hdocs, hr, Except.mapError]
    | ok results =>
      refine ⟨(), db, run_eq_ok_of_wp (C := fun _ => True) ?_, h.cons⟩
      simp [Database.get, hheld, hdocs, hr, Except.mapError]

theorem simulates_list (h : Mirrors db used d m) :
    Simulates (Behind minted used) F (standaloneEngine minted).list
      (databaseEngine m.collections.keys docs minted).list d m () db :=
  ⟨(), db, rfl, h.cons⟩

omit [Queries] in
/-- A catalog lists what the database has. -/
theorem lists (h : Mirrors db used d m) (hids : m.Distinct) :
    db.Lists m.collections.keys m.readerDocs where
  sorted := List.pairwise_map.mpr m.collections.sorted
  mem name := by
    rw [OrdMap.mem_keys_iff, h.held_isSome, Option.isSome_iff_exists]
  ids name hsome := by
    rw [h.held_isSome, Option.isSome_iff_exists] at hsome
    obtain ⟨e, hf⟩ := hsome
    simp only [Catalog.readerDocs, hf]
    exact (hids name e hf).searcher
  view name hsome := by
    rw [h.held_isSome, Option.isSome_iff_exists] at hsome
    obtain ⟨e, hf⟩ := hsome
    rw [h.visible_of_some hf]
    simp only [Catalog.readerDocs, hf]
    rfl

/-! ## handlers -/

variable [Serde]

omit [Queries] in
/-- What a write does to the log and what it shows, put together. -/
theorem simulates_write {req : HttpRequest} (hop : req.op? = some op)
    (hw : Writes op minted p q db d m)
    (hcall : wp p (fun _ d' m' => Serving (op.apply minted db.held) (minted :: used) d' m')
      (fun _ d' m' => Serving db.held (minted :: used) d' m') (fun _ => True) d m) :
    Simulates (Behind minted used) (fun e d' m' => e = overlongError ∧ req.Overlong minted ∧
      Mirrors db (minted :: used) d' m') p q d m () db := by
  refine wp_mono _ (wp_and _ hw hcall) (fun a d' m' hq => ?_) (fun e d' m' he => ?_)
    fun _ _ => trivial
  · obtain ⟨⟨db', hrun, hheld, hshown⟩, hserving⟩ := hq
    exact ⟨(), db', hrun, hheld ▸ hserving, hshown⟩
  · obtain ⟨⟨hshown, hrun | ⟨rfl, seq, hlong⟩⟩, hserving⟩ := he
    · exact .inl ⟨(), db, hrun, hserving, hshown⟩
    · exact .inr ⟨rfl, ⟨op, seq, hop, hlong⟩, hserving, hshown⟩

/-- **A request** is answered as the database answers it. -/
theorem simulates (h : Mirrors db used d m) (hnew : minted ∉ used) (req : HttpRequest) :
    Simulates (Behind minted used) (fun e d' m' => e = overlongError ∧ req.Overlong minted ∧
        Mirrors db (minted :: used) d' m')
      (req.handler (standaloneEngine minted))
      (req.handler (databaseEngine m.collections.keys m.readerDocs minted)) d m () db := by
  cases req with
  | createCollection name body =>
    simp only [HttpRequest.handler, Handlers.createCollection]
    cases hp : Serde.mappingFromSlice body with
    | error msg => exact .inl ⟨(), db, rfl, h.cons⟩
    | ok mapping =>
      refine (simulates_write (by simp only [HttpRequest.op?, hp])
        (h.writes_create hnew name mapping) ?_).bind fun a _ _ _ _ hs => .pure hs
      simpa only [standaloneEngine, StandaloneEngine.run, Op.call, wp_bind, wp_mapError,
        wp_pure] using h.wp_call hnew (.create name mapping)
  | listCollections => exact h.simulates_list.bind fun _ _ _ _ _ hs => .pure hs
  | describeCollection name => exact (h.simulates_describe name).bind fun _ _ _ _ _ hs => .pure hs
  | dropCollection name =>
    refine (simulates_write rfl (h.writes_drop name) ?_).bind fun _ _ _ _ _ hs => .pure hs
    simpa only [standaloneEngine, StandaloneEngine.run, Op.call, wp_mapError]
      using h.wp_call hnew (.drop name)
  | indexDocument name body =>
    refine (simulates_write rfl (h.writes_upsert name none body) ?_).bind
      fun _ _ _ _ _ hs => .pure hs
    simpa only [standaloneEngine, StandaloneEngine.run, Op.call, wp_bind, wp_mapError, wp_pure]
      using h.wp_call hnew (.upsert name none body)
  | putDocument name id body =>
    refine (simulates_write rfl (h.writes_upsert name (some id) body) ?_).bind
      fun _ _ _ _ _ hs => .pure hs
    simpa only [standaloneEngine, StandaloneEngine.run, Op.call, wp_bind, wp_mapError, wp_pure]
      using h.wp_call hnew (.upsert name (some id) body)
  | getDocument name id =>
    exact (h.simulates_getDocument name id).bind fun _ _ _ _ _ hs =>
      (Simulates.ofExcept _ hs).bind fun _ _ _ _ _ hs => .pure hs
  | deleteDocument name id =>
    refine (simulates_write rfl (h.writes_delete name id) ?_).bind fun _ _ _ _ _ hs => .pure hs
    simpa only [standaloneEngine, StandaloneEngine.run, Op.call, wp_bind, wp_mapError, wp_pure]
      using h.wp_call hnew (.delete name id)
  | searchDocuments name params tookMs =>
    exact (h.simulates_search name params.q _ _).bind fun _ _ _ _ _ hs =>
      (Simulates.ofExcept _ hs).bind fun _ _ _ _ _ hs => .pure hs

omit [Queries] [Serde] in
/-- **A checkpoint** makes everything that was acknowledged visible. -/
theorem wp_checkpoint (h : Mirrors db used d m) (ord : IterOrder) :
    wp (Catalog.checkpoint ord) (fun _ d' m' => Mirrors db.settle used d' m')
      (fun _ _ _ => True) (fun d' => d.resumesAt = some m.seq ∨ d'.appliedSeq = some m.seq →
        Holding db.held used d') d m := by
  obtain ⟨cmds, top, hrun, hs, hu⟩ := h.serving
  obtain ⟨a, l, es, hd, hw⟩ := hrun.disk
  have hg := hrun.good.mono hrun.le
  have hshown : wp (Catalog.checkpoint ord) (fun _ _ m' => m'.shown = db.held)
      (fun _ _ _ => True) (fun _ => True) d m :=
    (hrun.exact.mono hrun.good hrun.le).wp_checkpoint hg (hd.parked.mono (hd.le.trans hrun.le))
      (hw.raise hrun.le) hd.tail.sorted (fun e he => (hd.tail.le e he).trans hrun.le) ord
      (fun _ _ _ _ => trivial) (fun _ _ _ _ _ => trivial)
      fun _ m' hex _ _ hempty => by rw [hex.shown_eq hempty, hrun.good.specOf_eq hrun.le, hs]
  refine wp_mono _ (wp_and _ (hrun.wp_checkpoint hu ord) hshown) (fun _ _ _ hq => ?_)
    (fun _ _ _ _ => trivial) fun _ hc hseq => hs ▸ hc.1 hseq
  exact ⟨hs ▸ hq.1, hq.2⟩

end Mirrors

/-! ## runs -/

variable [Serde]

/-- No field name of a new collection begins with a dash: Tantivy would panic. -/
def HttpRequest.Realisable : HttpRequest → Prop
  | .createCollection _ body =>
    ∀ mapping, Serde.mappingFromSlice body = .ok mapping → mapping.NoDash
  | _ => True

/-- The runs of a single-node server, with what was seen of it.  It is stopped between two
requests or inside a checkpoint; a cut checkpoint has renamed its catalog file, or else
the directory resumes at the number the catalog has reached. -/
inductive ServerRun : Disk → Option Catalog → List Uuid → List ServerEvent → Prop where
  | start : ServerRun .empty none [] []
  | opened {d d' : Disk} {m' : Catalog} {used : List Uuid} {events : List ServerEvent}
      (ord : IterOrder) (prev : ServerRun d none used events)
      (h : (Catalog.openCatalog ord).run d .closed = (.ok (), d', m')) :
      ServerRun d' (some m') used (.opened :: events)
  | request {d d' : Disk} {m m' : Catalog} {used : List Uuid} {events : List ServerEvent}
      {answer : Except ApiError HttpResponse} (minted : Uuid) (req : HttpRequest)
      (hreal : req.Realisable) (prev : ServerRun d (some m) used events) (hnew : minted ∉ used)
      (h : (req.handler (standaloneEngine minted)).run d m = (answer, d', m')) :
      ServerRun d' (some m') (minted :: used) (.request minted req answer :: events)
  | checkpoint {d d' : Disk} {m m' : Catalog} {used : List Uuid} {events : List ServerEvent}
      (ord : IterOrder) (prev : ServerRun d (some m) used events)
      (h : (Catalog.checkpoint ord).run d m = (.ok (), d', m')) :
      ServerRun d' (some m') used (.checkpoint :: events)
  | stopped {d : Disk} {m : Catalog} {used : List Uuid} {events : List ServerEvent}
      (prev : ServerRun d (some m) used events) : ServerRun d none used (.stopped :: events)
  | cut {d d' : Disk} {m : Catalog} {used : List Uuid} {events : List ServerEvent}
      (ord : IterOrder) (prev : ServerRun d (some m) used events)
      (hcut : d' ∈ (Catalog.checkpoint ord).crashes d m)
      (hseq : d.resumesAt = some m.seq ∨ d'.appliedSeq = some m.seq) :
      ServerRun d' none used (.stopped :: events)

/-- A server that is down holds what the database holds; one that is up mirrors it. -/
def Mirrored (db : Database) (used : List Uuid) (d : Disk) : Option Catalog → Prop
  | none => Holding db.held used d
  | some m => Mirrors db used d m ∧ m.Distinct

theorem HttpRequest.keepsDistinct (req : HttpRequest) (minted : Uuid) :
    Keeps Disk.Distinct Catalog.Distinct (fun _ => True)
      (req.handler (standaloneEngine minted)) := by
  cases req with
  | createCollection name body =>
    exact (Keeps.check _).bind fun mapping _ =>
      (((KeepsDistinct.create mapping minted).mapError _).thenPure _).thenPure _
  | listCollections => exact Keeps.getMem fun _ _ => Keeps.pure trivial
  | describeCollection name => exact ((KeepsDistinct.get.thenPure _).mapError _).thenPure _
  | dropCollection name => exact (KeepsDistinct.dropCollection.mapError _).thenPure _
  | indexDocument name body =>
    exact (((KeepsDistinct.upsertDocument _ body minted).mapError _).thenPure _).thenPure _
  | putDocument name id body =>
    exact (((KeepsDistinct.upsertDocument _ body minted).mapError _).thenPure _).thenPure _
  | getDocument name id =>
    refine Keeps.bind (P := fun _ => True) ((KeepsDistinct.get.bind fun c _ => ?_).mapError _)
      fun _ _ => (Keeps.check _).thenPure _
    split
    · exact Keeps.pure trivial
    · exact Keeps.throw _
  | deleteDocument name id =>
    exact (((KeepsDistinct.deleteDocument id).mapError _).thenPure _).thenPure _
  | searchDocuments name params tookMs =>
    exact ((KeepsDistinct.get.bind fun c _ => Keeps.check _).mapError _).bind fun _ _ =>
      (Keeps.check _).thenPure _

/-- **Every state of a run** is that of a database with the same trace. -/
theorem ServerRun.inv {o : Option Catalog} {events : List ServerEvent}
    (h : ServerRun d o used events) :
    ∃ db, DatabaseRun db events ∧ d.Distinct ∧ Mirrored db used d o := by
  have hclosed : Catalog.closed.Distinct := fun n e hf => by contradiction
  induction h with
  | start => exact ⟨.empty, .start, fun u ix hix => by contradiction, Holding.empty⟩
  | opened ord prev h ih =>
    obtain ⟨db, hdb, hdisk, hhold⟩ := ih
    obtain ⟨hserving, hshown⟩ := post_of_wp (hhold.wp_open ord (fun _ => False)
      fun _ _ _ _ _ _ _ hf => hf.elim) h
    obtain ⟨hdisk', hmem'⟩ := (KeepsDistinct.openCatalog ord).of_run hdisk hclosed h
    exact ⟨db.settle, .opened hdb, hdisk', ⟨hserving, hshown⟩, hmem'⟩
  | request minted req hreal prev hnew h ih =>
    obtain ⟨db, hdb, hdisk, hmirrors, hmem⟩ := ih
    obtain ⟨hdisk', hmem'⟩ := (req.keepsDistinct minted).of_run hdisk hmem h
    rcases (hmirrors.simulates hnew req).of_run h with
      ⟨_, db', hrun, hs⟩ | ⟨_, rfl, rfl, hlong, hs⟩
    · exact ⟨db', .answered minted req hdb (hmirrors.lists hmem) hrun, hdisk', hs, hmem'⟩
    · exact ⟨db, .overlong minted req hdb hlong, hdisk', hs, hmem'⟩
  | checkpoint ord prev h ih =>
    obtain ⟨db, hdb, hdisk, hmirrors, hmem⟩ := ih
    obtain ⟨hdisk', hmem'⟩ := (KeepsDistinct.checkpoint ord).of_run hdisk hmem h
    exact ⟨db.settle, .checkpoint hdb, hdisk', post_of_wp (hmirrors.wp_checkpoint ord) h, hmem'⟩
  | stopped prev ih =>
    obtain ⟨db, hdb, hdisk, hmirrors, _⟩ := ih
    exact ⟨db, .stopped hdb, hdisk, hmirrors.serving.holding⟩
  | cut ord prev hcut hseq ih =>
    obtain ⟨db, hdb, hdisk, hmirrors, hmem⟩ := ih
    exact ⟨db, .stopped hdb, (KeepsDistinct.checkpoint ord).of_crash hdisk hmem hcut,
      crashes_of_wp (hmirrors.wp_checkpoint ord) _ hcut hseq⟩

end

/-! ## a run -/

section
open Reference

/-- An empty object is a mapping without fields. -/
instance Reference.serde : Serde where
  mappingFromSlice body := if body = emptyObject then .ok emptyMapping else .error "expected value"

/-- A request to a server that is up. -/
theorem ServerRun.after {x : Disk × Catalog} {used : List Uuid} {events : List ServerEvent}
    (prev : ServerRun x.1 (some x.2) used events) (minted : Uuid) (req : HttpRequest)
    (hreal : req.Realisable) (hnew : minted ∉ used) :
    ServerRun ((req.handler (standaloneEngine minted)).after x).1
      (some ((req.handler (standaloneEngine minted)).after x).2) (minted :: used)
      (.request minted req ((req.handler (standaloneEngine minted)).run x.1 x.2).1 :: events) :=
  .request minted req hreal prev hnew (run_eq_after rfl)

/-- A server that has been asked for a collection. -/
def servedA : Disk × Catalog :=
  ((HttpRequest.createCollection "a" emptyObject).handler
    (standaloneEngine (exampleUuid 1))).after <|
      (Catalog.openCatalog .stored).after (.empty, .closed)

/-- The server with a document. -/
def servedX : Disk × Catalog :=
  ((HttpRequest.putDocument "a" "x" emptyObject).handler
    (standaloneEngine (exampleUuid 2))).after servedA

theorem servedA_run : ∃ answer, ServerRun servedA.1 (some servedA.2) [exampleUuid 1]
    [.request (exampleUuid 1) (.createCollection "a" emptyObject) answer, .opened] := by
  refine ⟨_, .after (.opened .stored .start (Prod.ext ?_ rfl)) (exampleUuid 1) _ ?_ (by decide)⟩
  · decide +kernel
  · intro mapping hm name spec hspec
    have hempty : Serde.mappingFromSlice emptyObject = .ok emptyMapping := if_pos rfl
    obtain rfl : emptyMapping = mapping := Except.ok.inj (hempty.symm.trans hm)
    contradiction

theorem servedX_run : ∃ answer response, ServerRun servedX.1 (some servedX.2)
    [exampleUuid 2, exampleUuid 1]
    [.request (exampleUuid 2) (.putDocument "a" "x" emptyObject) (.ok response),
      .request (exampleUuid 1) (.createCollection "a" emptyObject) answer, .opened] := by
  obtain ⟨answer, hrun⟩ := servedA_run
  have hok : (((HttpRequest.putDocument "a" "x" emptyObject).handler
      (standaloneEngine (exampleUuid 2))).run servedA.1 servedA.2).1.toBool = true := by
    decide +kernel
  cases hr : (((HttpRequest.putDocument "a" "x" emptyObject).handler
      (standaloneEngine (exampleUuid 2))).run servedA.1 servedA.2).1 with
  | error e => simp [hr, Except.toBool] at hok
  | ok response => exact ⟨answer, response, hr ▸ hrun.after (exampleUuid 2) _ trivial (by decide)⟩

/-- The server behind a checkpoint. -/
def settledX : Disk × Catalog := (Catalog.checkpoint .stored).after servedX

theorem settledX_run : ∃ answer response, ServerRun settledX.1 (some settledX.2)
    [exampleUuid 2, exampleUuid 1] ([.checkpoint] ++
      .request (exampleUuid 2) (.putDocument "a" "x" emptyObject) (.ok response) ::
        [.request (exampleUuid 1) (.createCollection "a" emptyObject) answer, .opened]) := by
  obtain ⟨answer, response, hrun⟩ := servedX_run
  exact ⟨answer, response, .checkpoint .stored hrun (Prod.ext (by decide +kernel) rfl)⟩

end

end Lumen
