import Lumen.Mapping.Schema
import Lumen.Standalone.Recovery

/-!
# Lumen.Standalone.Upsert

What validation decides about an upsert.

* `buildDoc_exact` — a document the mapping accepts is built, with one typed value
  for each member whose field is indexed or fast.
* `upsert_is_all_or_nothing` — a rejected upsert leaves no trace; an acknowledged one
  has put one record into the write-ahead log and the replacement into the buffer.
-/

namespace Lumen

open Lib Prog

section
variable [Ext]

/-! ## the document that is built -/

/-- The typed value of a JSON value in a field of a type. -/
inductive HasValue : FieldType → Value → FieldValue → Prop where
  | text (s : String) : HasValue .text (.string s) (.text s)
  | keyword (s : String) : HasValue .keyword (.string s) (.text s)
  | i64 {value : Value} {n : Int} (h : value.asI64 = some n) : HasValue .i64 value (.i64 n)
  | f64 (n : Number) : HasValue .f64 (.number n) (.f64 n)
  | date {s : String} {nanos : Int} (h : parseRfc3339 s = some nanos) :
      HasValue .date (.string s) (.date (nanos.bmod (2 ^ 64)))

/-- Whether a name is that of a field that is indexed or fast. -/
def Mapping.inSchema (m : Mapping) (name : String) : Bool :=
  match m.field name with
  | none => false
  | some spec => spec.indexed || spec.fast

/-- The members that are in the schema, each with its typed value. -/
def Mapping.Indexes (m : Mapping) (object : List (String × Value))
    (values : List (String × FieldValue)) : Prop :=
  List.Forall₂ (fun p v => v.1 = p.1 ∧ ∃ spec, m.field p.1 = some spec ∧ HasValue spec.ty p.2 v.2)
    (object.filter fun p => m.inSchema p.1) values

theorem hasValue_of_addValue {value : Value} {ty : FieldType} {v : FieldValue}
    (h : addValue value ty = .ok v) : HasValue ty value v := by
  have hstr : ∀ {s}, value.asStr = some s → value = .string s := by
    intro s hs
    cases value <;> simp_all [Value.asStr]
  cases ty with
  | text =>
    simp only [addValue] at h
    split at h
    · rename_i s hs
      rw [hstr hs, ← Except.ok.inj h]
      exact .text s
    · contradiction
  | keyword =>
    simp only [addValue] at h
    split at h
    · rename_i s hs
      rw [hstr hs, ← Except.ok.inj h]
      exact .keyword s
    · contradiction
  | i64 =>
    simp only [addValue] at h
    split at h
    · rename_i n hn
      rw [← Except.ok.inj h]
      exact .i64 hn
    · contradiction
  | f64 =>
    simp only [addValue] at h
    split at h
    · rename_i n hn
      have hnum : value = .number n := by
        cases value <;> simp_all [Value.asF64]
      rw [hnum, ← Except.ok.inj h]
      exact .f64 n
    · contradiction
  | date =>
    simp only [addValue] at h
    split at h
    · contradiction
    · rename_i s hs
      split at h
      · rename_i nanos hn
        rw [hstr hs, ← Except.ok.inj h]
        exact .date hn
      · contradiction

omit [Ext] in
/-- A mapped name is in the schema if its field is indexed or fast. -/
theorem Mapping.getField_isSome {m : Mapping} {name : String} {spec : FieldSpec}
    (h : m.field name = some spec) : (m.toSchema.getField name).isSome = m.inSchema name := by
  have huser : name ∈ (userFields m.fields.toList).map FieldEntry.name ↔
      m.inSchema name = true := by
    rw [List.mem_map, inSchema, h]
    simp only [Bool.or_eq_true]
    constructor
    · rintro ⟨e, he, rfl⟩
      obtain ⟨spec', hspec', hrole, _⟩ := mem_userFields_iff.mp he
      rw [h, Option.some.injEq] at hspec'
      exact hspec' ▸ hrole
    · intro hrole
      exact ⟨⟨name, fieldOptions spec⟩, mem_userFields_iff.mpr ⟨spec, h, hrole, rfl⟩, rfl⟩
  rw [Bool.eq_iff_iff, Schema.getField_isSome_iff, toSchema, List.map_append, List.mem_append,
    ← huser]
  exact or_iff_right (notMem_systemFields h)

/-- The loop over the members. -/
theorem addMembers_exact {m : Mapping} {l : List (String × Value)}
    (h : validateMembers m l = .ok ()) :
    ∃ values, addMembers m.toSchema m l = .ok values ∧ m.Indexes l values := by
  induction l with
  | nil => exact ⟨[], rfl, .nil⟩
  | cons p l ih =>
    obtain ⟨name, value⟩ := p
    have hall := validateMembers_ok_iff.mp h
    obtain ⟨⟨spec, hspec, hval⟩, hrest⟩ := List.forall_mem_cons.mp hall
    obtain ⟨values, hvalues, hindexes⟩ := ih (validateMembers_ok_iff.mpr hrest)
    obtain ⟨v, hv⟩ := addValue_of_valueMatches hval
    have hin := Mapping.getField_isSome hspec
    unfold Mapping.Indexes
    rw [addMembers, List.filter_cons]
    cases hfield : m.toSchema.getField name with
    | none =>
      rw [hfield, Option.isSome_none] at hin
      simp only [← hin]
      exact ⟨values, hvalues, hindexes⟩
    | some e =>
      rw [hfield, Option.isSome_some] at hin
      simp only [hspec, hv, hvalues, ← hin]
      exact ⟨_, rfl, .cons ⟨rfl, spec, hspec, hasValue_of_addValue hv⟩ hindexes⟩

/-- **Validation and indexing agree.** -/
theorem buildDoc_exact {m : Mapping} {parsed : Value} (id : String) (source : Bytes)
    (h : m.validateDocument parsed = .ok ()) :
    ∃ object values, parsed.asObject = some object ∧
      buildDoc m.toSchema m id source parsed = .ok ⟨id, source, values⟩ ∧
      m.Indexes object values := by
  obtain ⟨e₁, h₁⟩ := getField_idField m
  obtain ⟨e₂, h₂⟩ := getField_sourceField m
  unfold Mapping.validateDocument at h
  cases ho : parsed.asObject with
  | none => rw [ho] at h; contradiction
  | some object =>
    rw [ho] at h
    obtain ⟨values, hvalues, hindexes⟩ := addMembers_exact h
    exact ⟨object, values, rfl, by simp only [buildDoc, h₁, h₂, ho, hvalues], hindexes⟩

/-! ## the record and the replacement -/

variable {dir dir' : LogDir} {log log' : SegmentedLog} {d d' : Disk} {m m' : Catalog}

/-- One frame more in one file, and its location in the index. -/
def WalGained (dir : LogDir) (log : SegmentedLog) (index : Nat) (payload : Bytes) (dir' : LogDir)
    (log' : SegmentedLog) : Prop :=
  ∃ start bytes, (dir.find? start).getD [] = bytes ∧
    (∀ k, dir'.find? k = if k = start then some (bytes ++ frame payload) else dir.find? k) ∧
    log'.records = log.records.insert index ⟨start, bytes.length + headerBytes, payload.length⟩

/-- A log that can take a record at an index: its active file is there, with the
length the handle has counted, and the file a rotation would open is empty. -/
structure TakesRecord (dir : LogDir) (log : SegmentedLog) (index : Nat) : Prop where
  active : ∀ a, log.active = some a → ∃ bytes, dir.find? a.start = some bytes ∧
    a.bytes = bytes.length
  fresh : ∀ bytes, dir.find? index = some bytes → bytes = []

/-- The states a catalog is in: its collections have the schema of their mapping, and
its log can take the next record. -/
structure Catalog.WellFormed (d : Disk) (m : Catalog) : Prop where
  uuid : ∀ name e, m.collections.find? name = some e → e.collection.uuid = e.uuid
  schema : ∀ name e, m.collections.find? name = some e →
    e.collection.schema = e.collection.mapping.toSchema
  log : TakesRecord d.wal m.wal (m.seq + 1)

/-- An append to an open file. -/
theorem wp_append_gained {Q : Unit → LogDir → SegmentedLog → Prop}
    {E : Error → LogDir → SegmentedLog → Prop} {index : Nat} {payload : Bytes}
    (h : TakesRecord dir log index)
    (hE : 2 ^ 32 ≤ payload.length → E (.recovery "log record exceeds u32 length") dir log)
    (hQ : ∀ dir' log', WalGained dir log index payload dir' log' → Q () dir' log') :
    wp (SegmentedLog.append index payload) Q E (fun _ => True) dir log := by
  have hfile : ∀ start bytes k (l : LogDir), l.find? start = some bytes →
      (l.modify start (· ++ frame payload)).find? k =
        if k = start then some (bytes ++ frame payload) else l.find? k := by
    intro start bytes k l hl
    rw [OrdMap.find?_modify]
    split
    · rw [hl]
      rfl
    · rfl
  rw [SegmentedLog.append]
  split
  · rename_i hlong
    exact hE hlong
  · rw [wp_bind, wp_getMem]
    split
    · -- a rotation opens the file of the index
      simp only [SegmentedLog.rotate, wp_bind, wp_step, wp_modifyMem, wp_getMem]
      refine ⟨trivial, trivial, hQ _ _ ⟨index, [], ?_, fun k => ?_, rfl⟩⟩
      · cases hf : dir.find? index with
        | none => rfl
        | some bytes => exact h.fresh bytes hf
      · have hopened : (if dir.contains index then dir else dir.insert index []).find? index =
            some [] := by
          split
          · rename_i hc
            obtain ⟨bytes, hf⟩ := OrdMap.contains_eq_true_iff.mp hc
            rw [hf, h.fresh bytes hf]
          · exact OrdMap.find?_insert_self dir index []
        refine (hfile index [] k _ hopened).trans ?_
        by_cases hk : k = index
        · simp only [hk, if_true]
        · simp only [hk, if_false]
          split
          · rfl
          · exact OrdMap.find?_insert_ne hk
    · rename_i hno
      simp only [wp_bind, wp_getMem]
      cases ha : log.active with
      | none => simp [SegmentedLog.needsRotation, ha] at hno
      | some a =>
        obtain ⟨bytes, hbytes, hlen⟩ := h.active a ha
        refine ⟨trivial, hQ _ _ ⟨a.start, bytes, by rw [hbytes]; rfl, fun k => ?_, by rw [hlen]⟩⟩
        exact hfile a.start bytes k dir hbytes

/-- The states of runs are well formed. -/
theorem Running.wellFormed {cmds : Nat → Proto.Command} {top : Nat} (h : Running cmds top d m) :
    Catalog.WellFormed d m := by
  obtain ⟨a, l, es, hd, segs, hs, hmem, _, _⟩ := h.disk
  refine ⟨fun n e hf => (h.exact.sound.entry n e hf).uuid,
    fun n e hf => (h.exact.sound.entry n e hf).schema, fun x hx => ?_, fun bytes hf => ?_⟩
  · rw [hmem.active, Option.map_eq_some_iff] at hx
    obtain ⟨s, hlast, rfl⟩ := hx
    exact ⟨s.bytes, hs.rep.find? (List.mem_of_getLast? hlast), rfl⟩
  · rw [OrdMap.find?_eq_some_iff, hs.rep.files] at hf
    obtain ⟨s, hmem, hkey⟩ := List.mem_map.mp hf
    obtain ⟨hstart, rfl⟩ : s.start = m.seq + 1 ∧ s.bytes = bytes := by simpa using hkey
    have hstop := hs.stop_le (h.room.mono h.le) h.le hmem
    have hnil : s.payloads = [] := by
      rw [Seg.stop] at hstop
      exact List.length_eq_zero_iff.mp (by omega)
    rw [Seg.bytes, hnil]
    rfl

/-- What an acknowledged upsert has done. -/
structure Upsertion (name id : String) (source : Bytes) (d : Disk) (m : Catalog) (up : Upserted)
    (d' : Disk) (m' : Catalog) : Prop where
  buffered : ∃ e parsed object values, m.collections.find? name = some e ∧
    fromSlice source = .ok parsed ∧ e.collection.mapping.validateDocument parsed = .ok () ∧
    parsed.asObject = some object ∧ e.collection.mapping.Indexes object values ∧
    up = ⟨id, !e.collection.idExists id⟩ ∧
    m' = { m with
      seq := m.seq + 1
      wal := m'.wal
      collections := m.collections.insert name { e with
        collection := e.collection.buffer [.deleteTerm id, .addDocument ⟨id, source, values⟩] } }
  logged : WalGained d.wal m.wal (m.seq + 1)
    (Ext.walEntry.encode ⟨m.seq + 1, some ⟨some (.indexDocument ⟨name, id, source⟩)⟩⟩) d'.wal m'.wal
  disk : d' = { d with wal := d'.wal }

theorem validateMembers_error {x : Mapping} {l : List (String × Value)} {e : Error}
    (h : validateMembers x l = .error e) : ∃ msg, e = .validation msg := by
  induction l with
  | nil => contradiction
  | cons p l ih =>
    rw [validateMembers] at h
    split at h
    · exact ⟨_, (Except.error.inj h).symm⟩
    · split at h
      · exact ih h
      · exact ⟨_, (Except.error.inj h).symm⟩

/-- A document is refused with a validation error. -/
theorem Mapping.validateDocument_error (x : Mapping) {parsed : Value} {e : Error}
    (h : x.validateDocument parsed = .error e) : ∃ msg, e = .validation msg := by
  rw [validateDocument] at h
  split at h
  · exact ⟨_, (Except.error.inj h).symm⟩
  · exact validateMembers_error h

theorem Catalog.parseDocument_cases (x : Mapping) (source : Bytes) :
    (∃ msg, parseDocument x source = .error (.validation msg)) ∨
      ∃ parsed, parseDocument x source = .ok parsed ∧ fromSlice source = .ok parsed ∧
        x.validateDocument parsed = .ok () := by
  rw [parseDocument]
  cases hj : fromSlice source with
  | error e => exact .inl ⟨_, rfl⟩
  | ok parsed =>
    cases hv : x.validateDocument parsed with
    | ok u => exact .inr ⟨parsed, by simp only [hv], rfl, hv⟩
    | error e =>
      obtain ⟨msg, rfl⟩ := x.validateDocument_error hv
      exact .inl ⟨msg, by simp only [hv]⟩

theorem Catalog.WellFormed.wp_upsertDocument (h : WellFormed d m) (name : String)
    (id : Option String) (source : Bytes) (minted : Uuid) :
    wp (upsertDocument name id source minted)
      (fun up d' m' => Upsertion name (orNewId id minted) source d m up d' m')
      (fun err d' m' => ((err = .collectionNotFound name ∨ ∃ msg, err = .validation msg) ∧
        d' = d ∧ m' = m) ∨ err = .recovery "log record exceeds u32 length")
      (fun _ => True) d m := by
  rw [upsertDocument, wp_bind, get, wp_bind, wp_getMem]
  cases hf : m.collections.find? name with
  | none => exact .inl ⟨.inl rfl, rfl, rfl⟩
  | some e =>
    rw [wp_pure, wp_bind]
    rcases parseDocument_cases e.collection.mapping source with ⟨msg, hp⟩ | ⟨parsed, hp, hj, hv⟩
    · rw [hp]
      exact .inl ⟨.inr ⟨msg, rfl⟩, rfl, rfl⟩
    · obtain ⟨object, values, ho, hbuild, hindexes⟩ :=
        buildDoc_exact (orNewId id minted) source hv
      rw [hp, wp_ofExcept_ok]
      simp only [logUpsert, nextSeq, wp_bind, wp_modifyMem, wp_getMem, wp_pure]
      refine wp_onWal _ (wp_append_gained h.log (fun _ => .inr rfl) fun dir' log' hgain => ?_)
      -- the handle is that of the entry, which the append has not touched
      have hderef : ({ m with seq := m.seq + 1, wal := log' } : Catalog).deref name e.collection =
          e.collection := by
        rw [deref, hf]
        simp only [h.uuid name e hf, if_true]
      simp only [applyUpsert, wp_bind, wp_getMem]
      rw [← h.schema name e hf] at hbuild
      rw [hderef, Collection.applyUpsert, hbuild]
      simp only [wp_ofExcept_ok, wp_modifyMem, wp_pure]
      refine ⟨⟨e, parsed, object, values, hf, hj, hv, ho, hindexes, rfl, ?_⟩, hgain, rfl⟩
      rw [store, OrdMap.modify_of_find?_some _ hf]
      simp only [h.uuid name e hf, if_true, Collection.buffer]

/-- **Validation decides an upsert.**  A document the mapping accepts is built, with
its id, its raw source and one typed value for each member whose field is indexed or
fast.  So an upsert that is rejected leaves the catalog and the disk as they were, and
one that is acknowledged has appended one record and buffered the replacement. -/
theorem upsert_is_all_or_nothing :
    (∀ (x : Mapping) (id : String) (source : Bytes) (parsed : Value),
      x.validateDocument parsed = .ok () → ∃ object values, parsed.asObject = some object ∧
        buildDoc x.toSchema x id source parsed = .ok ⟨id, source, values⟩ ∧
        x.Indexes object values) ∧
    ∀ (d : Disk) (m : Catalog), Catalog.WellFormed d m →
      ∀ (name : String) (id : Option String) (source : Bytes) (minted : Uuid) (d' : Disk)
        (m' : Catalog),
      (∀ err, (Catalog.upsertDocument name id source minted).run d m = (.error err, d', m') →
        ((err = .collectionNotFound name ∨ ∃ msg, err = .validation msg) ∧ d' = d ∧ m' = m) ∨
          err = .recovery "log record exceeds u32 length") ∧
      ∀ up, (Catalog.upsertDocument name id source minted).run d m = (.ok up, d', m') →
        Upsertion name (Catalog.orNewId id minted) source d m up d' m' :=
  ⟨fun _ id source _ h => buildDoc_exact id source h, fun _ _ h name id source minted _ _ =>
    ⟨fun _ hrun => error_of_wp (h.wp_upsertDocument name id source minted) hrun,
      fun _ hrun => post_of_wp (h.wp_upsertDocument name id source minted) hrun⟩⟩

end

section
open Reference

theorem createdWord_run (safe : Disk → Prop) :
    StandaloneRun safe createdWord.1 (some createdWord.2)
      ((Op.create "a" wordMapping).apply (exampleUuid 1) fun _ => none) [exampleUuid 1] :=
  .acknowledged (.create "a" wordMapping) (exampleUuid 1)
    (.opened .stored .start (Prod.ext (by decide +kernel) rfl)) (by decide)
    (Prod.ext (by decide +kernel) rfl)

/-- A document whose text field is indexed. -/
theorem upsert_is_all_or_nothing_word :
    ∃ up d' m', (Catalog.upsertDocument "a" (some "x") wordObject (exampleUuid 2)).run createdWord.1
        createdWord.2 = (.ok up, d', m') ∧
      Upsertion "a" "x" wordObject createdWord.1 createdWord.2 up d' m' := by
  obtain ⟨cmds, top, hrunning, _⟩ :=
    (createdWord_run fun _ => False).inv fun _ _ _ _ _ _ _ _ hf => hf.elim
  have hup : (Catalog.upsertDocument "a" (some "x") wordObject (exampleUuid 2)).run createdWord.1
      createdWord.2 = (.ok ⟨"x", true⟩, (after (Catalog.upsertDocument "a" (some "x") wordObject
        (exampleUuid 2)) createdWord).1, _) := Prod.ext (by decide +kernel) rfl
  exact ⟨_, _, _, hup, (upsert_is_all_or_nothing.2 createdWord.1 createdWord.2 hrunning.wellFormed
    "a" (some "x") wordObject (exampleUuid 2) _ _).2 _ hup⟩

end

end Lumen
