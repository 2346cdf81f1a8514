import Lumen.Catalog
import Lumen.Mapping.Codec
import Lumen.Reference

/-!
# Lumen.Mapping.Schema

`Mapping::to_schema` against the preconditions of Tantivy's schema builder: a field
name is not empty, does not begin with a dash and is not there yet.

`validate_field` does not look for the dash.  `schema_realises_mapping` says which
mappings the builder takes; for those the schema has what was asked for, and
creating a collection is what `Catalog.createCollection` says.
-/

namespace Lumen

open Lib Prog

/-! ## the builder -/

/-- Tantivy's `is_valid_field_name`. -/
def isValidFieldName (name : String) : Bool := name ≠ "" && name.toList.head? ≠ some '-'

namespace Schema

/-- `SchemaBuilder::add_field`, with its assertion and its panic. -/
def addField (builder : Schema) (entry : FieldEntry) : Except Error Schema :=
  if !isValidFieldName entry.name then
    .error (.panicked "assertion failed: is_valid_field_name(&field_name)")
  else if (builder.getField entry.name).isSome then
    .error (.panicked ("Field already exists in schema " ++ entry.name))
  else .ok (builder ++ [entry])

/-- Add fields one after the other. -/
def addFields (builder : Schema) : List FieldEntry → Except Error Schema
  | [] => .ok builder
  | entry :: rest =>
    match builder.addField entry with
    | .ok builder => addFields builder rest
    | .error e => .error e

end Schema

/-- The loop of `to_schema`: fields without a role are passed over. -/
def addMapped (builder : Schema) : List (String × FieldSpec) → Except Error Schema
  | [] => .ok builder
  | (name, spec) :: rest =>
    if !spec.indexed && !spec.fast then addMapped builder rest
    else
      match builder.addField ⟨name, fieldOptions spec⟩ with
      | .ok builder => addMapped builder rest
      | .error e => .error e

/-- `Mapping::to_schema`, with what Tantivy's builder may answer. -/
def Mapping.buildSchema (m : Mapping) : Except Error Schema :=
  match Schema.addFields [] systemFields with
  | .ok builder => addMapped builder m.fields.toList
  | .error e => .error e

/-- `Collection::create`, with what Tantivy's builder may answer: the directory is
there by then. -/
def Catalog.createCollectionWith (uuid : Uuid) (mapping : Mapping) : CatalogM Collection := do
  let d ← getDisk
  if d.dirs.contains uuid then Prog.throw (.io .alreadyExists)
  else do
    step fun d => d.setDir uuid .empty
    let schema ← ofExcept mapping.buildSchema
    step fun d => d.setDir uuid .files
    step fun d => d.setDir uuid (.index ⟨schema, [], none⟩)
    pure (.fromIndex uuid mapping ⟨schema, [], none⟩)

/-! ## roles -/

namespace FieldOptions

def indexed : FieldOptions → Bool
  | str indexing _ _ => indexing.isSome
  | bytes _ => false
  | i64 indexed _ => indexed
  | f64 indexed _ => indexed
  | date indexed _ => indexed

def fast : FieldOptions → Bool
  | str _ fast _ => fast.isSome
  | bytes _ => false
  | i64 _ fast => fast
  | f64 _ fast => fast
  | date _ fast => fast

/-- The Tantivy type of a mapped field. -/
def hasType : FieldOptions → FieldType → Bool
  | str _ _ _, .text => true
  | str _ _ _, .keyword => true
  | i64 _ _, .i64 => true
  | f64 _ _, .f64 => true
  | date _ _, .date => true
  | _, _ => false

end FieldOptions

/-- A schema with the system fields and, for each field that is indexed or fast, a
field of its type in exactly these roles; no name is there twice. -/
structure Mapping.RealisedBy (m : Mapping) (schema : Schema) : Prop where
  system : systemFields <+: schema
  names : (schema.map FieldEntry.name).Nodup
  user : ∀ name, name ∈ (schema.drop systemFields.length).map FieldEntry.name ↔
    ∃ spec, m.field name = some spec ∧ (spec.indexed = true ∨ spec.fast = true)
  roles : ∀ e ∈ schema.drop systemFields.length, ∃ spec, m.field e.name = some spec ∧
    e.options.hasType spec.ty = true ∧ e.options.indexed = spec.indexed ∧
    e.options.fast = spec.fast

/-- No field that is indexed or fast has a name that begins with a dash. -/
def Mapping.NoDash (m : Mapping) : Prop :=
  ∀ name spec, m.field name = some spec → spec.indexed = true ∨ spec.fast = true →
    name.toList.head? ≠ some '-'

/-! ## what the builder takes -/

theorem Schema.getField_isSome_iff {s : Schema} {name : String} :
    (s.getField name).isSome ↔ name ∈ s.map FieldEntry.name := by
  simp [Schema.getField, List.find?_isSome, List.mem_map]

theorem Schema.addField_eq_ok_iff {builder schema : Schema} {e : FieldEntry} :
    builder.addField e = .ok schema ↔ isValidFieldName e.name = true ∧
      e.name ∉ builder.map FieldEntry.name ∧ schema = builder ++ [e] := by
  rw [addField, ← getField_isSome_iff]
  by_cases hvalid : isValidFieldName e.name = true
  · by_cases hthere : (builder.getField e.name).isSome = true
    · simp [hvalid, hthere]
    · simp [hvalid, hthere, eq_comm]
  · simp [hvalid]

/-- The builder takes fields with valid names that differ. -/
theorem Schema.addFields_eq_ok_iff {builder schema : Schema} {l : List FieldEntry} :
    builder.addFields l = .ok schema ↔ schema = builder ++ l ∧
      (∀ e ∈ l, isValidFieldName e.name = true) ∧
      (∀ e ∈ l, e.name ∉ builder.map FieldEntry.name) ∧ (l.map FieldEntry.name).Nodup := by
  induction l generalizing builder with
  | nil =>
    rw [addFields, Except.ok.injEq, List.append_nil]
    exact ⟨fun h => ⟨h.symm, by simp⟩, fun h => h.1.symm⟩
  | cons e l ih =>
    rw [addFields, List.forall_mem_cons, List.forall_mem_cons, List.map_cons, List.nodup_cons]
    constructor
    · intro h
      split at h
      · rename_i b hb
        obtain ⟨hvalid, hnew, rfl⟩ := addField_eq_ok_iff.mp hb
        obtain ⟨rfl, hvalids, hnews, hnodup⟩ := ih.mp h
        simp only [List.map_append, List.map_cons, List.map_nil, List.mem_append,
          List.mem_singleton, not_or] at hnews
        refine ⟨List.append_assoc _ _ _, ⟨hvalid, hvalids⟩, ⟨hnew, fun g hg => (hnews g hg).1⟩,
          fun he => ?_, hnodup⟩
        obtain ⟨g, hg, heq⟩ := List.mem_map.mp he
        exact (hnews g hg).2 heq
      · contradiction
    · rintro ⟨rfl, ⟨hvalid, hvalids⟩, ⟨hnew, hnews⟩, he, hnodup⟩
      rw [addField_eq_ok_iff.mpr ⟨hvalid, hnew, rfl⟩]
      refine ih.mpr ⟨by simp, hvalids, fun g hg => ?_, hnodup⟩
      simp only [List.map_append, List.map_cons, List.map_nil, List.mem_append,
        List.mem_singleton, not_or]
      exact ⟨hnews g hg, fun heq => he (heq ▸ List.mem_map_of_mem hg)⟩

theorem addMapped_eq (builder : Schema) (l : List (String × FieldSpec)) :
    addMapped builder l = builder.addFields (userFields l) := by
  induction l generalizing builder with
  | nil => rfl
  | cons p l ih =>
    obtain ⟨name, spec⟩ := p
    rw [addMapped, userFields, List.filter_cons]
    by_cases hrole : (spec.indexed || spec.fast) = true
    · have hnot : ¬ (!spec.indexed && !spec.fast) = true := by
        rw [← Bool.not_or, hrole]
        decide
      rw [if_neg hnot, if_pos hrole, List.map_cons, Schema.addFields]
      cases builder.addField ⟨name, fieldOptions spec⟩ with
      | ok builder => exact ih builder
      | error e => rfl
    · have hnot : (!spec.indexed && !spec.fast) = true := by simpa using hrole
      rw [if_pos hnot, if_neg hrole]
      exact ih builder

theorem mem_userFields {l : List (String × FieldSpec)} {e : FieldEntry} :
    e ∈ userFields l ↔ ∃ p ∈ l, (p.2.indexed = true ∨ p.2.fast = true) ∧
      e = ⟨p.1, fieldOptions p.2⟩ := by
  simp only [userFields, List.mem_map, List.mem_filter, Bool.or_eq_true]
  exact ⟨fun ⟨p, ⟨hp, hrole⟩, he⟩ => ⟨p, hp, hrole, he.symm⟩,
    fun ⟨p, hp, hrole, he⟩ => ⟨p, ⟨hp, hrole⟩, he.symm⟩⟩

namespace Mapping

variable {m : Mapping}

/-- The user fields of the schema, by name. -/
theorem mem_userFields_iff {e : FieldEntry} :
    e ∈ userFields m.fields.toList ↔ ∃ spec, m.field e.name = some spec ∧
      (spec.indexed = true ∨ spec.fast = true) ∧ e.options = fieldOptions spec := by
  rw [mem_userFields]
  constructor
  · rintro ⟨⟨name, spec⟩, hp, hrole, rfl⟩
    exact ⟨spec, OrdMap.find?_eq_some_iff.mpr hp, hrole, rfl⟩
  · rintro ⟨spec, hspec, hrole, heq⟩
    exact ⟨(e.name, spec), OrdMap.find?_eq_some_iff.mp hspec, hrole, by rw [← heq]⟩

theorem nodup_userFields (m : Mapping) :
    ((userFields m.fields.toList).map FieldEntry.name).Nodup := by
  rw [userFields, List.map_map]
  exact m.fields.nodup_keys.sublist (List.filter_sublist.map _)

/-- Mapped fields are no system fields. -/
theorem notMem_systemFields {name : String} {spec : FieldSpec} (h : m.field name = some spec) :
    name ∉ systemFields.map FieldEntry.name := by
  intro hmem
  obtain ⟨_, hhead, _⟩ := validateField_eq_ok_iff.mp (validateField_of_field h)
  simp only [systemFields, List.map_cons, List.map_nil, List.mem_cons, List.not_mem_nil,
    or_false] at hmem
  rcases hmem with hn | hn <;> rw [hn] at hhead <;> exact hhead (by decide)

theorem userFields_notMem_systemFields {e : FieldEntry} (he : e ∈ userFields m.fields.toList) :
    e.name ∉ systemFields.map FieldEntry.name := by
  obtain ⟨spec, hspec, _⟩ := mem_userFields_iff.mp he
  exact notMem_systemFields hspec

theorem addFields_systemFields : Schema.addFields [] systemFields = .ok systemFields := by decide

theorem buildSchema_eq_ok_iff {schema : Schema} :
    m.buildSchema = .ok schema ↔ schema = m.toSchema ∧
      ∀ e ∈ userFields m.fields.toList, isValidFieldName e.name = true := by
  rw [buildSchema, addFields_systemFields]
  simp only [addMapped_eq, Schema.addFields_eq_ok_iff]
  exact ⟨fun h => ⟨h.1, h.2.1⟩,
    fun h => ⟨h.1, h.2, fun e he => userFields_notMem_systemFields he, m.nodup_userFields⟩⟩

theorem noDash_iff :
    m.NoDash ↔ ∀ e ∈ userFields m.fields.toList, isValidFieldName e.name = true := by
  constructor
  · intro h e he
    obtain ⟨spec, hspec, hrole, _⟩ := mem_userFields_iff.mp he
    obtain ⟨hne, _, _⟩ := validateField_eq_ok_iff.mp (validateField_of_field hspec)
    simp [isValidFieldName, hne, h e.name spec hspec hrole]
  · intro h name spec hspec hrole
    have hvalid := h ⟨name, fieldOptions spec⟩ (mem_userFields_iff.mpr ⟨spec, hspec, hrole, rfl⟩)
    simp only [isValidFieldName, Bool.and_eq_true, decide_eq_true_eq] at hvalid
    exact hvalid.2

/-- The options of a field that passed validation and has a role. -/
theorem fieldOptions_roles {name : String} {spec : FieldSpec}
    (hvalid : validateField name spec = .ok ())
    (hrole : spec.indexed = true ∨ spec.fast = true) :
    (fieldOptions spec).hasType spec.ty = true ∧
      (fieldOptions spec).indexed = spec.indexed ∧ (fieldOptions spec).fast = spec.fast := by
  obtain ⟨_, _, htext⟩ := validateField_eq_ok_iff.mp hvalid
  obtain ⟨ty, indexed, fast⟩ := spec
  cases ty with
  | text =>
    -- a text field is not fast, so its role is to be indexed
    have hfast : fast = false := by simpa using htext
    have hindexed : indexed = true := by simpa [hfast] using hrole
    subst hfast hindexed
    decide
  | keyword => cases indexed <;> cases fast <;> decide
  | i64 => exact ⟨rfl, rfl, rfl⟩
  | f64 => exact ⟨rfl, rfl, rfl⟩
  | date => exact ⟨rfl, rfl, rfl⟩

/-- The schema has what the mapping asks for. -/
theorem realisedBy_toSchema (m : Mapping) : m.RealisedBy m.toSchema where
  system := List.prefix_append _ _
  names := by
    rw [toSchema, List.map_append, List.nodup_append]
    refine ⟨by decide, m.nodup_userFields, fun a ha b hb heq => ?_⟩
    obtain ⟨e, he, rfl⟩ := List.mem_map.mp hb
    exact userFields_notMem_systemFields he (heq ▸ ha)
  user := by
    intro name
    rw [toSchema, List.drop_left, List.mem_map]
    constructor
    · rintro ⟨e, he, rfl⟩
      obtain ⟨spec, hspec, hrole, _⟩ := mem_userFields_iff.mp he
      exact ⟨spec, hspec, hrole⟩
    · rintro ⟨spec, hspec, hrole⟩
      exact ⟨⟨name, fieldOptions spec⟩, mem_userFields_iff.mpr ⟨spec, hspec, hrole, rfl⟩, rfl⟩
  roles := by
    intro e he
    obtain ⟨spec, hspec, hrole, hoptions⟩ := mem_userFields_iff.mp he
    rw [hoptions]
    exact ⟨spec, hspec, fieldOptions_roles (validateField_of_field hspec) hrole⟩

/-- Where the builder takes the schema, a collection is created as
`Catalog.createCollection` says. -/
theorem createCollectionWith_eq (h : m.NoDash) (uuid : Uuid) :
    Catalog.createCollectionWith uuid m = Catalog.createCollection uuid m := by
  have hbuild : m.buildSchema = .ok m.toSchema := buildSchema_eq_ok_iff.mpr ⟨rfl, noDash_iff.mp h⟩
  rw [Catalog.createCollectionWith, Catalog.createCollection, hbuild]
  rfl

/-- **Mappings that can be realised**: `to_schema` completes with the system fields
and exactly the mapped fields that are indexed or fast, in these roles, and no create
panics, if and only if none of them has a name that begins with a dash. -/
theorem schema_realises_mapping (m : Mapping) :
    ((∃ schema, m.buildSchema = .ok schema ∧ m.RealisedBy schema) ∧
      ∀ uuid d c msg,
        ((Catalog.createCollectionWith uuid m).run d c).1 ≠ .error (.panicked msg)) ↔
      m.NoDash := by
  constructor
  · rintro ⟨⟨schema, hbuild, _⟩, _⟩
    exact noDash_iff.mpr (buildSchema_eq_ok_iff.mp hbuild).2
  · intro h
    refine ⟨⟨m.toSchema, buildSchema_eq_ok_iff.mpr ⟨rfl, noDash_iff.mp h⟩, m.realisedBy_toSchema⟩,
      fun uuid d c msg => ?_⟩
    rw [createCollectionWith_eq h]
    have hw : wp (Catalog.createCollection uuid m) (fun _ _ _ => True)
        (fun err _ _ => err = .io .alreadyExists) (fun _ => True) d c := by
      rw [Catalog.createCollection, wp_bind, wp_getDisk]
      split
      · rfl
      · exact ⟨trivial, trivial, trivial, trivial⟩
    intro herr
    have hrun := error_of_wp hw (Prod.ext herr rfl)
    contradiction

end Mapping

/-! ## a field name that begins with a dash -/

namespace Catalog
variable [Ext]

def openOrCreateWith (uuid : Uuid) (mapping : Mapping) : CatalogM Collection := do
  let d ← getDisk
  if d.dirs.contains uuid then openCollection uuid mapping else createCollectionWith uuid mapping

/-- The section of `Catalog::create` behind its checks, with what Tantivy's builder
may answer: the record is in the write-ahead log by then. -/
def logCreateWith (name : String) (mapping : Mapping) (minted : Uuid) : CatalogM Created := do
  let seq ← nextSeq
  onWal (Wal.append (walEntry seq
    (.createCollection ⟨name, fmtUuid minted, some mapping.toProto⟩)))
  let collection ← openOrCreateWith minted mapping
  modifyMem fun m => { m with collections := m.collections.insert name ⟨minted, seq, collection⟩ }
  pure ⟨collection, true⟩

end Catalog

section
open Reference

/-- One indexed keyword field, with a dash in front of its name. -/
def dashFields : OrdMap String FieldSpec := OrdMap.empty.insert "-x" ⟨.keyword, true, false⟩

def dashMapping : Mapping := ⟨dashFields, by decide⟩

theorem eq_error_of_map {α : Type} {x : Except Error α} {e : Error}
    (h : x.map (fun _ => ()) = .error e) : x = .error e := by
  cases x with
  | ok a => contradiction
  | error e' => exact congrArg Except.error (Except.error.inj h)

/-- The mapping is admitted and its create logged; then the builder panics, and the
directory does not open again. -/
theorem dash_field_panics :
    Mapping.new dashFields = .ok dashMapping ∧
      dashMapping.buildSchema =
        .error (.panicked "assertion failed: is_valid_field_name(&field_name)") ∧
      let opened := ((Catalog.openCatalog .stored).run .empty .closed).2
      let created := (Catalog.logCreateWith "a" dashMapping (exampleUuid 1)).run opened.1 opened.2
      created.1 = .error (.panicked "assertion failed: is_valid_field_name(&field_name)") ∧
        ((Catalog.openCatalog .stored).run created.2.1 .closed).1 ≠ .ok () := by
  exact ⟨Mapping.new_fields dashMapping, by decide, eq_error_of_map (by decide +kernel),
    by decide +kernel⟩

end

end Lumen
