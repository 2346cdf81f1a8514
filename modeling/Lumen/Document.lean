import Lumen.Mapping

/-!
# Lumen.Document

Building the Tantivy document of a JSON source (`document.rs`): the system
fields `_id` and `_source`, and one typed value for each member whose field
is in the schema.

`buildDoc` repeats no validation: on a document that `validateDocument`
accepted it succeeds (`buildDoc_of_validate`), on any other it may fail or
panic, which is what makes the order of validation and logging matter.
-/

namespace Lumen

/-- A typed value of a document field. -/
inductive FieldValue where
  | text (s : String)
  | i64 (n : Int)
  | f64 (n : Number)
  | date (nanos : Int)
  deriving DecidableEq, Repr

/-- A Tantivy document: the system fields and the typed values. -/
structure Doc where
  id : String
  source : Bytes
  values : List (String × FieldValue)
  deriving DecidableEq, Repr

def typeErr (ty : FieldType) : Error :=
  .validation ("field value does not match type " ++ ty.debug)

/-- Every schema of a mapping has the system fields. -/
theorem getField_idField (m : Mapping) : ∃ e, m.toSchema.getField idField = some e :=
  ⟨⟨idField, .str (some stringIndexing) none true⟩, by
    simp [Mapping.toSchema, systemFields, Schema.getField]⟩

theorem getField_sourceField (m : Mapping) : ∃ e, m.toSchema.getField sourceField = some e :=
  ⟨⟨sourceField, .bytes true⟩, by
    simp [Mapping.toSchema, systemFields, Schema.getField, idField, sourceField]⟩

section
variable [Ext]

/-- The typed value `add_value` puts into the document.  A date is the
instant's nanoseconds cast to a signed 64-bit integer. -/
def addValue (value : Value) (ty : FieldType) : Except Error FieldValue :=
  match ty with
  | .text | .keyword =>
    match value.asStr with
    | some s => .ok (.text s)
    | none => .error (typeErr ty)
  | .i64 =>
    match value.asI64 with
    | some n => .ok (.i64 n)
    | none => .error (typeErr ty)
  | .f64 =>
    match value.asF64 with
    | some n => .ok (.f64 n)
    | none => .error (typeErr ty)
  | .date =>
    match value.asStr with
    | none => .error (typeErr ty)
    | some s =>
      match parseRfc3339 s with
      | some nanos => .ok (.date (nanos.bmod (2 ^ 64)))
      | none => .error (typeErr ty)

/-- The typed values of an object's members, skipping fields the schema does
not have. -/
def addMembers (schema : Schema) (mapping : Mapping) :
    List (String × Value) → Except Error (List (String × FieldValue))
  | [] => .ok []
  | (name, value) :: rest =>
    match schema.getField name with
    | none => addMembers schema mapping rest
    | some _ =>
      match mapping.field name with
      | none => .error (.panicked "validated: every field is mapped")
      | some spec =>
        match addValue value spec.ty with
        | .error e => .error e
        | .ok v =>
          match addMembers schema mapping rest with
          | .error e => .error e
          | .ok vs => .ok ((name, v) :: vs)

def buildDoc (schema : Schema) (mapping : Mapping) (id : String) (source : Bytes)
    (parsed : Value) : Except Error Doc :=
  match schema.getField idField, schema.getField sourceField with
  | none, _ => .error (.panicked "schema always has _id")
  | _, none => .error (.panicked "schema always has _source")
  | some _, some _ =>
    match parsed.asObject with
    | none => .error (.validation "document must be a JSON object")
    | some object =>
      match addMembers schema mapping object with
      | .error e => .error e
      | .ok values => .ok ⟨id, source, values⟩

/-! ## validation is enough -/

theorem addValue_of_valueMatches {value : Value} {ty : FieldType}
    (h : valueMatches value ty = true) : ∃ v, addValue value ty = .ok v := by
  have hstr : value.isString = true → ∃ s, value.asStr = some s := fun hs =>
    Option.isSome_iff_exists.mp (by rw [Value.isSome_asStr, hs])
  cases ty with
  | text =>
    obtain ⟨s, hs⟩ := hstr h
    exact ⟨.text s, by simp only [addValue, hs]⟩
  | keyword =>
    obtain ⟨s, hs⟩ := hstr h
    exact ⟨.text s, by simp only [addValue, hs]⟩
  | i64 =>
    obtain ⟨n, hn⟩ := Option.isSome_iff_exists.mp ((Value.isSome_asI64 value).trans h)
    exact ⟨.i64 n, by simp only [addValue, hn]⟩
  | f64 =>
    obtain ⟨n, hn⟩ := Option.isSome_iff_exists.mp ((Value.isSome_asF64 value).trans h)
    exact ⟨.f64 n, by simp only [addValue, hn]⟩
  | date =>
    simp only [valueMatches] at h
    cases hs : value.asStr with
    | none => simp [hs] at h
    | some s =>
      rw [hs] at h
      obtain ⟨n, hn⟩ := Option.isSome_iff_exists.mp h
      exact ⟨.date (n.bmod (2 ^ 64)), by simp only [addValue, hs, hn]⟩

theorem addMembers_of_validate {m : Mapping} (schema : Schema) {l : List (String × Value)}
    (h : validateMembers m l = .ok ()) : ∃ vs, addMembers schema m l = .ok vs := by
  induction l with
  | nil => exact ⟨[], rfl⟩
  | cons p l ih =>
    obtain ⟨name, value⟩ := p
    have hall := validateMembers_ok_iff.mp h
    obtain ⟨spec, hspec, hval⟩ := hall (name, value) List.mem_cons_self
    obtain ⟨vs, hvs⟩ := ih (validateMembers_ok_iff.mpr fun q hq =>
      hall q (List.mem_cons_of_mem _ hq))
    obtain ⟨v, hv⟩ := addValue_of_valueMatches hval
    rw [addMembers]
    cases schema.getField name with
    | none => exact ⟨vs, hvs⟩
    | some e => exact ⟨(name, v) :: vs, by simp only [hspec, hv, hvs]⟩

/-- **Validation is enough for indexing**: a document the mapping accepts is
built against the mapping's own schema, carrying the id and the raw source. -/
theorem buildDoc_of_validate {m : Mapping} {parsed : Value} (id : String) (source : Bytes)
    (h : m.validateDocument parsed = .ok ()) :
    ∃ values, buildDoc m.toSchema m id source parsed = .ok ⟨id, source, values⟩ := by
  obtain ⟨e₁, h₁⟩ := getField_idField m
  obtain ⟨e₂, h₂⟩ := getField_sourceField m
  unfold Mapping.validateDocument at h
  cases ho : parsed.asObject with
  | none => rw [ho] at h; contradiction
  | some object =>
    rw [ho] at h
    obtain ⟨vs, hvs⟩ := addMembers_of_validate m.toSchema h
    exact ⟨vs, by simp only [buildDoc, h₁, h₂, ho, hvs]⟩

/-- A built document carries the id and the source it was built from. -/
theorem buildDoc_eq_ok {schema : Schema} {m : Mapping} {id : String} {source : Bytes}
    {parsed : Value} {doc : Doc} (h : buildDoc schema m id source parsed = .ok doc) :
    doc.id = id ∧ doc.source = source := by
  unfold buildDoc at h
  split at h
  · contradiction
  · contradiction
  · split at h
    · contradiction
    · split at h
      · contradiction
      · injection h with h
        subst h
        exact ⟨rfl, rfl⟩

end

end Lumen
