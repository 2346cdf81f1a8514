import Lumen.Basic
import Lumen.Lib.OrdMap
import Mathlib.Data.String.Basic

/-!
# Lumen.Mapping

Explicit typed mappings (`mapping.rs`): the checks a field map must pass to
become a `Mapping`, the Tantivy schema a mapping asks for, the validation of
a document against it, and the protobuf form it takes in commands and in
`catalog.pb`.

A `Mapping` carries the proof that every field passed `validateField`, so
nothing downstream checks it again.
-/

namespace Lumen

open Lib

def idField : String := "_id"
def sourceField : String := "_source"

inductive FieldType where
  | text
  | keyword
  | i64
  | f64
  | date
  deriving DecidableEq, Repr

namespace FieldType

def asStr : FieldType → String
  | text => "text"
  | keyword => "keyword"
  | i64 => "i64"
  | f64 => "f64"
  | date => "date"

/-- `{:?}` of a field type. -/
def debug : FieldType → String
  | text => "Text"
  | keyword => "Keyword"
  | i64 => "I64"
  | f64 => "F64"
  | date => "Date"

end FieldType

structure FieldSpec where
  ty : FieldType
  indexed : Bool
  fast : Bool
  deriving DecidableEq, Repr

def startsWithUnderscore (name : String) : Bool := name.toList.head? == some '_'

def validateField (name : String) (spec : FieldSpec) : Except Error Unit :=
  if name = "" then
    .error (.mapping "field name must not be empty")
  else if startsWithUnderscore name then
    .error (.mapping ("field name " ++ name ++ " uses the reserved '_' prefix"))
  else if spec.ty = .text ∧ spec.fast then
    .error (.mapping ("text field " ++ name ++ " cannot be fast"))
  else
    .ok ()

/-- Check the fields in order, stopping at the first that fails. -/
def validateFields : List (String × FieldSpec) → Except Error Unit
  | [] => .ok ()
  | (name, spec) :: rest =>
    match validateField name spec with
    | .ok _ => validateFields rest
    | .error e => .error e

theorem validateFields_ok_iff {l : List (String × FieldSpec)} :
    validateFields l = .ok () ↔ ∀ p ∈ l, validateField p.1 p.2 = .ok () := by
  induction l with
  | nil => simp [validateFields]
  | cons p l ih =>
    obtain ⟨name, spec⟩ := p
    rw [validateFields, List.forall_mem_cons]
    cases h : validateField name spec with
    | ok u => simp [ih]
    | error e => simp

/-- A field map every field of which passed `validateField`. -/
structure Mapping where
  fields : OrdMap String FieldSpec
  valid : validateFields fields.toList = .ok ()

namespace Mapping

instance : DecidableEq Mapping := fun a b =>
  decidable_of_iff (a.fields = b.fields)
    ⟨fun h => by cases a; cases b; simpa using h, fun h => by rw [h]⟩

/-- `Mapping::new`. -/
def new (fields : OrdMap String FieldSpec) : Except Error Mapping :=
  match h : validateFields fields.toList with
  | .ok () => .ok ⟨fields, h⟩
  | .error e => .error e

theorem new_fields (m : Mapping) : new m.fields = .ok m := by
  unfold new
  split
  · rfl
  · rename_i e h
    rw [m.valid] at h
    contradiction

def field (m : Mapping) (name : String) : Option FieldSpec := m.fields.find? name

theorem validateField_of_field {m : Mapping} {name : String} {spec : FieldSpec}
    (h : m.field name = some spec) : validateField name spec = .ok () :=
  validateFields_ok_iff.mp m.valid (name, spec) (OrdMap.find?_eq_some_iff.mp h)

end Mapping

/-! ## the Tantivy schema -/

inductive IndexRecordOption where
  | basic
  | withFreqsAndPositions
  deriving DecidableEq, Repr

structure TextIndexing where
  tokenizer : String
  record : IndexRecordOption
  deriving DecidableEq, Repr

/-- The type and options of one schema field. -/
inductive FieldOptions where
  | str (indexing : Option TextIndexing) (fast : Option String) (stored : Bool)
  | bytes (stored : Bool)
  | i64 (indexed fast : Bool)
  | f64 (indexed fast : Bool)
  | date (indexed fast : Bool)
  deriving DecidableEq, Repr

structure FieldEntry where
  name : String
  options : FieldOptions
  deriving DecidableEq, Repr

/-- A schema: its fields in the order they were added. -/
abbrev Schema := List FieldEntry

def Schema.getField (s : Schema) (name : String) : Option FieldEntry :=
  s.find? (fun e => e.name = name)

/-- Tantivy's `STRING` and `TEXT` presets. -/
def stringIndexing : TextIndexing := ⟨"raw", .basic⟩
def textIndexing : TextIndexing := ⟨"default", .withFreqsAndPositions⟩

/-- The options a mapped field asks for. -/
def fieldOptions (spec : FieldSpec) : FieldOptions :=
  match spec.ty with
  | .text => .str (some textIndexing) none false
  | .keyword =>
    .str (if spec.indexed then some stringIndexing else none)
      (if spec.fast then some "raw" else none) false
  | .i64 => .i64 spec.indexed spec.fast
  | .f64 => .f64 spec.indexed spec.fast
  | .date => .date spec.indexed spec.fast

/-- The system fields every schema starts with. -/
def systemFields : Schema :=
  [⟨idField, .str (some stringIndexing) none true⟩, ⟨sourceField, .bytes true⟩]

def userFields (l : List (String × FieldSpec)) : Schema :=
  (l.filter fun p => p.2.indexed || p.2.fast).map fun p => ⟨p.1, fieldOptions p.2⟩

namespace Mapping

def toSchema (m : Mapping) : Schema := systemFields ++ userFields m.fields.toList

end Mapping

/-! ## document validation -/

section
variable [Ext]

def valueMatches (value : Value) (ty : FieldType) : Bool :=
  match ty with
  | .text | .keyword => value.isString
  | .i64 => value.isI64
  | .f64 => value.isNumber
  | .date =>
    match value.asStr with
    | some s => (parseRfc3339 s).isSome
    | none => false

/-- Check an object's members in order against the mapping. -/
def validateMembers (m : Mapping) : List (String × Value) → Except Error Unit
  | [] => .ok ()
  | (name, value) :: rest =>
    match m.field name with
    | none => .error (.validation ("unmapped field " ++ name))
    | some spec =>
      if valueMatches value spec.ty then validateMembers m rest
      else .error (.validation ("field " ++ name ++ " expected " ++ spec.ty.asStr))

namespace Mapping

def validateDocument (m : Mapping) (document : Value) : Except Error Unit :=
  match document.asObject with
  | none => .error (.validation "document must be a JSON object")
  | some object => validateMembers m object

end Mapping

theorem validateMembers_ok_iff {m : Mapping} {l : List (String × Value)} :
    validateMembers m l = .ok () ↔
      ∀ p ∈ l, ∃ spec, m.field p.1 = some spec ∧ valueMatches p.2 spec.ty = true := by
  induction l with
  | nil => simp [validateMembers]
  | cons p l ih =>
    obtain ⟨name, value⟩ := p
    rw [validateMembers, List.forall_mem_cons]
    cases hf : m.field name with
    | none => simp
    | some spec =>
      by_cases hv : valueMatches value spec.ty = true
      · simp [hv, ih]
      · simp [hv]

end

/-! ## protobuf form -/

namespace FieldType

/-- `proto::FieldType::from(ty) as i32`. -/
def toProto : FieldType → Int32
  | text => 1
  | keyword => 2
  | i64 => 3
  | f64 => 4
  | date => 5

/-- `proto::FieldType::try_from(i32)` followed by `FieldType::try_from`: the
wire integer must be a known code, and not the unspecified one. -/
def tryFrom (code : Int32) (name : String) : Except Error FieldType :=
  if code = 0 then .error (.mapping "field type unspecified")
  else if code = 1 then .ok text
  else if code = 2 then .ok keyword
  else if code = 3 then .ok i64
  else if code = 4 then .ok f64
  else if code = 5 then .ok date
  else .error (.mapping ("unknown field type " ++ toString code ++ " for field " ++ name))

theorem tryFrom_toProto (ty : FieldType) (name : String) : tryFrom ty.toProto name = .ok ty := by
  cases ty <;> rfl

end FieldType

namespace Mapping

/-- The protobuf field of one mapped field. -/
def protoField (p : String × FieldSpec) : Proto.Field :=
  { name := p.1, type := p.2.ty.toProto, indexed := p.2.indexed, fast := p.2.fast }

/-- `proto::Mapping::from`. -/
def toProto (m : Mapping) : Proto.Mapping := ⟨m.fields.toList.map protoField⟩

/-- Insert the wire fields one by one, rejecting unknown types and duplicates. -/
def decodeFields : List Proto.Field → OrdMap String FieldSpec →
    Except Error (OrdMap String FieldSpec)
  | [], acc => .ok acc
  | f :: rest, acc =>
    match FieldType.tryFrom f.type f.name with
    | .error e => .error e
    | .ok ty =>
      if acc.contains f.name then .error (.mapping ("duplicate field " ++ f.name))
      else decodeFields rest (acc.insert f.name ⟨ty, f.indexed, f.fast⟩)

/-- `Mapping::try_from(proto::Mapping)`. -/
def tryFrom (p : Proto.Mapping) : Except Error Mapping :=
  match decodeFields p.fields ∅ with
  | .error e => .error e
  | .ok fields => new fields

/-- Decoding the fields of an ordered list on top of a map whose keys all
come before it appends the list. -/
theorem decodeFields_map (l : List (String × FieldSpec)) (acc : OrdMap String FieldSpec)
    (h : (acc.toList ++ l).Pairwise (fun a b => a.1 < b.1)) :
    decodeFields (l.map protoField) acc = .ok ⟨acc.toList ++ l, h⟩ := by
  induction l generalizing acc with
  | nil =>
    rw [List.map_nil, decodeFields]
    cases acc
    simp
  | cons p l ih =>
    obtain ⟨name, spec⟩ := p
    have hlt : ∀ q ∈ acc.toList, q.1 < name := fun q hq =>
      (List.pairwise_append.mp h).2.2 q hq (name, spec) List.mem_cons_self
    have hno : acc.contains name = false := by
      rw [OrdMap.contains, Option.isSome_eq_false_iff, Option.isNone_iff_eq_none]
      cases hf : acc.find? name with
      | none => rfl
      | some v => exact absurd (hlt _ (OrdMap.find?_eq_some_iff.mp hf)) (lt_irrefl name)
    have happ : (acc.insert name spec).toList = acc.toList ++ [(name, spec)] :=
      OrdMap.toList_insert_of_lt hlt
    have h' : ((acc.insert name spec).toList ++ l).Pairwise (fun a b => a.1 < b.1) := by
      rw [happ, List.append_assoc]
      exact h
    have hty : FieldType.tryFrom (protoField (name, spec)).type (protoField (name, spec)).name =
        .ok spec.ty := FieldType.tryFrom_toProto spec.ty name
    have hl : (acc.insert name spec).toList ++ l = acc.toList ++ (name, spec) :: l := by
      rw [happ, List.append_assoc]
      rfl
    rw [List.map_cons, decodeFields, hty]
    show (if acc.contains name then _ else decodeFields _ (acc.insert name spec)) = _
    rw [hno, if_neg Bool.false_ne_true, ih (acc.insert name spec) h']
    simp only [hl]

/-- **Mapping codec round trip**: a mapping decodes from its own protobuf
form. -/
@[simp] theorem tryFrom_toProto (m : Mapping) : tryFrom m.toProto = .ok m := by
  have h := decodeFields_map m.fields.toList ∅ (by simpa using m.fields.sorted)
  rw [tryFrom, toProto, h]
  exact new_fields m

end Mapping

end Lumen
