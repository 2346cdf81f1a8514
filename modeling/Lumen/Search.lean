import Lumen.Mapping.Schema

/-!
# Lumen.Search

Queries over a collection (`search.rs`).

Of Tantivy's query language the model keeps what the core relies on: a query is
parsed against a schema with default fields, it matches documents one by one, and
the collector returns a page of one ranking of the matches.
-/

namespace Lumen

open Lib Prog

/-- Tantivy's queries. -/
class Queries where
  Query : Type
  Score : Type
  /-- `QueryParser::parse_query`, with the schema and the default fields. -/
  parseQuery : Schema → List String → String → Except String Query
  /-- Whether a query matches a document. -/
  accepts : Query → Doc → Bool
  /-- The matches in a searcher with their scores, in the order of `TopDocs`.  A score
  depends on all documents. -/
  ranking : Query → List Doc → List (Score × Doc)
  /-- The ranking has every match once. -/
  ranking_perm : ∀ query docs,
    ((ranking query docs).map Prod.snd).Perm (docs.filter (accepts query))
  /-- What `TopDocs` can collect: it allocates room for `limit + offset` hits up front. -/
  topDocsMax : Nat

/-- Whether a field is of Tantivy's type `Str`. -/
def FieldOptions.isStr : FieldOptions → Bool
  | str _ _ _ => true
  | _ => false

/-- `default_fields`: the indexed text fields but for `_id`. -/
def defaultFields (schema : Schema) : List String :=
  (schema.filter fun entry => entry.options.indexed && entry.name ≠ idField &&
    entry.options.isStr).map FieldEntry.name

section
variable [Queries]

structure SearchHit where
  id : String
  score : Queries.Score
  source : Bytes

structure SearchResults where
  hits : List SearchHit
  total : Nat

/-- The hit of a ranked document. -/
def SearchHit.ofRanked (p : Queries.Score × Doc) : SearchHit := ⟨p.2.id, p.1, p.2.source⟩

/-- `execute`, on what the reader sees. -/
def execute (schema : Schema) (searcher : List Doc) (query : String) (limit offset : Nat) :
    Except Error SearchResults :=
  match Queries.parseQuery schema (defaultFields schema) query with
  | .error e => .error (.validation ("invalid query: " ++ e))
  | .ok query =>
    let total := (searcher.filter (Queries.accepts query)).length
    if limit = 0 then .ok ⟨[], total⟩
    else
      match schema.getField idField, schema.getField sourceField with
      | none, _ => .error (.panicked "schema always has _id")
      | _, none => .error (.panicked "schema always has _source")
      | some _, some _ =>
        if Queries.topDocsMax < limit + offset then .error (.panicked "capacity overflow")
        else
          let top := ((Queries.ranking query searcher).drop offset).take limit
          .ok ⟨top.map SearchHit.ofRanked, total⟩

/-- `Collection::search`. -/
def Collection.search (c : Collection) (query : String) (limit offset : Nat) :
    Except Error SearchResults :=
  execute c.schema c.searcher query limit offset

/-- The search of an engine: the collection is looked up, then searched. -/
def Catalog.search (name query : String) (limit offset : Nat) : CatalogM SearchResults := do
  let target ← get name
  ofExcept (target.search query limit offset)

end

/-! ## default fields -/

/-- What a mapped field is to `default_fields`. -/
theorem isDefault_eq {name : String} {spec : FieldSpec} (h : validateField name spec = .ok ()) :
    (((fieldOptions spec).indexed && decide (name ≠ idField) && (fieldOptions spec).isStr) &&
      (spec.indexed || spec.fast)) = (spec.indexed && (spec.ty = .text || spec.ty = .keyword)) := by
  have hname : name ≠ idField := by
    rintro rfl
    simp [validateField, idField, startsWithUnderscore] at h
  have htext : spec.ty = .text → spec.fast = false := by
    intro hty
    simp only [validateField, hty] at h
    grind
  obtain ⟨ty, indexed, fast⟩ := spec
  cases ty <;> cases indexed <;>
    simp_all [fieldOptions, FieldOptions.indexed, FieldOptions.isStr]

/-- **Default fields**: a term without a field name is looked for in the indexed text and
keyword fields of the mapping, in the order of their names, and nowhere else. -/
theorem defaultFields_toSchema (m : Mapping) :
    defaultFields m.toSchema = (m.fields.toList.filter fun p =>
      p.2.indexed && (p.2.ty = .text || p.2.ty = .keyword)).map Prod.fst := by
  have hsystem : systemFields.filter (fun entry => entry.options.indexed &&
      decide (entry.name ≠ idField) && entry.options.isStr) = [] := by decide
  rw [defaultFields, Mapping.toSchema, List.filter_append, hsystem, List.nil_append, userFields,
    List.filter_map, List.filter_filter, List.map_map]
  refine congrArg (List.map Prod.fst) (List.filter_congr fun p hp => ?_)
  exact isDefault_eq (validateFields_ok_iff.mp m.valid p hp)

/-- Queries of one term: a star matches every document, another term those with it as an id
or as a text value.  A lone quote does not parse.  A hit takes 24 bytes of an allocation,
which has at most `isize::MAX`. -/
instance Reference.queries : Queries where
  Query := String
  Score := Nat
  parseQuery _ _ query := if query = "\"" then .error "Syntax Error" else .ok query
  accepts query doc := query = "*" || doc.id = query || doc.values.any fun p => p.2 = .text query
  ranking query docs := (docs.filter fun doc => query = "*" || doc.id = query ||
    doc.values.any fun p => p.2 = .text query).map fun doc => (1, doc)
  ranking_perm _ _ := by simp [Function.comp_def]
  topDocsMax := (2 ^ 63 - 1) / 24

end Lumen
