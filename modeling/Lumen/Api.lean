import Lumen.Search

/-!
# Lumen.Api

The HTTP layer (`handlers.rs`, `engine.rs` and `error.rs` of the API crate): requests,
the handlers that turn them into calls of an engine, and the responses, errors
included.

A request is what the router has taken from the URL, the query string and the body.  A
response body is the data that is serialised to JSON.
-/

namespace Lumen

open Lib Prog

/-! ## responses -/

/-- The status codes the handlers answer with. -/
inductive StatusCode where
  | ok
  | created
  | noContent
  | temporaryRedirect
  | badRequest
  | notFound
  | conflict
  | internalServerError
  | serviceUnavailable
  deriving DecidableEq, Repr

namespace StatusCode

def toNat : StatusCode → Nat
  | ok => 200
  | created => 201
  | noContent => 204
  | temporaryRedirect => 307
  | badRequest => 400
  | notFound => 404
  | conflict => 409
  | internalServerError => 500
  | serviceUnavailable => 503

/-- `StatusCode::is_server_error`. -/
def isServerError (s : StatusCode) : Bool := 500 ≤ s.toNat && s.toNat < 600

end StatusCode

/-- Whether a document was there before, as the response says it. -/
inductive WriteResult where
  | created
  | updated
  deriving DecidableEq, Repr

section
variable [Queries]

structure Hit where
  id : String
  score : Queries.Score
  source : Value

/-- What a response carries. -/
inductive Body where
  | empty
  | error (kind message : String)
  | mapping (mapping : Mapping)
  | collections (names : List String)
  | index (id : String) (result : WriteResult)
  | document (id : String) (source : Value)
  | search (hits : List Hit) (total tookMs : Nat)

structure HttpResponse where
  status : StatusCode
  body : Body
  location : Option String := none

end

/-! ## errors -/

/-- `ApiError`. -/
inductive ApiError where
  | core (error : Error)
  | mapping (message : String)
  | forwardToLeader (addr : String)
  | unavailable
  | alreadyInitialized
  | internal
  deriving DecidableEq, Repr

/-- `HeaderValue::from_str` takes no control characters but the tab. -/
def isHeaderValue (s : String) : Bool :=
  s.toUTF8.toList.all fun b => 32 ≤ b && b ≠ 127 || b = 9

section
variable [Queries]

/-- `body`. -/
def errorBody (status : StatusCode) (kind message : String) : HttpResponse :=
  ⟨status, .error kind message, none⟩

/-- `internal`. -/
def internalError : HttpResponse := errorBody .internalServerError "internal" "internal error"

/-- `forward_to_leader`. -/
def forwardToLeader (addr : String) : HttpResponse :=
  { errorBody .temporaryRedirect "forward_to_leader" ("leader at " ++ addr) with
    location := if isHeaderValue addr then some addr else none }

/-- `ApiError::into_response`. -/
def ApiError.intoResponse : ApiError → HttpResponse
  | .mapping message => errorBody .badRequest "mapping" message
  | .forwardToLeader addr => Lumen.forwardToLeader addr
  | .unavailable => errorBody .serviceUnavailable "unavailable" "no leader available"
  | .alreadyInitialized => errorBody .conflict "already_initialized" "cluster already initialized"
  | .internal => internalError
  | .core (.collectionNotFound name) =>
    errorBody .notFound "collection_not_found" ("collection not found: " ++ name)
  | .core (.documentNotFound id) =>
    errorBody .notFound "document_not_found" ("document not found: " ++ id)
  | .core (.schemaConflict name) =>
    errorBody .conflict "schema_conflict" ("schema conflict for collection " ++ name ++
      ": existing mapping differs from requested")
  | .core (.validation msg) =>
    errorBody .badRequest "validation" ("document validation failed: " ++ msg)
  | .core (.mapping msg) => errorBody .badRequest "mapping" ("invalid mapping: " ++ msg)
  -- the text of these goes to the log, not to the client
  | .core (.recovery _) | .core (.io _) | .core (.tantivy _) | .core (.panicked _) => internalError

/-- The response of a handler. -/
def respond : Except ApiError HttpResponse → HttpResponse
  | .ok response => response
  | .error e => e.intoResponse

/-! ## engines -/

structure CreateOutcome where
  mapping : Mapping
  created : Bool

structure WriteOutcome where
  id : String
  created : Bool

/-- The operations the handlers need. -/
structure Engine (δ μ : Type) where
  createCollection : String → Mapping → Prog δ μ ApiError CreateOutcome
  dropCollection : String → Prog δ μ ApiError Unit
  index : String → Option String → Bytes → Prog δ μ ApiError WriteOutcome
  delete : String → String → Prog δ μ ApiError Unit
  getDocument : String → String → Prog δ μ ApiError Bytes
  search : String → String → Nat → Nat → Prog δ μ ApiError SearchResults
  list : Prog δ μ ApiError (List String)
  describe : String → Prog δ μ ApiError Mapping

end

/-- `Catalog::describe`. -/
def Catalog.describe (name : String) : CatalogM Mapping := do
  let target ← get name
  pure target.mapping

namespace StandaloneEngine

/-- What the caller of `run` gets for an error of the task: a panic is not told apart. -/
def taskError : Error → ApiError
  | .panicked _ => .internal
  | e => .core e

/-- `run`: the call on a blocking thread. -/
def run {α : Type} (f : CatalogM α) : Prog Disk Catalog ApiError α := f.mapError taskError

end StandaloneEngine

section
variable [Ext] [Queries]

/-- `StandaloneEngine`; `minted` is the identity a call draws. -/
def standaloneEngine (minted : Uuid) : Engine Disk Catalog where
  createCollection name mapping := do
    let created ← StandaloneEngine.run (Catalog.create name mapping minted)
    pure ⟨created.collection.mapping, created.created⟩
  dropCollection name := StandaloneEngine.run (Catalog.dropCollection name)
  index name id source := do
    let upserted ← StandaloneEngine.run (Catalog.upsertDocument name id source minted)
    pure ⟨upserted.id, upserted.created⟩
  delete name id := do
    let _ ← StandaloneEngine.run (Catalog.deleteDocument name id)
    pure ()
  getDocument name id := StandaloneEngine.run (Catalog.getDocument name id)
  search name query limit offset :=
    StandaloneEngine.run (Catalog.search name query limit offset)
  list := StandaloneEngine.run Catalog.list
  describe name := StandaloneEngine.run (Catalog.describe name)

end

/-! ## handlers -/

/-- `serde_json` on the types of the API. -/
class Serde where
  /-- `serde_json::from_slice::<Mapping>`. -/
  mappingFromSlice : Bytes → Except String Mapping

structure SearchParams where
  q : String := ""
  limit : Option Nat := none
  offset : Option Nat := none
  deriving DecidableEq, Repr

def defaultLimit : Nat := 10

section
variable [Ext] [Queries]

/-- `parse_source`. -/
def parseSource (bytes : Bytes) : Except ApiError Value :=
  match fromSlice bytes with
  | .ok v => .ok v
  | .error _ => .error .internal

/-- The hits of a response, up to the first source that is not JSON. -/
def parseHits : List SearchHit → Except ApiError (List Hit)
  | [] => .ok []
  | hit :: rest =>
    match parseSource hit.source with
    | .error e => .error e
    | .ok source =>
      match parseHits rest with
      | .error e => .error e
      | .ok hits => .ok (⟨hit.id, hit.score, source⟩ :: hits)

/-- `index_response`. -/
def indexResponse (id : String) (created : Bool) : Body :=
  .index id (if created then .created else .updated)

/-- `search_response`. -/
def searchResponse (results : SearchResults) (tookMs : Nat) : Except ApiError Body :=
  match parseHits results.hits with
  | .error e => .error e
  | .ok hits => .ok (.search hits results.total tookMs)

/-- The status of a write that may have created something. -/
def createdStatus (created : Bool) : StatusCode := if created then .created else .ok

namespace Handlers

variable {δ μ : Type} (engine : Engine δ μ)

def createCollection [Serde] (name : String) (body : Bytes) :
    Prog δ μ ApiError HttpResponse := do
  let mapping ← ofExcept ((Serde.mappingFromSlice body).mapError .mapping)
  let outcome ← engine.createCollection name mapping
  pure ⟨createdStatus outcome.created, .mapping outcome.mapping, none⟩

def listCollections : Prog δ μ ApiError HttpResponse := do
  let names ← engine.list
  pure ⟨.ok, .collections names, none⟩

def describeCollection (name : String) : Prog δ μ ApiError HttpResponse := do
  let mapping ← engine.describe name
  pure ⟨.ok, .mapping mapping, none⟩

def dropCollection (name : String) : Prog δ μ ApiError HttpResponse := do
  engine.dropCollection name
  pure ⟨.noContent, .empty, none⟩

/-- A document without an identifier of its own is always reported as created. -/
def indexDocument (name : String) (body : Bytes) : Prog δ μ ApiError HttpResponse := do
  let outcome ← engine.index name none body
  pure ⟨.created, indexResponse outcome.id true, none⟩

def putDocument (name id : String) (body : Bytes) : Prog δ μ ApiError HttpResponse := do
  let outcome ← engine.index name (some id) body
  pure ⟨createdStatus outcome.created, indexResponse outcome.id outcome.created, none⟩

def getDocument (name id : String) : Prog δ μ ApiError HttpResponse := do
  let source ← engine.getDocument name id
  let value ← ofExcept (parseSource source)
  pure ⟨.ok, .document id value, none⟩

def deleteDocument (name id : String) : Prog δ μ ApiError HttpResponse := do
  engine.delete name id
  pure ⟨.noContent, .empty, none⟩

/-- `search_documents`; `tookMs` is the time the search has taken. -/
def searchDocuments (name : String) (params : SearchParams) (tookMs : Nat) :
    Prog δ μ ApiError HttpResponse := do
  let results ← engine.search name params.q (params.limit.getD defaultLimit)
    (params.offset.getD 0)
  let body ← ofExcept (searchResponse results tookMs)
  pure ⟨.ok, body, none⟩

end Handlers

end

/-! ## routes -/

/-- The requests of `app_routes`. -/
inductive HttpRequest where
  | createCollection (name : String) (body : Bytes)
  | listCollections
  | describeCollection (name : String)
  | dropCollection (name : String)
  | indexDocument (name : String) (body : Bytes)
  | putDocument (name id : String) (body : Bytes)
  | getDocument (name id : String)
  | deleteDocument (name id : String)
  | searchDocuments (name : String) (params : SearchParams) (tookMs : Nat)
  deriving DecidableEq, Repr

namespace HttpRequest

section
variable [Ext] [Queries] [Serde] {δ μ : Type}

def handler (engine : Engine δ μ) : HttpRequest → Prog δ μ ApiError HttpResponse
  | createCollection name body => Handlers.createCollection engine name body
  | listCollections => Handlers.listCollections engine
  | describeCollection name => Handlers.describeCollection engine name
  | dropCollection name => Handlers.dropCollection engine name
  | indexDocument name body => Handlers.indexDocument engine name body
  | putDocument name id body => Handlers.putDocument engine name id body
  | getDocument name id => Handlers.getDocument engine name id
  | deleteDocument name id => Handlers.deleteDocument engine name id
  | searchDocuments name params tookMs => Handlers.searchDocuments engine name params tookMs

end

end HttpRequest

end Lumen
