import Lumen.Api
import Lumen.Lib.Simulates
import Lumen.Standalone.Recovery

/-!
# Lumen.Api.Database

What a server is for: a database without files, logs or indexes.

A database has the documents that were acknowledged (`held`) and those that reads show
(`shown`).  A collection is there for both at once; a document is shown from the next
checkpoint or restart on.  It is an engine like any other (`databaseEngine`), so the
handlers run on it as they run on a catalog, and the traces of a database
(`DatabaseRun`) are what a server is compared with.

The order in which a search goes through the documents is not fixed: an engine is
given one (`Database.Lists`).
-/

namespace Lumen

open Lib Prog

structure Database where
  held : Spec
  shown : Spec

section
variable [Ext]

/-- What an acknowledged operation does to reads: documents wait for a checkpoint. -/
def Op.reveal (minted : Uuid) (op : Op) (s : Spec) : Spec :=
  match op with
  | .create _ _ | .drop _ => op.apply minted s
  | .upsert _ _ _ | .delete _ _ => s

end

namespace Database

def empty : Database := ⟨fun _ => none, fun _ => none⟩

/-- A checkpoint or a restart: reads show what was acknowledged. -/
def settle (db : Database) : Database := ⟨db.held, db.held⟩

/-- The source that reads show for an id. -/
def visible (db : Database) (name id : String) : Option Bytes := db.shown.source name id

def write [Ext] (minted : Uuid) (op : Op) (db : Database) : Database :=
  ⟨op.apply minted db.held, op.reveal minted db.shown⟩

/-- The collections in the order of their names, and for each the shown documents in some
order. -/
structure Lists (db : Database) (names : List String) (docs : String → List Doc) : Prop where
  sorted : names.Pairwise (· < ·)
  mem : ∀ name, name ∈ names ↔ (db.held name).isSome
  ids : ∀ name, (db.held name).isSome → ((docs name).map Doc.id).Nodup
  view : ∀ name, (db.held name).isSome → view (docs name) = db.visible name

def get (name : String) : Prog Unit Database ApiError Mapping := do
  let db ← getMem
  match db.held name with
  | some c => pure c.1
  | none => Prog.throw (.core (.collectionNotFound name))

end Database

section
variable [Ext] [Queries]

open Database in
/-- A database as an engine. -/
def databaseEngine (names : List String) (docs : String → List Doc) (minted : Uuid) :
    Engine Unit Database where
  createCollection name mapping := do
    ofExcept ((Catalog.validateName name).mapError .core)
    let db ← getMem
    match db.held name with
    | some c =>
      if c.1 = mapping then pure ⟨mapping, false⟩
      else Prog.throw (.core (.schemaConflict name))
    | none => do
      modifyMem (write minted (.create name mapping))
      pure ⟨mapping, true⟩
  dropCollection name := do
    let _ ← get name
    modifyMem (write minted (.drop name))
  index name id source := do
    let mapping ← get name
    let _ ← ofExcept ((Catalog.parseDocument mapping source).mapError .core)
    let db ← getMem
    modifyMem (write minted (.upsert name id source))
    pure ⟨Catalog.orNewId id minted, (db.visible name (Catalog.orNewId id minted)).isNone⟩
  delete name id := do
    let _ ← get name
    modifyMem (write minted (.delete name id))
  getDocument name id := do
    let _ ← get name
    let db ← getMem
    match db.visible name id with
    | some source => pure source
    | none => Prog.throw (.core (.documentNotFound id))
  search name query limit offset := do
    let mapping ← get name
    ofExcept ((execute mapping.toSchema (docs name) query limit offset).mapError
      StandaloneEngine.taskError)
  list := pure names
  describe name := get name

variable [Serde]

/-- The write a request asks for. -/
def HttpRequest.op? : HttpRequest → Option Op
  | .createCollection name body =>
    match Serde.mappingFromSlice body with
    | .ok mapping => some (.create name mapping)
    | .error _ => none
  | .dropCollection name => some (.drop name)
  | .indexDocument name body => some (.upsert name none body)
  | .putDocument name id body => some (.upsert name (some id) body)
  | .deleteDocument name id => some (.delete name id)
  | _ => none

/-- A write whose record is too long for the log, at some number. -/
def HttpRequest.Overlong (minted : Uuid) (req : HttpRequest) : Prop :=
  ∃ op seq, req.op? = some op ∧
    2 ^ 32 ≤ (Ext.walEntry.encode (Catalog.walEntry seq (op.logged minted))).length

/-- What a record that is too long is refused with. -/
def overlongError : ApiError := .core (.recovery "log record exceeds u32 length")

/-- What clients and operators see of a server, newest first in a trace. -/
inductive ServerEvent where
  | request (minted : Uuid) (req : HttpRequest) (answer : Except ApiError HttpResponse)
  | checkpoint
  | opened
  | stopped

/-- The traces of a database. -/
inductive DatabaseRun : Database → List ServerEvent → Prop where
  | start : DatabaseRun .empty []
  | answered {db db' : Database} {events : List ServerEvent} {names : List String}
      {docs : String → List Doc} {answer : Except ApiError HttpResponse} (minted : Uuid)
      (req : HttpRequest) (prev : DatabaseRun db events) (hlists : db.Lists names docs)
      (h : (req.handler (databaseEngine names docs minted)).run () db = (answer, (), db')) :
      DatabaseRun db' (.request minted req answer :: events)
  | overlong {db : Database} {events : List ServerEvent} (minted : Uuid) (req : HttpRequest)
      (prev : DatabaseRun db events) (hlong : req.Overlong minted) :
      DatabaseRun db (.request minted req (.error overlongError) :: events)
  | checkpoint {db : Database} {events : List ServerEvent} (prev : DatabaseRun db events) :
      DatabaseRun db.settle (.checkpoint :: events)
  | opened {db : Database} {events : List ServerEvent} (prev : DatabaseRun db events) :
      DatabaseRun db.settle (.opened :: events)
  | stopped {db : Database} {events : List ServerEvent} (prev : DatabaseRun db events) :
      DatabaseRun db (.stopped :: events)

end

end Lumen
