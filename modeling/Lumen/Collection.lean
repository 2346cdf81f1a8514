import Lumen.Document
import Lumen.Log
import Mathlib.Order.Basic

/-!
# Lumen.Collection

A collection over its Tantivy index (`collection.rs`), and the data directory
collections live in.

Of Tantivy the model keeps what the core relies on: a writer buffers
operations, a commit applies them to the committed documents in order and
replaces them together with the payload in one durable step, and a reader sees
the commit it was last reloaded from.  `delete_term` removes every document
with that `_id` that was added before it.  Writer, commit and reader do not
fail on an index that is there; an index opened twice is busy.

The commit payload is the JSON of a `LogMark`, which reads back as the mark
it was written from; the model keeps the mark.
-/

namespace Lumen

open Lib

instance : LinearOrder Uuid :=
  LinearOrder.lift' (fun u => u.bits.toNat) fun a b h => by
    cases a
    cases b
    exact congrArg Uuid.mk (BitVec.eq_of_toNat_eq h)

/-! ## Tantivy -/

/-- An operation issued to an index writer. -/
inductive WriterOp where
  | deleteTerm (id : String)
  | addDocument (doc : Doc)
  deriving DecidableEq, Repr

def WriterOp.exec : WriterOp → List Doc → List Doc
  | .deleteTerm id, docs => docs.filter fun doc => doc.id ≠ id
  | .addDocument doc, docs => docs ++ [doc]

/-- What a commit makes of the committed documents. -/
def WriterOp.execAll (ops : List WriterOp) (docs : List Doc) : List Doc :=
  ops.foldl (fun docs op => op.exec docs) docs

/-- The last commit of an index, as its directory holds it. -/
structure Index where
  schema : Schema
  docs : List Doc
  payload : Option LogMark
  deriving DecidableEq

/-- A collection directory: empty between its creation and the first file in it
and once its last file is removed, with files but no index that opens while the
index is made or the files are removed, or with an index. -/
inductive Dir where
  | empty
  | files
  | index (ix : Index)
  deriving DecidableEq

/-- The index that opens in a directory. -/
@[reducible] def Dir.index? : Dir → Option Index
  | .empty => none
  | .files => none
  | .index ix => some ix

@[simp] theorem Dir.index?_index (ix : Index) : (Dir.index ix).index? = some ix := rfl

/-- `fs::rename` of a directory takes a place where there is nothing, or an empty
directory; otherwise it fails. -/
def Vacant (place : Option Dir) : Prop := place = none ∨ place = some .empty

instance (place : Option Dir) : Decidable (Vacant place) := inferInstanceAs (Decidable (_ ∨ _))

/-! ## the data directory -/

/-- An unpacked snapshot archive: the catalog file, and the directories of
collections in it.  A malformed archive may lack the file, or have a directory
that does not open. -/
structure Archive where
  catalogPb : Option Bytes
  dirs : OrdMap Uuid Dir
  deriving DecidableEq

/-- The archive with one collection's commit copied into it. -/
def Archive.add (a : Archive) (uuid : Uuid) (index : Index) : Archive :=
  { a with dirs := a.dirs.insert uuid (.index index) }

/-- The `_snapshots` directory: the archive under construction, the unpacked
archive being installed, the directories it displaced, and the archive file
with the file it is written to first. -/
structure SnapshotsDir where
  build : Option Archive
  install : Option Archive
  aside : OrdMap Uuid Dir
  currentTmp : Option Archive
  currentTar : Option Archive
  deriving DecidableEq

/-- The data directory of a catalog. -/
structure Disk where
  catalogPb : Option Bytes
  catalogTmp : Option Bytes
  dirs : OrdMap Uuid Dir
  quarantined : List ((Uuid × Nat) × Dir)
  wal : LogDir
  snapshots : SnapshotsDir
  deriving DecidableEq

namespace Disk

def empty : Disk := ⟨none, none, ∅, [], ∅, ⟨none, none, ∅, none, none⟩⟩

/-- The index in a collection's directory. -/
def index (d : Disk) (uuid : Uuid) : Option Index := (d.dirs.find? uuid).bind Dir.index?

def setDir (d : Disk) (uuid : Uuid) (dir : Dir) : Disk :=
  { d with dirs := d.dirs.insert uuid dir }

def removeDir (d : Disk) (uuid : Uuid) : Disk := { d with dirs := d.dirs.erase uuid }

def walFocus : Prog.Focus Disk LogDir where
  get d := d.wal
  set l d := { d with wal := l }
  get_set _ _ := rfl
  set_set _ _ _ := rfl
  set_get _ := rfl

end Disk

/-! ## collections -/

/-- An open collection: the identity and mapping it was opened with, the
schema of its index, the operations its writer has buffered, and what its
reader sees. -/
structure Collection where
  uuid : Uuid
  mapping : Mapping
  schema : Schema
  writer : List WriterOp
  searcher : List Doc
  deriving DecidableEq

namespace Collection

/-- The collection of a freshly opened index. -/
def fromIndex (uuid : Uuid) (mapping : Mapping) (index : Index) : Collection :=
  ⟨uuid, mapping, index.schema, [], index.docs⟩

/-- `id_exists`, on what the reader sees. -/
def idExists (c : Collection) (id : String) : Bool := c.searcher.any fun doc => doc.id = id

/-- `source`: the source of a document with the id. -/
def source (c : Collection) (id : String) : Option Bytes :=
  (c.searcher.find? fun doc => doc.id = id).map Doc.source

/-- `apply_delete`: the collection with the deletion buffered, and whether
the reader saw the document. -/
def applyDelete (c : Collection) (id : String) : Except Error (Collection × Bool) :=
  match c.schema.getField idField with
  | none => .error (.panicked "schema always has _id")
  | some _ => .ok ({ c with writer := c.writer ++ [.deleteTerm id] }, c.idExists id)

variable [Ext]

/-- `apply_upsert`: the collection with the replacement buffered, and whether
the reader saw no document with the id. -/
def applyUpsert (c : Collection) (id : String) (source : Bytes) (parsed : Value) :
    Except Error (Collection × Bool) :=
  match buildDoc c.schema c.mapping id source parsed with
  | .error e => .error e
  | .ok doc =>
    .ok ({ c with writer := c.writer ++ [.deleteTerm id, .addDocument doc] }, !c.idExists id)

end Collection

end Lumen
