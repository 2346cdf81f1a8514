import Lumen.Collection

/-!
# Lumen.Catalog

The catalog of collections (`catalog.rs`) and its write-ahead log (`wal.rs`):
opening with recovery, the operations of a single node, the application of
replicated commands, and checkpoints.

Everything is a program over the data directory and the catalog in memory, so
that a crash can fall between any two durable steps.  Two things the source
draws from outside are parameters: the identities that `Uuid::new_v4` mints,
and the order in which a hash map is iterated (`IterOrder`).

A collection handle is shared: what is applied through one is seen through the
map as long as the map still holds that collection (`Catalog.deref`).  The
sequence counter does not reach `u64::MAX`.
-/

namespace Lumen

open Lib Prog

/-- The order in which the items of a hash map or set are visited. -/
structure IterOrder where
  order : {α : Type} → List α → List α
  perm : ∀ {α : Type} (l : List α), (order l).Perm l

/-- The order in which the model stores the items. -/
def IterOrder.stored : IterOrder := ⟨fun l => l, fun l => List.Perm.refl l⟩

theorem IterOrder.mem {α : Type} (ord : IterOrder) {l : List α} {a : α} :
    a ∈ ord.order l ↔ a ∈ l := (ord.perm l).mem_iff

def maxNameLen : Nat := 255

structure Catalog.Entry where
  uuid : Uuid
  createdSeq : Nat
  collection : Collection
  deriving DecidableEq

structure Catalog where
  seq : Nat
  wal : SegmentedLog
  collections : OrdMap String Catalog.Entry

structure Created where
  collection : Collection
  created : Bool

structure Upserted where
  id : String
  created : Bool
  deriving DecidableEq, Repr

structure ApplyOutcome where
  id : String
  created : Bool
  deriving DecidableEq, Repr

instance : Inhabited ApplyOutcome := ⟨⟨"", false⟩⟩

abbrev CatalogM := Prog Disk Catalog Error

namespace Catalog

/-- A catalog before anything was opened. -/
def closed : Catalog := ⟨0, .closed, ∅⟩

instance : Inhabited Catalog := ⟨closed⟩

def walFocus : Focus Catalog SegmentedLog where
  get m := m.wal
  set l m := { m with wal := l }
  get_set _ _ := rfl
  set_set _ _ _ := rfl
  set_get _ := rfl

/-- Whether an open collection holds the writer lock of the index. -/
def isOpen (m : Catalog) (uuid : Uuid) : Bool :=
  m.collections.toList.any fun p => p.2.uuid = uuid

/-- The state of the collection behind a handle that was looked up under
`name`; a collection the map no longer holds keeps the state it had. -/
def deref (m : Catalog) (name : String) (target : Collection) : Collection :=
  match m.collections.find? name with
  | some e => if e.uuid = target.uuid then e.collection else target
  | none => target

/-- Change the collection behind a handle. -/
def store (m : Catalog) (name : String) (c : Collection) : Catalog :=
  { m with
    collections := m.collections.modify name fun e =>
      if e.uuid = c.uuid then { e with collection := c } else e }

end Catalog

/-! ## the write-ahead log -/

section
variable [Ext]

namespace Wal

/-- Decode the records in order. -/
def decodeAll : List (Nat × Bytes) → Except Error (List Proto.WalEntry)
  | [] => .ok []
  | (_, bytes) :: rest =>
    match Ext.walEntry.decode bytes with
    | .error e => .error (.recovery ("corrupt wal record: " ++ e))
    | .ok entry =>
      match decodeAll rest with
      | .error e => .error e
      | .ok entries => .ok (entry :: entries)

/-- `Wal::open`: the entries on disk. -/
def openWal : LogM (List Proto.WalEntry) := do
  SegmentedLog.openLog
  let records ← SegmentedLog.readAll
  ofExcept (decodeAll records)

def append (entry : Proto.WalEntry) : LogM Unit :=
  SegmentedLog.append entry.seq (Ext.walEntry.encode entry)

def trim (floor : Nat) : LogM Unit := SegmentedLog.purgeThrough floor

end Wal

end

namespace Catalog

/-- Run an operation of the write-ahead log. -/
def onWal (p : LogM α) : CatalogM α := p.zoom Disk.walFocus walFocus

/-! ## collections on disk -/

/-- `Index::open_in_dir` with its writer and reader. -/
def openCollection (uuid : Uuid) (mapping : Mapping) : CatalogM Collection := do
  let d ← getDisk
  let m ← getMem
  match d.index uuid with
  | none => Prog.throw (.tantivy "index does not exist")
  | some index =>
    if m.isOpen uuid then Prog.throw (.tantivy "writer lock busy")
    else pure (.fromIndex uuid mapping index)

/-- `Collection::create`, of a mapping whose schema Tantivy's builder takes
(`createCollectionWith` has its panic). -/
def createCollection (uuid : Uuid) (mapping : Mapping) : CatalogM Collection := do
  let d ← getDisk
  if d.dirs.contains uuid then Prog.throw (.io .alreadyExists)
  else do
    step fun d => d.setDir uuid .empty
    step fun d => d.setDir uuid .files
    step fun d => d.setDir uuid (.index ⟨mapping.toSchema, [], none⟩)
    pure (.fromIndex uuid mapping ⟨mapping.toSchema, [], none⟩)

/-- `Collection::committed_mark`. -/
def committedMark (uuid : Uuid) : CatalogM (Option LogMark) := do
  let d ← getDisk
  match d.index uuid with
  | none => Prog.throw (.tantivy "index does not exist")
  | some index => pure index.payload

/-- `Collection::commit`: one durable step, then the reader reloads. -/
def commit (name : String) (target : Collection) (mark : LogMark) : CatalogM Unit := do
  let d ← getDisk
  let m ← getMem
  let c := m.deref name target
  match d.index c.uuid with
  | none => Prog.throw (.tantivy "index does not exist")
  | some index =>
    let docs := WriterOp.execAll c.writer index.docs
    step fun d => d.setDir c.uuid (.index { index with docs := docs, payload := some mark })
    modifyMem fun m => m.store name { c with writer := [], searcher := docs }

def applyDelete (name : String) (target : Collection) (id : String) : CatalogM Bool := do
  let m ← getMem
  let r ← ofExcept ((m.deref name target).applyDelete id)
  modifyMem fun m => m.store name r.1
  pure r.2

/-! ## lookup -/

def lookup (name : String) : CatalogM (Option Collection) := do
  let m ← getMem
  pure ((m.collections.find? name).map Entry.collection)

def get (name : String) : CatalogM Collection := do
  let m ← getMem
  match m.collections.find? name with
  | some e => pure e.collection
  | none => Prog.throw (.collectionNotFound name)

def list : CatalogM (List String) := do
  let m ← getMem
  pure m.collections.keys

def nextSeq : CatalogM Nat := do
  modifyMem fun m => { m with seq := m.seq + 1 }
  let m ← getMem
  pure m.seq

def walEntry (seq : Nat) (op : Proto.Op) : Proto.WalEntry := ⟨seq, some ⟨some op⟩⟩

def validateName (name : String) : Except Error Unit :=
  if name = "" ∨ maxNameLen < name.utf8ByteSize then
    .error (.validation "collection name must be 1..=255 bytes")
  else if startsWithUnderscore name then
    .error (.validation ("collection name " ++ debugStr name ++ " uses the reserved '_' prefix"))
  else if ¬ name.toList.all fun c => c.isLower || c.isDigit || c == '-' || c == '_' then
    .error (.validation ("collection name " ++ debugStr name ++ " must match [a-z0-9_-]"))
  else .ok ()

/-! ## directories -/

/-- `drop_dir`: the files go before the directory. -/
def dropDir (uuid : Uuid) : CatalogM Unit := do
  let d ← getDisk
  if d.dirs.contains uuid then do
    step fun d => d.setDir uuid .files
    step fun d => d.setDir uuid .empty
    step fun d => d.removeDir uuid
  else pure ()

def quarantine (uuid : Uuid) (seq : Nat) : CatalogM Unit := do
  let d ← getDisk
  match d.dirs.find? uuid with
  | none => Prog.throw (.io .notFound)
  | some dir =>
    if Vacant (d.quarantined.lookup (uuid, seq)) then
      step fun d =>
        { d.removeDir uuid with quarantined := ((uuid, seq), dir) :: d.quarantined }
    else Prog.throw (.io .directoryNotEmpty)

/-- Move a directory the catalog does not list out of the way. -/
def sweepDir (live : List Uuid) (high : Nat) (uuid : Uuid) : CatalogM Unit :=
  if uuid ∈ live then pure () else quarantine uuid high

def sweepOrphans (ord : IterOrder) (high : Nat) : CatalogM Unit := do
  let m ← getMem
  let d ← getDisk
  forEach (ord.order d.dirs.keys) (sweepDir (m.collections.toList.map fun p => p.2.uuid) high)

/-! ## the catalog file -/

section
variable [Ext]

def protoEntry (p : String × Entry) : Proto.CatalogEntry :=
  ⟨p.1, fmtUuid p.2.uuid, some p.2.collection.mapping.toProto, p.2.createdSeq⟩

def snapshotProto (ord : IterOrder) (m : Catalog) (appliedSeq : Nat) : Proto.CatalogSnapshot :=
  ⟨appliedSeq, (ord.order m.collections.toList).map protoEntry⟩

def loadSnapshot (d : Disk) : Except Error Proto.CatalogSnapshot :=
  match d.catalogPb with
  | none => .ok default
  | some bytes =>
    match Ext.catalogSnapshot.decode bytes with
    | .error e => .error (.recovery ("corrupt catalog snapshot: " ++ e))
    | .ok snapshot => .ok snapshot

/-- `write_snapshot`: create the temporary file, write it, rename it. -/
def writeSnapshot (snapshot : Proto.CatalogSnapshot) : CatalogM Unit := do
  step fun d => { d with catalogTmp := some [] }
  step fun d => { d with catalogTmp := some (Ext.catalogSnapshot.encode snapshot) }
  step fun d => { d with catalogPb := d.catalogTmp, catalogTmp := none }

def persist (ord : IterOrder) (appliedSeq : Nat) : CatalogM Unit := do
  let m ← getMem
  writeSnapshot (snapshotProto ord m appliedSeq)

/-! ## commits and marks -/

def commitAll (ord : IterOrder) (mark : LogMark) : CatalogM Unit := do
  let m ← getMem
  forEach (ord.order m.collections.toList) fun p => commit p.1 p.2.collection mark
  persist ord mark.index

/-- The running minimum of `min_committed_mark`. -/
def lowerMark (min : Option LogMark) (mark : LogMark) : LogMark :=
  match min with
  | some current => if current.index ≤ mark.index then current else mark
  | none => mark

def minMark (min : Option LogMark) : List Uuid → CatalogM (Option LogMark)
  | [] => pure min
  | uuid :: rest => do
    let mark ← committedMark uuid
    minMark (some (lowerMark min (mark.getD default))) rest

def minCommittedMark (ord : IterOrder) : CatalogM (Option LogMark) := do
  let m ← getMem
  minMark none (ord.order (m.collections.toList.map fun p => p.2.uuid))

def checkpointApplied (ord : IterOrder) (mark : LogMark) : CatalogM Unit := commitAll ord mark

/-- Commit a collection that is behind the mark. -/
def commitBehind (name : String) (target : Collection) (mark : LogMark) : CatalogM Unit := do
  let committed ← committedMark target.uuid
  if (committed.getD default).index < mark.index then commit name target mark else pure ()

def commitCollection (name : String) (mark : LogMark) : CatalogM Unit := do
  let target ← get name
  commitBehind name target mark

def checkpoint (ord : IterOrder) : CatalogM Unit := do
  let m ← getMem
  commitAll ord { index := m.seq }
  onWal (Wal.trim m.seq)

/-! ## applying commands -/

def applyUpsert (name : String) (target : Collection) (id : String) (source : Bytes)
    (parsed : Value) : CatalogM Bool := do
  let m ← getMem
  let r ← ofExcept ((m.deref name target).applyUpsert id source parsed)
  modifyMem fun m => m.store name r.1
  pure r.2

/-- Open the collection's directory if it is there, create it otherwise. -/
def openOrCreate (uuid : Uuid) (mapping : Mapping) : CatalogM Collection := do
  let d ← getDisk
  if d.dirs.contains uuid then openCollection uuid mapping else createCollection uuid mapping

def installCollection (name : String) (uuid : Uuid) (mapping : Mapping) (createdSeq : Nat) :
    CatalogM Collection := do
  let collection ← openOrCreate uuid mapping
  modifyMem fun m =>
    { m with collections := m.collections.insert name ⟨uuid, createdSeq, collection⟩ }
  pure collection

/-- The mapping a create command carries. -/
def createMapping (create : Proto.CreateCollection) : Except Error Mapping :=
  match create.mapping with
  | none => .error (.recovery "create command has no mapping")
  | some proto => Mapping.tryFrom proto

/-- The identity a create command carries. -/
def createUuid (create : Proto.CreateCollection) : Except Error Uuid :=
  match parseUuid create.uuid with
  | none => .error (.recovery ("create command has invalid uuid " ++ debugStr create.uuid))
  | some uuid => .ok uuid

/-- Create a collection the map does not hold. -/
def applyNewCreate (ord : IterOrder) (mark : LogMark) (create : Proto.CreateCollection)
    (mapping : Mapping) : CatalogM Unit := do
  let uuid ← ofExcept (createUuid create)
  let _ ← installCollection create.collection uuid mapping mark.index
  persist ord mark.index

def applyCreate (ord : IterOrder) (mark : LogMark) (create : Proto.CreateCollection) :
    CatalogM Unit := do
  let mapping ← ofExcept (createMapping create)
  let existing ← lookup create.collection
  match existing with
  -- a conflicting mapping is logged and the existing collection kept
  | some _ => pure ()
  | none => applyNewCreate ord mark create mapping

def applyDrop (ord : IterOrder) (mark : LogMark) (name : String) : CatalogM Unit := do
  let m ← getMem
  modifyMem fun m => { m with collections := m.collections.erase name }
  match m.collections.find? name with
  | none => pure ()
  | some e => do
    dropDir e.uuid
    persist ord mark.index

/-- Index a document in a collection that is behind the mark. -/
def applyIndexBehind (target : Collection) (index : Proto.IndexDocument) :
    CatalogM ApplyOutcome := do
  match fromSlice index.source with
  | .error e => Prog.throw (.recovery ("index command has invalid json: " ++ e))
  | .ok parsed => do
    let created ← applyUpsert index.collection target index.id index.source parsed
    pure ⟨index.id, created⟩

def applyIndex (mark : LogMark) (index : Proto.IndexDocument) : CatalogM ApplyOutcome := do
  let found ← lookup index.collection
  match found with
  | none => pure default
  | some target => do
    let committed ← committedMark target.uuid
    if mark.index ≤ (committed.getD default).index then pure ⟨index.id, false⟩
    else applyIndexBehind target index

/-- Delete a document of a collection that is behind the mark. -/
def applyDeleteBehind (target : Collection) (delete : Proto.DeleteDocument) :
    CatalogM ApplyOutcome := do
  let _ ← applyDelete delete.collection target delete.id
  pure ⟨delete.id, false⟩

def applyDeleteDoc (mark : LogMark) (delete : Proto.DeleteDocument) : CatalogM ApplyOutcome := do
  let found ← lookup delete.collection
  match found with
  | none => pure default
  | some target => do
    let committed ← committedMark target.uuid
    if mark.index ≤ (committed.getD default).index then pure default
    else applyDeleteBehind target delete

def applyCommand (ord : IterOrder) (mark : LogMark) (command : Proto.Command) :
    CatalogM ApplyOutcome :=
  match command.op with
  | some (.createCollection create) => do
    applyCreate ord mark create
    pure default
  | some (.dropCollection drop) => do
    applyDrop ord mark drop.collection
    pure default
  | some (.indexDocument index) => applyIndex mark index
  | some (.deleteDocument delete) => applyDeleteDoc mark delete
  | none => pure default

/-! ## opening -/

/-- The identity and mapping of a catalog entry; `noun` and `place` are the
words of the caller's messages. -/
def decodeEntry (noun place : String) (entry : Proto.CatalogEntry) :
    Except Error (Uuid × Mapping) :=
  match parseUuid entry.uuid with
  | none => .error (.recovery ("invalid uuid " ++ debugStr entry.uuid ++ " in " ++ place))
  | some uuid =>
    match entry.mapping with
    | none => .error (.recovery (noun ++ " " ++ fmtUuid uuid ++ " has no mapping"))
    | some proto =>
      match Mapping.tryFrom proto with
      | .error e => .error e
      | .ok mapping => .ok (uuid, mapping)

/-- The collections a drop behind `appliedSeq` names. -/
def droppedInTail (appliedSeq : Nat) (entries : List Proto.WalEntry) : List String :=
  entries.filterMap fun e =>
    if appliedSeq < e.seq then
      match e.command with
      | some ⟨some (.dropCollection drop)⟩ => some drop.collection
      | _ => none
    else none

/-- Open a listed collection that has a directory. -/
def openListed (name : String) (createdSeq : Nat) (uuid : Uuid) (mapping : Mapping) :
    CatalogM Unit := do
  let d ← getDisk
  if d.dirs.contains uuid then do
    modifyMem fun m => { m with seq := max m.seq createdSeq }
    let collection ← openCollection uuid mapping
    modifyMem fun m =>
      { m with collections := m.collections.insert name ⟨uuid, createdSeq, collection⟩ }
  else Prog.throw (.recovery ("catalog entry " ++ fmtUuid uuid ++ " has no data dir"))

/-- One round of the loop over the snapshot's entries. -/
def openEntry (dropped : List String) (entry : Proto.CatalogEntry) : CatalogM Unit :=
  if entry.name ∈ dropped then pure ()
  else do
    let (uuid, mapping) ← ofExcept (decodeEntry "catalog entry" "snapshot" entry)
    openListed entry.name entry.createdSeq uuid mapping

/-- One round of the replay loop. -/
def replayEntry (ord : IterOrder) (appliedSeq : Nat) (entry : Proto.WalEntry) : CatalogM Unit :=
  if entry.seq ≤ appliedSeq then pure ()
  else
    match entry.command with
    | none => pure ()
    | some command => do
      let _ ← applyCommand ord { index := entry.seq } command
      pure ()

/-- Whether the replay loop applies a command. -/
def replays (appliedSeq : Nat) (entries : List Proto.WalEntry) : Bool :=
  entries.any fun e => appliedSeq < e.seq && e.command.isSome

/-- `Catalog::open` up to the replay: the catalog file's position, and the
entries of the write-ahead log. -/
def loadCatalog : CatalogM (Nat × List Proto.WalEntry) := do
  let d ← getDisk
  let snapshot ← ofExcept (loadSnapshot d)
  modifyMem fun _ => closed
  let entries ← onWal Wal.openWal
  modifyMem fun m => { m with seq := entries.foldl (fun s e => max s e.seq) snapshot.appliedSeq }
  forEach snapshot.entries (openEntry (droppedInTail snapshot.appliedSeq entries))
  pure (snapshot.appliedSeq, entries)

/-- What `open` does once the entries are replayed. -/
def finishOpen (ord : IterOrder) (replayed : Bool) : CatalogM Unit := do
  let m ← getMem
  sweepOrphans ord m.seq
  if replayed then checkpoint ord else pure ()

/-- `Catalog::open`. -/
def openCatalog (ord : IterOrder) : CatalogM Unit := do
  let (appliedSeq, entries) ← loadCatalog
  forEach entries (replayEntry ord appliedSeq)
  finishOpen ord (replays appliedSeq entries)

/-! ## operations of a single node -/

/-- The section of `create` behind the write lock, for a name that is free. -/
def logCreate (name : String) (mapping : Mapping) (minted : Uuid) : CatalogM Created := do
  let seq ← nextSeq
  onWal (Wal.append (walEntry seq
    (.createCollection ⟨name, fmtUuid minted, some mapping.toProto⟩)))
  let collection ← installCollection name minted mapping seq
  pure ⟨collection, true⟩

/-- `Catalog::create`; `minted` is the identity of a new collection. -/
def create (name : String) (mapping : Mapping) (minted : Uuid) : CatalogM Created := do
  ofExcept (validateName name)
  let existing ← lookup name
  match existing with
  | some c =>
    if c.mapping = mapping then pure ⟨c, false⟩
    else Prog.throw (.schemaConflict name)
  | none => logCreate name mapping minted

/-- The section of `drop_collection` behind the write lock, for a collection
that is there. -/
def logDrop (name : String) (uuid : Uuid) : CatalogM Unit := do
  let seq ← nextSeq
  onWal (Wal.append (walEntry seq (.dropCollection ⟨name⟩)))
  modifyMem fun m => { m with collections := m.collections.erase name }
  dropDir uuid

def dropCollection (name : String) : CatalogM Unit := do
  let m ← getMem
  match m.collections.find? name with
  | none => Prog.throw (.collectionNotFound name)
  | some e => logDrop name e.uuid

/-- `or_new_id`. -/
def orNewId (id : Option String) (minted : Uuid) : String := id.getD (fmtUuid minted)

/-- The parsed source of a document the mapping accepts. -/
def parseDocument (mapping : Mapping) (source : Bytes) : Except Error Value :=
  match fromSlice source with
  | .error e => .error (.validation ("invalid JSON: " ++ e))
  | .ok parsed =>
    match mapping.validateDocument parsed with
    | .error e => .error e
    | .ok _ => .ok parsed

/-- The section of `upsert_document` behind the write lock. -/
def logUpsert (name : String) (target : Collection) (id : String) (source : Bytes)
    (parsed : Value) : CatalogM Upserted := do
  let seq ← nextSeq
  onWal (Wal.append (walEntry seq (.indexDocument ⟨name, id, source⟩)))
  let created ← applyUpsert name target id source parsed
  pure ⟨id, created⟩

/-- `Catalog::upsert_document`; `minted` is the id of a document without
one. -/
def upsertDocument (name : String) (id : Option String) (source : Bytes) (minted : Uuid) :
    CatalogM Upserted := do
  let target ← get name
  let parsed ← ofExcept (parseDocument target.mapping source)
  logUpsert name target (orNewId id minted) source parsed

/-- The section of `delete_document` behind the write lock. -/
def logDelete (name : String) (target : Collection) (id : String) : CatalogM Bool := do
  let seq ← nextSeq
  onWal (Wal.append (walEntry seq (.deleteDocument ⟨name, id⟩)))
  applyDelete name target id

def deleteDocument (name : String) (id : String) : CatalogM Bool := do
  let target ← get name
  logDelete name target id

def getDocument (name : String) (id : String) : CatalogM Bytes := do
  let target ← get name
  match target.source id with
  | some source => pure source
  | none => Prog.throw (.documentNotFound id)

/-! ## commands for replication -/

def command (op : Proto.Op) : Proto.Command := ⟨some op⟩

/-- `build_create_command`; `none` when the collection exists with the
mapping. -/
def buildCreateCommand (name : String) (mapping : Mapping) (minted : Uuid) :
    CatalogM (Option Proto.Command) := do
  ofExcept (validateName name)
  let existing ← lookup name
  match existing with
  | some c => if c.mapping = mapping then pure none else Prog.throw (.schemaConflict name)
  | none =>
    pure (some (command
      (.createCollection ⟨name, fmtUuid minted, some mapping.toProto⟩)))

def buildIndexCommand (name : String) (id : Option String) (source : Bytes) (minted : Uuid) :
    CatalogM Proto.Command := do
  let target ← get name
  let _ ← ofExcept (parseDocument target.mapping source)
  pure (command (.indexDocument ⟨name, orNewId id minted, source⟩))

def buildDeleteCommand (name : String) (id : String) : CatalogM Proto.Command := do
  let _ ← get name
  pure (command (.deleteDocument ⟨name, id⟩))

def buildDropCommand (name : String) : CatalogM Proto.Command := do
  let _ ← get name
  pure (command (.dropCollection ⟨name⟩))

end

end Catalog

end Lumen
