import Lumen.Catalog

/-!
# Lumen.Snapshot

Snapshot archives (`build_snapshot` and `install_snapshot` of `catalog.rs`).

An archive is modelled by what it unpacks to.  Copying the files of one
collection's commit is one step, and so is moving one collection's directory.
-/

namespace Lumen.Catalog

open Lib Prog

variable [Ext]

/-! ## building -/

def setSnapshots (f : SnapshotsDir → SnapshotsDir) : CatalogM Unit :=
  step fun d => { d with snapshots := f d.snapshots }

/-- `Collection::archive_into`: the reader reloads, then the committed files
are copied. -/
def archiveInto (name : String) (e : Entry) : CatalogM Unit := do
  let d ← getDisk
  match d.index e.uuid with
  | none => Prog.throw (.tantivy "index does not exist")
  | some index => do
    modifyMem fun m => m.store name { m.deref name e.collection with searcher := index.docs }
    setSnapshots fun s => { s with build := s.build.map (Archive.add · e.uuid index) }

/-- The listing of the archive, taken before any collection is copied. -/
def archiveListing (ord : IterOrder) : CatalogM Unit := do
  setSnapshots fun s => { s with build := some ⟨none, ∅⟩ }
  let m ← getMem
  setSnapshots fun s =>
    { s with build := some ⟨some (Ext.catalogSnapshot.encode (snapshotProto ord m m.seq)), ∅⟩ }

def archiveCollections (ord : IterOrder) : CatalogM Unit := do
  let m ← getMem
  forEach (ord.order m.collections.toList) fun p => archiveInto p.1 p.2

/-- Pack the staging directory and put the archive into place. -/
def packArchive : CatalogM Unit := do
  setSnapshots fun s => { s with currentTmp := s.build }
  setSnapshots fun s => { s with currentTar := s.currentTmp, currentTmp := none }
  setSnapshots fun s => { s with build := none }

/-- `Catalog::build_snapshot`. -/
def buildSnapshot (ord : IterOrder) : CatalogM Unit := do
  archiveListing ord
  archiveCollections ord
  packArchive

/-! ## installing -/

/-- The listing of an unpacked archive. -/
def archiveSnapshot (a : Archive) : Except Error Proto.CatalogSnapshot :=
  match a.catalogPb with
  | none => .error (.io .notFound)
  | some bytes =>
    match Ext.catalogSnapshot.decode bytes with
    | .error e => .error (.recovery ("corrupt catalog snapshot in archive: " ++ e))
    | .ok snapshot => .ok snapshot

def archiveUuid (entry : Proto.CatalogEntry) : Except Error Uuid :=
  match parseUuid entry.uuid with
  | none => .error (.recovery ("invalid uuid " ++ debugStr entry.uuid ++ " in archive"))
  | some uuid => .ok uuid

/-- Move a directory out of the way. -/
def setAside (uuid : Uuid) : CatalogM Unit := do
  let d ← getDisk
  match d.dirs.find? uuid with
  | none => pure ()
  | some dir =>
    if Vacant (d.snapshots.aside.find? uuid) then
      step fun d =>
        { d.removeDir uuid with
          snapshots := { d.snapshots with aside := d.snapshots.aside.insert uuid dir } }
    else Prog.throw (.io .directoryNotEmpty)

/-- Move a directory of the unpacked archive into the data directory. -/
def moveIn (uuid : Uuid) : CatalogM Unit := do
  let d ← getDisk
  match (d.snapshots.install.bind fun a => a.dirs.find? uuid) with
  | none => Prog.throw (.io .notFound)
  | some dir =>
    step fun d =>
      { d.setDir uuid dir with
        snapshots := { d.snapshots with
          install := d.snapshots.install.map fun a => { a with dirs := a.dirs.erase uuid } } }

/-- One round of the loop over the archive's entries. -/
def placeCollection (entry : Proto.CatalogEntry) : CatalogM Unit := do
  let uuid ← ofExcept (archiveUuid entry)
  setAside uuid
  moveIn uuid

/-- The loop of `rebuild`: the new map is filled next to the old one, whose
collections work on the directories that were set aside. -/
def rebuildEntries : List Proto.CatalogEntry → OrdMap String Entry → Nat →
    CatalogM (OrdMap String Entry × Nat)
  | [], rebuilt, seq => pure (rebuilt, seq)
  | entry :: rest, rebuilt, seq => do
    let (uuid, mapping) ← ofExcept (decodeEntry "archive entry" "archive" entry)
    let d ← getDisk
    match d.index uuid with
    | none => Prog.throw (.tantivy "index does not exist")
    | some index =>
      if rebuilt.toList.any fun p => p.2.uuid = uuid then
        Prog.throw (.tantivy "writer lock busy")
      else
        rebuildEntries rest
          (rebuilt.insert entry.name ⟨uuid, entry.createdSeq, .fromIndex uuid mapping index⟩)
          (max seq entry.createdSeq)

def rebuild (snapshot : Proto.CatalogSnapshot) : CatalogM Unit := do
  let (rebuilt, seq) ← rebuildEntries snapshot.entries ∅ snapshot.appliedSeq
  modifyMem fun m => { m with collections := rebuilt, seq := seq }

/-- Copy the archive next to the current one and put it into place. -/
def publishSnapshot (archive : Archive) : CatalogM Unit := do
  setSnapshots fun s => { s with currentTmp := some archive }
  setSnapshots fun s => { s with currentTar := s.currentTmp, currentTmp := none }

/-- The unpacked catalog file replaces the data directory's. -/
def placeCatalog : CatalogM Unit :=
  step fun d =>
    { d with
      catalogPb := d.snapshots.install.bind Archive.catalogPb
      snapshots := { d.snapshots with
        install := d.snapshots.install.map fun a => { a with catalogPb := none } } }

/-- `Catalog::install_snapshot`. -/
def installSnapshot (ord : IterOrder) (archive : Archive) : CatalogM Unit := do
  setSnapshots fun s => { s with install := some ⟨none, ∅⟩ }
  setSnapshots fun s => { s with install := some archive }
  let snapshot ← ofExcept (archiveSnapshot archive)
  setSnapshots fun s => { s with aside := ∅ }
  forEach snapshot.entries placeCollection
  placeCatalog
  rebuild snapshot
  sweepOrphans ord snapshot.appliedSeq
  publishSnapshot archive
  setSnapshots fun s => { s with aside := ∅ }
  setSnapshots fun s => { s with install := none }

end Lumen.Catalog
