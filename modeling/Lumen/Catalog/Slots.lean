import Lumen.Catalog
import Lumen.Lib.Slot

/-!
# Lumen.Catalog.Slots

A catalog as a slot per collection name.  The generation in a slot is the
collection the map holds under the name, with the documents its next commit
will have; the stores are the indexes on disk.  A command is an event of one
name's log (`eventOf`).
-/

namespace Lumen

open Lib Replay

/-! ## documents -/

/-- The source stored under each id. -/
def view (docs : List Doc) (id : String) : Option Bytes :=
  (docs.find? fun doc => doc.id = id).map Doc.source

theorem view_nil : view [] = fun _ => none := rfl

theorem view_deleteTerm (id : String) (docs : List Doc) :
    view ((WriterOp.deleteTerm id).exec docs) = Function.update (view docs) id none := by
  funext k
  rw [view, WriterOp.exec, List.find?_filter]
  by_cases hk : k = id
  · subst hk
    rw [Function.update_self]
    simp
  · rw [Function.update_of_ne hk, view]
    congr 2
    funext doc
    grind

theorem view_replace (doc : Doc) (docs : List Doc) :
    view ((WriterOp.addDocument doc).exec ((WriterOp.deleteTerm doc.id).exec docs)) =
      Function.update (view docs) doc.id (some doc.source) := by
  funext k
  have hdel := congrFun (view_deleteTerm doc.id docs) k
  rw [view] at hdel
  show view ((WriterOp.deleteTerm doc.id).exec docs ++ [doc]) k = _
  rw [view, List.find?_append, Option.map_or, hdel]
  by_cases hk : k = doc.id
  · subst hk
    simp
  · rw [Function.update_of_ne hk, Function.update_of_ne hk]
    have hno : [doc].find? (fun d => decide (d.id = k)) = none := by
      rw [List.find?_singleton, if_neg (by simpa using fun h => hk h.symm)]
    rw [hno, Option.map_none, Option.or_none]

theorem WriterOp.execAll_append (ops ops' : List WriterOp) (docs : List Doc) :
    WriterOp.execAll (ops ++ ops') docs = WriterOp.execAll ops' (WriterOp.execAll ops docs) :=
  List.foldl_append

/-! ## slots -/

/-- The position a commit's payload names; none is position 0. -/
def Index.mark (ix : Index) : Nat := (ix.payload.getD default).index

@[simp] theorem LogMark.index_default : (default : LogMark).index = 0 := rfl

/-- What an index on disk has saved. -/
def Index.toStore (ix : Index) : Store String Bytes := ⟨ix.mark, view ix.docs⟩

/-- The documents a collection has once its buffer is committed. -/
def Collection.pending (c : Collection) (d : Disk) : List Doc :=
  WriterOp.execAll c.writer (((d.index c.uuid).map Index.docs).getD [])

/-- The generation a map entry holds. -/
def Catalog.Entry.toGen (e : Catalog.Entry) (d : Disk) : Gen Uuid Mapping String Bytes :=
  ⟨e.uuid, e.collection.mapping, view (e.collection.pending d)⟩

/-- The slot of a name. -/
def slotOf (d : Disk) (m : Catalog) (name : String) : Slot Uuid Mapping String Bytes :=
  ⟨(m.collections.find? name).map fun e => e.toGen d, fun u => (d.index u).map Index.toStore⟩

/-- A map entry and the directory it works on, whatever its reader shows. -/
structure EntryBased (d : Disk) (e : Catalog.Entry) : Prop where
  uuid : e.collection.uuid = e.uuid
  schema : e.collection.schema = e.collection.mapping.toSchema
  index : ∃ ix, d.index e.uuid = some ix ∧ ix.schema = e.collection.schema

/-- Every collection in the map has its index on disk, and no two share one;
readers may be behind. -/
structure Based (d : Disk) (m : Catalog) : Prop where
  entry : ∀ name e, m.collections.find? name = some e → EntryBased d e
  inj : ∀ name name' e e', m.collections.find? name = some e →
    m.collections.find? name' = some e' → e.uuid = e'.uuid → name = name'

/-- A map entry and the directory it works on; its reader shows the last
commit. -/
structure EntryOk (d : Disk) (e : Catalog.Entry) : Prop where
  uuid : e.collection.uuid = e.uuid
  schema : e.collection.schema = e.collection.mapping.toSchema
  index : ∃ ix, d.index e.uuid = some ix ∧ ix.schema = e.collection.schema ∧
    e.collection.searcher = ix.docs

/-- Every collection in the map has its index on disk, and no two share one. -/
structure Sound (d : Disk) (m : Catalog) : Prop where
  entry : ∀ name e, m.collections.find? name = some e → EntryOk d e
  inj : ∀ name name' e e', m.collections.find? name = some e →
    m.collections.find? name' = some e' → e.uuid = e'.uuid → name = name'

section
variable {d : Disk} {m : Catalog}

theorem EntryOk.based {e : Catalog.Entry} (h : EntryOk d e) : EntryBased d e := by
  obtain ⟨ix, hix, hschema, _⟩ := h.index
  exact ⟨h.uuid, h.schema, ix, hix, hschema⟩

theorem Sound.based (h : Sound d m) : Based d m := ⟨fun n e hf => (h.entry n e hf).based, h.inj⟩

/-- The mark of a slot is what the collection's index says. -/
theorem slotOf_mark {name : String} {e : Catalog.Entry} {ix : Index}
    (hf : m.collections.find? name = some e) (hix : d.index e.uuid = some ix) :
    (slotOf d m name).mark = ix.mark := by
  simp [Slot.mark, slotOf, hf, Catalog.Entry.toGen, hix, Index.toStore]

theorem slotOf_apply_of_le {name : String} {e : Catalog.Entry} {i : Nat} {ix : Index}
    {id : String} {v : Option Bytes} (hf : m.collections.find? name = some e)
    (hix : d.index e.uuid = some ix) (hle : i ≤ ix.mark) :
    (slotOf d m name).apply i (.edit id v) = slotOf d m name := by
  have hmark := slotOf_mark hf hix
  have hlive : (slotOf d m name).live = some (e.toGen d) := by simp [slotOf, hf]
  simp only [Slot.apply, hlive, hmark, if_pos hle]

end

/-! ## commands as events -/

section
variable [Ext]

/-- What a command is to the slot of a name. -/
def eventOf (name : String) (cmd : Proto.Command) : Event Uuid Mapping String Bytes :=
  match cmd.op with
  | some (.createCollection create) =>
    if create.collection = name then
      match Catalog.createUuid create, Catalog.createMapping create with
      | .ok uuid, .ok mapping => .create uuid mapping
      | _, _ => .skip
    else .skip
  | some (.dropCollection drop) => if drop.collection = name then .drop else .skip
  | some (.indexDocument index) =>
    if index.collection = name then .edit index.id (some index.source) else .skip
  | some (.deleteDocument delete) =>
    if delete.collection = name then .edit delete.id none else .skip
  | none => .skip

/-- The log of a name. -/
def logOf (cmds : Nat → Proto.Command) (name : String) : Log Uuid Mapping String Bytes :=
  fun i => eventOf name (cmds i)

/-- No two create commands carry the same identity. -/
def DistinctUuids (cmds : Nat → Proto.Command) : Prop :=
  ∀ i j name name' u x y, eventOf name (cmds i) = .create u x →
    eventOf name' (cmds j) = .create u y → i = j

/-- Every directory, and every collection in the map, comes from a create
command of the log. -/
structure Owned (cmds : Nat → Proto.Command) (top : Nat) (d : Disk) (m : Catalog) : Prop where
  dir : ∀ u ix, d.index u = some ix → ∃ i name x, i ≤ top ∧ eventOf name (cmds i) = .create u x ∧
    ix.schema = x.toSchema
  live : ∀ name e, m.collections.find? name = some e → e.createdSeq ≤ top ∧
    ∃ i, i ≤ top ∧ eventOf name (cmds i) = .create e.uuid e.collection.mapping

end

end Lumen
