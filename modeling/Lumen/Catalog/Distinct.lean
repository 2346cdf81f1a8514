import Lumen.Catalog.Sweep
import Lumen.Lib.Keeps
import Lumen.Mapping.Schema

/-!
# Lumen.Catalog.Distinct

No reader ever shows two documents under one id.

An upsert buffers a deletion of the id in front of the new document, so no commit adds
an id twice.  An index has the property from its last commit, an open collection for
its reader and for what its writer has buffered; every function of the catalog keeps
both (`KeepsDistinct`), whether it returns, fails or is cut off.
-/

namespace Lumen

open Lib Prog

/-- A collection whose reader has no id twice, and whose next commit has none. -/
structure Collection.Distinct (c : Collection) : Prop where
  searcher : (c.searcher.map Doc.id).Nodup
  writer : ∀ docs : List Doc, (docs.map Doc.id).Nodup →
    ((WriterOp.execAll c.writer docs).map Doc.id).Nodup

def Disk.Distinct (d : Disk) : Prop := ∀ u ix, d.index u = some ix → (ix.docs.map Doc.id).Nodup

def Catalog.Distinct (m : Catalog) : Prop :=
  ∀ n e, m.collections.find? n = some e → e.collection.Distinct

/-- The programs that keep ids distinct, on disk and in memory. -/
abbrev KeepsDistinct {α : Type} (p : CatalogM α) : Prop :=
  Keeps Disk.Distinct Catalog.Distinct (fun _ => True) p

/-! ## states -/

section
variable {d : Disk} {m : Catalog} {name : String} {c : Collection} {ix : Index}

theorem Disk.Distinct.setDir (h : d.Distinct) (u : Uuid) {dir : Dir}
    (hdir : ∀ ix, dir.index? = some ix → (ix.docs.map Doc.id).Nodup) : (d.setDir u dir).Distinct := by
  intro u' ix hix
  rw [Disk.index_setDir] at hix
  split at hix
  · exact hdir ix hix
  · exact h u' ix hix

theorem Disk.Distinct.removeDir (h : d.Distinct) (u : Uuid) : (d.removeDir u).Distinct := by
  intro u' ix hix
  rw [Disk.index_removeDir] at hix
  split at hix
  · contradiction
  · exact h u' ix hix

theorem Disk.Distinct.of_dirs {d' : Disk} (h : d.Distinct) (hd : d'.dirs = d.dirs) :
    d'.Distinct := by
  intro u ix hix
  rw [Disk.index, hd] at hix
  exact h u ix hix

theorem Catalog.Distinct.insert (h : m.Distinct) {e : Catalog.Entry}
    (he : e.collection.Distinct) :
    Catalog.Distinct { m with collections := m.collections.insert name e } := by
  intro n e' hf
  rw [OrdMap.find?_insert] at hf
  split at hf
  · exact Option.some.inj hf ▸ he
  · exact h n e' hf

theorem Catalog.Distinct.erase (h : m.Distinct) (name : String) :
    Catalog.Distinct { m with collections := m.collections.erase name } := by
  intro n e hf
  rw [OrdMap.find?_erase] at hf
  split at hf
  · contradiction
  · exact h n e hf

theorem Catalog.Distinct.store (h : m.Distinct) (hc : c.Distinct) : (m.store name c).Distinct := by
  intro n e hf
  rw [Catalog.find?_store] at hf
  split at hf
  · obtain ⟨e', hf', rfl⟩ := Option.map_eq_some_iff.mp hf
    split
    · exact hc
    · exact h n e' hf'
  · exact h n e hf

/-- The collection behind a handle. -/
theorem Catalog.Distinct.deref (h : m.Distinct) (hc : c.Distinct) : (m.deref name c).Distinct := by
  rw [Catalog.deref]
  split
  · rename_i e hf
    split
    · exact h name e hf
    · exact hc
  · exact hc

theorem Collection.distinct_fromIndex (u : Uuid) (x : Mapping) (h : (ix.docs.map Doc.id).Nodup) :
    (Collection.fromIndex u x ix).Distinct := ⟨h, fun _ hdocs => hdocs⟩

theorem Collection.Distinct.committed (h : c.Distinct) (hix : (ix.docs.map Doc.id).Nodup) :
    (c.committed ix).Distinct := ⟨h.writer ix.docs hix, fun _ hdocs => hdocs⟩

theorem Collection.Distinct.buffer (h : c.Distinct) {ops : List WriterOp}
    (hops : ∀ docs : List Doc, (docs.map Doc.id).Nodup →
      ((WriterOp.execAll ops docs).map Doc.id).Nodup) :
    Collection.Distinct { c with writer := c.writer ++ ops } where
  searcher := h.searcher
  writer docs hdocs := by
    rw [WriterOp.execAll_append]
    exact hops _ (h.writer docs hdocs)

theorem nodup_deleteTerm {docs : List Doc} (h : (docs.map Doc.id).Nodup) (id : String) :
    (((WriterOp.deleteTerm id).exec docs).map Doc.id).Nodup :=
  h.sublist (List.filter_sublist.map Doc.id)

/-- Where no id is there twice, a document is found by its id. -/
theorem find?_id_eq {docs : List Doc} (hids : (docs.map Doc.id).Nodup) {doc : Doc}
    (hdoc : doc ∈ docs) : docs.find? (fun d => d.id = doc.id) = some doc := by
  induction docs with
  | nil => contradiction
  | cons d docs ih =>
    rw [List.map_cons, List.nodup_cons] at hids
    rcases List.mem_cons.mp hdoc with rfl | hmem
    · simp
    · have hne : d.id ≠ doc.id := fun he => hids.1 (he ▸ List.mem_map_of_mem hmem)
      rw [List.find?_cons_of_neg (by simpa using hne)]
      exact ih hids.2 hmem

theorem Collection.Distinct.applyDelete {id : String} {r : Collection × Bool} (h : c.Distinct)
    (hr : c.applyDelete id = .ok r) : r.1.Distinct := by
  rw [Collection.applyDelete] at hr
  split at hr
  · contradiction
  · rw [← Except.ok.inj hr]
    exact h.buffer fun docs hdocs => nodup_deleteTerm hdocs id

end

/-! ## parts -/

namespace KeepsDistinct

section
variable {name : String} {target : Collection}

theorem setDir (u : Uuid) {dir : Dir}
    (hdir : ∀ ix, dir.index? = some ix → (ix.docs.map Doc.id).Nodup) :
    KeepsDistinct (step fun d => d.setDir u dir) :=
  Keeps.step fun _ h => h.setDir u hdir

theorem onWal {α : Type} (p : LogM α) : KeepsDistinct (Catalog.onWal p) :=
  Keeps.zoom (fun _ _ h => h.of_dirs rfl) (fun _ _ h => h) p

theorem commit (ht : target.Distinct) (mark : LogMark) :
    KeepsDistinct (Catalog.commit name target mark) := by
  refine Keeps.getDisk fun d hd => Keeps.getMem fun m hm => ?_
  have hc : (m.deref name target).Distinct := hm.deref ht
  dsimp only
  split
  · exact Keeps.throw _
  · rename_i ix hix
    have hold := hd _ ix hix
    refine (setDir _ fun ix' heq => ?_).bind fun _ _ =>
      Keeps.modifyMem fun _ hm' => hm'.store (hc.committed hold)
    exact Option.some.inj heq ▸ hc.writer ix.docs hold

theorem committedMark (u : Uuid) : KeepsDistinct (Catalog.committedMark u) := by
  refine Keeps.getDisk fun d _ => ?_
  split
  · exact Keeps.throw _
  · exact Keeps.pure trivial

theorem get : Keeps Disk.Distinct Catalog.Distinct Collection.Distinct (Catalog.get name) := by
  refine Keeps.getMem fun m hm => ?_
  split
  · rename_i e hf
    exact Keeps.pure (hm name e hf)
  · exact Keeps.throw _

theorem lookup : Keeps Disk.Distinct Catalog.Distinct (fun o => ∀ c, o = some c → c.Distinct)
    (Catalog.lookup name) := by
  refine Keeps.getMem fun m hm => Keeps.pure fun c hc => ?_
  obtain ⟨e, hf, rfl⟩ := Option.map_eq_some_iff.mp hc
  exact hm name e hf

theorem applyDelete {id : String} (ht : target.Distinct) :
    KeepsDistinct (Catalog.applyDelete name target id) :=
  Keeps.getMem fun _ hm => (Keeps.ofExcept (P := fun r => r.1.Distinct) fun _ hr =>
    (hm.deref ht).applyDelete hr).bind fun _ hr =>
      (Keeps.modifyMem fun _ hm' => hm'.store hr).thenPure _

theorem applyDeleteDoc (mark : LogMark) (delete : Proto.DeleteDocument) :
    KeepsDistinct (Catalog.applyDeleteDoc mark delete) := by
  refine lookup.bind fun found hfound => ?_
  split
  · exact Keeps.pure trivial
  · rename_i target
    refine (committedMark target.uuid).bind fun _ _ => ?_
    split
    · exact Keeps.pure trivial
    · exact (applyDelete (hfound target rfl)).thenPure _

theorem openCollection (u : Uuid) (x : Mapping) :
    Keeps Disk.Distinct Catalog.Distinct Collection.Distinct (Catalog.openCollection u x) := by
  refine Keeps.getDisk fun d hd => Keeps.getMem fun m _ => ?_
  split
  · exact Keeps.throw _
  · rename_i ix hix
    split
    · exact Keeps.throw _
    · exact Keeps.pure (Collection.distinct_fromIndex u x (hd u ix hix))

theorem createCollection (u : Uuid) (x : Mapping) :
    Keeps Disk.Distinct Catalog.Distinct Collection.Distinct (Catalog.createCollection u x) := by
  refine Keeps.getDisk fun d _ => ?_
  split
  · exact Keeps.throw _
  · refine (setDir u fun _ h => by contradiction).bind fun _ _ =>
      (setDir u fun _ h => by contradiction).bind fun _ _ =>
        (setDir u fun ix h => ?_).bind fun _ _ =>
          Keeps.pure (Collection.distinct_fromIndex u x List.nodup_nil)
    exact Option.some.inj h ▸ List.nodup_nil

theorem installCollection (u : Uuid) (x : Mapping) (seq : Nat) :
    KeepsDistinct (Catalog.installCollection name u x seq) := by
  refine Keeps.bind (P := Collection.Distinct) (Keeps.getDisk fun d _ => ?_) fun c hc =>
    Keeps.thenPure (Keeps.modifyMem fun _ hm => hm.insert hc) _
  split
  · exact openCollection u x
  · exact createCollection u x

theorem dropDir (u : Uuid) : KeepsDistinct (Catalog.dropDir u) := by
  refine Keeps.getDisk fun d _ => ?_
  split
  · exact (setDir u fun _ h => by contradiction).bind fun _ _ =>
      (setDir u fun _ h => by contradiction).bind fun _ _ => Keeps.step fun _ h => h.removeDir u
  · exact Keeps.pure trivial

theorem sweepOrphans (ord : IterOrder) (high : Nat) :
    KeepsDistinct (Catalog.sweepOrphans ord high) := by
  refine Keeps.getMem fun m _ => Keeps.getDisk fun d _ => Keeps.forEach fun u _ => ?_
  rw [Catalog.sweepDir]
  split
  · exact Keeps.pure trivial
  · refine Keeps.getDisk fun d _ => ?_
    split
    · exact Keeps.throw _
    · split
      · exact Keeps.step fun d h => (h.removeDir u).of_dirs rfl
      · exact Keeps.throw _

theorem nextSeq : KeepsDistinct Catalog.nextSeq :=
  Keeps.bind (Keeps.modifyMem fun _ hm => hm) fun _ _ => Keeps.getMem fun _ _ =>
    Keeps.pure trivial

end

end KeepsDistinct

/-! ## calls -/

section
variable [Ext] {name : String} {target c : Collection}

/-- An upsert deletes the id before it adds the document. -/
theorem Collection.Distinct.applyUpsert {id : String} {source : Bytes} {parsed : Value}
    {r : Collection × Bool} (h : c.Distinct) (hr : c.applyUpsert id source parsed = .ok r) :
    r.1.Distinct := by
  rw [Collection.applyUpsert] at hr
  split at hr
  · contradiction
  · rename_i doc hbuild
    obtain ⟨rfl, rfl⟩ := buildDoc_eq_ok hbuild
    rw [← Except.ok.inj hr]
    refine h.buffer fun docs hdocs => ?_
    show ((docs.filter fun d => d.id ≠ doc.id) ++ [doc]).map Doc.id |>.Nodup
    rw [List.map_append, List.nodup_append]
    refine ⟨nodup_deleteTerm hdocs doc.id, List.nodup_singleton _, fun id hid id' hid' => ?_⟩
    obtain ⟨doc', hdoc', rfl⟩ := List.mem_map.mp hid
    rw [List.map_singleton, List.mem_singleton] at hid'
    have hne := (List.mem_filter.mp hdoc').2
    simpa [hid'] using hne

namespace KeepsDistinct

theorem persist (ord : IterOrder) (a : Nat) : KeepsDistinct (Catalog.persist ord a) := by
  refine Keeps.getMem fun _ _ => Keeps.bind (P := fun _ => True) ?_ fun _ _ =>
    Keeps.bind (P := fun _ => True) ?_ fun _ _ => ?_ <;>
    exact Keeps.step fun _ h => h.of_dirs rfl

theorem checkpoint (ord : IterOrder) : KeepsDistinct (Catalog.checkpoint ord) := by
  refine Keeps.getMem fun _ _ => Keeps.bind (P := fun _ => True) (Keeps.getMem fun m hm =>
    (Keeps.forEach fun p hp => ?_).bind fun _ _ => persist ord _) fun _ _ => onWal _
  exact commit (hm p.1 p.2 (OrdMap.find?_eq_some_iff.mpr (ord.mem.mp hp))) _

theorem applyUpsert {id : String} {source : Bytes} {parsed : Value} (ht : target.Distinct) :
    KeepsDistinct (Catalog.applyUpsert name target id source parsed) :=
  Keeps.getMem fun _ hm => (Keeps.ofExcept (P := fun r => r.1.Distinct) fun _ hr =>
    (hm.deref ht).applyUpsert hr).bind fun _ hr =>
      (Keeps.modifyMem fun _ hm' => hm'.store hr).thenPure _

theorem applyIndex (mark : LogMark) (index : Proto.IndexDocument) :
    KeepsDistinct (Catalog.applyIndex mark index) := by
  refine lookup.bind fun found hfound => ?_
  split
  · exact Keeps.pure trivial
  · rename_i target
    refine (committedMark target.uuid).bind fun _ _ => ?_
    split
    · exact Keeps.pure trivial
    · rw [Catalog.applyIndexBehind]
      split
      · exact Keeps.throw _
      · exact (applyUpsert (hfound target rfl)).thenPure _

theorem applyCreate (ord : IterOrder) (mark : LogMark) (create : Proto.CreateCollection) :
    KeepsDistinct (Catalog.applyCreate ord mark create) := by
  refine (Keeps.check _).bind fun x _ => lookup.bind fun existing _ => ?_
  split
  · exact Keeps.pure trivial
  · exact (Keeps.check _).bind fun u _ => (installCollection u x _).bind fun _ _ => persist ord _

theorem applyDrop (ord : IterOrder) (mark : LogMark) :
    KeepsDistinct (Catalog.applyDrop ord mark name) := by
  refine Keeps.getMem fun m _ => (Keeps.modifyMem fun _ hm => hm.erase name).bind fun _ _ => ?_
  split
  · exact Keeps.pure trivial
  · exact (dropDir _).bind fun _ _ => persist ord _

theorem applyCommand (ord : IterOrder) (mark : LogMark) (cmd : Proto.Command) :
    KeepsDistinct (Catalog.applyCommand ord mark cmd) := by
  rw [Catalog.applyCommand]
  split
  · exact (applyCreate ord mark _).thenPure _
  · exact (applyDrop ord mark).thenPure _
  · exact applyIndex mark _
  · exact applyDeleteDoc mark _
  · exact Keeps.pure trivial

theorem openEntry (dropped : List String) (entry : Proto.CatalogEntry) :
    KeepsDistinct (Catalog.openEntry dropped entry) := by
  rw [Catalog.openEntry]
  split
  · exact Keeps.pure trivial
  · refine (Keeps.check _).bind fun r _ => ?_
    obtain ⟨u, x⟩ := r
    refine Keeps.getDisk fun d _ => ?_
    split
    · exact Keeps.bind (Keeps.modifyMem fun _ hm => hm) fun _ _ =>
        Keeps.bind (openCollection u x) fun c hc => Keeps.modifyMem fun _ hm => hm.insert hc
    · exact Keeps.throw _

theorem replayEntry (ord : IterOrder) (a : Nat) (entry : Proto.WalEntry) :
    KeepsDistinct (Catalog.replayEntry ord a entry) := by
  rw [Catalog.replayEntry]
  split
  · exact Keeps.pure trivial
  · split
    · exact Keeps.pure trivial
    · exact (applyCommand ord _ _).thenPure _

theorem loadCatalog : KeepsDistinct Catalog.loadCatalog :=
  Keeps.getDisk fun _ _ => (Keeps.check _).bind fun _ _ =>
    Keeps.bind (Keeps.modifyMem fun _ _ n e hf => by contradiction) fun _ _ =>
      Keeps.bind (onWal Wal.openWal) fun _ _ => Keeps.bind (Keeps.modifyMem fun _ hm => hm)
        fun _ _ => Keeps.thenPure (Keeps.forEach fun entry _ => openEntry _ entry) _

theorem openCatalog (ord : IterOrder) : KeepsDistinct (Catalog.openCatalog ord) := by
  refine loadCatalog.bind fun r _ => ?_
  obtain ⟨a, entries⟩ := r
  refine (Keeps.forEach fun entry _ => replayEntry ord a entry).bind fun _ _ =>
    Keeps.getMem fun m _ => (sweepOrphans ord m.seq).bind fun _ _ => ?_
  split
  · exact checkpoint ord
  · exact Keeps.pure trivial

theorem create (x : Mapping) (minted : Uuid) : KeepsDistinct (Catalog.create name x minted) := by
  refine (Keeps.check _).bind fun _ _ => lookup.bind fun existing _ => ?_
  split
  · split
    · exact Keeps.pure trivial
    · exact Keeps.throw _
  · exact nextSeq.bind fun seq _ => (onWal _).bind fun _ _ =>
      (installCollection minted x seq).thenPure _

theorem dropCollection : KeepsDistinct (Catalog.dropCollection name) := by
  refine Keeps.getMem fun m _ => ?_
  split
  · exact Keeps.throw _
  · exact nextSeq.bind fun seq _ => (onWal _).bind fun _ _ =>
      (Keeps.modifyMem fun _ hm => hm.erase name).bind fun _ _ => dropDir _

theorem upsertDocument (id : Option String) (source : Bytes) (minted : Uuid) :
    KeepsDistinct (Catalog.upsertDocument name id source minted) :=
  get.bind fun _ ht => (Keeps.check _).bind fun _ _ => nextSeq.bind fun _ _ =>
    (onWal _).bind fun _ _ => (applyUpsert ht).thenPure _

theorem deleteDocument (id : String) : KeepsDistinct (Catalog.deleteDocument name id) :=
  get.bind fun _ ht => nextSeq.bind fun _ _ => (onWal _).bind fun _ _ => applyDelete ht

end KeepsDistinct

end

end Lumen
