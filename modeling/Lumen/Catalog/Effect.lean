import Lumen.Catalog.Slots

/-!
# Lumen.Catalog.Effect

What applying a command can do.  `Effect` lists the four ways: nothing, a
collection opened or created and the catalog written, a collection removed and
the catalog written, or a document operation buffered.  `wp_applyCommand` says
that these are all; what follows from a command is then proved by cases on
`Effect`.
-/

namespace Lumen

open Lib Prog Replay

/-! ## directories -/

theorem Dir.eq_index {dir : Dir} {ix : Index} (h : dir.index? = some ix) : dir = .index ix := by
  cases dir <;> simp_all [index?]

namespace Disk

variable (d : Disk) (u u' : Uuid)

theorem index_setDir (dir : Dir) :
    (d.setDir u dir).index u' = if u' = u then dir.index? else d.index u' := by
  rw [index, setDir, OrdMap.find?_insert]
  split
  · rfl
  · rfl

theorem index_removeDir : (d.removeDir u).index u' = if u' = u then none else d.index u' := by
  rw [index, removeDir, OrdMap.find?_erase]
  split
  · rfl
  · rfl

theorem contains_setDir (dir : Dir) :
    (d.setDir u dir).dirs.contains u' = (u' = u || d.dirs.contains u') := by
  rw [setDir, OrdMap.contains, OrdMap.contains, OrdMap.find?_insert]
  by_cases h : u' = u <;> simp [h]

theorem contains_removeDir :
    (d.removeDir u).dirs.contains u' = (u' ≠ u && d.dirs.contains u') := by
  rw [removeDir, OrdMap.contains, OrdMap.contains, OrdMap.find?_erase]
  by_cases h : u' = u <;> simp [h]

theorem setDir_setDir (dir dir' : Dir) : (d.setDir u dir').setDir u dir = d.setDir u dir := by
  simp only [setDir, OrdMap.insert_insert]

theorem removeDir_setDir (dir : Dir) : (d.setDir u dir).removeDir u = d.removeDir u := by
  simp only [setDir, removeDir, OrdMap.erase_insert]

variable {d u}

theorem contains_of_index {ix : Index} (h : d.index u = some ix) : d.dirs.contains u = true := by
  rw [OrdMap.contains]
  cases hf : d.dirs.find? u with
  | none => simp [index, hf] at h
  | some dir => rfl

theorem setDir_index {ix : Index} (h : d.index u = some ix) : d.setDir u (.index ix) = d := by
  have hfind : d.dirs.find? u = some (.index ix) := by
    obtain ⟨dir, hdir, hix⟩ := Option.bind_eq_some_iff.mp h
    rw [hdir, Dir.eq_index hix]
  rw [setDir, OrdMap.insert_of_find?_some hfind]

section
variable [Ext]

/-- The catalog file replaced. -/
def withCatalog (d : Disk) (snapshot : Proto.CatalogSnapshot) : Disk :=
  { d with catalogPb := some (Ext.catalogSnapshot.encode snapshot), catalogTmp := none }

@[simp] theorem index_withCatalog (d : Disk) (s : Proto.CatalogSnapshot) :
    (d.withCatalog s).index = d.index := rfl

end

end Disk

section
variable {α : Type} {d : Disk} {m : Catalog} {E : Error → Disk → Catalog → Prop} {C : Disk → Prop}

/-! ## functions of the catalog -/

namespace Catalog

theorem wp_onWal {Q : α → Disk → Catalog → Prop} (p : LogM α)
    (h : wp p (fun a l lg => Q a { d with wal := l } { m with wal := lg })
      (fun e l lg => E e { d with wal := l } { m with wal := lg })
      (fun l => C { d with wal := l }) d.wal m.wal) :
    wp (onWal p) Q E C d m := by
  rw [onWal, wp_zoom]
  exact h

theorem wp_lookup {Q : Option Collection → Disk → Catalog → Prop} (name : String) :
    wp (lookup name) Q E C d m ↔ Q ((m.collections.find? name).map Entry.collection) d m := by
  simp only [lookup, wp_bind, wp_getMem, wp_pure]

theorem wp_dropDir {Q : Unit → Disk → Catalog → Prop} (u : Uuid)
    (hC : ∀ dir : Dir, dir.index? = none → C (d.setDir u dir))
    (hC' : C (d.removeDir u)) (hQ : Q () (d.removeDir u) m) : wp (dropDir u) Q E C d m := by
  rw [dropDir, wp_bind, wp_getDisk]
  split
  · simp only [wp_bind, wp_step, Disk.removeDir_setDir, Disk.setDir_setDir]
    exact ⟨hC _ rfl, hC _ rfl, hC', hQ⟩
  · rename_i hno
    have hsame : d.removeDir u = d := by
      rw [Disk.removeDir,
        OrdMap.erase_of_find?_none (OrdMap.contains_eq_false_iff.mp (Bool.not_eq_true _ ▸ hno))]
    rw [hsame] at hQ
    exact hQ

/-- A handle on the collection the map holds under the name. -/
theorem deref_of_uuid {name : String} {e : Entry} {target : Collection}
    (hf : m.collections.find? name = some e) (ht : target.uuid = e.uuid) :
    m.deref name target = e.collection := by
  simp [deref, hf, ht]

theorem wp_committedMark {Q : Option LogMark → Disk → Catalog → Prop}
    {u : Uuid} {ix : Index} (hix : d.index u = some ix)
    (hQ : Q ix.payload d m) : wp (committedMark u) Q E C d m := by
  rw [committedMark, wp_bind, wp_getDisk, hix]
  exact hQ

/-- Whether a directory can be opened or created for a new collection. -/
def Installable (d : Disk) (m : Catalog) (u : Uuid) : Prop :=
  d.dirs.contains u = true → (d.index u).isSome ∧ m.isOpen u = false

theorem wp_openOrCreate {Q : Collection → Disk → Catalog → Prop} (u : Uuid) (x : Mapping)
    (hC : d.dirs.contains u = false →
      ∀ dir : Dir, dir.index? = none ∨ dir = .index ⟨x.toSchema, [], none⟩ → C (d.setDir u dir))
    (hE : ∀ e, ¬ Installable d m u → E e d m)
    (hopen : ∀ ix, d.index u = some ix → m.isOpen u = false → Q (.fromIndex u x ix) d m)
    (hcreate : d.dirs.contains u = false →
      Q (.fromIndex u x ⟨x.toSchema, [], none⟩) (d.setDir u (.index ⟨x.toSchema, [], none⟩)) m) :
    wp (openOrCreate u x) Q E C d m := by
  rw [openOrCreate, wp_bind, wp_getDisk]
  cases hc : d.dirs.contains u with
  | true =>
    rw [if_pos rfl, openCollection, wp_bind, wp_getDisk, wp_bind, wp_getMem]
    cases hix : d.index u with
    | none => exact hE _ fun h => by simpa [hix] using (h hc).1
    | some ix =>
      cases ho : m.isOpen u with
      | true =>
        exact hE _ fun h => by simpa [ho] using (h hc).2
      | false =>
        exact hopen ix hix ho
  | false =>
    rw [if_neg Bool.false_ne_true, createCollection, wp_bind, wp_getDisk, hc,
      if_neg Bool.false_ne_true]
    simp only [wp_bind, wp_step, wp_pure, Disk.setDir_setDir]
    exact ⟨hC hc _ (.inl rfl), hC hc _ (.inl rfl), hC hc _ (.inr rfl), hcreate hc⟩

variable [Ext]

theorem wp_writeSnapshot {Q : Unit → Disk → Catalog → Prop} (s : Proto.CatalogSnapshot)
    (hC : ∀ tmp, C { d with catalogTmp := tmp }) (hC' : C (d.withCatalog s))
    (hQ : Q () (d.withCatalog s) m) : wp (writeSnapshot s) Q E C d m := by
  simp only [writeSnapshot, wp_bind, wp_step]
  exact ⟨hC _, hC _, hC', hQ⟩

theorem wp_persist {Q : Unit → Disk → Catalog → Prop} (ord : IterOrder) (a : Nat)
    (hC : ∀ tmp, C { d with catalogTmp := tmp }) (hC' : C (d.withCatalog (snapshotProto ord m a)))
    (hQ : Q () (d.withCatalog (snapshotProto ord m a)) m) : wp (persist ord a) Q E C d m := by
  rw [persist, wp_bind, wp_getMem]
  exact wp_writeSnapshot _ hC hC' hQ

end Catalog

end

/-! ## effects -/

section
variable [Ext]

/-- The map with a collection entered. -/
def Catalog.inserted (m : Catalog) (name : String) (u : Uuid) (x : Mapping) (seq : Nat)
    (ix : Index) : Catalog :=
  { m with collections := m.collections.insert name ⟨u, seq, .fromIndex u x ix⟩ }

/-- The map without a collection. -/
def Catalog.erased (m : Catalog) (name : String) : Catalog :=
  { m with collections := m.collections.erase name }

/-- A collection with operations buffered. -/
def Collection.buffer (c : Collection) (ops : List WriterOp) : Collection :=
  { c with writer := c.writer ++ ops }

/-- The states applying `cmd` at position `i` can lead to. -/
inductive Effect (ord : IterOrder) (i : Nat) (cmd : Proto.Command) (d : Disk) (m : Catalog) :
    Disk → Catalog → Prop where
  | same (h : ∀ name, (slotOf d m name).apply i (eventOf name cmd) = slotOf d m name) :
      Effect ord i cmd d m d m
  | create (c : Proto.CreateCollection) (u : Uuid) (x : Mapping) (ix : Index)
      (hop : cmd.op = some (.createCollection c)) (hu : Catalog.createUuid c = .ok u)
      (hx : Catalog.createMapping c = .ok x) (hfree : m.collections.find? c.collection = none)
      (hix : d.index u = some ix ∧ m.isOpen u = false ∨
        d.dirs.contains u = false ∧ ix = ⟨x.toSchema, [], none⟩) :
      Effect ord i cmd d m
        ((d.setDir u (.index ix)).withCatalog
          (Catalog.snapshotProto ord (m.inserted c.collection u x i ix) i))
        (m.inserted c.collection u x i ix)
  | drop (name : String) (e : Catalog.Entry) (hop : cmd.op = some (.dropCollection ⟨name⟩))
      (hfind : m.collections.find? name = some e) :
      Effect ord i cmd d m
        ((d.removeDir e.uuid).withCatalog (Catalog.snapshotProto ord (m.erased name) i))
        (m.erased name)
  | edit (name id : String) (v : Option Bytes) (e : Catalog.Entry) (ops : List WriterOp)
      (hev : ∀ n, eventOf n cmd = if name = n then .edit id v else .skip)
      (hfind : m.collections.find? name = some e) (hmark : (slotOf d m name).mark < i)
      (hops : ∀ docs, view (WriterOp.execAll ops docs) = Function.update (view docs) id v) :
      Effect ord i cmd d m d (m.store name (e.collection.buffer ops))

/-- The disks a crash inside the application of `cmd` at position `i` can
leave: a directory that is made or removed with the catalog file not yet
replaced, or the disk of an effect. -/
inductive Cut (ord : IterOrder) (i : Nat) (cmd : Proto.Command) (d : Disk) (m : Catalog) :
    Disk → Prop where
  | making (u : Uuid) (dir : Dir) (tmp : Option Bytes) (hno : d.dirs.contains u = false) :
      Cut ord i cmd d m { d.setDir u dir with catalogTmp := tmp }
  | writing (tmp : Option Bytes) : Cut ord i cmd d m { d with catalogTmp := tmp }
  | emptied (name : String) (e : Catalog.Entry) (dir : Dir)
      (hfind : m.collections.find? name = some e) (hop : cmd.op = some (.dropCollection ⟨name⟩))
      (hdir : dir.index? = none) : Cut ord i cmd d m (d.setDir e.uuid dir)
  | removed (name : String) (e : Catalog.Entry) (tmp : Option Bytes)
      (hfind : m.collections.find? name = some e) (hop : cmd.op = some (.dropCollection ⟨name⟩)) :
      Cut ord i cmd d m { d.removeDir e.uuid with catalogTmp := tmp }
  | done {d' : Disk} {m' : Catalog} (h : Effect ord i cmd d m d' m') : Cut ord i cmd d m d'

/-- What a command needs to be applied without an error. -/
def Applicable (d : Disk) (m : Catalog) (i : Nat) (cmd : Proto.Command) : Prop :=
  match cmd.op with
  | some (.createCollection c) =>
    (∃ x, Catalog.createMapping c = .ok x) ∧ (m.collections.find? c.collection = none →
      ∃ u, Catalog.createUuid c = .ok u ∧ Catalog.Installable d m u)
  | some (.indexDocument index) =>
    ∀ e, m.collections.find? index.collection = some e →
      (slotOf d m index.collection).mark < i →
      ∃ parsed doc, fromSlice index.source = .ok parsed ∧
        buildDoc e.collection.schema e.collection.mapping index.id index.source parsed = .ok doc
  | _ => True

variable {ord : IterOrder} {mark : LogMark} {cmd : Proto.Command} {d : Disk} {m : Catalog}
  {C : Disk → Prop}

theorem wp_applyCreate {Q : Unit → Disk → Catalog → Prop} {E : Error → Disk → Catalog → Prop}
    {c : Proto.CreateCollection} (hop : cmd.op = some (.createCollection c))
    (hC : ∀ d', Cut ord mark.index cmd d m d' → C d')
    (hE : ∀ e d' m', ¬ Applicable d m mark.index cmd → E e d' m')
    (hQ : ∀ d' m', Effect ord mark.index cmd d m d' m' → Q () d' m') :
    wp (Catalog.applyCreate ord mark c) Q E C d m := by
  rw [Catalog.applyCreate, wp_bind]
  cases hx : Catalog.createMapping c with
  | error e =>
    refine hE e d m fun h => ?_
    simp only [Applicable, hop] at h
    obtain ⟨⟨x, hx'⟩, _⟩ := h
    rw [hx] at hx'
    contradiction
  | ok x =>
    rw [wp_ofExcept_ok, wp_bind, Catalog.wp_lookup]
    cases hf : m.collections.find? c.collection with
    | some e =>
      refine hQ d m (.same fun name => ?_)
      simp only [eventOf, hop]
      split
      · rename_i hn
        subst hn
        split
        · simp [Slot.apply, slotOf, hf]
        · rfl
      · rfl
    | none =>
      rw [Option.map_none, Catalog.applyNewCreate, wp_bind]
      cases hu : Catalog.createUuid c with
      | error e =>
        refine hE e d m fun h => ?_
        simp only [Applicable, hop] at h
        obtain ⟨u, hu', _⟩ := h.2 hf
        rw [hu] at hu'
        contradiction
      | ok u =>
        rw [wp_ofExcept_ok, wp_bind, Catalog.installCollection, wp_bind]
        refine Catalog.wp_openOrCreate u x (fun hno dir _ => hC _ (.making u dir _ hno))
          (fun e hi => hE e d m fun h => ?_) (fun ix hix ho => ?_) fun hno => ?_
        · simp only [Applicable, hop] at h
          obtain ⟨u', hu', hins⟩ := h.2 hf
          rw [hu, Except.ok.injEq] at hu'
          exact hi (hu' ▸ hins)
        · simp only [wp_bind, wp_modifyMem, wp_pure]
          have heff : Effect ord mark.index cmd d m _ _ :=
            .create c u x ix hop hu hx hf (.inl ⟨hix, ho⟩)
          rw [Disk.setDir_index hix] at heff
          exact Catalog.wp_persist ord mark.index (fun tmp => hC _ (.writing tmp))
            (hC _ (.done heff)) (hQ _ _ heff)
        · simp only [wp_bind, wp_modifyMem, wp_pure]
          have heff : Effect ord mark.index cmd d m _ _ :=
            .create c u x _ hop hu hx hf (.inr ⟨hno, rfl⟩)
          exact Catalog.wp_persist ord mark.index (fun tmp => hC _ (.making u _ tmp hno))
            (hC _ (.done heff)) (hQ _ _ heff)

theorem wp_applyDrop {Q : Unit → Disk → Catalog → Prop} {E : Error → Disk → Catalog → Prop}
    {name : String} (hop : cmd.op = some (.dropCollection ⟨name⟩))
    (hC : ∀ d', Cut ord mark.index cmd d m d' → C d')
    (hQ : ∀ d' m', Effect ord mark.index cmd d m d' m' → Q () d' m') :
    wp (Catalog.applyDrop ord mark name) Q E C d m := by
  simp only [Catalog.applyDrop, wp_bind, wp_getMem, wp_modifyMem]
  cases hf : m.collections.find? name with
  | none =>
    rw [OrdMap.erase_of_find?_none hf]
    refine hQ d m (.same fun n => ?_)
    simp only [eventOf, hop]
    split
    · rename_i hn
      subst hn
      simp [Slot.apply, slotOf, hf]
    · rfl
  | some e =>
    have heff : Effect ord mark.index cmd d m _ _ := .drop name e hop hf
    refine (wp_bind _ _).mpr (Catalog.wp_dropDir e.uuid
      (fun dir hdir => hC _ (.emptied name e dir hf hop hdir))
      (hC _ (.removed name e _ hf hop)) ?_)
    exact Catalog.wp_persist ord mark.index (fun tmp => hC _ (.removed name e tmp hf hop))
      (hC _ (.done heff)) (hQ _ _ heff)

/-- A document command on an absent or committed collection does nothing; on
another one, what is to be done is left to the caller. -/
theorem edit_cases {name id : String} {v : Option Bytes} {i : Nat}
    (hev : ∀ n, eventOf n cmd = if name = n then .edit id v else .skip)
    (hno : m.collections.find? name = none ∨ ∃ e ix, m.collections.find? name = some e ∧
      d.index e.uuid = some ix ∧ i ≤ ix.mark) :
    Effect ord i cmd d m d m := by
  refine .same fun n => ?_
  rw [hev n]
  split
  · rename_i hn
    subst hn
    rcases hno with hf | ⟨e, ix, hf, hix, hle⟩
    · simp [Slot.apply, slotOf, hf]
    · exact slotOf_apply_of_le hf hix hle
  · rfl

theorem eventOf_index {index : Proto.IndexDocument} (hop : cmd.op = some (.indexDocument index))
    (n : String) : eventOf n cmd =
      if index.collection = n then .edit index.id (some index.source) else .skip := by
  simp only [eventOf, hop]

theorem eventOf_delete {delete : Proto.DeleteDocument}
    (hop : cmd.op = some (.deleteDocument delete)) (n : String) :
    eventOf n cmd = if delete.collection = n then .edit delete.id none else .skip := by
  simp only [eventOf, hop]

/-- The document an index command makes for a collection. -/
def Catalog.docOf (c : Collection) (index : Proto.IndexDocument) : Except Error Doc :=
  match fromSlice index.source with
  | .error e => .error (.recovery ("index command has invalid json: " ++ e))
  | .ok parsed => buildDoc c.schema c.mapping index.id index.source parsed

/-- `apply_index` behind its lookup. -/
def Catalog.applyIndexTo (mark : LogMark) (index : Proto.IndexDocument) (target : Collection) :
    CatalogM ApplyOutcome := do
  let committed ← committedMark target.uuid
  if mark.index ≤ (committed.getD default).index then pure ⟨index.id, false⟩
  else applyIndexBehind target index

/-- `apply_delete_doc` behind its lookup. -/
def Catalog.applyDeleteTo (mark : LogMark) (delete : Proto.DeleteDocument) (target : Collection) :
    CatalogM ApplyOutcome := do
  let committed ← committedMark target.uuid
  if mark.index ≤ (committed.getD default).index then pure default
  else applyDeleteBehind target delete

section
variable {name : String} {e : Catalog.Entry} {ix : Index} {target : Collection}

/-- The document command of a collection that was looked up: it fails where the
collection is behind and the document does not fit. -/
theorem wp_applyIndexTo {Q : ApplyOutcome → Disk → Catalog → Prop}
    {E : Error → Disk → Catalog → Prop} {index : Proto.IndexDocument}
    (hop : cmd.op = some (.indexDocument index))
    (hf : m.collections.find? index.collection = some e) (ht : target.uuid = e.uuid)
    (hix : d.index e.uuid = some ix)
    (hE : ∀ err, ix.mark < mark.index → Catalog.docOf e.collection index = .error err → E err d m)
    (hQ : ∀ a d' m', (ix.mark < mark.index → ∃ doc, Catalog.docOf e.collection index = .ok doc) →
      Effect ord mark.index cmd d m d' m' → Q a d' m') :
    wp (Catalog.applyIndexTo mark index target) Q E C d m := by
  have hev := eventOf_index hop
  have hmark := slotOf_mark hf hix
  rw [Catalog.applyIndexTo, wp_bind, ht]
  refine Catalog.wp_committedMark hix ?_
  split
  · rename_i hle
    exact hQ _ d m (fun hlt => absurd hle (Nat.not_le.mpr hlt))
      (edit_cases hev (.inr ⟨e, ix, hf, hix, hle⟩))
  · rename_i hlt
    have hlt : ix.mark < mark.index := Nat.lt_of_not_le hlt
    rw [Catalog.applyIndexBehind]
    cases hj : fromSlice index.source with
    | error err => exact hE _ hlt (by simp only [Catalog.docOf, hj])
    | ok parsed =>
      simp only [Catalog.applyUpsert, wp_bind, wp_getMem, Catalog.deref_of_uuid hf ht,
        Collection.applyUpsert]
      cases hb : buildDoc e.collection.schema e.collection.mapping index.id index.source
          parsed with
      | error err => exact hE err hlt (by simp only [Catalog.docOf, hj, hb])
      | ok doc =>
        obtain ⟨hid, hsrc⟩ := buildDoc_eq_ok hb
        refine hQ _ d _ (fun _ => ⟨doc, by simp only [Catalog.docOf, hj, hb]⟩)
          (.edit index.collection index.id (some index.source) e
            [.deleteTerm index.id, .addDocument doc] hev hf (hmark ▸ hlt) fun docs => ?_)
        rw [← hid, ← hsrc]
        exact view_replace doc docs

theorem wp_applyDeleteTo {Q : ApplyOutcome → Disk → Catalog → Prop}
    {E : Error → Disk → Catalog → Prop} {delete : Proto.DeleteDocument}
    (hop : cmd.op = some (.deleteDocument delete)) (he : EntryBased d e)
    (hf : m.collections.find? delete.collection = some e) (ht : target.uuid = e.uuid)
    (hQ : ∀ a d' m', Effect ord mark.index cmd d m d' m' → Q a d' m') :
    wp (Catalog.applyDeleteTo mark delete target) Q E C d m := by
  have hev := eventOf_delete hop
  obtain ⟨ix, hix, _⟩ := he.index
  have hmark := slotOf_mark hf hix
  rw [Catalog.applyDeleteTo, wp_bind, ht]
  refine Catalog.wp_committedMark hix ?_
  split
  · rename_i hle
    exact hQ _ d m (edit_cases hev (.inr ⟨e, ix, hf, hix, hle⟩))
  · rename_i hlt
    have hlt : ix.mark < mark.index := Nat.lt_of_not_le hlt
    obtain ⟨field, hfield⟩ := getField_idField e.collection.mapping
    rw [← he.schema] at hfield
    simp only [Catalog.applyDeleteBehind, Catalog.applyDelete, wp_bind, wp_getMem,
      Catalog.deref_of_uuid hf ht, Collection.applyDelete, hfield]
    exact hQ _ d _ (.edit delete.collection delete.id none e [.deleteTerm delete.id] hev hf
      (hmark ▸ hlt) fun docs => view_deleteTerm delete.id docs)

end

theorem wp_applyIndex {Q : ApplyOutcome → Disk → Catalog → Prop}
    {E : Error → Disk → Catalog → Prop} {index : Proto.IndexDocument} (hs : Based d m)
    (hop : cmd.op = some (.indexDocument index))
    (hE : ∀ e d' m', ¬ Applicable d m mark.index cmd → E e d' m')
    (hQ : ∀ a d' m', Effect ord mark.index cmd d m d' m' → Q a d' m') :
    wp (Catalog.applyIndex mark index) Q E C d m := by
  rw [Catalog.applyIndex, wp_bind, Catalog.wp_lookup]
  cases hf : m.collections.find? index.collection with
  | none => exact hQ _ d m (edit_cases (eventOf_index hop) (.inl hf))
  | some e =>
    have he := hs.entry _ e hf
    obtain ⟨ix, hix, _⟩ := he.index
    refine wp_applyIndexTo hop hf he.uuid hix (fun err hlt hdoc => hE err d m fun h => ?_)
      fun a d' m' _ h => hQ a d' m' h
    simp only [Applicable, hop] at h
    obtain ⟨parsed, doc, hp, hb⟩ := h e hf (slotOf_mark hf hix ▸ hlt)
    simp [Catalog.docOf, hp, hb] at hdoc

theorem wp_applyDeleteDoc {Q : ApplyOutcome → Disk → Catalog → Prop}
    {E : Error → Disk → Catalog → Prop} {delete : Proto.DeleteDocument} (hs : Based d m)
    (hop : cmd.op = some (.deleteDocument delete))
    (hQ : ∀ a d' m', Effect ord mark.index cmd d m d' m' → Q a d' m') :
    wp (Catalog.applyDeleteDoc mark delete) Q E C d m := by
  rw [Catalog.applyDeleteDoc, wp_bind, Catalog.wp_lookup]
  cases hf : m.collections.find? delete.collection with
  | none => exact hQ _ d m (edit_cases (eventOf_delete hop) (.inl hf))
  | some e =>
    have he := hs.entry _ e hf
    exact wp_applyDeleteTo hop he hf he.uuid hQ

/-- **Applying a command** has one of the four effects, and fails only where
it is not applicable. -/
theorem wp_applyCommand {Q : ApplyOutcome → Disk → Catalog → Prop}
    {E : Error → Disk → Catalog → Prop} (hs : Based d m)
    (hC : ∀ d', Cut ord mark.index cmd d m d' → C d')
    (hE : ∀ e d' m', ¬ Applicable d m mark.index cmd → E e d' m')
    (hQ : ∀ a d' m', Effect ord mark.index cmd d m d' m' → Q a d' m') :
    wp (Catalog.applyCommand ord mark cmd) Q E C d m := by
  rw [Catalog.applyCommand]
  split
  · rename_i c hop
    rw [wp_bind]
    exact wp_applyCreate hop hC hE fun d' m' h => hQ _ d' m' h
  · rename_i drop hop
    rw [wp_bind]
    exact wp_applyDrop hop hC fun d' m' h => hQ _ d' m' h
  · rename_i index hop
    exact wp_applyIndex hs hop hE hQ
  · rename_i delete hop
    exact wp_applyDeleteDoc hs hop hQ
  · rename_i hop
    exact hQ _ d m (.same fun n => by rw [eventOf, hop]; rfl)

end

end Lumen
