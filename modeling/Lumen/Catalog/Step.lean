import Lumen.Catalog.Effect

/-!
# Lumen.Catalog.Step

What a command leaves true, whatever its effect: the map and the directories
stay sound and owned by the log, the slot of every name is the old one with
the command's event applied, and the catalog file keeps listing the map.
-/

namespace Lumen

open Lib Replay

section
variable {d d' : Disk} {m m' : Catalog} {u : Uuid} {name : String} {e : Catalog.Entry}

/-! ## the map -/

theorem Catalog.uuid_ne_of_isOpen (h : m.isOpen u = false)
    (hf : m.collections.find? name = some e) : e.uuid ≠ u := by
  have hmem := OrdMap.find?_eq_some_iff.mp hf
  rw [Catalog.isOpen, List.any_eq_false] at h
  simpa using h _ hmem

theorem Catalog.isOpen_eq_false (h : ∀ name e, m.collections.find? name = some e → e.uuid ≠ u) :
    m.isOpen u = false := by
  rw [Catalog.isOpen, List.any_eq_false]
  intro p hp
  simpa using h p.1 p.2 (OrdMap.find?_eq_some_iff.mpr hp)

theorem Catalog.find?_inserted (x : Mapping) (seq : Nat) (ix : Index) (n : String) :
    (m.inserted name u x seq ix).collections.find? n =
      if n = name then some ⟨u, seq, .fromIndex u x ix⟩ else m.collections.find? n :=
  OrdMap.find?_insert ..

theorem Catalog.find?_erased (n : String) :
    (m.erased name).collections.find? n = if n = name then none else m.collections.find? n :=
  OrdMap.find?_erase ..

theorem Catalog.find?_store (c : Collection) (n : String) :
    (m.store name c).collections.find? n =
      if n = name then (m.collections.find? n).map fun e =>
        if e.uuid = c.uuid then { e with collection := c } else e
      else m.collections.find? n := by
  rw [Catalog.store, OrdMap.find?_modify]
  split
  · rename_i h
    rw [h]
  · rfl

/-- Storing through the handle of the collection in the map. -/
theorem Catalog.find?_store_self {c : Collection} (hf : m.collections.find? name = some e)
    (hu : c.uuid = e.uuid) (n : String) :
    (m.store name c).collections.find? n =
      if n = name then some { e with collection := c } else m.collections.find? n := by
  rw [Catalog.find?_store]
  split
  · rename_i h
    rw [h, hf, Option.map_some, if_pos hu.symm]
  · rfl

/-! ## entries and their directories -/

theorem EntryBased.congr (he : EntryBased d e) (h : d'.index e.uuid = d.index e.uuid) :
    EntryBased d' e :=
  ⟨he.uuid, he.schema, by rw [h]; exact he.index⟩

theorem EntryOk.congr (he : EntryOk d e) (h : d'.index e.uuid = d.index e.uuid) : EntryOk d' e :=
  ⟨he.uuid, he.schema, by rw [h]; exact he.index⟩

theorem toGen_congr (he : EntryBased d e) (h : d'.index e.uuid = d.index e.uuid) :
    e.toGen d' = e.toGen d := by
  rw [Catalog.Entry.toGen, Catalog.Entry.toGen, Collection.pending, Collection.pending, he.uuid, h]

/-- The identity of a collection about to be entered is not in the map. -/
theorem Based.uuid_ne {x : Mapping} {ix : Index} (hs : Based d m)
    (hix : d.index u = some ix ∧ m.isOpen u = false ∨
      d.dirs.contains u = false ∧ ix = ⟨x.toSchema, [], none⟩) {n : String} {e : Catalog.Entry}
    (hf : m.collections.find? n = some e) : e.uuid ≠ u := by
  rcases hix with ⟨_, ho⟩ | ⟨hno, _⟩
  · exact Catalog.uuid_ne_of_isOpen ho hf
  · rintro rfl
    obtain ⟨ix', hix', _⟩ := (hs.entry n e hf).index
    rw [Disk.contains_of_index hix'] at hno
    contradiction

theorem slotOf_live (d : Disk) (m : Catalog) (n : String) :
    (slotOf d m n).live = (m.collections.find? n).map fun e => e.toGen d := rfl

/-- What a slot holds depends on its own entry and directory. -/
theorem slotOf_live_congr (hs : Based d m)
    (hfind : m'.collections.find? name = m.collections.find? name)
    (hidx : ∀ e, m.collections.find? name = some e → d'.index e.uuid = d.index e.uuid) :
    (slotOf d' m' name).live = (slotOf d m name).live := by
  rw [slotOf_live, slotOf_live, hfind]
  cases hf : m.collections.find? name with
  | none => rfl
  | some e => rw [Option.map_some, Option.map_some, toGen_congr (hs.entry name e hf) (hidx e hf)]

/-- The slot of a name is untouched by a change of another collection's
directory. -/
theorem slotOf_agree {log : Log Uuid Mapping String Bytes} {top : Nat} (hs : Based d m)
    (hfind : m'.collections.find? name = m.collections.find? name)
    (hframe : ∀ u', u' ≠ u → d'.index u' = d.index u')
    (hne : ∀ e, m.collections.find? name = some e → e.uuid ≠ u)
    (hown : ∀ i x, i ≤ top → log i ≠ .create u x) :
    (slotOf d m name).Agree log top (slotOf d' m' name) where
  live := slotOf_live_congr hs hfind fun e hf => hframe _ (hne e hf)
  stores i u' x hi hc := by
    have hu : u' ≠ u := fun h => hown i x hi (h ▸ hc)
    simp only [slotOf, hframe u' hu]

/-- Buffered operations show in the generation's documents. -/
theorem toGen_buffer {ops : List WriterOp} {id : String} {v : Option Bytes}
    (hops : ∀ docs, view (WriterOp.execAll ops docs) = Function.update (view docs) id v) :
    ({ e with collection := e.collection.buffer ops } : Catalog.Entry).toGen d =
      { e.toGen d with docs := Function.update (e.toGen d).docs id v } := by
  simp only [Catalog.Entry.toGen, Collection.pending, Collection.buffer, WriterOp.execAll_append,
    hops]

end

section
variable [Ext] {ord : IterOrder} {i top : Nat} {cmd : Proto.Command} {cmds : Nat → Proto.Command}
  {d d' : Disk} {m m' : Catalog}

/-! ## events -/

theorem eventOf_create {c : Proto.CreateCollection} {u : Uuid} {x : Mapping}
    (hop : cmd.op = some (.createCollection c)) (hu : Catalog.createUuid c = .ok u)
    (hx : Catalog.createMapping c = .ok x) (n : String) :
    eventOf n cmd = if c.collection = n then .create u x else .skip := by
  simp only [eventOf, hop, hu, hx]

theorem eventOf_drop {name : String} (hop : cmd.op = some (.dropCollection ⟨name⟩)) (n : String) :
    eventOf n cmd = if name = n then .drop else .skip := by
  simp only [eventOf, hop]

theorem eventOf_eq_create_iff {n : String} {u : Uuid} {x : Mapping} :
    eventOf n cmd = .create u x ↔ ∃ c, cmd.op = some (.createCollection c) ∧ c.collection = n ∧
      Catalog.createUuid c = .ok u ∧ Catalog.createMapping c = .ok x := by
  constructor
  · intro h
    simp only [eventOf] at h
    split at h
    · rename_i c hop
      split at h
      · rename_i hn
        split at h
        · rename_i hu hx
          injection h with h1 h2
          subst h1 h2
          exact ⟨c, hop, hn, hu, hx⟩
        · contradiction
      · contradiction
    all_goals first | contradiction | (split at h <;> contradiction)
  · rintro ⟨c, hop, hn, hu, hx⟩
    rw [eventOf_create hop hu hx, if_pos hn]

/-- Only an index command stores a document. -/
theorem op_of_edit_some {n id : String} {source : Bytes}
    (h : eventOf n cmd = .edit id (some source)) :
    cmd.op = some (.indexDocument ⟨n, id, source⟩) := by
  simp only [eventOf] at h
  split at h
  · split at h
    · split at h <;> contradiction
    · contradiction
  · split at h <;> contradiction
  · rename_i index hop
    split at h
    · rename_i hn
      injection h with hid hsrc
      injection hsrc with hsrc
      rw [hop, ← hn, ← hid, ← hsrc]
    · contradiction
  · split at h
    · injection h with _ hsrc
      contradiction
    · contradiction
  · contradiction

/-- A command creates under one name only, with one identity and mapping. -/
theorem eventOf_create_inj {n n' : String} {u u' : Uuid} {x x' : Mapping}
    (h : eventOf n cmd = .create u x) (h' : eventOf n' cmd = .create u' x') :
    n = n' ∧ u = u' ∧ x = x' := by
  obtain ⟨c, hop, hn, hu, hx⟩ := eventOf_eq_create_iff.mp h
  obtain ⟨c', hop', hn', hu', hx'⟩ := eventOf_eq_create_iff.mp h'
  grind

/-- The creates of a log carry distinct identities, also within one name. -/
theorem DistinctUuids.eq {j : Nat} {n n' : String} {u : Uuid} {x x' : Mapping}
    (hd : DistinctUuids cmds) (h : eventOf n (cmds i) = .create u x)
    (h' : eventOf n' (cmds j) = .create u x') : i = j ∧ n = n' ∧ x = x' := by
  have hij := hd i j n n' u x x' h h'
  subst hij
  obtain ⟨hn, _, hx⟩ := eventOf_create_inj h h'
  exact ⟨rfl, hn, hx⟩

/-! ## what an effect keeps -/

/-- A directory that is opened again has the schema of the mapping it is
opened with. -/
theorem Owned.schema_eq {u : Uuid} {x : Mapping} {ix : Index} {n : String}
    (ho : Owned cmds top d m) (hd : DistinctUuids cmds) (hev : eventOf n (cmds i) = .create u x)
    (hix : d.index u = some ix ∧ m.isOpen u = false ∨
      d.dirs.contains u = false ∧ ix = ⟨x.toSchema, [], none⟩) : ix.schema = x.toSchema := by
  rcases hix with ⟨hix, _⟩ | ⟨_, rfl⟩
  · obtain ⟨j, n', x', _, hev', hschema⟩ := ho.dir u ix hix
    rw [hschema, (hd.eq hev hev').2.2]
  · rfl

/-- A command keeps every collection on its own directory, when one it opens
again has the schema of the new mapping. -/
theorem Effect.based_of_schema (h : Effect ord i cmd d m d' m') (hs : Based d m)
    (hreopen : ∀ n u x ix, eventOf n cmd = .create u x → d.index u = some ix →
      m.isOpen u = false → ix.schema = x.toSchema) : Based d' m' := by
  cases h with
  | same _ => exact hs
  | create c u x ix hop hu hx hfree hix =>
    have hschema : ix.schema = x.toSchema := by
      rcases hix with ⟨hix, ho⟩ | ⟨_, rfl⟩
      · exact hreopen c.collection u x ix (by rw [eventOf_create hop hu hx, if_pos rfl]) hix ho
      · rfl
    constructor
    · intro n e hf
      rw [Catalog.find?_inserted] at hf
      split at hf
      · injection hf with hf
        subst hf
        exact ⟨rfl, hschema, ix, by simp [Disk.index_setDir], rfl⟩
      · refine (hs.entry n e hf).congr ?_
        rw [Disk.index_withCatalog, Disk.index_setDir, if_neg (hs.uuid_ne hix hf)]
    · intro n n' e e' hf hf' he
      rw [Catalog.find?_inserted] at hf hf'
      split at hf <;> split at hf'
      · simp_all
      · injection hf with hf
        subst hf
        exact absurd he.symm (hs.uuid_ne hix hf')
      · injection hf' with hf'
        subst hf'
        exact absurd he (hs.uuid_ne hix hf)
      · exact hs.inj n n' e e' hf hf' he
  | drop name e hop hfind =>
    constructor
    · intro n e' hf
      rw [Catalog.find?_erased] at hf
      split at hf
      · contradiction
      · rename_i hn
        refine (hs.entry n e' hf).congr ?_
        rw [Disk.index_withCatalog, Disk.index_removeDir,
          if_neg fun hu => hn (hs.inj n name e' e hf hfind hu)]
    · intro n n' e₁ e₂ hf hf' he
      rw [Catalog.find?_erased] at hf hf'
      split at hf <;> split at hf'
      · contradiction
      · contradiction
      · contradiction
      · exact hs.inj n n' e₁ e₂ hf hf' he
  | edit name id v e ops hev hfind hmark hops =>
    have he := hs.entry name e hfind
    have hstore := Catalog.find?_store_self (c := e.collection.buffer ops) hfind he.uuid
    constructor
    · intro n e' hf
      rw [hstore] at hf
      split at hf
      · injection hf with hf
        subst hf
        exact ⟨he.uuid, he.schema, he.index⟩
      · exact hs.entry n e' hf
    · intro n n' e₁ e₂ hf hf' hu
      rw [hstore] at hf hf'
      split at hf <;> split at hf'
      · simp_all
      · rename_i hn _
        injection hf with hf
        subst hf hn
        exact hs.inj n n' e e₂ hfind hf' hu
      · rename_i hn
        injection hf' with hf'
        subst hf' hn
        exact hs.inj n n' e₁ e hf hfind hu
      · exact hs.inj n n' e₁ e₂ hf hf' hu

theorem Effect.owned (h : Effect ord i cmd d m d' m') (hcmd : cmds i = cmd) (hi : i ≤ top)
    (ho : Owned cmds top d m) (hd : DistinctUuids cmds) : Owned cmds top d' m' := by
  cases h with
  | same _ => exact ho
  | create c u x ix hop hu hx hfree hix =>
    have hev : eventOf c.collection (cmds i) = .create u x := by
      rw [hcmd, eventOf_create hop hu hx, if_pos rfl]
    constructor
    · intro u' ix' hix'
      rw [Disk.index_withCatalog, Disk.index_setDir] at hix'
      split at hix'
      · rename_i hu'
        injection hix' with hix'
        subst hu' hix'
        exact ⟨i, c.collection, x, hi, hev, ho.schema_eq hd hev hix⟩
      · exact ho.dir u' ix' hix'
    · intro n e hf
      rw [Catalog.find?_inserted] at hf
      split at hf
      · rename_i hn
        injection hf with hf
        subst hf hn
        exact ⟨hi, i, hi, hev⟩
      · exact ho.live n e hf
  | drop name e hop hfind =>
    constructor
    · intro u' ix' hix'
      rw [Disk.index_withCatalog, Disk.index_removeDir] at hix'
      split at hix'
      · contradiction
      · exact ho.dir u' ix' hix'
    · intro n e' hf
      rw [Catalog.find?_erased] at hf
      split at hf
      · contradiction
      · exact ho.live n e' hf
  | edit name id v e ops hev hfind hmark hops =>
    refine ⟨ho.dir, fun n e' hf => ?_⟩
    rw [Catalog.find?_store] at hf
    split at hf
    · rename_i hn
      subst hn
      rw [hfind, Option.map_some] at hf
      injection hf with hf
      rw [← hf]
      split <;> exact ho.live n e hfind
    · exact ho.live n e' hf

/-- A property of map entries and their directories holds of every entry after
a command, if it holds of those that stay, of the one a create enters, and of
one with an operation buffered. -/
theorem Effect.entries {P : Disk → String → Catalog.Entry → Prop}
    (h : Effect ord i cmd d m d' m') (hs : Based d m)
    (hkeep : ∀ n e d', m.collections.find? n = some e → d'.index e.uuid = d.index e.uuid →
      eventOf n cmd ≠ .drop → P d' n e)
    (hnew : ∀ n u x ix d', eventOf n cmd = .create u x →
      (d.index u = some ix ∧ m.isOpen u = false ∨
        d.dirs.contains u = false ∧ ix = ⟨x.toSchema, [], none⟩) →
      d'.index u = some ix → P d' n ⟨u, i, .fromIndex u x ix⟩)
    (hedit : ∀ n e id v ops, m.collections.find? n = some e → eventOf n cmd = .edit id v →
      (∀ docs, view (WriterOp.execAll ops docs) = Function.update (view docs) id v) →
      P d n { e with collection := e.collection.buffer ops }) :
    ∀ n e, m'.collections.find? n = some e → P d' n e := by
  cases h with
  | same h =>
    intro n e hf
    refine hkeep n e d hf rfl fun hdrop => ?_
    -- a drop would have emptied the slot
    have hslot := h n
    rw [hdrop] at hslot
    have hlive := congrArg Slot.live hslot
    simp [Slot.apply, slotOf_live, hf] at hlive
  | create c u x ix hop hu hx hfree hix =>
    have hev := eventOf_create hop hu hx
    intro n e hf
    rw [Catalog.find?_inserted] at hf
    split at hf
    · rename_i hn
      injection hf with hf
      subst hf hn
      refine hnew c.collection u x ix _ (by rw [hev, if_pos rfl]) hix ?_
      rw [Disk.index_withCatalog, Disk.index_setDir, if_pos rfl]
    · refine hkeep n e _ hf ?_ (by rw [hev]; split <;> simp)
      rw [Disk.index_withCatalog, Disk.index_setDir, if_neg (hs.uuid_ne hix hf)]
  | drop name e hop hfind =>
    intro n e' hf
    rw [Catalog.find?_erased] at hf
    split at hf
    · contradiction
    · rename_i hn
      refine hkeep n e' _ hf ?_ (by rw [eventOf_drop hop, if_neg (Ne.symm hn)]; simp)
      rw [Disk.index_withCatalog, Disk.index_removeDir,
        if_neg fun hu => hn (hs.inj n name e' e hf hfind hu)]
  | edit name id v e ops hev hfind hmark hops =>
    intro n e' hf
    rw [Catalog.find?_store_self (c := e.collection.buffer ops) hfind
      (hs.entry name e hfind).uuid] at hf
    split at hf
    · rename_i hn
      injection hf with hf
      subst hf hn
      exact hedit n e id v ops hfind (by rw [hev, if_pos rfl]) hops
    · exact hkeep n e' d hf rfl (by rw [hev]; split <;> simp)

/-- A command keeps the map sound, when a directory it opens again has the
schema of the new mapping. -/
theorem Effect.sound_of_schema (h : Effect ord i cmd d m d' m') (hs : Sound d m)
    (hreopen : ∀ n u x ix, eventOf n cmd = .create u x → d.index u = some ix →
      m.isOpen u = false → ix.schema = x.toSchema) : Sound d' m' := by
  refine ⟨h.entries (P := fun d _ e => EntryOk d e) hs.based (fun n e d' hf hidx _ => ?_)
    (fun n u x ix d' hev hix hidx => ?_) fun n e id v ops hf _ _ => ?_,
    (h.based_of_schema hs.based hreopen).inj⟩
  · exact (hs.entry n e hf).congr hidx
  · refine ⟨rfl, ?_, ix, hidx, rfl, rfl⟩
    rcases hix with ⟨hix, ho⟩ | ⟨_, rfl⟩
    · exact hreopen n u x ix hev hix ho
    · rfl
  · have he := hs.entry n e hf
    exact ⟨he.uuid, he.schema, he.index⟩

omit [Ext] in
/-- A collection leaves the map. -/
theorem Sound.erased (hs : Sound d m) (name : String) : Sound d (m.erased name) where
  entry n e hf := by
    rw [Catalog.find?_erased] at hf
    split at hf
    · contradiction
    · exact hs.entry n e hf
  inj n n' e e' hf hf' hu := by
    rw [Catalog.find?_erased] at hf hf'
    split at hf <;> split at hf'
    · contradiction
    · contradiction
    · contradiction
    · exact hs.inj n n' e e' hf hf' hu

omit [Ext] in
/-- A collection is entered with an index of its own. -/
theorem Sound.inserted {name : String} {u : Uuid} {x : Mapping} {ix : Index} (hs : Sound d m)
    (ho : m.isOpen u = false) (hix : d.index u = some ix) (hschema : ix.schema = x.toSchema)
    (seq : Nat) : Sound d (m.inserted name u x seq ix) where
  entry n e hf := by
    rw [Catalog.find?_inserted] at hf
    split at hf
    · cases hf
      exact ⟨rfl, hschema, ix, hix, rfl, rfl⟩
    · exact hs.entry n e hf
  inj n n' e e' hf hf' hu := by
    rw [Catalog.find?_inserted] at hf hf'
    split at hf <;> split at hf'
    · simp_all
    · cases hf
      exact absurd hu.symm (Catalog.uuid_ne_of_isOpen ho hf')
    · cases hf'
      exact absurd hu (Catalog.uuid_ne_of_isOpen ho hf)
    · exact hs.inj n n' e e' hf hf' hu

theorem Effect.sound (h : Effect ord i cmd d m d' m') (hcmd : cmds i = cmd) (hs : Sound d m)
    (ho : Owned cmds top d m) (hd : DistinctUuids cmds) : Sound d' m' :=
  h.sound_of_schema hs fun n u x ix hev hix hopen =>
    ho.schema_eq (i := i) (n := n) hd (by rw [hcmd]; exact hev) (.inl ⟨hix, hopen⟩)

/-- The write-ahead log and the sequence counter are not touched. -/
theorem Effect.wal (h : Effect ord i cmd d m d' m') : d'.wal = d.wal := by
  cases h <;> rfl

theorem Effect.mem (h : Effect ord i cmd d m d' m') : m'.wal = m.wal ∧ m'.seq = m.seq := by
  cases h <;> exact ⟨rfl, rfl⟩

/-- An operation makes at most the directory of the collection it creates. -/
theorem Effect.contains (he : Effect ord i cmd d m d' m') {u : Uuid} (hu : d'.dirs.contains u = true) :
    d.dirs.contains u = true ∧ d'.dirs.find? u = d.dirs.find? u ∨
      ∃ n x, eventOf n cmd = .create u x ∧ (d'.index u).isSome := by
  cases he with
  | same _ => exact .inl ⟨hu, rfl⟩
  | create c u₁ x₁ ix hop hu₁ hx₁ hfree hix =>
    have hc : (d.setDir u₁ (.index ix)).dirs.contains u = true := hu
    rw [Disk.contains_setDir] at hc
    by_cases huu : u = u₁
    · subst huu
      refine .inr ⟨c.collection, x₁, by rw [eventOf_create hop hu₁ hx₁, if_pos rfl], ?_⟩
      rw [Disk.index_withCatalog, Disk.index_setDir, if_pos rfl]
      rfl
    · refine .inl ⟨by simpa [huu] using hc, ?_⟩
      show (d.setDir u₁ (.index ix)).dirs.find? u = _
      rw [Disk.setDir, OrdMap.find?_insert, if_neg huu]
  | drop name e hop hfind =>
    have hc : (d.removeDir e.uuid).dirs.contains u = true := hu
    rw [Disk.contains_removeDir] at hc
    obtain ⟨hne, hc⟩ := (Bool.and_eq_true _ _).mp hc
    refine .inl ⟨hc, ?_⟩
    show (d.removeDir e.uuid).dirs.find? u = _
    rw [Disk.removeDir, OrdMap.find?_erase, if_neg (of_decide_eq_true hne)]
  | edit => exact .inl ⟨hu, rfl⟩

theorem Effect.quarantined (he : Effect ord i cmd d m d' m') : d'.quarantined = d.quarantined := by
  cases he <;> rfl

/-- **The slots after a command** are the old ones with its event applied. -/
theorem Effect.slots (h : Effect ord i cmd d m d' m') (hcmd : cmds i = cmd) (hs : Sound d m)
    (ho : Owned cmds top d m) (hd : DistinctUuids cmds) (n : String) :
    ((slotOf d m n).apply i (eventOf n cmd)).Agree (logOf cmds n) top (slotOf d' m' n) := by
  cases h with
  | same h =>
    rw [h n]
    exact ⟨rfl, fun _ _ _ _ _ => rfl⟩
  | create c u x ix hop hu hx hfree hix =>
    have hev : eventOf c.collection (cmds i) = .create u x := by
      rw [hcmd, eventOf_create hop hu hx, if_pos rfl]
    rw [eventOf_create hop hu hx]
    by_cases hn : c.collection = n
    · subst hn
      rw [if_pos rfl]
      have hnew : (slotOf ((d.setDir u (.index ix)).withCatalog
          (Catalog.snapshotProto ord (m.inserted c.collection u x i ix) i))
          (m.inserted c.collection u x i ix) c.collection) =
            ⟨some ⟨u, x, view ix.docs⟩,
              Function.update (slotOf d m c.collection).stores u (some ix.toStore)⟩ := by
        have hstores : (fun u' => ((d.setDir u (.index ix)).index u').map Index.toStore) =
            Function.update (slotOf d m c.collection).stores u (some ix.toStore) := by
          funext u'
          rw [Disk.index_setDir, Function.update_apply]
          split <;> rfl
        simp only [slotOf, Catalog.find?_inserted, if_true, Option.map_some, Catalog.Entry.toGen,
          Collection.pending, Collection.fromIndex, Disk.index_withCatalog]
        rw [hstores]
        simp [Disk.index_setDir, WriterOp.execAll, slotOf]
      rw [hnew]
      have hlive : (slotOf d m c.collection).live = none := by simp [slotOf, hfree]
      obtain ⟨st, happ, hst⟩ := Slot.apply_create hlive i u x
      have hstore : (slotOf d m c.collection).stores u = (d.index u).map Index.toStore := rfl
      have hsteq : st = ix.toStore := by
        rcases hix with ⟨hix, _⟩ | ⟨hno, rfl⟩
        · rw [hstore, hix] at hst
          exact (by simpa using hst : ix.toStore = st).symm
        · have hidx : d.index u = none := by
            rw [Disk.index, OrdMap.contains_eq_false_iff.mp hno]
            rfl
          rw [hstore, hidx] at hst
          simpa [Index.toStore, view_nil, Index.mark] using hst
      rw [happ, hsteq]
      exact ⟨rfl, fun _ _ _ _ _ => rfl⟩
    · rw [if_neg hn]
      refine slotOf_agree (u := u) hs.based ?_ (fun u' hu' => ?_) (fun e hf => hs.based.uuid_ne hix hf)
        fun j y _ hj => hn (hd.eq hev hj).2.1
      · rw [Catalog.find?_inserted, if_neg (Ne.symm hn)]
      · rw [Disk.index_withCatalog, Disk.index_setDir, if_neg hu']
  | drop name e hop hfind =>
    rw [eventOf_drop hop]
    by_cases hn : name = n
    · subst hn
      rw [if_pos rfl]
      have hlive : (slotOf d m name).live = some (e.toGen d) := by simp [slotOf, hfind]
      simp only [Slot.apply, hlive]
      constructor
      · simp [slotOf, Catalog.find?_erased]
      · intro j u x _ _
        show ((d.removeDir e.uuid).index u).map Index.toStore =
          Function.update (slotOf d m name).stores e.uuid none u
        rw [Disk.index_removeDir, Function.update_apply]
        split <;> rfl
    · rw [if_neg hn]
      refine slotOf_agree (u := e.uuid) hs.based ?_ (fun u' hu' => ?_)
        (fun e' hf hu => hn (hs.inj n name e' e hf hfind hu).symm) fun j y hj hcr => ?_
      · rw [Catalog.find?_erased, if_neg (Ne.symm hn)]
      · rw [Disk.index_withCatalog, Disk.index_removeDir, if_neg hu']
      · obtain ⟨_, k, _, hk⟩ := ho.live name e hfind
        exact hn (hd.eq hk hcr).2.1
  | edit name id v e ops hev hfind hmark hops =>
    have he := hs.entry name e hfind
    have hstore := Catalog.find?_store_self (c := e.collection.buffer ops) hfind he.uuid
    rw [hev]
    by_cases hn : name = n
    · subst hn
      rw [if_pos rfl]
      have hlive : (slotOf d m name).live = some (e.toGen d) := by simp [slotOf, hfind]
      simp only [Slot.apply, hlive, if_neg (Nat.not_le.mpr hmark)]
      constructor
      · rw [slotOf_live, hstore, if_pos rfl, Option.map_some, toGen_buffer hops]
      · exact fun _ _ _ _ _ => rfl
    · rw [if_neg hn]
      constructor
      · rw [slotOf_live, hstore, if_neg (Ne.symm hn)]
        rfl
      · exact fun _ _ _ _ _ => rfl

end

end Lumen
