import Lumen.Catalog.Commit
import Lumen.Log.Rep

/-!
# Lumen.Catalog.Open

The catalog file and opening from it: which collections `catalog.pb` lists,
that commands and commits keep the list true, and what the loop over the
listed collections and the sweep of unlisted directories leave in memory.
-/

namespace Lumen

open Lib Prog Replay

/-- What the catalog file says of a collection. -/
structure Listed where
  uuid : Uuid
  mapping : Mapping
  createdSeq : Nat
  deriving DecidableEq

def Catalog.Entry.listed (e : Catalog.Entry) : Listed :=
  ⟨e.uuid, e.collection.mapping, e.createdSeq⟩

/-- The entry of a listed collection that was opened. -/
def Listed.opened (x : Listed) (ix : Index) : Catalog.Entry :=
  ⟨x.uuid, x.createdSeq, .fromIndex x.uuid x.mapping ix⟩

/-- The collections of a map, as the catalog file lists them. -/
def Catalog.listing (m : Catalog) : List (String × Listed) :=
  m.collections.toList.map fun p => (p.1, p.2.listed)

/-- Buffering or committing does not change what is to be listed. -/
theorem Catalog.listing_store {m : Catalog} {name : String} {e : Catalog.Entry} {c : Collection}
    (hf : m.collections.find? name = some e) (hc : c.mapping = e.collection.mapping) :
    (m.store name c).listing = m.listing := by
  rw [Catalog.listing, Catalog.store, OrdMap.toList_modify, List.map_map, Catalog.listing]
  refine List.map_congr_left fun p hp => ?_
  rw [Function.comp_apply]
  split
  · rename_i hn
    have hfind := OrdMap.find?_eq_some_iff.mpr hp
    rw [hn, hf, Option.some.injEq] at hfind
    split
    · rw [Prod.mk.injEq]
      refine ⟨rfl, ?_⟩
      rw [Catalog.Entry.listed, Catalog.Entry.listed, hc, ← hfind]
    · rfl
  · rfl

section
variable [Ext]

def Listed.toProto (p : String × Listed) : Proto.CatalogEntry :=
  ⟨p.1, fmtUuid p.2.uuid, some p.2.mapping.toProto, p.2.createdSeq⟩

theorem Catalog.decodeEntry_toProto (noun place : String) (p : String × Listed) :
    Catalog.decodeEntry noun place (Listed.toProto p) = .ok (p.2.uuid, p.2.mapping) := by
  simp only [Catalog.decodeEntry, Listed.toProto, Ext.parseUuid_fmtUuid, Mapping.tryFrom_toProto]

/-- The catalog file lists `l` as of position `a`. -/
def Disk.Lists (d : Disk) (a : Nat) (l : List (String × Listed)) : Prop :=
  Catalog.loadSnapshot d = .ok ⟨a, l.map Listed.toProto⟩

/-- The catalog file lists the map. -/
def Current (d : Disk) (m : Catalog) : Prop := ∃ a l, d.Lists a l ∧ l.Perm m.listing

variable {d d' : Disk} {m m' : Catalog}

theorem Disk.lists_withCatalog (ord : IterOrder) (m : Catalog) (a : Nat) :
    (d.withCatalog (Catalog.snapshotProto ord m a)).Lists a
      ((ord.order m.collections.toList).map fun p => (p.1, p.2.listed)) := by
  simp only [Disk.Lists, Catalog.loadSnapshot, Disk.withCatalog, Codec.decode_encode,
    Catalog.snapshotProto, List.map_map]
  rfl

theorem Current.withCatalog (ord : IterOrder) (m : Catalog) (a : Nat) :
    Current (d.withCatalog (Catalog.snapshotProto ord m a)) m :=
  ⟨a, _, Disk.lists_withCatalog ord m a, (ord.perm _).map _⟩

theorem Effect.current {ord : IterOrder} {i : Nat} {cmd : Proto.Command}
    (h : Effect ord i cmd d m d' m') (hc : Current d m) : Current d' m' := by
  cases h with
  | same _ => exact hc
  | create => exact Current.withCatalog ..
  | drop => exact Current.withCatalog ..
  | edit name id v e ops hev hfind hmark hops =>
    obtain ⟨a, l, hl, hperm⟩ := hc
    exact ⟨a, l, hl, by
      rw [Catalog.listing_store (c := e.collection.buffer ops) hfind rfl]
      exact hperm⟩

/-- A document command keeps the disk and what is to be listed. -/
theorem Effect.document {ord : IterOrder} {i : Nat} {cmd : Proto.Command}
    (he : Effect ord i cmd d m d' m')
    (hcreate : ∀ create, cmd.op ≠ some (.createCollection create))
    (hdrop : ∀ drop, cmd.op ≠ some (.dropCollection drop)) :
    d' = d ∧ m'.listing = m.listing := by
  cases he with
  | same _ => exact ⟨rfl, rfl⟩
  | create create u x ix hop _ _ _ _ => exact absurd hop (hcreate create)
  | drop name e hop _ => exact absurd hop (hdrop ⟨name⟩)
  | edit name id v e ops _ hf _ _ => exact ⟨rfl, Catalog.listing_store hf rfl⟩

theorem Current.committed {name : String} {e : Catalog.Entry} {ix : Index} {mark : LogMark}
    (hc : Current d m) (hf : m.collections.find? name = some e) :
    Current (d.committed e ix mark) (m.committed name e ix) := by
  obtain ⟨a, l, hl, hperm⟩ := hc
  exact ⟨a, l, hl, by
    rw [Catalog.committed, Catalog.listing_store (c := e.collection.committed ix) hf rfl]
    exact hperm⟩

end

/-! ## directories without a collection -/

/-- Every directory belongs to a collection in the map. -/
def NoOrphans (d : Disk) (m : Catalog) : Prop :=
  ∀ u, d.dirs.contains u = true → ∃ name e, m.collections.find? name = some e ∧ e.uuid = u

section
variable {d d' : Disk} {m m' : Catalog}

/-- A map that keeps the identities keeps the directories owned. -/
theorem NoOrphans.mono (h : NoOrphans d m)
    (hdirs : ∀ u, d'.dirs.contains u = true → d.dirs.contains u = true)
    (hmap : ∀ name e, m.collections.find? name = some e →
      ∃ e', m'.collections.find? name = some e' ∧ e'.uuid = e.uuid) : NoOrphans d' m' := by
  intro u hu
  obtain ⟨name, e, hf, he⟩ := h u (hdirs u hu)
  obtain ⟨e', hf', he'⟩ := hmap name e hf
  exact ⟨name, e', hf', he'.trans he⟩

theorem Catalog.find?_store_uuid (name : String) (c : Collection) {n : String} {e : Catalog.Entry}
    (hf : m.collections.find? n = some e) :
    ∃ e', (m.store name c).collections.find? n = some e' ∧ e'.uuid = e.uuid := by
  rw [Catalog.find?_store, hf]
  split
  · rw [Option.map_some]
    split
    · exact ⟨_, rfl, rfl⟩
    · exact ⟨_, rfl, rfl⟩
  · exact ⟨e, rfl, rfl⟩

theorem NoOrphans.committed {name : String} {e : Catalog.Entry} {ix : Index} {mark : LogMark}
    (h : NoOrphans d m) (hix : d.index e.uuid = some ix) :
    NoOrphans (d.committed e ix mark) (m.committed name e ix) := by
  refine h.mono (fun u hu => ?_) fun n e' hf => Catalog.find?_store_uuid _ _ hf
  rw [Disk.committed, Disk.contains_setDir] at hu
  rcases (Bool.or_eq_true _ _).mp hu with hu | hu
  · rw [of_decide_eq_true hu]
    exact Disk.contains_of_index hix
  · exact hu

/-- A collection is entered with its directory. -/
theorem NoOrphans.inserted {name : String} {u : Uuid} (h : NoOrphans d m)
    (hfree : m.collections.find? name = none) (x : Mapping) (seq : Nat) (ix : Index) :
    NoOrphans (d.setDir u (.index ix)) (m.inserted name u x seq ix) := by
  intro u' hu'
  rw [Disk.contains_setDir] at hu'
  rcases (Bool.or_eq_true _ _).mp hu' with hc | hc
  · exact ⟨name, _, by rw [Catalog.find?_inserted, if_pos rfl], (of_decide_eq_true hc).symm⟩
  · obtain ⟨n, e, hf, he⟩ := h u' hc
    have hn : n ≠ name := fun hn => by rw [hn, hfree] at hf; contradiction
    exact ⟨n, e, by rw [Catalog.find?_inserted, if_neg hn, hf], he⟩

/-- A collection is dropped with its directory. -/
theorem NoOrphans.erased {name : String} {e : Catalog.Entry} (h : NoOrphans d m)
    (hf : m.collections.find? name = some e) :
    NoOrphans (d.removeDir e.uuid) (m.erased name) := by
  intro u' hu'
  rw [Disk.contains_removeDir] at hu'
  obtain ⟨hne, hc⟩ := (Bool.and_eq_true _ _).mp hu'
  have hne : u' ≠ e.uuid := of_decide_eq_true hne
  obtain ⟨n, e', hf', he⟩ := h u' hc
  have hn : n ≠ name := by
    rintro rfl
    rw [hf, Option.some.injEq] at hf'
    exact hne (hf' ▸ he.symm)
  exact ⟨n, e', by rw [Catalog.find?_erased, if_neg hn, hf'], he⟩

theorem Effect.noOrphans [Ext] {ord : IterOrder} {i : Nat} {cmd : Proto.Command}
    (h : Effect ord i cmd d m d' m') (ho : NoOrphans d m) : NoOrphans d' m' := by
  cases h with
  | same _ => exact ho
  | create c u x ix hop hu hx hfree hix => exact ho.inserted hfree x i ix
  | drop name e hop hfind => exact ho.erased hfind
  | edit name id v e ops hev hfind hmark hops =>
    exact ho.mono (fun _ hu => hu) fun n e' hf => Catalog.find?_store_uuid _ _ hf

/-- With no directory left over, a create makes a new one. -/
theorem NoOrphans.index_eq_none {u : Uuid} (h : NoOrphans d m) (ho : m.isOpen u = false) :
    d.index u = none := by
  cases hix : d.index u with
  | none => rfl
  | some ix =>
    obtain ⟨n, e, hf, he⟩ := h u (Disk.contains_of_index hix)
    exact absurd he (Catalog.uuid_ne_of_isOpen ho hf)

/-- With no orphans, the sweep does nothing. -/
theorem NoOrphans.wp_sweepOrphans {Q : Unit → Disk → Catalog → Prop}
    {E : Error → Disk → Catalog → Prop} {C : Disk → Prop} (h : NoOrphans d m) (ord : IterOrder)
    (high : Nat) (hQ : Q () d m) : wp (Catalog.sweepOrphans ord high) Q E C d m := by
  rw [Catalog.sweepOrphans, wp_bind, wp_getMem, wp_bind, wp_getDisk]
  have hlive : ∀ u ∈ ord.order d.dirs.keys, u ∈ m.collections.toList.map fun p => p.2.uuid := by
    intro u hu
    obtain ⟨dir, hdir⟩ := OrdMap.mem_keys_iff.mp (ord.mem.mp hu)
    obtain ⟨n, e, hf, he⟩ := h u (by rw [OrdMap.contains, hdir]; rfl)
    exact List.mem_map.mpr ⟨(n, e), OrdMap.find?_eq_some_iff.mp hf, he⟩
  generalize ord.order d.dirs.keys = l at hlive ⊢
  induction l with
  | nil => exact hQ
  | cons u l ih =>
    rw [forEach, wp_bind', Catalog.sweepDir, if_pos (hlive u List.mem_cons_self)]
    exact ih fun u' hu' => hlive u' (List.mem_cons_of_mem u hu')

end

/-! ## the listed collections -/

/-- The map entries of the listed collections that are not dropped. -/
def openedMap (d : Disk) (l : List (String × Listed)) (dropped : List String) (n : String) :
    Option Catalog.Entry :=
  if n ∈ dropped then none
  else (l.lookup n).bind fun x => (d.index x.uuid).map x.opened

theorem mem_of_lookup {α β : Type} [DecidableEq α] {l : List (α × β)} {a : α} {b : β}
    (h : l.lookup a = some b) : (a, b) ∈ l := by
  obtain ⟨l₁, l₂, rfl, _⟩ := List.lookup_eq_some_iff.mp h
  exact List.mem_append_right l₁ List.mem_cons_self

/-! ## reopening -/

section
variable {d : Disk}

/-- The directories of the collections that are to be opened. -/
structure Openable (d : Disk) (l : List (String × Listed)) (dropped : List String) : Prop where
  names : (l.map Prod.fst).Nodup
  uuids : (l.map fun p => p.2.uuid).Nodup
  index : ∀ p ∈ l, p.1 ∉ dropped → (d.index p.2.uuid).isSome

theorem lookup_eq_some_iff_mem {α β : Type} [DecidableEq α] {l : List (α × β)}
    (hnd : (l.map Prod.fst).Nodup) {a : α} {b : β} : l.lookup a = some b ↔ (a, b) ∈ l := by
  refine ⟨mem_of_lookup, fun h => ?_⟩
  obtain ⟨l₁, l₂, rfl⟩ := List.append_of_mem h
  rw [List.map_append, List.map_cons] at hnd
  refine List.lookup_eq_some_iff.mpr ⟨l₁, l₂, rfl, fun p hp => ?_⟩
  have hne : a ≠ p.1 := fun h => List.disjoint_of_nodup_append hnd
    (List.mem_map_of_mem hp) (h ▸ List.mem_cons_self)
  simpa using hne

theorem mem_listing {m : Catalog} {n : String} {x : Listed} :
    (n, x) ∈ m.listing ↔ ∃ e, m.collections.find? n = some e ∧ e.listed = x := by
  rw [Catalog.listing, List.mem_map]
  constructor
  · rintro ⟨p, hp, heq⟩
    obtain ⟨rfl, rfl⟩ := heq
    exact ⟨p.2, OrdMap.find?_eq_some_iff.mpr hp, rfl⟩
  · rintro ⟨e, hf, rfl⟩
    exact ⟨(n, e), OrdMap.find?_eq_some_iff.mp hf, rfl⟩

/-- Maps with the same listing hold the same names and identities. -/
theorem Catalog.find?_eq_none_congr {m m' : Catalog} (h : m'.listing = m.listing) {name : String}
    (hf : m.collections.find? name = none) : m'.collections.find? name = none := by
  refine Option.eq_none_iff_forall_ne_some.mpr fun e he => ?_
  have hmem : (name, e.listed) ∈ m'.listing := mem_listing.mpr ⟨e, he, rfl⟩
  rw [h] at hmem
  obtain ⟨e', hf', _⟩ := mem_listing.mp hmem
  rw [hf] at hf'
  cases hf'

theorem Catalog.find?_uuid_congr {m m' : Catalog} (h : m'.listing = m.listing) {name : String}
    {e : Catalog.Entry} (hf : m.collections.find? name = some e) :
    ∃ e', m'.collections.find? name = some e' ∧ e'.uuid = e.uuid := by
  have hmem : (name, e.listed) ∈ m.listing := mem_listing.mpr ⟨e, hf, rfl⟩
  rw [← h] at hmem
  obtain ⟨e', hf', hl⟩ := mem_listing.mp hmem
  exact ⟨e', hf', congrArg Listed.uuid hl⟩

section
variable {m m' : Catalog} {l : List (String × Listed)} (hs : Sound d m)

theorem nodup_listing_names (m : Catalog) : (m.listing.map Prod.fst).Nodup := by
  rw [Catalog.listing, List.map_map]
  exact m.collections.sorted.map _ fun a b h => ne_of_lt h

include hs

theorem Sound.nodup_listing_uuids : (m.listing.map fun p => p.2.uuid).Nodup := by
  rw [Catalog.listing, List.map_map]
  refine List.Pairwise.map _ (fun a b h => h) (m.collections.sorted.imp_of_mem ?_)
  intro a b ha hb hlt hu
  have := hs.inj a.1 b.1 a.2 b.2 (OrdMap.find?_eq_some_iff.mpr ha)
    (OrdMap.find?_eq_some_iff.mpr hb) hu
  exact absurd this (ne_of_lt hlt)

/-- The collections of a sound map can be opened from a list of them. -/
theorem Sound.openable (hl : l.Perm m.listing) {dropped : List String} : Openable d l dropped where
  names := (hl.map Prod.fst).nodup_iff.mpr (nodup_listing_names m)
  uuids := (hl.map fun p => p.2.uuid).nodup_iff.mpr hs.nodup_listing_uuids
  index p hp _ := by
    obtain ⟨e, hf, hx⟩ := mem_listing.mp (hl.mem_iff.mp hp)
    obtain ⟨ix, hix, _⟩ := (hs.entry p.1 e hf).index
    have hu : p.2.uuid = e.uuid := by rw [← hx]; rfl
    rw [hu, hix]
    rfl

end

/-- The map that opening the directories brings back. -/
def Reopened (d : Disk) (m m' : Catalog) : Prop :=
  ∀ n, m'.collections.find? n =
    (m.collections.find? n).bind fun e => (d.index e.uuid).map e.listed.opened

section
variable {m m' : Catalog} (hre : Reopened d m m')
include hre

theorem Reopened.find? {n : String} {e' : Catalog.Entry} (hf : m'.collections.find? n = some e') :
    ∃ e ix, m.collections.find? n = some e ∧ d.index e.uuid = some ix ∧
      e' = e.listed.opened ix := by
  rw [hre n] at hf
  obtain ⟨e, hfe, he⟩ := Option.bind_eq_some_iff.mp hf
  obtain ⟨ix, hix, rfl⟩ := Option.map_eq_some_iff.mp he
  exact ⟨e, ix, hfe, hix, rfl⟩

theorem Sound.reopened (hs : Sound d m) : Sound d m' where
  entry n e' hf := by
    obtain ⟨e, ix, hfe, hix, rfl⟩ := hre.find? hf
    have he := hs.entry n e hfe
    obtain ⟨ix', hix', hschema, _⟩ := he.index
    rw [hix, Option.some.injEq] at hix'
    subst hix'
    exact ⟨rfl, hschema.trans he.schema, ix, hix, rfl, rfl⟩
  inj n n' e₁ e₂ h1 h2 hu := by
    obtain ⟨e, _, hfe, _, rfl⟩ := hre.find? h1
    obtain ⟨e', _, hfe', _, rfl⟩ := hre.find? h2
    exact hs.inj n n' e e' hfe hfe' hu

theorem NoOrphans.reopened (h : NoOrphans d m) (hs : Sound d m) : NoOrphans d m' :=
  h.mono (fun _ hu => hu) fun n e hf => by
    obtain ⟨ix, hix, _⟩ := (hs.entry n e hf).index
    exact ⟨e.listed.opened ix, by rw [hre n, hf]; simp [hix], rfl⟩

theorem Reopened.listing (hs : Sound d m) : m'.listing = m.listing := by
  have hmap : m'.collections.toList.map (fun p => (p.1, p.2.listed)) =
      m.collections.toList.map fun p => (p.1, p.2.listed) := by
    refine OrdMap.list_ext (m'.collections.sorted.map _ fun _ _ h => h)
      (m.collections.sorted.map _ fun _ _ h => h) fun p => ?_
    obtain ⟨n, x⟩ := p
    have h1 := mem_listing (m := m') (n := n) (x := x)
    have h2 := mem_listing (m := m) (n := n) (x := x)
    rw [Catalog.listing] at h1 h2
    rw [h1, h2]
    constructor
    · rintro ⟨e', hf, rfl⟩
      obtain ⟨e, ix, hfe, _, rfl⟩ := hre.find? hf
      exact ⟨e, hfe, rfl⟩
    · rintro ⟨e, hf, rfl⟩
      obtain ⟨ix, hix, _⟩ := (hs.entry n e hf).index
      exact ⟨e.listed.opened ix, by rw [hre n, hf]; simp [hix], rfl⟩
  exact hmap

end

end

/-! ## the entries of a catalog file -/

section
variable [Ext]

/-- The collection an entry of a catalog file lists. -/
def Proto.CatalogEntry.listed (entry : Proto.CatalogEntry) : Option (String × Listed) :=
  match Catalog.decodeEntry "" "" entry with
  | .ok (u, x) => some (entry.name, ⟨u, x, entry.createdSeq⟩)
  | .error _ => none

variable {entry : Proto.CatalogEntry} {entries : List Proto.CatalogEntry} {noun place : String}
  {u : Uuid} {x : Mapping} {l : List (String × Listed)}

/-- An entry decodes alike in a catalog file and in an archive. -/
theorem Proto.CatalogEntry.listed_eq_some_iff {p : String × Listed} (noun place : String) :
    entry.listed = some p ↔ ∃ u x, Catalog.decodeEntry noun place entry = .ok (u, x) ∧
      p = (entry.name, ⟨u, x, entry.createdSeq⟩) := by
  rw [Proto.CatalogEntry.listed, Catalog.decodeEntry, Catalog.decodeEntry]
  cases parseUuid entry.uuid with
  | none => simp
  | some v =>
    cases entry.mapping with
    | none => simp
    | some proto =>
      cases hm : Mapping.tryFrom proto with
      | error e => simp [hm]
      | ok y => simp [hm, eq_comm]

theorem Proto.CatalogEntry.parseUuid_of_listed {p : String × Listed} (h : entry.listed = some p) :
    parseUuid entry.uuid = some p.2.uuid := by
  obtain ⟨u, x, hdec, rfl⟩ := (listed_eq_some_iff "" "").mp h
  cases hu : parseUuid entry.uuid with
  | none => simp [Catalog.decodeEntry, hu] at hdec
  | some v =>
    simp only [Catalog.decodeEntry, hu] at hdec
    split at hdec
    · contradiction
    · split at hdec
      · contradiction
      · rw [Except.ok.injEq, Prod.mk.injEq] at hdec
        rw [hdec.1]

theorem Listed.toProto_listed (p : String × Listed) : (Listed.toProto p).listed = some p :=
  (Proto.CatalogEntry.listed_eq_some_iff "" "").mpr
    ⟨_, _, Catalog.decodeEntry_toProto "" "" p, rfl⟩

theorem Listed.map_toProto_listed (l : List (String × Listed)) :
    (l.map Listed.toProto).map Proto.CatalogEntry.listed = l.map some := by
  simp [Function.comp_def, Listed.toProto_listed]

omit [Ext] in
/-- A listing is read in one way. -/
theorem map_some_injective {α : Type} {l l' : List α} (h : l.map some = l'.map some) : l = l' :=
  List.map_injective_iff.mpr (Option.some_injective _) h

/-- What the rest decodes to is the tail of what the whole does. -/
theorem Catalog.listed_cons (hdec : Catalog.decodeEntry noun place entry = .ok (u, x))
    (hl : (entry :: entries).map Proto.CatalogEntry.listed = l.map some) :
    ∃ l', l = (entry.name, ⟨u, x, entry.createdSeq⟩) :: l' ∧
      entries.map Proto.CatalogEntry.listed = l'.map some := by
  obtain ⟨p, l', rfl, hp, hl'⟩ := List.map_eq_cons_iff.mp hl.symm
  rw [(Proto.CatalogEntry.listed_eq_some_iff noun place).mpr ⟨u, x, hdec, rfl⟩,
    Option.some.injEq] at hp
  exact ⟨l', by rw [hp], hl'.symm⟩

/-- The entries of the collections `c` when their directories hold `index`. -/
def openedFrom (index : Uuid → Option Index) (c : OrdMap String Listed) (n : String) :
    Option Catalog.Entry :=
  (c.find? n).bind fun x => (index x.uuid).map x.opened

variable {index : Uuid → Option Index} {c : OrdMap String Listed}
  {collections : OrdMap String Catalog.Entry}

omit [Ext] in
theorem openedFrom_eq_some_iff {n : String} {e : Catalog.Entry} : openedFrom index c n = some e ↔
    ∃ y ix, c.find? n = some y ∧ index y.uuid = some ix ∧ e = y.opened ix := by
  simp only [openedFrom, Option.bind_eq_some_iff, Option.map_eq_some_iff]
  grind

omit [Ext] in
theorem openedFrom_insert (hm : ∀ n, collections.find? n = openedFrom index c n) {y : Listed}
    {ix : Index} (hix : index y.uuid = some ix) (name n : String) :
    (collections.insert name (y.opened ix)).find? n = openedFrom index (c.insert name y) n := by
  rw [openedFrom, OrdMap.find?_insert, OrdMap.find?_insert]
  split
  · rw [Option.bind_some, hix, Option.map_some]
  · exact hm n

/-- The entries decode to `l`, whose directories all have an index. -/
structure Entered (index : Uuid → Option Index) (entries : List Proto.CatalogEntry)
    (l : List (String × Listed)) : Prop where
  decodes : entries.map Proto.CatalogEntry.listed = l.map some
  index : ∀ p ∈ l, (index p.2.uuid).isSome

theorem Entered.cons {ix : Index} (h : Entered index entries l)
    (hdec : Catalog.decodeEntry noun place entry = .ok (u, x)) (hix : index u = some ix) :
    Entered index (entry :: entries) ((entry.name, ⟨u, x, entry.createdSeq⟩) :: l) where
  decodes := by
    rw [List.map_cons, List.map_cons, h.decodes,
      (Proto.CatalogEntry.listed_eq_some_iff noun place).mpr ⟨u, x, hdec, rfl⟩]
  index := List.forall_mem_cons.mpr ⟨hix ▸ rfl, h.index⟩

theorem Entered.eq {l' : List (String × Listed)} (h : Entered index (l.map Listed.toProto) l') :
    l' = l :=
  map_some_injective (h.decodes.symm.trans (Listed.map_toProto_listed l))

/-- Nothing of `l` is open in `c`, nor twice in `l`. -/
structure Unopened (c : OrdMap String Listed) (l : List (String × Listed)) : Prop where
  nodup : (l.map fun p => p.2.uuid).Nodup
  apart : ∀ p ∈ l, ∀ n x, c.find? n = some x → x.uuid ≠ p.2.uuid

omit [Ext] in
theorem Unopened.insert {p : String × Listed} (h : Unopened c (p :: l)) :
    Unopened (c.insert p.1 p.2) l where
  nodup := (List.nodup_cons.mp h.nodup).2
  apart q hq n x hx := by
    rw [OrdMap.find?_insert] at hx
    split at hx
    · obtain rfl : p.2 = x := Option.some.inj hx
      intro heq
      exact (List.nodup_cons.mp h.nodup).1 (List.mem_map.mpr ⟨q, hq, heq.symm⟩)
    · exact h.apart q (List.mem_cons_of_mem p hq) n x hx

/-- The entries cannot all be opened beside `c`: one does not decode, has no index or
is open already. -/
def Stuck (index : Uuid → Option Index) (c : OrdMap String Listed)
    (entries : List Proto.CatalogEntry) : Prop :=
  ∀ l, entries.map Proto.CatalogEntry.listed = l.map some → Unopened c l →
    ∃ p ∈ l, index p.2.uuid = none

namespace Stuck

theorem undecoded {e : Error} (hdec : Catalog.decodeEntry noun place entry = .error e) :
    Stuck index c (entry :: entries) := by
  intro l hl _
  obtain ⟨p, _, _, hp, _⟩ := List.map_eq_cons_iff.mp hl.symm
  obtain ⟨u, x, hok, _⟩ := (Proto.CatalogEntry.listed_eq_some_iff noun place).mp hp.symm
  rw [hdec] at hok
  contradiction

variable (hdec : Catalog.decodeEntry noun place entry = .ok (u, x))
include hdec

theorem absent (hix : index u = none) : Stuck index c (entry :: entries) := by
  intro l hl _
  obtain ⟨l', rfl, _⟩ := Catalog.listed_cons hdec hl
  exact ⟨_, List.mem_cons_self, hix⟩

theorem taken (hm : ∀ n, collections.find? n = openedFrom index c n)
    (hopen : (collections.toList.any fun p => p.2.uuid = u) = true) :
    Stuck index c (entry :: entries) := by
  intro l hl hfresh
  obtain ⟨l', rfl, _⟩ := Catalog.listed_cons hdec hl
  obtain ⟨⟨n, e⟩, hmem, hu⟩ := List.any_eq_true.mp hopen
  obtain ⟨y, _, hy, _, rfl⟩ :=
    openedFrom_eq_some_iff.mp ((hm n).symm.trans (OrdMap.find?_eq_some_iff.mpr hmem))
  exact absurd (of_decide_eq_true hu) (hfresh.apart _ List.mem_cons_self n y hy)

theorem cons (h : Stuck index (c.insert entry.name ⟨u, x, entry.createdSeq⟩) entries) :
    Stuck index c (entry :: entries) := by
  intro l hl hfresh
  obtain ⟨l', rfl, hl'⟩ := Catalog.listed_cons hdec hl
  obtain ⟨q, hq, hnone⟩ := h l' hl' hfresh.insert
  exact ⟨q, List.mem_cons_of_mem _ hq, hnone⟩

omit hdec in
theorem exists_none (h : Stuck index ∅ (l.map Listed.toProto))
    (hnd : (l.map fun p => p.2.uuid).Nodup) : ∃ p ∈ l, index p.2.uuid = none :=
  h l (Listed.map_toProto_listed l) ⟨hnd, fun _ _ _ _ h => by contradiction⟩

end Stuck

end

/-! ## the loop over the entries -/

section
variable [Ext] {d : Disk} {m : Catalog} {c : OrdMap String Listed} {l : List (String × Listed)}
  {E : Error → Disk → Catalog → Prop} {C : Disk → Prop}

/-- **The loop over the entries** opens all of them, or is stuck. -/
theorem Catalog.wp_openEntries (entries : List Proto.CatalogEntry)
    (hm : ∀ n, m.collections.find? n = openedFrom d.index c n) :
    wp (forEach entries (Catalog.openEntry []))
      (fun _ d' m' => d' = d ∧ m'.wal = m.wal ∧
        m'.seq = entries.foldl (fun s e => max s e.createdSeq) m.seq ∧
        ∃ l, Entered d.index entries l ∧
          ∀ n, m'.collections.find? n = openedFrom d.index (c.insertAll l) n)
      (fun _ d' _ => d' = d ∧ Stuck d.index c entries) C d m := by
  induction entries generalizing c m with
  | nil => exact ⟨rfl, rfl, rfl, [], ⟨rfl, by simp⟩, hm⟩
  | cons entry entries ih =>
    rw [forEach, wp_bind', Catalog.openEntry, if_neg List.not_mem_nil, wp_bind]
    cases hdec : Catalog.decodeEntry "catalog entry" "snapshot" entry with
    | error e => exact ⟨rfl, .undecoded hdec⟩
    | ok r =>
      obtain ⟨u, x⟩ := r
      simp only [wp_ofExcept_ok, Catalog.openListed, wp_bind, wp_getDisk]
      cases hix : d.index u with
      | none =>
        split
        · simp only [wp_bind, wp_modifyMem, Catalog.openCollection, wp_getDisk, wp_getMem, hix]
          exact ⟨rfl, .absent hdec hix⟩
        · exact ⟨rfl, .absent hdec hix⟩
      | some ix =>
        rw [if_pos (Disk.contains_of_index hix)]
        simp only [wp_bind, wp_modifyMem, Catalog.openCollection, wp_getDisk, wp_getMem, hix]
        split
        · exact ⟨rfl, .taken hdec hm ‹_›⟩
        · simp only [wp_pure]
          refine wp_mono _ (ih (openedFrom_insert (y := ⟨u, x, entry.createdSeq⟩) hm hix _))
            (fun _ d' m' hpost => ?_) (fun _ _ _ herr => ⟨herr.1, herr.2.cons hdec⟩)
            fun _ hc => hc
          obtain ⟨rfl, hwal, hseq, l, hl, hmap⟩ := hpost
          exact ⟨rfl, hwal, hseq, _, hl.cons hdec hix, hmap⟩

/-- The entries of dropped collections are passed over. -/
theorem Catalog.forEach_openEntry (dropped : List String) (entries : List Proto.CatalogEntry) :
    forEach entries (Catalog.openEntry dropped) =
      forEach (entries.filter fun entry => entry.name ∉ dropped) (Catalog.openEntry []) := by
  induction entries with
  | nil => rfl
  | cons entry entries ih =>
    rw [forEach, ih, Catalog.openEntry]
    by_cases hd : entry.name ∈ dropped
    · rw [if_pos hd, List.filter_cons_of_neg (by simpa using hd)]
      rfl
    · rw [if_neg hd, List.filter_cons_of_pos (by simpa using hd), forEach, Catalog.openEntry,
        if_neg List.not_mem_nil]

omit [Ext] in
theorem mem_of_find?_ofList {n : String} {x : Listed}
    (h : (OrdMap.ofList l).find? n = some x) : (n, x) ∈ l :=
  (OrdMap.mem_or_find?_of_insertAll (m := ∅) h).resolve_right fun h => by contradiction

omit [Ext] in
theorem find?_ofList_iff (hnd : (l.map Prod.fst).Nodup) {n : String} {x : Listed} :
    (OrdMap.ofList l).find? n = some x ↔ (n, x) ∈ l :=
  ⟨mem_of_find?_ofList, fun h => OrdMap.find?_insertAll_of_mem ∅ (List.pairwise_map.mp hnd) h⟩

omit [Ext] in
theorem openedFrom_filter (hnd : (l.map Prod.fst).Nodup) (dropped : List String) (n : String) :
    openedFrom d.index (.ofList (l.filter fun p => p.1 ∉ dropped)) n =
      openedMap d l dropped n := by
  have hfind : (OrdMap.ofList (l.filter fun p => p.1 ∉ dropped)).find? n =
      if n ∈ dropped then none else l.lookup n := by
    refine Option.ext fun x => ?_
    rw [find?_ofList_iff ((List.filter_sublist.map _).nodup hnd)]
    split
    · simp [*]
    · simp [lookup_eq_some_iff_mem hnd, *]
  rw [openedFrom, hfind, openedMap]
  split <;> rfl

omit [Ext] in
theorem foldl_max_le_iff {α : Type} (f : α → Nat) (l : List α) (a b : Nat) :
    l.foldl (fun s x => max s (f x)) a ≤ b ↔ a ≤ b ∧ ∀ x ∈ l, f x ≤ b := by
  induction l generalizing a with
  | nil => simp
  | cons x l ih => simp [ih, and_assoc]

/-! ## loading -/

theorem Wal.decodeAll_eq {l : List (Nat × Bytes)} {es : List Proto.WalEntry}
    (h : l.map Prod.snd = es.map Ext.walEntry.encode) : Wal.decodeAll l = .ok es := by
  induction l generalizing es with
  | nil =>
    cases es with
    | nil => rfl
    | cons e es => simp at h
  | cons p l ih =>
    cases es with
    | nil => simp at h
    | cons e es =>
      rw [List.map_cons, List.map_cons, List.cons.injEq] at h
      obtain ⟨i, b⟩ := p
      have hb : b = Ext.walEntry.encode e := h.1
      simp only [Wal.decodeAll, hb, Codec.decode_encode, ih h.2]

/-- Opening the write-ahead log reads back the entries its segments hold. -/
theorem Wal.wp_openWal {Q : List Proto.WalEntry → LogDir → SegmentedLog → Prop}
    {E : Error → LogDir → SegmentedLog → Prop} {C : LogDir → Prop} {dir : LogDir}
    {log : SegmentedLog} {segs : List Seg} {es : List Proto.WalEntry} (h : DirRep dir segs)
    (hord : Ordered segs) (hes : (recsOf segs).map Rec.payload = es.map Ext.walEntry.encode)
    (hQ : ∀ log', MemRep log' segs → log'.records.toList = (recsOf segs).map Rec.key →
      0 < log'.segmentMaxBytes → Q es dir log') : wp Wal.openWal Q E C dir log := by
  rw [Wal.openWal, wp_bind, SegmentedLog.openLog]
  refine wp_openWithSegmentMax h hord _ fun log' hm hrec hmax => ?_
  rw [wp_bind]
  refine wp_readAll h (List.Subset.refl _) hrec ?_
  have hdec : Wal.decodeAll ((recsOf segs).map Rec.item) = .ok es := by
    refine Wal.decodeAll_eq ?_
    rw [List.map_map]
    exact hes
  rw [hdec]
  exact hQ log' hm hrec (by rw [hmax]; decide)

theorem Catalog.wp_loadCatalog {Q : Nat × List Proto.WalEntry → Disk → Catalog → Prop}
    {a : Nat} {segs : List Seg} {es : List Proto.WalEntry}
    (hl : d.Lists a l) (hw : DirRep d.wal segs) (hord : Ordered segs)
    (hes : (recsOf segs).map Rec.payload = es.map Ext.walEntry.encode)
    (ho : Openable d l (Catalog.droppedInTail a es)) (m : Catalog)
    (hQ : ∀ m', (∀ n, m'.collections.find? n = openedMap d l (Catalog.droppedInTail a es) n) →
      MemRep m'.wal segs → m'.wal.records.toList = (recsOf segs).map Rec.key →
      0 < m'.wal.segmentMaxBytes →
      (∀ b, m'.seq ≤ b ↔ es.foldl (fun s e => max s e.seq) a ≤ b ∧
        ∀ p ∈ l, p.1 ∉ Catalog.droppedInTail a es → p.2.createdSeq ≤ b) → Q (a, es) d m') :
    wp Catalog.loadCatalog Q E C d m := by
  rw [Catalog.loadCatalog, wp_bind, wp_getDisk, wp_bind, hl, wp_ofExcept_ok, wp_bind, wp_modifyMem,
    wp_bind]
  refine Catalog.wp_onWal _ (Wal.wp_openWal hw hord hes fun log' hm hrec hmax => ?_)
  rw [wp_bind, wp_modifyMem, wp_bind, Catalog.forEach_openEntry]
  have hkeep : (l.map Listed.toProto).filter (fun entry => entry.name ∉ Catalog.droppedInTail a es) =
      (l.filter fun p => p.1 ∉ Catalog.droppedInTail a es).map Listed.toProto := List.filter_map
  rw [hkeep]
  refine wp_mono _ (Catalog.wp_openEntries (c := ∅) _ fun n => rfl) (fun _ d' m' hpost => ?_)
    (fun _ _ _ herr => ?_) fun _ hc => hc
  · obtain ⟨rfl, hwal, hseq, l', hl', hmap⟩ := hpost
    obtain rfl := hl'.eq
    refine hQ m' (fun n => (hmap n).trans (openedFrom_filter ho.names _ n)) (hwal ▸ hm)
      (hwal ▸ hrec) (hwal ▸ hmax) fun b => ?_
    rw [hseq, foldl_max_le_iff]
    simp only [List.forall_mem_map, List.mem_filter, decide_eq_true_iff, and_imp]
    rfl
  · obtain ⟨p, hp, hnone⟩ := herr.2.exists_none ((List.filter_sublist.map _).nodup ho.uuids)
    rw [List.mem_filter, decide_eq_true_iff] at hp
    have hsome := ho.index p hp.1 hp.2
    rw [hnone] at hsome
    contradiction

end

end Lumen
