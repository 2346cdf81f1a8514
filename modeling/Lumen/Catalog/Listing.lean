import Lumen.Catalog.Sweep

/-!
# Lumen.Catalog.Listing

Opening a directory without a write-ahead log, whatever its catalog file says.

The file lists `l` if its entries decode to `l` (`Disk.Decodes`); of entries with one
name the last counts.  `Catalog.wp_openCatalog_unlogged` follows `open` up to the sweep,
and `open_shows_iff` says when it shows given collections: the file lists them, the
directories it lists open and have their commits, and the sweep finds every place free.
-/

namespace Lumen

open Lib Prog

section
variable [Ext]

/-- The entries of a snapshot decode to `l`. -/
def Proto.CatalogSnapshot.Decodes (s : Proto.CatalogSnapshot) (l : List (String × Listed)) :
    Prop :=
  s.entries.map Proto.CatalogEntry.listed = l.map some

/-- The catalog file lists `l`. -/
def Disk.Decodes (d : Disk) (l : List (String × Listed)) : Prop :=
  ∃ s, Catalog.loadSnapshot d = .ok s ∧ s.Decodes l

/-- What the catalog file says, as `open` reads it. -/
def Disk.snapshot (d : Disk) : Proto.CatalogSnapshot :=
  match Catalog.loadSnapshot d with
  | .ok snapshot => snapshot
  | .error _ => default

/-- The sequence number a node without a write-ahead log opens with. -/
def Disk.highSeq (d : Disk) : Nat :=
  d.snapshot.entries.foldl (fun s e => max s e.createdSeq) d.snapshot.appliedSeq

/-! ## entries -/

theorem Disk.Lists.decodes {d : Disk} {a : Nat} {l : List (String × Listed)} (h : d.Lists a l) :
    d.Decodes l :=
  ⟨_, h, Listed.map_toProto_listed l⟩

theorem Disk.Decodes.unique {d : Disk} {l l' : List (String × Listed)} (h : d.Decodes l)
    (h' : d.Decodes l') : l = l' := by
  obtain ⟨s, hs, hl⟩ := h
  obtain ⟨s', hs', hl'⟩ := h'
  rw [hs, Except.ok.injEq] at hs'
  subst hs'
  exact map_some_injective (hl.symm.trans hl')

/-- The identities of the entries are those of the listing. -/
theorem Proto.CatalogSnapshot.Decodes.uuids {s : Proto.CatalogSnapshot}
    {l : List (String × Listed)} (h : s.Decodes l) :
    s.entries.map (fun entry => parseUuid entry.uuid) = (l.map fun p => p.2.uuid).map some := by
  have hparse : ∀ entry ∈ s.entries,
      parseUuid entry.uuid = entry.listed.map fun p => p.2.uuid := by
    intro entry he
    have hmem : entry.listed ∈ l.map some := h ▸ List.mem_map_of_mem he
    obtain ⟨p, _, hp⟩ := List.mem_map.mp hmem
    rw [← hp, Proto.CatalogEntry.parseUuid_of_listed hp.symm, Option.map_some]
  have hmap := congrArg (List.map fun o : Option (String × Listed) => o.map fun p => p.2.uuid) h
  rw [List.map_map, List.map_map] at hmap
  rw [List.map_congr_left hparse, List.map_map]
  exact hmap

/-! ## opening -/

variable {d : Disk} {m : Catalog} {c : OrdMap String Listed} {l : List (String × Listed)}
  {E : Error → Disk → Catalog → Prop} {C : Disk → Prop} {ord : IterOrder}

/-- **Opening** comes to the sweep with the collections the file lists, or fails on the
way, with the disk as it is. -/
theorem Catalog.wp_openCatalog_unlogged {Q : Unit → Disk → Catalog → Prop} (hw : d.wal = ∅)
    (ord : IterOrder) (m₀ : Catalog)
    (hE : ∀ e m', (∀ l, d.Decodes l → (l.map fun p => p.2.uuid).Nodup →
      ∃ p ∈ l, d.index p.2.uuid = none) → E e d m')
    (hsweep : ∀ l m₁, d.Decodes l → (∀ p ∈ l, (d.index p.2.uuid).isSome) →
      (∀ n, m₁.collections.find? n = openedFrom d.index (.ofList l) n) →
      wp (Catalog.sweepOrphans ord d.highSeq) Q E C d m₁) :
    wp (Catalog.openCatalog ord) Q E C d m₀ := by
  have hrep : DirRep d.wal [] := hw ▸ DirRep.empty
  have hes : (recsOf []).map Rec.payload = [].map Ext.walEntry.encode := rfl
  rw [Catalog.openCatalog, wp_bind, Catalog.loadCatalog, wp_bind, wp_getDisk, wp_bind]
  cases hload : Catalog.loadSnapshot d with
  | error e =>
    refine hE e m₀ fun l hl _ => ?_
    obtain ⟨s, hs, _⟩ := hl
    rw [hload] at hs
    contradiction
  | ok s =>
    have hsnap : d.snapshot = s := by rw [Disk.snapshot, hload]
    rw [wp_ofExcept_ok, wp_bind, wp_modifyMem, wp_bind]
    refine Catalog.wp_onWal _ (Wal.wp_openWal hrep List.Pairwise.nil hes fun log' _ _ _ => ?_)
    rw [wp_bind, wp_modifyMem, wp_bind]
    refine wp_mono _ (Catalog.wp_openEntries (c := ∅) s.entries fun n => rfl)
      (fun _ d' m₁ hpost => ?_) (fun e d' m' herr => ?_) fun _ hc => hc
    · obtain ⟨rfl, _, hseq, l, hl, hmap⟩ := hpost
      show wp (Catalog.finishOpen ord false) Q E C d m₁
      have hhigh : m₁.seq = d.highSeq := by rw [Disk.highSeq, hsnap]; exact hseq
      rw [Catalog.finishOpen, wp_bind, wp_getMem, wp_bind, hhigh]
      exact hsweep l m₁ ⟨s, hload, hl.decodes⟩ hl.index hmap
    · obtain ⟨rfl, hstuck⟩ := herr
      refine hE e m' fun l hl hnd => ?_
      obtain ⟨s', hs', hl⟩ := hl
      rw [hload, Except.ok.injEq] at hs'
      subst hs'
      exact hstuck l hl ⟨hnd, fun _ _ _ _ h => by contradiction⟩

/-! ## what opening shows -/

/-- Exactly the collections `c` are shown, with the commits `index`. -/
structure Shows (c : OrdMap String Listed) (index : Uuid → Option Index) (d : Disk)
    (m : Catalog) : Prop where
  map : ∀ n, m.collections.find? n = openedFrom index c n
  commits : ∀ n x, c.find? n = some x → (index x.uuid).isSome ∧ d.index x.uuid = index x.uuid

/-- The catalog file lists the collections `c`, every directory it lists opens, and
those of `c` have the commits `index`. -/
def Disk.Carries (d : Disk) (c : OrdMap String Listed) (index : Uuid → Option Index) : Prop :=
  ∃ l, d.Decodes l ∧ OrdMap.ofList l = c ∧ (∀ p ∈ l, (d.index p.2.uuid).isSome) ∧
    ∀ n x, c.find? n = some x → d.index x.uuid = index x.uuid

/-- The place in quarantine of every directory without a listed collection is free. -/
def Disk.SweepFree (d : Disk) : Prop :=
  ∀ l u, d.Decodes l → d.dirs.contains u = true →
    (∀ n x, (OrdMap.ofList l).find? n = some x → x.uuid ≠ u) →
    Vacant (d.quarantined.lookup (u, d.highSeq))

/-- What opening shows is what the disk lists, and it succeeds where it can. -/
theorem Catalog.wp_openCatalog_shows (hw : d.wal = ∅) (ord : IterOrder) (m₀ : Catalog) :
    wp (Catalog.openCatalog ord)
      (fun _ d' m' => d.SweepFree ∧ ∃ l, d.Decodes l ∧ (∀ p ∈ l, (d.index p.2.uuid).isSome) ∧
        Shows (.ofList l) d.index d' m')
      (fun _ _ _ => ¬ (d.SweepFree ∧ ∃ l, d.Decodes l ∧ (l.map fun p => p.2.uuid).Nodup ∧
        ∀ p ∈ l, (d.index p.2.uuid).isSome)) (fun _ => True) d m₀ := by
  refine Catalog.wp_openCatalog_unlogged hw ord m₀ (fun e m' hbad => ?_) fun l m₁ hl hidx hm => ?_
  · rintro ⟨_, l, hl, hnd, hidx⟩
    obtain ⟨p, hp, hnone⟩ := hbad l hl hnd
    have hsome := hidx p hp
    rw [hnone] at hsome
    contradiction
  · have hlisted : ∀ n x, (OrdMap.ofList l).find? n = some x → (d.index x.uuid).isSome :=
      fun n x hx => hidx _ (mem_of_find?_ofList hx)
    have hlive := fun u => mem_liveUuids_openedFrom (u := u) hm hlisted
    by_cases hfree : d.SweepFree
    · refine Catalog.wp_sweepOrphans ord _ (fun u hu hnot => ?_) (fun _ _ => trivial)
        fun d' hsw _ => ⟨hfree, l, hl, hidx, hm, fun n x hx => ⟨hlisted n x hx, ?_⟩⟩
      · exact hfree l u hl hu fun n x hx hxu => hnot ((hlive u).mpr ⟨n, x, hx, hxu⟩)
      · exact hsw.index_of_mem ((hlive _).mpr ⟨n, x, hx, rfl⟩)
    · have hno := hfree
      simp only [Disk.SweepFree, not_forall] at hno
      obtain ⟨l', u, hl', hu, hnot, htaken⟩ := hno
      obtain rfl := hl.unique hl'
      refine wp_mono _ (Catalog.wp_sweepOrphans_blocked ord hu (fun hmem => ?_) htaken)
        (fun _ _ _ h => h.elim) (fun _ _ _ _ h => hfree h.1) fun _ h => h
      obtain ⟨n, x, hx, hxu⟩ := (hlive u).mp hmem
      exact hnot n x hx hxu

/-- The collections of a map. -/
def Catalog.listed (m : Catalog) : OrdMap String Listed := .ofList m.listing

omit [Ext] in
/-- Of different names none is replaced. -/
theorem find?_ofList_of_perm (hl : l.Perm m.listing) (n : String) :
    (OrdMap.ofList l).find? n = (m.collections.find? n).map Catalog.Entry.listed := by
  refine Option.ext fun x => ?_
  rw [Option.map_eq_some_iff, ← mem_listing, ← hl.mem_iff]
  exact find?_ofList_iff ((hl.map Prod.fst).nodup_iff.mpr (nodup_listing_names m))

omit [Ext] in
theorem openedFrom_of_perm (hl : l.Perm m.listing) (index : Uuid → Option Index) (n : String) :
    openedFrom index (.ofList l) n =
      (m.collections.find? n).bind fun e => (index e.uuid).map e.listed.opened := by
  rw [openedFrom, find?_ofList_of_perm hl]
  cases m.collections.find? n <;> rfl

/-- Opening a directory whose file lists a sound map comes to the sweep with it. -/
theorem Current.wp_openCatalog {Q : Unit → Disk → Catalog → Prop} (hc : Current d m)
    (hs : Sound d m) (hw : d.wal = ∅) (ord : IterOrder) (m₀ : Catalog)
    (hsweep : ∀ m₁, Reopened d m m₁ → m₁.liveUuids = m.liveUuids →
      wp (Catalog.sweepOrphans ord d.highSeq) Q E C d m₁) :
    wp (Catalog.openCatalog ord) Q E C d m₀ := by
  obtain ⟨a, l, hl, hperm⟩ := hc
  have ho : Openable d l [] := hs.openable hperm
  refine Catalog.wp_openCatalog_unlogged hw ord m₀ (fun _ _ hbad => ?_) fun l' m₁ hl' _ hm => ?_
  · obtain ⟨p, hp, hnone⟩ := hbad l hl.decodes ho.uuids
    have hsome := ho.index p hp List.not_mem_nil
    rw [hnone] at hsome
    contradiction
  · obtain rfl := hl.decodes.unique hl'
    have hre : Reopened d m m₁ := fun n => (hm n).trans (openedFrom_of_perm hperm d.index n)
    exact hsweep m₁ hre (Catalog.liveUuids_congr (hre.listing hs))

/-- Opening fails on a listed collection without an index. -/
theorem Catalog.openCatalog_error {a : Nat} (hl : d.Lists a l) (hw : d.wal = ∅)
    (hbad : ∃ p ∈ l, d.index p.2.uuid = none) (ord : IterOrder) (m₀ : Catalog) :
    ∃ e d' m', (Catalog.openCatalog ord).run d m₀ = (.error e, d', m') := by
  have hwp := wp_mono _ (Catalog.wp_openCatalog_shows hw ord m₀)
    (fun _ _ _ hpost => show False from ?_) (fun _ _ _ _ => trivial) fun _ h => h
  · obtain ⟨e, d', m', hrun, _⟩ := run_error_of_wp hwp
    exact ⟨e, d', m', hrun⟩
  · obtain ⟨_, l', hl', hidx, _⟩ := hpost
    obtain rfl := hl.decodes.unique hl'
    obtain ⟨p, hp, hnone⟩ := hbad
    have hsome := hidx p hp
    rw [hnone] at hsome
    contradiction

end

end Lumen
