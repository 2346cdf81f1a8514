import Lumen.Catalog.Listing
import Lumen.Snapshot

/-!
# Lumen.Snapshot.Install

What `install_snapshot` does to the data directory, step by step.

`Placing` disks are those between two rounds of the loop; `Installed` disks have the
archive's catalog file and its directories, with what the file does not list still to
be swept.  `Catalog.wp_installSnapshot_until` follows the call up to the rename of the
catalog file, for every archive; behind it, `Catalog.wp_installSnapshot` is about
well-formed archives and `Catalog.wp_installSnapshot_files` about the others, too.
-/

namespace Lumen

open Lib Prog

/-! ## archives -/

/-- The index in a directory of an archive. -/
def Archive.index (a : Archive) (u : Uuid) : Option Index := (a.dirs.find? u).bind Dir.index?

section
variable [Ext]

/-- The archive lists `l`. -/
def Archive.Decodes (a : Archive) (l : List (String × Listed)) : Prop :=
  ∃ s, Catalog.archiveSnapshot a = .ok s ∧ s.Decodes l

/-- A well-formed archive: its file lists `l` as of `seq`, and every listed
collection has a name, an identity and an index of its own. -/
structure Archive.Formed (a : Archive) (seq : Nat) (l : List (String × Listed)) : Prop where
  listing : Catalog.archiveSnapshot a = .ok ⟨seq, l.map Listed.toProto⟩
  names : (l.map Prod.fst).Nodup
  uuids : (l.map fun p => p.2.uuid).Nodup
  index : ∀ p ∈ l, (a.index p.2.uuid).isSome

/-- Every entry names a directory of its own. -/
def Archive.Placeable (a : Archive) (entries : List Proto.CatalogEntry) : Prop :=
  ∃ us : List Uuid, entries.map (fun entry => parseUuid entry.uuid) = us.map some ∧
    us.Nodup ∧ ∀ u ∈ us, a.dirs.contains u = true

/-- An archive that is refused before the catalog file is renamed: its listing
does not decode, or an entry has no directory of its own. -/
def Archive.Refused (a : Archive) : Prop :=
  ∀ snapshot, Catalog.archiveSnapshot a = .ok snapshot → ¬ a.Placeable snapshot.entries

/-- The identities the loop over the entries comes to: it stops at the first entry
without an identity, or without a directory of its own. -/
def Archive.begunFrom (a : Archive) (placed : List Uuid) : List Proto.CatalogEntry → List Uuid
  | [] => []
  | entry :: rest =>
    match parseUuid entry.uuid with
    | none => []
    | some u =>
      if u ∉ placed ∧ a.dirs.contains u = true then u :: a.begunFrom (placed ++ [u]) rest
      else [u]

/-- The identities an installation comes to. -/
def Archive.begun (a : Archive) : List Uuid :=
  match Catalog.archiveSnapshot a with
  | .ok snapshot => a.begunFrom [] snapshot.entries
  | .error _ => []

variable {a : Archive} {seq : Nat} {l : List (String × Listed)}

theorem Archive.Formed.catalogPb (h : a.Formed seq l) :
    ∃ bytes, a.catalogPb = some bytes ∧
      Ext.catalogSnapshot.decode bytes = .ok ⟨seq, l.map Listed.toProto⟩ := by
  have hl := h.listing
  rw [Catalog.archiveSnapshot] at hl
  split at hl
  · contradiction
  · rename_i bytes hpb
    split at hl
    · contradiction
    · rename_i snapshot hdec
      injection hl with hl
      exact ⟨bytes, hpb, hl ▸ hdec⟩

end

/-! ## moving the directories -/

/-- The catalog file and the write-ahead log are those of `d`. -/
structure SameFiles (d d' : Disk) : Prop where
  catalogPb : d'.catalogPb = d.catalogPb
  wal : d'.wal = d.wal

/-- Between two rounds of the loop: the directories of `us` are the archive's,
which has the others still to give; what was in their places is set aside. -/
structure Placing (a : Archive) (us : List Uuid) (d d' : Disk) : Prop extends
    SameFiles d d' where
  quarantined : d'.quarantined = d.quarantined
  dirs : ∀ u, d'.dirs.find? u = if u ∈ us then a.dirs.find? u else d.dirs.find? u
  nodup : us.Nodup
  owned : ∀ u ∈ us, a.dirs.contains u = true
  install : ∃ s, d'.snapshots.install = some s ∧ s.catalogPb = a.catalogPb ∧
    ∀ u, s.dirs.find? u = if u ∈ us then none else a.dirs.find? u
  aside : ∀ u, d'.snapshots.aside.find? u = if u ∈ us then d.dirs.find? u else none

/-- The data directory with the archive unpacked next to it. -/
def Catalog.staged (a : Archive) (d : Disk) : Disk :=
  { d with snapshots := { d.snapshots with install := some a, aside := ∅ } }

theorem Placing.start (a : Archive) (d : Disk) : Placing a [] d (Catalog.staged a d) :=
  ⟨⟨rfl, rfl⟩, rfl, fun _ => rfl, List.nodup_nil, fun _ h => absurd h List.not_mem_nil,
    ⟨a, rfl, rfl, fun _ => rfl⟩, fun _ => rfl⟩

/-- What stands in the place of `u` is set aside. -/
def Disk.clearPlace (d : Disk) (u : Uuid) : Disk :=
  match d.dirs.find? u with
  | none => d
  | some dir =>
    { d.removeDir u with
      snapshots := { d.snapshots with aside := d.snapshots.aside.insert u dir } }

section
variable {a : Archive} {us : List Uuid} {d d' : Disk} {m : Catalog} {u : Uuid}

theorem Disk.clearPlace_files (d : Disk) (u : Uuid) :
    (d.clearPlace u).catalogPb = d.catalogPb ∧ (d.clearPlace u).wal = d.wal ∧
      (d.clearPlace u).quarantined = d.quarantined ∧
      (d.clearPlace u).snapshots.install = d.snapshots.install := by
  rw [Disk.clearPlace]
  split <;> exact ⟨rfl, rfl, rfl, rfl⟩

theorem Disk.find?_clearPlace (d : Disk) (u u' : Uuid) :
    (d.clearPlace u).dirs.find? u' = if u' = u then none else d.dirs.find? u' := by
  rw [Disk.clearPlace]
  split
  · rename_i hnone
    split
    · rename_i hu
      rw [hu, hnone]
    · rfl
  · show (d.dirs.erase u).find? u' = _
    by_cases hu : u' = u <;> simp [OrdMap.find?_erase, hu]

theorem Disk.aside_clearPlace (d : Disk) (u u' : Uuid) :
    (d.clearPlace u).snapshots.aside.find? u' =
      if u' = u ∧ d.dirs.contains u = true then d.dirs.find? u
      else d.snapshots.aside.find? u' := by
  rw [Disk.clearPlace]
  split
  · rename_i hnone
    rw [OrdMap.contains, hnone]
    simp
  · rename_i dir hdir
    rw [OrdMap.contains, hdir, OrdMap.find?_insert]
    simp

/-- One more directory of the archive in its place, whatever was there before
set aside. -/
theorem Placing.place {dir : Dir} (h : Placing a us d d') (hu : u ∉ us)
    (hdir : a.dirs.find? u = some dir) :
    Placing a (us ++ [u]) d
      { (d'.clearPlace u).setDir u dir with
        snapshots := { (d'.clearPlace u).snapshots with
          install := (d'.clearPlace u).snapshots.install.map
            fun a => { a with dirs := a.dirs.erase u } } } := by
  obtain ⟨s, hs, hpb, hdirs⟩ := h.install
  obtain ⟨hcat, hwal, hquar, hinst⟩ := d'.clearPlace_files u
  have hmem : ∀ u', u' ∈ us ++ [u] ↔ u' ∈ us ∨ u' = u := by simp
  have hold : d'.dirs.find? u = d.dirs.find? u := by rw [h.dirs, if_neg hu]
  refine ⟨⟨hcat.trans h.catalogPb, hwal.trans h.wal⟩, hquar.trans h.quarantined, fun u' => ?_,
    ?_, fun u' hu' => ?_, ⟨{ s with dirs := s.dirs.erase u }, ?_, hpb, fun u' => ?_⟩,
    fun u' => ?_⟩
  · show ((d'.clearPlace u).dirs.insert u dir).find? u' = _
    rw [OrdMap.find?_insert, Disk.find?_clearPlace]
    by_cases hu' : u' = u
    · rw [if_pos hu', if_pos ((hmem u').mpr (.inr hu')), hu', hdir]
    · rw [if_neg hu', if_neg hu', h.dirs u']
      simp [hmem, hu']
  · rw [List.nodup_append]
    refine ⟨h.nodup, List.nodup_singleton u, fun v hv w hw => ?_⟩
    rw [List.mem_singleton.mp hw]
    exact fun he => hu (he ▸ hv)
  · rcases (hmem u').mp hu' with hu' | rfl
    · exact h.owned u' hu'
    · rw [OrdMap.contains, hdir]
      rfl
  · rw [hinst, hs, Option.map_some]
  · rw [OrdMap.find?_erase, hdirs]
    by_cases hu' : u' = u
    · rw [if_pos hu', if_pos ((hmem u').mpr (.inr hu'))]
    · rw [if_neg hu']
      simp [hmem, hu']
  · rw [Disk.aside_clearPlace, h.aside, OrdMap.contains, hold]
    by_cases hu' : u' = u
    · subst hu'
      cases hd : d.dirs.find? u' <;> simp [hu]
    · simp [hmem, hu']

variable [Ext]

/-- The loop has stopped: the places of the local collections it has come to are the
archive's. -/
structure Stopped (a : Archive) (begun : List Uuid) (d d' : Disk) : Prop extends
    SameFiles d d' where
  dirs : ∀ u, (d.index u).isSome →
    d'.dirs.find? u = if u ∈ begun then a.dirs.find? u else d.dirs.find? u

omit [Ext] in
/-- The place of an entry without a directory of its own is left empty, unless what is
set aside is in the way. -/
theorem Placing.stopped (h : Placing a us d d') (hdir : u ∈ us ∨ a.dirs.find? u = none)
    {x : Disk} (hx : x = d' ∧ u ∈ us ∨ x = d'.clearPlace u ∧ Vacant (d'.snapshots.aside.find? u)) :
    Stopped a (us ++ [u]) d x := by
  rcases hx with ⟨rfl, hu⟩ | ⟨rfl, hvacant⟩
  · refine ⟨h.toSameFiles, fun u' _ => ?_⟩
    have hmem : u' ∈ us ++ [u] ↔ u' ∈ us := by
      rw [List.mem_append, List.mem_singleton, or_iff_left_of_imp fun h => h ▸ hu]
    rw [h.dirs]
    simp only [hmem]
  · obtain ⟨hcat, hwal, _, _⟩ := d'.clearPlace_files u
    refine ⟨⟨hcat.trans h.catalogPb, hwal.trans h.wal⟩, fun u' hlocal => ?_⟩
    rw [Disk.find?_clearPlace, h.dirs]
    by_cases hu' : u' = u
    · subst hu'
      rw [if_pos rfl, if_pos (List.mem_append_right _ (List.mem_singleton_self u'))]
      rcases hdir with hin | hnone
      · -- a local collection that was set aside is in the way
        rw [h.aside, if_pos hin] at hvacant
        rcases hvacant with hd | hd <;> simp [Disk.index, hd, Dir.index?] at hlocal
      · exact hnone.symm
    · simp [hu']

omit [Ext] in
/-- The archive gives the directory, or has none of its own. -/
theorem Placing.wp_moveIn (h : Placing a us d d') (hvacant : Vacant (d'.snapshots.aside.find? u)) :
    wp (Catalog.moveIn u) (fun _ x m' => m' = m ∧ Placing a (us ++ [u]) d x)
      (fun _ x _ => Stopped a (us ++ [u]) d x ∧ (u ∈ us ∨ a.dirs.find? u = none))
      (SameFiles d) (d'.clearPlace u) m := by
  obtain ⟨s, hs, _, hdirs⟩ := h.install
  obtain ⟨_, _, _, hinst⟩ := d'.clearPlace_files u
  rw [Catalog.moveIn, wp_bind, wp_getDisk, hinst, hs, Option.bind_some, hdirs]
  by_cases hin : u ∈ us
  · rw [if_pos hin]
    exact ⟨h.stopped (.inl hin) (.inr ⟨rfl, hvacant⟩), .inl hin⟩
  · rw [if_neg hin]
    cases hdir : a.dirs.find? u with
    | none => exact ⟨h.stopped (.inr hdir) (.inr ⟨rfl, hvacant⟩), .inr rfl⟩
    | some dir =>
      have hp := h.place hin hdir
      exact ⟨hp.toSameFiles, rfl, hp⟩

omit [Ext] in
/-- A directory is moved in, and what was in its place set aside before. -/
theorem Placing.wp_setAside_moveIn (h : Placing a us d d') :
    wp (Catalog.setAside u >>= fun _ => Catalog.moveIn u)
      (fun _ x m' => m' = m ∧ Placing a (us ++ [u]) d x)
      (fun _ x _ => Stopped a (us ++ [u]) d x ∧ (u ∈ us ∨ a.dirs.find? u = none))
      (SameFiles d) d' m := by
  have hgive := h.wp_moveIn (u := u) (m := m)
  simp only [wp_bind, Catalog.setAside, wp_getDisk]
  split
  · rename_i hnone
    have hplace : d'.clearPlace u = d' := by rw [Disk.clearPlace, hnone]
    rw [hplace] at hgive
    refine hgive (.inl ?_)
    rw [h.aside, if_neg fun hin => ?_]
    have hown := h.owned u hin
    rw [h.dirs, if_pos hin] at hnone
    rw [OrdMap.contains, hnone] at hown
    contradiction
  · rename_i dir hdir
    obtain ⟨hcat, hwal, _, _⟩ := d'.clearPlace_files u
    have hfiles : SameFiles d (d'.clearPlace u) := ⟨hcat.trans h.catalogPb, hwal.trans h.wal⟩
    have hplace : d'.clearPlace u = { d'.removeDir u with
        snapshots := { d'.snapshots with aside := d'.snapshots.aside.insert u dir } } := by
      rw [Disk.clearPlace, hdir]
    rw [hplace] at hgive hfiles
    split
    · exact ⟨hfiles, hgive ‹_›⟩
    · rename_i haside
      have hin : u ∈ us := by
        by_contra hno
        exact haside (.inl (by rw [h.aside, if_neg hno]))
      exact ⟨h.stopped (.inl hin) (.inl ⟨rfl, hin⟩), .inl hin⟩

/-- One round of the loop.  It fails only where the entry has no directory of
its own. -/
theorem Placing.wp_placeCollection {entry : Proto.CatalogEntry} (h : Placing a us d d') :
    wp (Catalog.placeCollection entry)
      (fun _ x m' => m' = m ∧ ∃ u, parseUuid entry.uuid = some u ∧ Placing a (us ++ [u]) d x)
      (fun _ x _ => Stopped a (us ++ (parseUuid entry.uuid).toList) d x ∧
        ∀ u, parseUuid entry.uuid = some u → u ∈ us ∨ a.dirs.find? u = none)
      (SameFiles d) d' m := by
  rw [Catalog.placeCollection, wp_bind, Catalog.archiveUuid]
  cases parseUuid entry.uuid with
  | none =>
    refine ⟨⟨h.toSameFiles, fun u _ => ?_⟩, fun _ h => by contradiction⟩
    rw [h.dirs, Option.toList_none, List.append_nil]
  | some u =>
    simp only [wp_ofExcept_ok]
    refine wp_mono _ h.wp_setAside_moveIn (fun _ _ _ hx => ⟨hx.1, u, rfl, hx.2⟩)
      (fun _ _ _ hx => ⟨hx.1, ?_⟩) fun _ hx => hx
    rintro v ⟨⟩
    exact hx.2

/-- The loop: every entry is placed, or it stops at one that has no directory of its
own. -/
theorem Placing.wp_placeAll (a : Archive) (d : Disk) (m : Catalog)
    (entries : List Proto.CatalogEntry) :
    wp (forEach entries Catalog.placeCollection)
      (fun _ x m' => m' = m ∧ ∃ us, entries.map (fun entry => parseUuid entry.uuid) = us.map some ∧
        Placing a us d x)
      (fun _ x _ => Stopped a (a.begunFrom [] entries) d x ∧ ¬ a.Placeable entries) (SameFiles d)
      (Catalog.staged a d) m := by
  -- `pre` are the entries done, with the identities `us`
  let J : List Proto.CatalogEntry → Disk → Catalog → Prop := fun rest x m' =>
    m' = m ∧ ∃ pre us, pre ++ rest = entries ∧
      pre.map (fun entry => parseUuid entry.uuid) = us.map some ∧ Placing a us d x ∧
      a.begunFrom [] entries = us ++ a.begunFrom us rest
  have hstart : J entries (Catalog.staged a d) m :=
    ⟨rfl, [], [], rfl, rfl, .start a d, rfl⟩
  refine wp_imp (wp_forEach J (fun entry rest x m' hJ => ?_) entries hstart) fun _ x m' hJ => ?_
  · obtain ⟨rfl, pre, us, happ, hmap, hp, hbegun⟩ := hJ
    rw [Archive.begunFrom] at hbegun
    refine wp_mono _ hp.wp_placeCollection (fun _ x m'' hx => ?_)
      (fun _ x _ he => ⟨?_, fun hplace => ?_⟩) fun _ hc => hc
    · obtain ⟨rfl, u, hu, hp'⟩ := hx
      have hnot : u ∉ us := fun hin =>
        List.disjoint_of_nodup_append hp'.nodup hin (List.mem_singleton_self u)
      have howned := hp'.owned u (List.mem_append_right _ (List.mem_singleton_self u))
      simp only [hu, if_pos (And.intro hnot howned)] at hbegun
      exact ⟨rfl, pre ++ [entry], us ++ [u], by simp [happ], by simp [hmap, hu], hp',
        by rw [hbegun, List.append_assoc, List.singleton_append]⟩
    · -- the loop does not come to the entries behind this one
      have hend : a.begunFrom [] entries = us ++ (parseUuid entry.uuid).toList := by
        cases hu : parseUuid entry.uuid with
        | none => simpa [hu] using hbegun
        | some u =>
          have hno : ¬ (u ∉ us ∧ a.dirs.contains u = true) := by
            rintro ⟨hnot, hc⟩
            rw [OrdMap.contains, (he.2 u hu).resolve_left hnot] at hc
            contradiction
          simpa only [hu, if_neg hno, Option.toList_some] using hbegun
      rw [hend]
      exact he.1
    · -- the identity of the entry is behind those of `pre` in the whole list
      obtain ⟨all, hall, hnodup, howned⟩ := hplace
      rw [← happ, List.map_append, List.map_cons, hmap] at hall
      obtain ⟨us₁, us₂, rfl, h₁, h₂⟩ := List.map_eq_append_iff.mp hall.symm
      obtain ⟨u, us₃, rfl, hu, _⟩ := List.map_eq_cons_iff.mp h₂
      have husame : us₁ = us := map_some_injective h₁
      rcases he.2 u hu.symm with hin | hnone
      · exact List.disjoint_of_nodup_append hnodup (husame ▸ hin) List.mem_cons_self
      · have hc := howned u (List.mem_append_right _ List.mem_cons_self)
        rw [OrdMap.contains, hnone] at hc
        contradiction
  · obtain ⟨rfl, pre, us, happ, hmap, hp, _⟩ := hJ
    rw [List.append_nil] at happ
    exact ⟨rfl, us, happ ▸ hmap, hp⟩

end

/-! ## opening the new collections -/

section
variable [Ext] {d : Disk} {E : Error → Disk → Catalog → Prop} {C : Disk → Prop}

variable {m : Catalog} {c : OrdMap String Listed}

/-- The loop of `rebuild` opens all entries, or is stuck. -/
theorem Catalog.wp_rebuildEntries (entries : List Proto.CatalogEntry) (seq : Nat)
    {rebuilt : OrdMap String Catalog.Entry}
    (hm : ∀ n, rebuilt.find? n = openedFrom d.index c n) :
    wp (Catalog.rebuildEntries entries rebuilt seq)
      (fun r d' _ => d' = d ∧ ∃ l, Entered d.index entries l ∧
        ∀ n, r.1.find? n = openedFrom d.index (c.insertAll l) n)
      (fun _ d' _ => d' = d ∧ Stuck d.index c entries) C d m := by
  induction entries generalizing c rebuilt seq with
  | nil => exact ⟨rfl, [], ⟨rfl, by simp⟩, hm⟩
  | cons entry entries ih =>
    rw [Catalog.rebuildEntries, wp_bind]
    cases hdec : Catalog.decodeEntry "archive entry" "archive" entry with
    | error e => exact ⟨rfl, .undecoded hdec⟩
    | ok r =>
      obtain ⟨u, x⟩ := r
      simp only [wp_ofExcept_ok, wp_bind, wp_getDisk]
      cases hix : d.index u with
      | none => exact ⟨rfl, .absent hdec hix⟩
      | some ix =>
        simp only []
        split
        · exact ⟨rfl, .taken hdec hm ‹_›⟩
        · refine wp_mono _ (ih _ (openedFrom_insert (y := ⟨u, x, entry.createdSeq⟩) hm hix _))
            (fun _ d' m' hpost => ?_) (fun _ _ _ herr => ⟨herr.1, herr.2.cons hdec⟩)
            fun _ hc => hc
          obtain ⟨rfl, l, hl, hmap⟩ := hpost
          exact ⟨rfl, _, hl.cons hdec hix, hmap⟩

theorem Catalog.wp_rebuild (snapshot : Proto.CatalogSnapshot) :
    wp (Catalog.rebuild snapshot)
      (fun _ d' m' => d' = d ∧ ∃ l, Entered d.index snapshot.entries l ∧
        ∀ n, m'.collections.find? n = openedFrom d.index (.ofList l) n)
      (fun _ d' _ => d' = d ∧ Stuck d.index ∅ snapshot.entries) C d m := by
  rw [Catalog.rebuild, wp_bind]
  exact Catalog.wp_rebuildEntries (c := ∅) _ _ fun _ => rfl

/-- The collections of a map are named by entries of a listing. -/
def ListedIn (entries : List Proto.CatalogEntry) (collections : OrdMap String Catalog.Entry) :
    Prop :=
  ∀ n e, collections.find? n = some e → ∃ entry ∈ entries, parseUuid entry.uuid = some e.uuid

theorem Entered.listedIn {index : Uuid → Option Index} {entries : List Proto.CatalogEntry}
    {l : List (String × Listed)} {collections : OrdMap String Catalog.Entry}
    (h : Entered index entries l)
    (hm : ∀ n, collections.find? n = openedFrom index (.ofList l) n) :
    ListedIn entries collections := by
  intro n e hf
  obtain ⟨x, ix, hx, _, rfl⟩ := openedFrom_eq_some_iff.mp ((hm n).symm.trans hf)
  have hmem : some (n, x) ∈ entries.map Proto.CatalogEntry.listed :=
    h.decodes ▸ List.mem_map_of_mem (mem_of_find?_ofList hx)
  obtain ⟨entry, he, hlisted⟩ := List.mem_map.mp hmem
  exact ⟨entry, he, Proto.CatalogEntry.parseUuid_of_listed hlisted⟩

end

/-! ## the installation -/

/-- The archive's catalog file is in place, with its directories. -/
structure Installed (a : Archive) (d d' : Disk) (l : List (String × Listed)) : Prop where
  catalogPb : d'.catalogPb = a.catalogPb
  wal : d'.wal = d.wal
  dirs : ∀ p ∈ l, d'.dirs.find? p.2.uuid = a.dirs.find? p.2.uuid
  rest : ∀ u, d'.dirs.contains u = true → (∀ p ∈ l, p.2.uuid ≠ u) →
    d.dirs.contains u = true ∧
      ∀ seq, d'.quarantined.lookup (u, seq) = d.quarantined.lookup (u, seq)

section
variable {a : Archive} {seq : Nat} {l : List (String × Listed)} {d d' d'' : Disk} {m : Catalog}

theorem Installed.snapshots (h : Installed a d d' l) (s : SnapshotsDir) :
    Installed a d { d' with snapshots := s } l := ⟨h.catalogPb, h.wal, h.dirs, h.rest⟩

theorem Installed.index (h : Installed a d d' l) {p : String × Listed} (hp : p ∈ l) :
    d'.index p.2.uuid = a.index p.2.uuid := by
  rw [Disk.index, Archive.index, h.dirs p hp]

/-- Sweeping what the archive does not list keeps it installed. -/
theorem Installed.sweeping {live : List Uuid} {high : Nat} (h : Installed a d d' l)
    (hlive : ∀ u, u ∈ live ↔ ∃ p ∈ l, p.2.uuid = u) (hsw : Sweeping live high d' d'') :
    Installed a d d'' l where
  catalogPb := hsw.catalogPb.trans h.catalogPb
  wal := hsw.wal.trans h.wal
  dirs p hp := (hsw.find?_of_mem ((hlive _).mpr ⟨p, hp, rfl⟩)).trans (h.dirs p hp)
  rest u hu hnot := by
    obtain ⟨dir, hdir⟩ := OrdMap.contains_eq_true_iff.mp hu
    have hfind : d''.dirs.find? u = d'.dirs.find? u :=
      (hsw.dirs u).resolve_right fun hno => by rw [hno.2] at hdir; contradiction
    have hu' : d'.dirs.contains u = true := by rw [OrdMap.contains, ← hfind]; exact hu
    obtain ⟨hc, hq⟩ := h.rest u hu' hnot
    refine ⟨hc, fun seq => ?_⟩
    rcases hsw.quarantined u seq with heq | ⟨_, _, hnone, _⟩
    · rw [heq, hq]
    · rw [hnone] at hdir
      contradiction

theorem Installed.openedFrom_eq (h : Installed a d d' l) (n : String) :
    openedFrom d'.index (.ofList l) n = openedFrom a.index (.ofList l) n := by
  rw [openedFrom, openedFrom]
  cases hx : (OrdMap.ofList l).find? n with
  | none => rfl
  | some x => rw [Option.bind_some, Option.bind_some, h.index (mem_of_find?_ofList hx)]

/-- The rename of the catalog file, once every directory is in its place. -/
theorem Placing.installed {us : List Uuid} (h : Placing a us d d')
    (hus : ∀ u, u ∈ us ↔ ∃ p ∈ l, p.2.uuid = u) (s : SnapshotsDir) :
    Installed a d { d' with
      catalogPb := d'.snapshots.install.bind Archive.catalogPb, snapshots := s } l where
  catalogPb := by
    obtain ⟨s, hs, hpb, _⟩ := h.install
    rw [hs, Option.bind_some, hpb]
  wal := h.wal
  dirs p hp := by
    rw [h.dirs, if_pos ((hus _).mpr ⟨p, hp, rfl⟩)]
  rest u hu hnot := by
    have hu' : d'.dirs.contains u = true := hu
    have hno : u ∉ us := fun hmem => by
      obtain ⟨p, hp, hpu⟩ := (hus u).mp hmem
      exact hnot p hp hpu
    rw [OrdMap.contains, h.dirs, if_neg hno] at hu'
    exact ⟨hu', fun seq => by rw [← h.quarantined]⟩

/-- What stands in the way of the sweep: nothing of an unlisted directory is
in quarantine under `seq`. -/
def Disk.FreeAt (d : Disk) (seq : Nat) (l : List (String × Listed)) : Prop :=
  ∀ u, d.dirs.contains u = true → (∀ p ∈ l, p.2.uuid ≠ u) →
    Vacant (d.quarantined.lookup (u, seq))

variable [Ext]

/-- A well-formed archive is not refused. -/
theorem Archive.Formed.not_refused (h : a.Formed seq l) : ¬ a.Refused := by
  refine fun hr => hr _ h.listing ⟨l.map fun p => p.2.uuid, ?_, h.uuids, fun u hu => ?_⟩
  · simp [Listed.toProto, Ext.parseUuid_fmtUuid]
  · obtain ⟨p, hp, rfl⟩ := List.mem_map.mp hu
    obtain ⟨ix, hix⟩ := Option.isSome_iff_exists.mp (h.index p hp)
    cases hd : a.dirs.find? p.2.uuid with
    | none => simp [Archive.index, hd] at hix
    | some dir => rw [OrdMap.contains, hd]; rfl

/-- The catalog file in place is the archive's. -/
theorem Installed.lists (h : Installed a d d' l) (hf : a.Formed seq l) : d'.Lists seq l := by
  obtain ⟨bytes, hpb, hdec⟩ := hf.catalogPb
  rw [Disk.Lists, Catalog.loadSnapshot, h.catalogPb, hpb]
  simp only [hdec]

/-- The identities of a map brought back from the archive. -/
theorem Archive.Formed.mem_liveUuids (hf : a.Formed seq l)
    (hm : ∀ n, m.collections.find? n = openedFrom a.index (.ofList l) n) {u : Uuid} :
    u ∈ m.liveUuids ↔ ∃ p ∈ l, p.2.uuid = u := by
  rw [mem_liveUuids_openedFrom hm fun n x hx => hf.index _ (mem_of_find?_ofList hx)]
  simp only [find?_ofList_iff hf.names, Prod.exists]

/-- **Up to the rename of the catalog file**, for every archive: only a refused one makes
the call fail, with the catalog file as it was. -/
theorem Catalog.wp_installSnapshot_until {Q : Unit → Disk → Catalog → Prop}
    {E : Error → Disk → Catalog → Prop} {C : Disk → Prop} (ord : IterOrder)
    (hC : ∀ x, SameFiles d x → C x)
    (hE : ∀ e x m', a.Refused → Stopped a a.begun d x → E e x m')
    (hplaced : ∀ snapshot us x, Catalog.archiveSnapshot a = .ok snapshot →
      snapshot.entries.map (fun entry => parseUuid entry.uuid) = us.map some →
      Placing a us d x →
      wp (do
        Catalog.placeCatalog
        Catalog.rebuild snapshot
        Catalog.sweepOrphans ord snapshot.appliedSeq
        Catalog.publishSnapshot a
        Catalog.setSnapshots fun s => { s with aside := ∅ }
        Catalog.setSnapshots fun s => { s with install := none }) Q E C x m) :
    wp (Catalog.installSnapshot ord a) Q E C d m := by
  have hstage : ∀ s, SameFiles d { d with snapshots := s } := fun _ => ⟨rfl, rfl⟩
  rw [Catalog.installSnapshot]
  simp only [Catalog.setSnapshots, wp_bind, wp_step]
  refine ⟨hC _ (hstage _), hC _ (hstage _), ?_⟩
  cases hload : Catalog.archiveSnapshot a with
  | error e =>
    refine hE _ _ _ (fun _ h => by rw [hload] at h; contradiction) ⟨hstage _, fun u _ => ?_⟩
    rw [Archive.begun, hload, if_neg List.not_mem_nil]
  | ok snapshot =>
    refine ⟨hC _ (hstage _), wp_mono _ (Placing.wp_placeAll a d m snapshot.entries)
      (fun _ x m' hx => ?_)
      (fun _ x m' he => hE _ x m' (fun s hs => ?_) ?_) hC⟩
    · obtain ⟨rfl, us, hmap, hp⟩ := hx
      simpa only [Catalog.setSnapshots, wp_bind, wp_step] using
        hplaced snapshot us x hload hmap hp
    · rw [hload, Except.ok.injEq] at hs
      exact hs ▸ he.2
    · rw [Archive.begun, hload]
      exact he.1

/-- Behind the rename, for a well-formed archive: the sweep starts with the archive
installed and every other directory still there. -/
theorem Archive.Formed.wp_installSnapshot_until {Q : Unit → Disk → Catalog → Prop}
    {E : Error → Disk → Catalog → Prop} (hf : a.Formed seq l) (ord : IterOrder)
    (hsweep : ∀ x m', Installed a d x l → x.quarantined = d.quarantined →
      (∀ u, d.dirs.contains u = true → x.dirs.contains u = true) →
      (∀ n, m'.collections.find? n = openedFrom a.index (.ofList l) n) →
      wp (do
        Catalog.sweepOrphans ord seq
        Catalog.publishSnapshot a
        Catalog.setSnapshots fun s => { s with aside := ∅ }
        Catalog.setSnapshots fun s => { s with install := none }) Q E (fun _ => True) x m') :
    wp (Catalog.installSnapshot ord a) Q E (fun _ => True) d m := by
  refine Catalog.wp_installSnapshot_until ord (fun _ _ => trivial)
    (fun _ _ _ hr _ => absurd hr hf.not_refused) fun snapshot us x hload hmap hp => ?_
  obtain rfl : snapshot = ⟨seq, l.map Listed.toProto⟩ := by
    have h := hf.listing
    rw [hload] at h
    injection h
  have hus : ∀ u, u ∈ us ↔ ∃ p ∈ l, p.2.uuid = u := by
    intro u
    have hmem : some u ∈ us.map some ↔ u ∈ us := by simp
    rw [← hmem, ← hmap]
    simp [Listed.toProto, Ext.parseUuid_fmtUuid]
  have hinst := fun s => hp.installed hus s
  rw [wp_bind, Catalog.placeCatalog, wp_step, wp_bind]
  refine ⟨trivial, wp_mono _ (Catalog.wp_rebuild _) (fun _ y m' hpost => ?_)
    (fun _ _ _ herr => ?_) fun _ hc => hc⟩
  · obtain ⟨rfl, l', hl', hm'⟩ := hpost
    obtain rfl := hl'.eq
    refine hsweep _ m' (hinst _) hp.quarantined (fun u hu => ?_)
      fun n => (hm' n).trans ((hinst _).openedFrom_eq n)
    rw [OrdMap.contains, hp.dirs]
    split
    · exact hp.owned u ‹_›
    · exact hu
  · obtain ⟨p, hp, hnone⟩ := herr.2.exists_none hf.uuids
    have hsome := hf.index p hp
    rw [← (hinst _).index hp, hnone] at hsome
    contradiction

/-- **Installing an archive** that is well formed, with nothing in the way of the
sweep. -/
theorem Catalog.wp_installSnapshot (ord : IterOrder) (hf : a.Formed seq l)
    (hfree : d.FreeAt seq l) :
    wp (Catalog.installSnapshot ord a)
      (fun _ d' m' => Installed a d d' l ∧
        (∀ u, d'.dirs.contains u = true → ∃ p ∈ l, p.2.uuid = u) ∧
        ∀ n, m'.collections.find? n = openedFrom a.index (.ofList l) n)
      (fun _ _ _ => False) (fun _ => True) d m := by
  refine hf.wp_installSnapshot_until ord fun x m' hinst _ _ hm' => ?_
  have hlive := fun u => hf.mem_liveUuids (u := u) hm'
  rw [wp_bind]
  refine Catalog.wp_sweepOrphans ord seq (fun u hu hnot => ?_) (fun _ _ => trivial)
    fun x' hx hall => ?_
  · have hnot' : ∀ p ∈ l, p.2.uuid ≠ u := fun p hp h => hnot ((hlive u).mpr ⟨p, hp, h⟩)
    obtain ⟨hc, hq⟩ := hinst.rest u hu hnot'
    rw [hq]
    exact hfree u hc hnot'
  · have hx := hinst.sweeping hlive hx
    simp only [Catalog.publishSnapshot, Catalog.setSnapshots, wp_bind, wp_step]
    exact ⟨trivial, trivial, trivial, trivial, hx.snapshots _,
      fun u hu => (hlive u).mp (hall u hu), hm'⟩

/-- A directory that cannot be swept makes the installation fail. -/
theorem Catalog.wp_installSnapshot_blocked (ord : IterOrder) (hf : a.Formed seq l)
    (hblocked : ¬ d.FreeAt seq l) :
    wp (Catalog.installSnapshot ord a) (fun _ _ _ => False) (fun _ _ _ => True) (fun _ => True)
      d m := by
  simp only [Disk.FreeAt, not_forall] at hblocked
  obtain ⟨u, hu, hnot, htaken⟩ := hblocked
  refine hf.wp_installSnapshot_until ord fun x m' hinst hq hdirs hm' => ?_
  rw [wp_bind]
  refine wp_mono _ (Catalog.wp_sweepOrphans_blocked ord (hdirs u hu) (fun hmem => ?_) (hq ▸ htaken))
    (fun _ _ _ h => h.elim) (fun _ _ _ _ => trivial) fun _ _ => trivial
  obtain ⟨p, hp, hpu⟩ := (hf.mem_liveUuids hm').mp hmem
  exact hnot p hp hpu

end

end Lumen
