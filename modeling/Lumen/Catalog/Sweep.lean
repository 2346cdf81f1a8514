import Lumen.Catalog.Open

/-!
# Lumen.Catalog.Sweep

Opening a directory with left-over directories.  `sweep_orphans` moves every
directory the map does not name out of the way; it fails only where the place
it is moved to is taken.
-/

namespace Lumen

open Lib Prog

/-- The identities of the collections in a map. -/
def Catalog.liveUuids (m : Catalog) : List Uuid := m.collections.toList.map fun p => p.2.uuid

theorem Catalog.mem_liveUuids {m : Catalog} {u : Uuid} :
    u ∈ m.liveUuids ↔ ∃ n e, m.collections.find? n = some e ∧ e.uuid = u := by
  rw [Catalog.liveUuids, List.mem_map]
  constructor
  · rintro ⟨p, hp, hu⟩
    exact ⟨p.1, p.2, OrdMap.find?_eq_some_iff.mpr hp, hu⟩
  · rintro ⟨n, e, hf, hu⟩
    exact ⟨(n, e), OrdMap.find?_eq_some_iff.mp hf, hu⟩

theorem Catalog.liveUuids_congr {m m' : Catalog} (h : m'.listing = m.listing) :
    m'.liveUuids = m.liveUuids := by
  have heq := congrArg (List.map fun p => p.2.uuid) h
  rw [Catalog.listing, Catalog.listing, List.map_map, List.map_map] at heq
  exact heq

theorem Catalog.isOpen_iff {m : Catalog} {u : Uuid} : m.isOpen u = true ↔ u ∈ m.liveUuids := by
  simp [Catalog.isOpen, Catalog.liveUuids]

theorem Catalog.isOpen_congr {m m' : Catalog} (h : m'.listing = m.listing) (u : Uuid) :
    m'.isOpen u = m.isOpen u := by
  rw [Bool.eq_iff_iff, Catalog.isOpen_iff, Catalog.isOpen_iff, Catalog.liveUuids_congr h]

/-- The disk `d` with some directories outside `live` moved out of the way. -/
structure Sweeping (live : List Uuid) (high : Nat) (d d' : Disk) : Prop where
  dirs : ∀ u, d'.dirs.find? u = d.dirs.find? u ∨
    u ∉ live ∧ d'.dirs.find? u = none
  quarantined : ∀ u seq, d'.quarantined.lookup (u, seq) = d.quarantined.lookup (u, seq) ∨
    seq = high ∧ u ∉ live ∧ d'.dirs.find? u = none ∧
      d'.quarantined.lookup (u, seq) = d.dirs.find? u
  moved : ∀ u, d.dirs.contains u = true → d'.dirs.find? u = none →
    d'.quarantined.lookup (u, high) = d.dirs.find? u
  kept : ∀ u seq, d.dirs.contains u = false →
    d'.quarantined.lookup (u, seq) = d.quarantined.lookup (u, seq)
  catalogPb : d'.catalogPb = d.catalogPb
  wal : d'.wal = d.wal
  snapshots : d'.snapshots = d.snapshots

namespace Sweeping

variable {live : List Uuid} {high : Nat} {d d' : Disk}

theorem refl (live : List Uuid) (high : Nat) (d : Disk) : Sweeping live high d d :=
  ⟨fun _ => .inl rfl, fun _ _ => .inl rfl, fun u hc hn => by simp [OrdMap.contains, hn] at hc,
    fun _ _ _ => rfl, rfl, rfl, rfl⟩

/-- One more directory is moved. -/
theorem move {u : Uuid} {dir : Dir} (h : Sweeping live high d d') (hu : u ∉ live)
    (hf : d'.dirs.find? u = some dir) (hd : d.dirs.find? u = some dir) :
    Sweeping live high d
      { d'.removeDir u with quarantined := ((u, high), dir) :: d'.quarantined } where
  dirs u' := by
    show (d'.dirs.erase u).find? u' = _ ∨ u' ∉ live ∧ (d'.dirs.erase u).find? u' = none
    rw [OrdMap.find?_erase]
    by_cases hu' : u' = u
    · subst hu'
      exact .inr ⟨hu, if_pos rfl⟩
    · rw [if_neg hu']
      exact h.dirs u'
  quarantined u' seq := by
    show List.lookup (u', seq) (((u, high), dir) :: d'.quarantined) = _ ∨
      seq = high ∧ u' ∉ live ∧ (d'.dirs.erase u).find? u' = none ∧
        List.lookup (u', seq) (((u, high), dir) :: d'.quarantined) = _
    rw [List.lookup_cons, OrdMap.find?_erase]
    by_cases hk : (u', seq) = (u, high)
    · obtain ⟨rfl, rfl⟩ := hk
      right
      simp [hu, hd]
    · have hne : ((u', seq) == (u, high)) = false := by simpa using hk
      rw [hne]
      rcases h.quarantined u' seq with hq | ⟨hs, hl, hn, hq⟩
      · exact .inl hq
      · exact .inr ⟨hs, hl, by rw [hn]; split <;> rfl, hq⟩
  moved u' hc hn := by
    have hn : (d'.dirs.erase u).find? u' = none := hn
    rw [OrdMap.find?_erase] at hn
    by_cases hu' : u' = u
    · subst hu'
      rw [List.lookup_cons_self, hd]
    · have hne : ((u', high) == (u, high)) = false := by simpa using hu'
      rw [if_neg hu'] at hn
      rw [List.lookup_cons, hne]
      exact h.moved u' hc hn
  kept u' seq hc := by
    have hne : ((u', seq) == (u, high)) = false := by
      have : u' ≠ u := by
        rintro rfl
        simp [OrdMap.contains, hd] at hc
      simpa using fun h => absurd h this
    rw [List.lookup_cons, hne]
    exact h.kept u' seq hc
  catalogPb := h.catalogPb
  wal := h.wal
  snapshots := h.snapshots

theorem find?_of_mem {u : Uuid} (h : Sweeping live high d d') (hu : u ∈ live) :
    d'.dirs.find? u = d.dirs.find? u :=
  (h.dirs u).resolve_right fun h' => h'.1 hu

theorem index_of_mem {u : Uuid} (h : Sweeping live high d d') (hu : u ∈ live) :
    d'.index u = d.index u := by
  rw [Disk.index, Disk.index, h.find?_of_mem hu]

/-- A sweep that has `rest` still to visit: these are there; what was visited and is
there is live, and the place of what was moved was not taken. -/
structure Before (live : List Uuid) (high : Nat) (d d' : Disk) (rest : List Uuid) : Prop where
  sweeping : Sweeping live high d d'
  nodup : rest.Nodup
  ahead : ∀ u ∈ rest, d.dirs.contains u = true ∧ d'.dirs.find? u = d.dirs.find? u ∧
    d'.quarantined.lookup (u, high) = d.quarantined.lookup (u, high)
  behind : ∀ u, d'.dirs.contains u = true → u ∈ live ∨ u ∈ rest
  vacant : ∀ u, d.dirs.contains u = true → u ∉ live →
    u ∈ rest ∨ Vacant (d.quarantined.lookup (u, high))

variable {u : Uuid} {rest : List Uuid}

theorem Before.start (ord : IterOrder) : Before live high d d (ord.order d.dirs.keys) := by
  have hmem : ∀ u, u ∈ ord.order d.dirs.keys ↔ d.dirs.contains u = true := fun u => by
    rw [ord.mem, OrdMap.mem_keys_iff, OrdMap.contains_eq_true_iff]
  exact ⟨.refl .., (ord.perm _).nodup_iff.mpr d.dirs.nodup_keys,
    fun u hu => ⟨(hmem u).mp hu, rfl, rfl⟩, fun u hu => .inr ((hmem u).mpr hu),
    fun u hu _ => .inl ((hmem u).mpr hu)⟩

theorem Before.skip (h : Before live high d d' (u :: rest)) (hu : u ∈ live) :
    Before live high d d' rest where
  sweeping := h.sweeping
  nodup := h.nodup.of_cons
  ahead u' hu' := h.ahead u' (List.mem_cons_of_mem u hu')
  behind u' hu' := by
    rcases h.behind u' hu' with h' | h'
    · exact .inl h'
    · exact (List.mem_cons.mp h').imp_left fun he => by rwa [he]
  vacant u' hc hno := (h.vacant u' hc hno).imp_left fun h' =>
    (List.mem_cons.mp h').resolve_left fun he => hno (he ▸ hu)

theorem Before.move {dir : Dir} (h : Before live high d d' (u :: rest)) (hu : u ∉ live)
    (hdir : d.dirs.find? u = some dir) (hv : Vacant (d.quarantined.lookup (u, high))) :
    Before live high d
      { d'.removeDir u with quarantined := ((u, high), dir) :: d'.quarantined } rest where
  sweeping := h.sweeping.move hu ((h.ahead u List.mem_cons_self).2.1.trans hdir) hdir
  nodup := h.nodup.of_cons
  ahead u' hu' := by
    have hne : u' ≠ u := fun he => (List.nodup_cons.mp h.nodup).1 (he ▸ hu')
    obtain ⟨h1, h2, h3⟩ := h.ahead u' (List.mem_cons_of_mem u hu')
    refine ⟨h1, ?_, ?_⟩
    · show (d'.dirs.erase u).find? u' = _
      rw [OrdMap.find?_erase, if_neg hne, h2]
    · have hbeq : ((u', high) == (u, high)) = false := by simpa using hne
      rw [List.lookup_cons, hbeq, h3]
  behind u' hu' := by
    rw [Disk.contains_removeDir, Bool.and_eq_true] at hu'
    exact (h.behind u' hu'.2).imp_right fun h' =>
      (List.mem_cons.mp h').resolve_left (of_decide_eq_true hu'.1)
  vacant u' hc hno := by
    by_cases he : u' = u
    · exact .inr (he ▸ hv)
    · exact (h.vacant u' hc hno).imp_left fun h' => (List.mem_cons.mp h').resolve_left he

end Sweeping

section
variable {d : Disk} {m : Catalog} {E : Error → Disk → Catalog → Prop} {C : Disk → Prop}

/-- **The sweep** moves every directory the map does not name, or stops at one whose
place is taken. -/
theorem Catalog.wp_sweepOrphans_cases {Q : Unit → Disk → Catalog → Prop} (ord : IterOrder)
    (high : Nat) (hC : ∀ d', Sweeping m.liveUuids high d d' → C d')
    (hE : ∀ d' u, Sweeping m.liveUuids high d d' → d.dirs.contains u = true →
      u ∉ m.liveUuids → ¬ Vacant (d.quarantined.lookup (u, high)) →
      E (.io .directoryNotEmpty) d' m)
    (hQ : ∀ d', Sweeping m.liveUuids high d d' →
      (∀ u, d'.dirs.contains u = true → u ∈ m.liveUuids) →
      (∀ u, d.dirs.contains u = true → u ∉ m.liveUuids →
        Vacant (d.quarantined.lookup (u, high))) → Q () d' m) :
    wp (Catalog.sweepOrphans ord high) Q E C d m := by
  rw [Catalog.sweepOrphans, wp_bind, wp_getMem, wp_bind, wp_getDisk]
  refine wp_imp (wp_forEach (fun rest d' m' => m' = m ∧ Sweeping.Before m.liveUuids high d d' rest)
    (fun u rest d' m' hJ => ?_) _ ⟨rfl, .start ord⟩) fun _ d' m' hJ => ?_
  · obtain ⟨rfl, hb⟩ := hJ
    rw [Catalog.sweepDir]
    split
    · rename_i hlive
      exact ⟨rfl, hb.skip hlive⟩
    · rename_i hlive
      obtain ⟨hc, hfind, hlook⟩ := hb.ahead u List.mem_cons_self
      obtain ⟨dir, hdir⟩ := OrdMap.contains_eq_true_iff.mp hc
      simp only [Catalog.quarantine, wp_bind, wp_getDisk, hfind.trans hdir, hlook]
      split
      · rename_i hv
        have hmoved := hb.move hlive hdir hv
        exact ⟨hC _ hmoved.sweeping, rfl, hmoved⟩
      · rename_i hv
        exact hE d' u hb.sweeping hc hlive hv
  · obtain ⟨rfl, hb⟩ := hJ
    exact hQ d' hb.sweeping (fun u hu => (hb.behind u hu).resolve_right List.not_mem_nil)
      fun u hc hno => (hb.vacant u hc hno).resolve_left List.not_mem_nil

/-- If nothing is in the way, the sweep moves every directory the map does not
name. -/
theorem Catalog.wp_sweepOrphans {Q : Unit → Disk → Catalog → Prop} (ord : IterOrder) (high : Nat)
    (hfree : ∀ u, d.dirs.contains u = true → u ∉ m.liveUuids →
      Vacant (d.quarantined.lookup (u, high)))
    (hC : ∀ d', Sweeping m.liveUuids high d d' → C d')
    (hQ : ∀ d', Sweeping m.liveUuids high d d' →
      (∀ u, d'.dirs.contains u = true → u ∈ m.liveUuids) → Q () d' m) :
    wp (Catalog.sweepOrphans ord high) Q E C d m :=
  Catalog.wp_sweepOrphans_cases ord high hC
    (fun _ u _ hu hlive hq => absurd (hfree u hu hlive) hq) fun d' hsw hall _ => hQ d' hsw hall

/-- A directory whose place in quarantine is taken stops the sweep. -/
theorem Catalog.wp_sweepOrphans_blocked (ord : IterOrder) {high : Nat} {u : Uuid}
    (hu : d.dirs.contains u = true) (hlive : u ∉ m.liveUuids)
    (htaken : ¬ Vacant (d.quarantined.lookup (u, high))) :
    wp (Catalog.sweepOrphans ord high) (fun _ _ _ => False) (fun _ _ _ => True) (fun _ => True)
      d m :=
  Catalog.wp_sweepOrphans_cases ord high (fun _ _ => trivial) (fun _ _ _ _ _ _ => trivial)
    fun _ _ _ hfree => htaken (hfree u hu hlive)

end

/-- The identities of the collections that were opened. -/
theorem mem_liveUuids_openedFrom {index : Uuid → Option Index} {c : OrdMap String Listed}
    {m : Catalog} {u : Uuid} (hm : ∀ n, m.collections.find? n = openedFrom index c n)
    (hidx : ∀ n x, c.find? n = some x → (index x.uuid).isSome) :
    u ∈ m.liveUuids ↔ ∃ n x, c.find? n = some x ∧ x.uuid = u := by
  simp only [Catalog.mem_liveUuids, hm, openedFrom_eq_some_iff]
  constructor
  · rintro ⟨n, _, ⟨x, ix, hx, _, rfl⟩, rfl⟩
    exact ⟨n, x, hx, rfl⟩
  · rintro ⟨n, x, hx, rfl⟩
    obtain ⟨ix, hix⟩ := Option.isSome_iff_exists.mp (hidx n x hx)
    exact ⟨n, x.opened ix, ⟨x, ix, hx, hix, rfl⟩, rfl⟩

end Lumen
