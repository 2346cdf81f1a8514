import Lumen.Log.Ops
import Lumen.Log.Salvage

/-!
# Lumen.Log.Contents

A directory as the map from index to payload that it opens to, and a log that
goes on appending to it.

The segments of a directory may reach into each other's numbers: opening enters
their records in order, and later ones replace earlier ones (`contents`).  In
`Extensible dir log segs next mem` the index of the process holds `mem`, the
directory opens to `contents segs`, and `next` is the position behind both;
appending at `next` adds the record to either, at every segment size, and
whatever segments lie next to the active one.  `Extensible.carryOn` is the whole of
it: append, sync, read, open, read.
-/

namespace Lumen

open Lib Prog

/-! ## numbered payloads -/

/-- Payloads numbered from `index` on. -/
def numbered (index : Nat) : List Bytes → List (Nat × Bytes)
  | [] => []
  | p :: ps => (index, p) :: numbered (index + 1) ps

theorem numbered_append (index : Nat) (ps qs : List Bytes) :
    numbered index (ps ++ qs) = numbered index ps ++ numbered (index + ps.length) qs := by
  induction ps generalizing index with
  | nil => rfl
  | cons p ps ih =>
    rw [List.cons_append, numbered, ih, numbered, List.cons_append, List.length_cons]
    congr 3
    omega

@[simp] theorem length_numbered (index : Nat) (ps : List Bytes) :
    (numbered index ps).length = ps.length := by
  induction ps generalizing index with
  | nil => rfl
  | cons p ps ih => rw [numbered, List.length_cons, ih, List.length_cons]

theorem mem_numbered {index i : Nat} {p : Bytes} {ps : List Bytes} :
    (i, p) ∈ numbered index ps ↔ ∃ j, i = index + j ∧ ps[j]? = some p := by
  induction ps generalizing index with
  | nil => simp [numbered]
  | cons q ps ih =>
    rw [numbered, List.mem_cons, ih]
    constructor
    · rintro (h | ⟨j, hi, hj⟩)
      · exact ⟨0, congrArg Prod.fst h, congrArg some (congrArg Prod.snd h).symm⟩
      · exact ⟨j + 1, by omega, hj⟩
    · rintro ⟨j, hi, hj⟩
      cases j with
      | zero =>
        have hq : q = p := Option.some.inj hj
        exact Or.inl (by rw [hi, hq]; rfl)
      | succ j => exact Or.inr ⟨j, by omega, hj⟩

theorem map_snd_numbered (index : Nat) (ps : List Bytes) : (numbered index ps).map Prod.snd = ps := by
  induction ps generalizing index with
  | nil => rfl
  | cons p ps ih => rw [numbered, List.map_cons, ih]

theorem numbered_inj {index : Nat} {ps qs : List Bytes} (h : numbered index ps = numbered index qs) :
    ps = qs := by
  rw [← map_snd_numbered index ps, h, map_snd_numbered]

/-- The parts of a numbered list are numbered. -/
theorem numbered_split {index : Nat} {ps : List Bytes} {l l' : List (Nat × Bytes)}
    (h : l ++ l' = numbered index ps) :
    l = numbered index (ps.take l.length) ∧ l' = numbered (index + l.length) (ps.drop l.length) := by
  have hlen := congrArg List.length h
  rw [List.length_append, length_numbered] at hlen
  have htake : (ps.take l.length).length = l.length := by
    rw [List.length_take]
    omega
  have hsplit := numbered_append index (ps.take l.length) (ps.drop l.length)
  rw [List.take_append_drop, ← h, htake] at hsplit
  exact List.append_inj hsplit (by rw [length_numbered, htake])

/-- A numbered end of a numbered list stops where the list does. -/
theorem numbered_stop {index start : Nat} {ps xs : List Bytes} {l : List (Nat × Bytes)}
    (h : l ++ numbered start xs = numbered index ps) (hne : xs ≠ []) :
    start + xs.length = index + ps.length := by
  have hlen := congrArg List.length h
  rw [List.length_append, length_numbered, length_numbered] at hlen
  have htail := (numbered_split h).2
  obtain ⟨x, rest, rfl⟩ := List.exists_cons_of_ne_nil hne
  cases hd : ps.drop l.length with
  | nil => simp [hd, numbered] at htail
  | cons p rest' =>
    rw [hd, numbered, numbered, List.cons.injEq, Prod.mk.injEq] at htail
    omega

theorem map_item_recsFrom (start index offset : Nat) (ps : List Bytes) :
    (recsFrom start index offset ps).map Rec.item = numbered index ps := by
  induction ps generalizing index offset with
  | nil => rfl
  | cons p ps ih => rw [recsFrom, List.map_cons, ih]; rfl

theorem Seg.map_item_recs (s : Seg) : s.recs.map Rec.item = numbered s.start s.payloads :=
  map_item_recsFrom _ _ _ _

/-- Above everything in the map, numbered payloads are added at its end. -/
theorem toList_insertAll_numbered {map : OrdMap Nat Bytes} {next : Nat}
    (h : ∀ i p, map.find? i = some p → i < next) (ps : List Bytes) :
    (map.insertAll (numbered next ps)).toList = map.toList ++ numbered next ps := by
  induction ps generalizing map next with
  | nil => simp [OrdMap.insertAll, numbered]
  | cons p ps ih =>
    have hlt : ∀ q ∈ map.toList, q.1 < next := fun q hq =>
      h q.1 q.2 (OrdMap.find?_eq_some_iff.mpr hq)
    have hrec := @ih (map.insert next p) (next + 1) fun i q hq => by
      rw [OrdMap.find?_insert] at hq
      split at hq
      · omega
      · have := h i q hq
        omega
    rw [OrdMap.toList_insert_of_lt hlt, List.append_assoc] at hrec
    exact hrec

/-! ## what a directory opens to -/

/-- The map a list of segments opens to. -/
def contents (segs : List Seg) : OrdMap Nat Bytes := OrdMap.ofList ((recsOf segs).map Rec.item)

theorem contents_append (segs segs' : List Seg) :
    contents (segs ++ segs') = (contents segs).insertAll ((recsOf segs').map Rec.item) := by
  rw [contents, recsOf_append, List.map_append, OrdMap.ofList_append]
  rfl

theorem mem_of_contents {segs : List Seg} {i : Nat} {p : Bytes}
    (h : (contents segs).find? i = some p) : ∃ r ∈ recsOf segs, r.item = (i, p) := by
  have hm := (OrdMap.mem_or_find?_of_insertAll h).resolve_right (by simp)
  exact List.mem_map.mp hm

/-- Every record's number is in the map. -/
theorem exists_contents {segs : List Seg} {r : Rec} (h : r ∈ recsOf segs) :
    ∃ p, (contents segs).find? r.index = some p :=
  OrdMap.exists_find?_insertAll ∅ (List.mem_map_of_mem h)

theorem contents_lt {segs : List Seg} {next i : Nat} {p : Bytes}
    (h : ∀ s ∈ segs, s.stop ≤ next) (hp : (contents segs).find? i = some p) : i < next := by
  obtain ⟨r, hr, he⟩ := mem_of_contents hp
  obtain ⟨s, hs, hrs⟩ := List.mem_flatMap.mp hr
  have hstop := h s hs
  have hb := (Seg.recs_bounds hrs).2.1
  have hi : r.index = i := congrArg Prod.fst he
  omega

/-- Segments that do not reach into each other open to their records. -/
theorem Ordered.toList_contents {segs : List Seg} (h : Ordered segs) :
    (contents segs).toList = (recsOf segs).map Rec.item :=
  OrdMap.toList_ofList (List.pairwise_map.mpr h.recsOf_sorted)

/-! ## the index of a process -/

/-- The index points at records of the segments, and stands for `mem`. -/
structure Live (segs : List Seg) (records : OrdMap Nat RecordLoc) (mem : OrdMap Nat Bytes) :
    Prop where
  read : ∀ i loc, records.find? i = some loc → ∃ r ∈ recsOf segs,
    r.index = i ∧ r.loc = loc ∧ mem.find? i = some r.payload
  known : ∀ i p, mem.find? i = some p → ∃ loc, records.find? i = some loc

namespace Live

variable {segs segs' : List Seg} {records : OrdMap Nat RecordLoc} {mem : OrdMap Nat Bytes}

theorem empty (segs : List Seg) : Live segs ∅ ∅ := ⟨by simp, by simp⟩

theorem mono (h : Live segs records mem) (hsub : recsOf segs ⊆ recsOf segs') :
    Live segs' records mem :=
  ⟨fun i loc hl => by
    obtain ⟨r, hr, hrest⟩ := h.read i loc hl
    exact ⟨r, hsub hr, hrest⟩, h.known⟩

theorem insert (h : Live segs records mem) {r : Rec} (hr : r ∈ recsOf segs) :
    Live segs (records.insert r.index r.loc) (mem.insert r.index r.payload) where
  read i loc hl := by
    rw [OrdMap.find?_insert] at hl ⊢
    by_cases hi : i = r.index
    · rw [if_pos hi] at hl ⊢
      exact ⟨r, hr, hi.symm, Option.some.inj hl, rfl⟩
    · rw [if_neg hi] at hl ⊢
      exact h.read i loc hl
  known i p hp := by
    rw [OrdMap.find?_insert] at hp ⊢
    by_cases hi : i = r.index
    · exact ⟨r.loc, if_pos hi⟩
    · rw [if_neg hi] at hp ⊢
      exact h.known i p hp

theorem insertRecs (h : Live segs records mem) {rs : List Rec} (hrs : rs ⊆ recsOf segs) :
    Live segs (insertRecs rs records) (mem.insertAll (rs.map Rec.item)) := by
  induction rs generalizing records mem with
  | nil => exact h
  | cons r rs ih =>
    exact ih (h.insert (hrs List.mem_cons_self)) fun x hx => hrs (List.mem_cons_of_mem r hx)

/-- The index lists records, and the map their payloads. -/
theorem recs (h : Live segs records mem) : ∃ rs, rs ⊆ recsOf segs ∧
    records.toList = rs.map Rec.key ∧ mem.toList = rs.map Rec.item := by
  let toRec : Nat × RecordLoc → Rec := fun x => ⟨x.1, x.2, (mem.find? x.1).getD []⟩
  have hitem : mem.toList = (records.toList.map toRec).map Rec.item := by
    refine OrdMap.list_ext mem.sorted ?_ fun x => ?_
    · rw [List.map_map, List.pairwise_map]
      exact records.sorted
    · obtain ⟨i, p⟩ := x
      rw [← OrdMap.find?_eq_some_iff, List.map_map, List.mem_map]
      constructor
      · intro hp
        obtain ⟨loc, hl⟩ := h.known i p hp
        refine ⟨(i, loc), OrdMap.find?_eq_some_iff.mp hl, ?_⟩
        simp [toRec, Rec.item, hp]
      · rintro ⟨⟨j, loc⟩, hl, he⟩
        obtain ⟨r, _, _, _, hp⟩ := h.read j loc (OrdMap.find?_eq_some_iff.mpr hl)
        simp only [toRec, Rec.item, Function.comp_apply, hp, Option.getD_some,
          Prod.mk.injEq] at he
        rw [← he.1, ← he.2, hp]
  refine ⟨records.toList.map toRec, fun x hx => ?_, ?_, hitem⟩
  · obtain ⟨⟨i, loc⟩, hl, rfl⟩ := List.mem_map.mp hx
    obtain ⟨r, hr, hi, hloc, hp⟩ := h.read i loc (OrdMap.find?_eq_some_iff.mpr hl)
    have he : toRec (i, loc) = r := by
      simp only [toRec, hp, Option.getD_some]
      rw [← hi, ← hloc]
    exact he ▸ hr
  · rw [List.map_map]
    exact (List.map_id records.toList).symm

end Live

section
variable [Ext] {dir : LogDir} {log : SegmentedLog} {segs : List Seg} {mem : OrdMap Nat Bytes}

theorem Live.wp_readAll {Q : List (Nat × Bytes) → LogDir → SegmentedLog → Prop}
    {E : Error → LogDir → SegmentedLog → Prop} {C : LogDir → Prop} (h : Live segs log.records mem)
    (hdir : DirRep dir segs) (hQ : Q mem.toList dir log) :
    wp SegmentedLog.readAll Q E C dir log := by
  obtain ⟨rs, hsub, hkeys, hitems⟩ := h.recs
  exact Lumen.wp_readAll hdir hsub hkeys (hitems ▸ hQ)

theorem Live.wp_readRange {Q : List (Nat × Bytes) → LogDir → SegmentedLog → Prop}
    {E : Error → LogDir → SegmentedLog → Prop} {C : LogDir → Prop} (h : Live segs log.records mem)
    (hdir : DirRep dir segs) {lo hi : Nat} (hle : lo ≤ hi)
    (hQ : Q (mem.filter fun k _ => lo ≤ k ∧ k < hi).toList dir log) :
    wp (SegmentedLog.readRange lo hi) Q E C dir log := by
  obtain ⟨rs, hsub, hkeys, hitems⟩ := h.recs
  refine Lumen.wp_readRange hdir hsub hkeys hle ?_
  rw [OrdMap.toList_filter, hitems, List.filter_map] at hQ
  exact hQ

variable {Q : Unit → LogDir → SegmentedLog → Prop} {E : Error → LogDir → SegmentedLog → Prop}
  {C : LogDir → Prop}

/-- Opening segments indexes what they open to. -/
theorem wp_open_contents (h : DirRep dir segs) (segmentMax : Nat)
    (hQ : ∀ log', MemRep log' segs → Live segs log'.records (contents segs) →
      log'.segmentMaxBytes = segmentMax → Q () dir log') :
    wp (SegmentedLog.openWithSegmentMax segmentMax) Q E C dir log := by
  rw [SegmentedLog.openWithSegmentMax, wp_bind, wp_getDisk, wp_bind, h.keys]
  refine wp_openSegments (fun s hs => h.find? hs) h.small _ ?_
  exact hQ _ ⟨rfl, rfl⟩ ((Live.empty segs).insertRecs fun r hr => hr) rfl

/-- Opening a directory whose last file may be torn. -/
theorem wp_open_last {pre : List Seg} {start : Nat} {b : Bytes}
    (hfiles : dir.toList = (pre.map fun s => (s.start, s.bytes)) ++ [(start, b)])
    (hsmall : ∀ s ∈ pre, ∀ p ∈ s.payloads, p.length < 2 ^ 32) (segmentMax : Nat) (hC : ∀ d, C d)
    (hQ : ∀ dir' log', DirRep dir' (pre ++ [⟨start, accepted b⟩]) →
      MemRep log' (pre ++ [⟨start, accepted b⟩]) →
      Live (pre ++ [⟨start, accepted b⟩]) log'.records (contents (pre ++ [⟨start, accepted b⟩])) →
      log'.segmentMaxBytes = segmentMax → (dir' = dir ↔ residue b = []) → Q () dir' log') :
    wp (SegmentedLog.openWithSegmentMax segmentMax) Q E C dir log := by
  have hrep : ∀ dir' : LogDir, dir'.toList = (pre.map fun s => (s.start, s.bytes)) ++
      [(start, frames (accepted b))] → DirRep dir' (pre ++ [⟨start, accepted b⟩]) := by
    intro dir' hd
    refine ⟨by simpa [Seg.bytes] using hd, fun s hs => ?_⟩
    rcases List.mem_append.mp hs with hs | hs
    · exact hsmall s hs
    · rw [List.mem_singleton.mp hs]
      exact (split_accepted b).2.1
  by_cases hres : residue b = []
  · have hb := (split_accepted b).1
    rw [hres, List.append_nil] at hb
    refine wp_open_contents (hrep dir (by rw [hfiles, ← hb])) segmentMax fun log' hm hl hmax => ?_
    exact hQ dir log' (hrep dir (by rw [hfiles, ← hb])) hm hl hmax (by simp [hres])
  · refine wp_open_torn hfiles hsmall hres segmentMax (fun _ _ => hC _)
      fun dir' log' hd hm hr hmax => ?_
    refine hQ dir' log' (hrep dir' hd) hm ?_ hmax ?_
    · rw [hr]
      exact (Live.empty _).insertRecs fun r hr => hr
    · refine iff_of_false (fun he => ?_) hres
      rw [he, hfiles] at hd
      have hlast := (List.append_inj' hd rfl).2
      have hb : b = frames (accepted b) := by simpa using hlast
      have hlen := congrArg List.length (split_accepted b).1
      rw [List.length_append, ← hb] at hlen
      exact hres (List.length_eq_zero_iff.mp (by omega))

/-! ## appending -/

/-- The segment the next record goes to. -/
def SegmentedLog.target (log : SegmentedLog) (next : Nat) : Nat :=
  if log.needsRotation then next else (log.active.map Active.start).getD next

/-- The segments with one more record: at the end of the segment `start`, or in
a new one. -/
inductive Grown (next : Nat) (p : Bytes) (start : Nat) : List Seg → List Seg → Prop where
  | extend (pre : List Seg) (s : Seg) (post : List Seg) (h : s.stop = next) (hs : s.start = start) :
      Grown next p start (pre ++ s :: post)
        (pre ++ { s with payloads := s.payloads ++ [p] } :: post)
  | fresh (segs : List Seg) (h : start = next) : Grown next p start segs (segs ++ [⟨next, [p]⟩])

/-- The record a grown list has more. -/
theorem Grown.recs {next start : Nat} {p : Bytes} {segs segs' : List Seg}
    (h : Grown next p start segs segs') :
    ∃ before behind r, recsOf segs = before ++ behind ∧ recsOf segs' = before ++ r :: behind ∧
      r.item = (next, p) ∧ ((∀ s ∈ segs, s.stop ≤ next) → ∀ x ∈ behind, x.index < next) := by
  cases h with
  | extend pre s post hs _ =>
    refine ⟨recsOf pre ++ s.recs, recsOf post,
      ⟨s.stop, ⟨s.start, s.bytes.length + headerBytes, p.length⟩, p⟩, ?_, ?_, ?_, ?_⟩
    · simp [recsOf]
    · have hrecs : ({ s with payloads := s.payloads ++ [p] } : Seg).recs =
          s.recs ++ [⟨s.stop, ⟨s.start, s.bytes.length + headerBytes, p.length⟩, p⟩] := by
        rw [Seg.recs, recsFrom_append, Nat.zero_add]
        rfl
      rw [recsOf_append, recsOf, recsOf, List.flatMap_cons, hrecs]
      simp [recsOf]
    · rw [Rec.item, hs]
    · intro hstops x hx
      obtain ⟨t, ht, hxt⟩ := List.mem_flatMap.mp hx
      have hb := (Seg.recs_bounds hxt).2.1
      have hle := hstops t (by simp [ht])
      omega
  | fresh _ hs =>
    refine ⟨recsOf segs, [], ⟨next, ⟨next, 0 + headerBytes, p.length⟩, p⟩, by simp, ?_, rfl,
      by simp⟩
    rw [recsOf_append, recsOf_singleton]
    rfl

theorem Grown.subset {next start : Nat} {p : Bytes} {segs segs' : List Seg}
    (h : Grown next p start segs segs') : recsOf segs ⊆ recsOf segs' := by
  obtain ⟨before, behind, r, h₁, h₂, _⟩ := h.recs
  rw [h₁, h₂]
  intro x hx
  simp only [List.mem_append, List.mem_cons] at hx ⊢
  exact hx.imp_right Or.inr

theorem Grown.contents {next start : Nat} {p : Bytes} {segs segs' : List Seg}
    (h : Grown next p start segs segs') (hstops : ∀ s ∈ segs, s.stop ≤ next) :
    contents segs' = (contents segs).insert next p := by
  obtain ⟨before, behind, r, h₁, h₂, hr, hlt⟩ := h.recs
  have hne : ∀ x ∈ behind.map Rec.item, x.1 ≠ next := by
    rintro x hx
    obtain ⟨y, hy, rfl⟩ := List.mem_map.mp hx
    exact Nat.ne_of_lt (hlt hstops y hy)
  rw [Lumen.contents, Lumen.contents, h₁, h₂, List.map_append, List.map_append, List.map_cons, hr,
    OrdMap.ofList_append, OrdMap.ofList_append, ← OrdMap.insertAll_insert _ p hne]
  rfl

omit [Ext] in
/-- No segment starts behind the one that grows: it is the last. -/
theorem Grown.at_end {next start : Nat} {p : Bytes} {segs segs' : List Seg}
    (h : Grown next p start segs segs') (hlt : segs.Pairwise fun a b => a.start < b.start)
    (hle : ∀ t ∈ segs, t.start ≤ start) :
    (start = next ∧ segs' = segs ++ [⟨next, [p]⟩]) ∨ ∃ pre s, segs = pre ++ [s] ∧
      s.stop = next ∧ s.start = start ∧ segs' = pre ++ [{ s with payloads := s.payloads ++ [p] }] := by
  cases h with
  | extend pre s post hstop hs =>
    have hnil : post = [] := by
      refine List.eq_nil_iff_forall_not_mem.mpr fun t ht => ?_
      have hst := (List.pairwise_cons.mp (List.pairwise_append.mp hlt).2.1).1 t ht
      have := hle t (by simp [ht])
      omega
    subst hnil
    exact Or.inr ⟨pre, s, rfl, hstop, hs, rfl⟩
  | fresh _ h => exact Or.inl ⟨h, rfl⟩

/-- A log that can go on at `next`: nothing reaches beyond it, and the active
segment ends there or is about to be left. -/
structure Extensible (dir : LogDir) (log : SegmentedLog) (segs : List Seg) (next : Nat)
    (mem : OrdMap Nat Bytes) : Prop where
  dirRep : DirRep dir segs
  stops : ∀ s ∈ segs, s.stop ≤ next
  live : Live segs log.records mem
  below : ∀ i p, mem.find? i = some p → i < next
  active : ∀ a, log.active = some a → ∃ s ∈ segs, s.active = a ∧
    (s.stop = next ∨ log.needsRotation = true)

variable {next : Nat} {p : Bytes}

/-- After the frame is written to a segment that ends at `next`. -/
theorem Live.extensible {dir' : LogDir} {log' : SegmentedLog} {pre post : List Seg} {s : Seg}
    (h : Live (pre ++ s :: post) log.records mem)
    (hbelow : ∀ i q, mem.find? i = some q → i < next)
    (hstops : ∀ t ∈ pre ++ s :: post, t.stop ≤ next) (hs : s.stop = next)
    (hdir : DirRep dir' (pre ++ { s with payloads := s.payloads ++ [p] } :: post))
    (hrec : log'.records = log.records.insert next
      ⟨s.start, s.bytes.length + headerBytes, p.length⟩)
    (hact : log'.active = some ⟨s.start, s.bytes.length + (frame p).length⟩) :
    Extensible dir' log' (pre ++ { s with payloads := s.payloads ++ [p] } :: post) (next + 1)
      (mem.insert next p) := by
  have hstop : ({ s with payloads := s.payloads ++ [p] } : Seg).stop = next + 1 := by
    rw [← hs, Seg.stop, Seg.stop, List.length_append, List.length_singleton, Nat.add_assoc]
  have hgrown := Grown.extend (p := p) pre s post hs rfl
  have hr : (⟨s.stop, ⟨s.start, s.bytes.length + headerBytes, p.length⟩, p⟩ : Rec) ∈
      recsOf (pre ++ { s with payloads := s.payloads ++ [p] } :: post) := by
    refine List.mem_flatMap.mpr ⟨{ s with payloads := s.payloads ++ [p] }, by simp, ?_⟩
    rw [Seg.recs, recsFrom_append, Nat.zero_add]
    exact List.mem_append_right _ List.mem_cons_self
  refine ⟨hdir, fun t ht => ?_, ?_, fun i q hq => ?_, fun a ha => ?_⟩
  · simp only [List.mem_append, List.mem_cons] at ht
    rcases ht with ht | rfl | ht
    · exact (hstops t (by simp [ht])).trans (Nat.le_succ _)
    · exact Nat.le_of_eq hstop
    · exact (hstops t (by simp [ht])).trans (Nat.le_succ _)
  · rw [hrec, ← hs]
    exact (h.mono hgrown.subset).insert hr
  · rw [OrdMap.find?_insert] at hq
    split at hq
    · omega
    · exact (hbelow i q hq).trans (Nat.lt_succ_self _)
  · refine ⟨{ s with payloads := s.payloads ++ [p] }, by simp, ?_, Or.inl hstop⟩
    rw [hact] at ha
    rw [← Option.some.inj ha, Seg.active, Seg.bytes, frames_append, frames_singleton,
      List.length_append]
    rfl

/-- The file the rotation opens: a new one, or an empty one that has the name
already. -/
theorem Extensible.rotated (h : Extensible dir log segs next mem) :
    ∃ pre post, DirRep (LogDir.created dir next) (pre ++ ⟨next, []⟩ :: post) ∧
        Live (pre ++ ⟨next, []⟩ :: post) log.records mem ∧
      (∀ t ∈ pre ++ ⟨next, []⟩ :: post, t.stop ≤ next) ∧
      ∀ p, Grown next p next segs (pre ++ ⟨next, [p]⟩ :: post) := by
  by_cases hc : dir.contains next = true
  · have hmem := OrdMap.mem_keys_iff.mpr (Option.isSome_iff_exists.mp hc)
    rw [h.dirRep.keys, List.mem_map] at hmem
    obtain ⟨s, hs, hstart⟩ := hmem
    have hle := h.stops s hs
    have hnil : s.payloads = [] := by
      rw [Seg.stop] at hle
      exact List.length_eq_zero_iff.mp (by omega)
    obtain ⟨pre, post, rfl⟩ := List.append_of_mem hs
    obtain ⟨start, payloads⟩ := s
    subst hstart hnil
    rw [LogDir.created, if_pos hc]
    exact ⟨pre, post, h.dirRep, h.live, h.stops, fun p =>
      Grown.extend pre ⟨start, []⟩ post rfl rfl⟩
  · have hlt : ∀ s ∈ segs, s.start < next := by
      intro s hs
      have hle := h.stops s hs
      have hne : s.start ≠ next := fun he => hc (he ▸ h.dirRep.contains hs)
      rw [Seg.stop] at hle
      omega
    rw [LogDir.created, if_neg hc]
    refine ⟨segs, [], h.dirRep.create hlt, h.live.mono ?_, fun t ht => ?_,
      fun p => .fresh segs rfl⟩
    · rw [recsOf_append]
      exact fun r hr => List.mem_append_left _ hr
    · rcases List.mem_append.mp ht with ht | ht
      · exact h.stops t ht
      · rw [List.mem_singleton.mp ht]
        exact Nat.le_refl _

/-- **Append** at `next` adds the record to the index and to the directory. -/
theorem Extensible.wp_append (h : Extensible dir log segs next mem) (hp : p.length < 2 ^ 32)
    (hC : ∀ d, C d)
    (hQ : ∀ dir' log' segs', Extensible dir' log' segs' (next + 1) (mem.insert next p) →
      Grown next p (log.target next) segs segs' →
      log'.active.map Active.start = some (log.target next) →
      log'.segmentMaxBytes = log.segmentMaxBytes → Q () dir' log') :
    wp (SegmentedLog.append next p) Q E C dir log := by
  cases hrot : log.needsRotation with
  | true =>
    obtain ⟨pre, post, hdir, hlive, hstops, hgrown⟩ := h.rotated
    have hmod := hdir.modify (· ++ frame p) [p] (by rw [frames_singleton]; rfl) (by simpa using hp)
    have htarget : log.target next = next := by rw [SegmentedLog.target, hrot, if_pos rfl]
    rw [htarget] at hQ
    rw [wp_append_rotating hrot hp]
    exact ⟨hC _, hC _, hQ _ _ _
      (hlive.extensible h.below hstops rfl hmod rfl rfl) (hgrown p) rfl rfl⟩
  | false =>
    cases hact : log.active with
    | none => simp [SegmentedLog.needsRotation, hact] at hrot
    | some a =>
      obtain ⟨s, hs, rfl, hstop⟩ := h.active a hact
      have hstop := hstop.resolve_right (by simp [hrot])
      obtain ⟨pre, post, rfl⟩ := List.append_of_mem hs
      have hmod := h.dirRep.modify (· ++ frame p) (s.payloads ++ [p])
        (by rw [frames_append, frames_singleton]; rfl) (by
          intro q hq
          rcases List.mem_append.mp hq with hq | hq
          · exact h.dirRep.small s hs q hq
          · exact List.mem_singleton.mp hq ▸ hp)
      have htarget : log.target next = s.start := by
        rw [SegmentedLog.target, hrot, hact]
        rfl
      rw [htarget] at hQ
      rw [wp_append_active hact hrot hp]
      exact ⟨hC _, hQ _ _ _ (h.live.extensible h.below h.stops hstop hmod rfl rfl)
        (.extend pre s post hstop rfl) rfl rfl⟩

/-! ## going on -/

namespace SegmentedLog

/-- Append payloads at consecutive indexes. -/
def appendAll (next : Nat) : List Bytes → LogM Unit
  | [] => pure ()
  | p :: ps => do
    append next p
    appendAll (next + 1) ps

/-- Append payloads and sync, read everything, then open the log again and read
everything. -/
def carryOn (segmentMax next : Nat) (ps : List Bytes) :
    LogM (List (Nat × Bytes) × List (Nat × Bytes)) := do
  appendAll next ps
  sync
  let live ← readAll
  openWithSegmentMax segmentMax
  let again ← readAll
  pure (live, again)

end SegmentedLog

theorem Extensible.wp_appendAll (h : Extensible dir log segs next mem) {ps : List Bytes}
    (hps : ∀ p ∈ ps, p.length < 2 ^ 32) (hC : ∀ d, C d)
    (hQ : ∀ dir' log' segs',
      Extensible dir' log' segs' (next + ps.length) (mem.insertAll (numbered next ps)) →
      contents segs' = (contents segs).insertAll (numbered next ps) → Q () dir' log') :
    wp (SegmentedLog.appendAll next ps) Q E C dir log := by
  induction ps generalizing dir log segs next mem with
  | nil => exact hQ dir log segs h rfl
  | cons p ps ih =>
    rw [SegmentedLog.appendAll, wp_bind]
    refine h.wp_append (hps p List.mem_cons_self) hC fun dir' log' segs' h' hgrown _ _ => ?_
    refine ih h' (fun q hq => hps q (List.mem_cons_of_mem p hq)) fun d l segs'' h'' hcont => ?_
    have hnext : next + 1 + ps.length = next + (p :: ps).length := by
      rw [List.length_cons]
      omega
    rw [hnext] at h''
    refine hQ d l segs'' h'' ?_
    rw [hcont, hgrown.contents h.stops]
    rfl

/-- **Going on**: the records appended at `next` are read back behind what the
process had, and behind what the directory had when it is opened again. -/
theorem Extensible.carryOn (h : Extensible dir log segs next mem) {ps : List Bytes}
    (hps : ∀ p ∈ ps, p.length < 2 ^ 32) (segmentMax : Nat) :
    ((SegmentedLog.carryOn segmentMax next ps).run dir log).1 =
      .ok (mem.toList ++ numbered next ps, (contents segs).toList ++ numbered next ps) := by
  have hw : wp (SegmentedLog.carryOn segmentMax next ps) (fun out _ _ =>
      out = (mem.toList ++ numbered next ps, (contents segs).toList ++ numbered next ps))
      (fun _ _ _ => False) (fun _ => True) dir log := by
    rw [SegmentedLog.carryOn, wp_bind]
    refine h.wp_appendAll hps (fun _ => trivial) fun dir' log' segs' h' hcont => ?_
    rw [wp_bind, SegmentedLog.sync, wp_pure, wp_bind]
    refine h'.live.wp_readAll h'.dirRep ?_
    rw [wp_bind]
    refine wp_open_contents h'.dirRep segmentMax fun log'' _ hlive _ => ?_
    rw [wp_bind]
    refine hlive.wp_readAll h'.dirRep ?_
    rw [hcont, toList_insertAll_numbered h.below,
      toList_insertAll_numbered fun i p hp => contents_lt h.stops hp]
    exact rfl
  obtain ⟨out, _, _, hrun, rfl⟩ := run_ok_of_wp hw
  rw [hrun]

end

end Lumen
