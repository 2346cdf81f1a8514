import Lumen.Log.Scan

/-!
# Lumen.Log.Rep

What a log directory stands for.  A directory represents a list of segments
(`DirRep`), each the payloads appended to one file; the in-memory log
represents the same list (`MemRep`).  Opening and reading are specified here
in terms of the segments:

* `wp_openWithSegmentMax` — opening an intact directory indexes exactly the
  records of its segments;
* `readLocs_recs` — the indexed locations read back as the payloads.
-/

namespace Lumen

open Lib Prog

/-- A segment file, as the payloads appended to it. -/
structure Seg where
  start : Nat
  payloads : List Bytes

/-- A record with the place it is stored at. -/
structure Rec where
  index : Nat
  loc : RecordLoc
  payload : Bytes

namespace Rec

/-- The record's entry in the in-memory index. -/
def key (r : Rec) : Nat × RecordLoc := (r.index, r.loc)

/-- The record as `read_all` returns it. -/
def item (r : Rec) : Nat × Bytes := (r.index, r.payload)

end Rec

/-- The records of consecutive frames of segment `start`, the first numbered
`index` and lying at `offset`. -/
def recsFrom (start index offset : Nat) : List Bytes → List Rec
  | [] => []
  | p :: ps =>
    ⟨index, ⟨start, offset + headerBytes, p.length⟩, p⟩ ::
      recsFrom start (index + 1) (offset + headerBytes + p.length) ps

theorem recsFrom_bounds {start index offset : Nat} {ps : List Bytes} {r : Rec}
    (h : r ∈ recsFrom start index offset ps) :
    index ≤ r.index ∧ r.index < index + ps.length ∧ r.loc.segmentStart = start := by
  induction ps generalizing index offset with
  | nil => simp [recsFrom] at h
  | cons p ps ih =>
    rw [recsFrom, List.mem_cons] at h
    rw [List.length_cons]
    rcases h with rfl | h
    · refine ⟨Nat.le_refl _, ?_, rfl⟩
      show index < index + (ps.length + 1)
      omega
    · obtain ⟨h₁, h₂, h₃⟩ := ih h
      exact ⟨by omega, by omega, h₃⟩

theorem recsFrom_sorted (start index offset : Nat) (ps : List Bytes) :
    (recsFrom start index offset ps).Pairwise (fun a b => a.index < b.index) := by
  induction ps generalizing index offset with
  | nil => exact List.Pairwise.nil
  | cons p ps ih =>
    refine List.pairwise_cons.mpr ⟨fun r hr => ?_, ih _ _⟩
    have hb := (recsFrom_bounds hr).1
    show index < r.index
    omega

/-- Every number in range is the number of a record. -/
theorem exists_recsFrom {start index offset i : Nat} {ps : List Bytes} (h₁ : index ≤ i)
    (h₂ : i < index + ps.length) : ∃ r ∈ recsFrom start index offset ps, r.index = i := by
  induction ps generalizing index offset with
  | nil => rw [List.length_nil] at h₂; omega
  | cons p ps ih =>
    by_cases hi : i = index
    · exact ⟨_, List.mem_cons_self, hi.symm⟩
    · rw [List.length_cons] at h₂
      obtain ⟨r, hr, he⟩ := @ih (index + 1) (offset + headerBytes + p.length) (by omega) (by omega)
      exact ⟨r, List.mem_cons_of_mem _ hr, he⟩

section
variable [Ext]

theorem recsFrom_append (start index offset : Nat) (ps qs : List Bytes) :
    recsFrom start index offset (ps ++ qs) =
      recsFrom start index offset ps ++
        recsFrom start (index + ps.length) (offset + (frames ps).length) qs := by
  induction ps generalizing index offset with
  | nil => simp [recsFrom, frames_nil]
  | cons p ps ih =>
    have hi : index + 1 + ps.length = index + (ps.length + 1) := by omega
    have ho : offset + headerBytes + p.length + (frames ps).length =
        offset + (headerBytes + p.length + (frames ps).length) := by omega
    rw [List.cons_append, recsFrom, recsFrom, ih, frames_cons, List.length_append, length_frame,
      List.length_cons, hi, ho, List.cons_append]

end

namespace Seg

/-- The number after the segment's last record. -/
def stop (s : Seg) : Nat := s.start + s.payloads.length

def recs (s : Seg) : List Rec := recsFrom s.start s.start 0 s.payloads

/-- Keep the records numbered below `index`. -/
def cut (index : Nat) (s : Seg) : Seg := { s with payloads := s.payloads.take (index - s.start) }

section
variable [Ext]

/-- The file's bytes. -/
def bytes (s : Seg) : Bytes := frames s.payloads

/-- The handle an open segment is appended through. -/
def active (s : Seg) : Active := ⟨s.start, s.bytes.length⟩

end

theorem recs_bounds {s : Seg} {r : Rec} (h : r ∈ s.recs) :
    s.start ≤ r.index ∧ r.index < s.stop ∧ r.loc.segmentStart = s.start := recsFrom_bounds h

theorem exists_recs {s : Seg} {i : Nat} (h₁ : s.start ≤ i) (h₂ : i < s.stop) :
    ∃ r ∈ s.recs, r.index = i := exists_recsFrom h₁ h₂

end Seg

/-- All records of a list of segments, in file order. -/
def recsOf (segs : List Seg) : List Rec := segs.flatMap Seg.recs

theorem recsOf_append (segs segs' : List Seg) : recsOf (segs ++ segs') = recsOf segs ++ recsOf segs' :=
  List.flatMap_append

theorem recsOf_singleton (s : Seg) : recsOf [s] = s.recs := by simp [recsOf]

/-- No segment reaches into the numbers of a later one. -/
def Ordered (segs : List Seg) : Prop := segs.Pairwise fun a b => a.stop ≤ b.start

theorem Ordered.recsOf_sorted {segs : List Seg} (h : Ordered segs) :
    (recsOf segs).Pairwise (fun a b => a.index < b.index) := by
  induction segs with
  | nil => exact List.Pairwise.nil
  | cons s segs ih =>
    obtain ⟨hs, hsegs⟩ := List.pairwise_cons.mp h
    refine List.pairwise_append.mpr ⟨recsFrom_sorted _ _ _ _, ih hsegs, fun a ha b hb => ?_⟩
    obtain ⟨t, ht, hbt⟩ := List.mem_flatMap.mp hb
    have h₁ := (Seg.recs_bounds ha).2.1
    have h₂ := hs t ht
    have h₃ := (Seg.recs_bounds hbt).1
    omega

/-! ## reading and indexing records -/

/-- A location whose file holds the payload there. -/
def Readable (dir : LogDir) (r : Rec) : Prop :=
  ∃ bytes, dir.find? r.loc.segmentStart = some bytes ∧
    r.loc.payloadOffset + r.loc.len ≤ bytes.length ∧
    slice bytes r.loc.payloadOffset r.loc.len = r.payload

theorem readLocs_recs {dir : LogDir} {rs : List Rec} (h : ∀ r ∈ rs, Readable dir r) :
    SegmentedLog.readLocs dir (rs.map Rec.key) = .ok (rs.map Rec.item) := by
  induction rs with
  | nil => rfl
  | cons r rs ih =>
    obtain ⟨bytes, hfind, hlen, hslice⟩ := h r List.mem_cons_self
    have hrest := ih fun r' hr' => h r' (List.mem_cons_of_mem r hr')
    rw [List.map_cons, List.map_cons, Rec.key, SegmentedLog.readLocs, hfind, hrest]
    simp only [hslice, Rec.item]
    rw [if_neg (by omega)]

/-- Enter records into the index one by one. -/
def insertRecs (rs : List Rec) (records : OrdMap Nat RecordLoc) : OrdMap Nat RecordLoc :=
  rs.foldl (fun records r => records.insert r.index r.loc) records

theorem insertLocs_locsFrom (start index offset : Nat) (ps : List Bytes)
    (records : OrdMap Nat RecordLoc) :
    SegmentedLog.insertLocs start (locsFrom index offset ps) records =
      insertRecs (recsFrom start index offset ps) records := by
  induction ps generalizing index offset records with
  | nil => rfl
  | cons p ps ih => exact ih _ _ _

/-- Records above everything in the index are added at its end. -/
theorem toList_insertRecs {rs : List Rec} (hrs : rs.Pairwise fun a b => a.index < b.index)
    (records : OrdMap Nat RecordLoc) (h : ∀ p ∈ records.toList, ∀ r ∈ rs, p.1 < r.index) :
    (insertRecs rs records).toList = records.toList ++ rs.map Rec.key := by
  induction rs generalizing records with
  | nil => simp [insertRecs]
  | cons r rs ih =>
    obtain ⟨hr, hrs⟩ := List.pairwise_cons.mp hrs
    have happ : (records.insert r.index r.loc).toList = records.toList ++ [(r.index, r.loc)] :=
      OrdMap.toList_insert_of_lt fun p hp => h p hp r List.mem_cons_self
    have hnext : ∀ p ∈ (records.insert r.index r.loc).toList, ∀ r' ∈ rs, p.1 < r'.index := by
      intro p hp r' hr'
      rw [happ, List.mem_append, List.mem_singleton] at hp
      rcases hp with hp | rfl
      · exact h p hp r' (List.mem_cons_of_mem r hr')
      · exact hr r' hr'
    have hrec := ih hrs _ hnext
    rw [happ, List.append_assoc] at hrec
    exact hrec

section
variable [Ext] {dir : LogDir} {log : SegmentedLog} {segs : List Seg}

/-! ## directories and logs as segment lists -/

/-- The files of the directory are the segments, and every record fits its
length field. -/
structure DirRep (dir : LogDir) (segs : List Seg) : Prop where
  files : dir.toList = segs.map fun s => (s.start, s.bytes)
  small : ∀ s ∈ segs, ∀ p ∈ s.payloads, p.length < 2 ^ 32

/-- The in-memory log lists the segments and appends to the last. -/
structure MemRep (log : SegmentedLog) (segs : List Seg) : Prop where
  starts : log.starts = segs.map Seg.start
  active : log.active = segs.getLast?.map Seg.active

theorem DirRep.empty : DirRep ∅ [] := ⟨rfl, by simp⟩

theorem DirRep.find? (h : DirRep dir segs) {s : Seg} (hs : s ∈ segs) :
    dir.find? s.start = some s.bytes := by
  rw [OrdMap.find?_eq_some_iff, h.files]
  exact List.mem_map_of_mem hs

theorem DirRep.contains (h : DirRep dir segs) {s : Seg} (hs : s ∈ segs) :
    dir.contains s.start = true := by
  rw [OrdMap.contains, h.find? hs]
  rfl

theorem DirRep.keys (h : DirRep dir segs) : dir.keys = segs.map Seg.start := by
  rw [OrdMap.keys, h.files, List.map_map]
  rfl

theorem DirRep.starts_lt (h : DirRep dir segs) : segs.Pairwise fun a b => a.start < b.start := by
  have hs := dir.sorted
  rw [h.files, List.pairwise_map] at hs
  exact hs

/-- A segment is known by its start. -/
theorem DirRep.start_inj (h : DirRep dir segs) {s t : Seg} (hs : s ∈ segs) (ht : t ∈ segs)
    (he : s.start = t.start) : s = t := by
  have hnd : (segs.map Seg.start).Nodup := by
    rw [List.Nodup, List.pairwise_map]
    exact h.starts_lt.imp Nat.ne_of_lt
  exact List.inj_on_of_nodup_map hnd hs ht he

/-- The directory determines the segments' files, so equal files are equal
directories. -/
theorem DirRep.unique {dir' : LogDir} (h : DirRep dir segs) (h' : DirRep dir' segs) :
    dir = dir' := by
  have hl : dir.toList = dir'.toList := h.files.trans h'.files.symm
  cases dir
  cases dir'
  simpa using hl

/-! ## reading -/

/-- The payloads of consecutive frames are read back wherever the frames lie
in the file. -/
theorem slice_recsFrom {start index : Nat} {ps : List Bytes} (pre : Bytes) {r : Rec}
    (h : r ∈ recsFrom start index pre.length ps) :
    r.loc.payloadOffset + r.loc.len ≤ (pre ++ frames ps).length ∧
      slice (pre ++ frames ps) r.loc.payloadOffset r.loc.len = r.payload := by
  induction ps generalizing pre index with
  | nil => simp [recsFrom] at h
  | cons p ps ih =>
    have hbuf : pre ++ frames (p :: ps) = (pre ++ frame p) ++ frames ps := by
      simp [frames_cons]
    have hoff : (pre ++ frame p).length = pre.length + headerBytes + p.length := by
      rw [List.length_append, length_frame]
      omega
    rw [recsFrom, List.mem_cons] at h
    rcases h with rfl | h
    · have hsplit : pre ++ frames (p :: ps) =
          (pre ++ (u32ToLe p.length ++ u32ToLe (crc32c p).toNat)) ++ (p ++ frames ps) := by
        simp [frames_cons, frame]
      refine ⟨?_, ?_⟩
      · rw [hbuf, List.length_append, hoff]
        show pre.length + headerBytes + p.length ≤ _
        omega
      · rw [hsplit]
        exact slice_append _ _ _ (by simp [length_u32ToLe, headerBytes]) rfl
    · rw [← hoff] at h
      rw [hbuf]
      exact ih _ h

theorem DirRep.readable (h : DirRep dir segs) {r : Rec} (hr : r ∈ recsOf segs) :
    Readable dir r := by
  obtain ⟨s, hs, hrs⟩ := List.mem_flatMap.mp hr
  have hread := slice_recsFrom [] (show r ∈ recsFrom s.start s.start ([] : Bytes).length s.payloads
    from hrs)
  refine ⟨s.bytes, ?_, hread.1, hread.2⟩
  rw [(Seg.recs_bounds hrs).2.2]
  exact h.find? hs

/-! ## opening -/

variable {Q : List Nat × OrdMap Nat RecordLoc × Option Active → LogDir → SegmentedLog → Prop}
  {E : Error → LogDir → SegmentedLog → Prop} {C : LogDir → Prop}

/-- Intact segments in front of others are indexed, and the scan goes on. -/
theorem wp_openSegments_append {pre : List Seg} {starts : List Nat} (hne : starts ≠ [])
    (hfile : ∀ s ∈ pre, dir.find? s.start = some s.bytes)
    (hsmall : ∀ s ∈ pre, ∀ p ∈ s.payloads, p.length < 2 ^ 32) (records : OrdMap Nat RecordLoc)
    (hrest : wp (SegmentedLog.openSegments starts (insertRecs (recsOf pre) records))
      (fun r => Q (pre.map Seg.start ++ r.1, r.2)) E C dir log) :
    wp (SegmentedLog.openSegments (pre.map Seg.start ++ starts) records) Q E C dir log := by
  induction pre generalizing records Q with
  | nil => exact hrest
  | cons s pre ih =>
    have hscan : scanSegment s.start s.bytes = (locsFrom s.start 0 s.payloads, s.bytes.length) :=
      scanSegment_frames (hsmall s List.mem_cons_self) s.start
    have hins : insertRecs (recsOf (s :: pre)) records =
        insertRecs (recsOf pre) (insertRecs s.recs records) := by
      rw [insertRecs, recsOf, List.flatMap_cons, List.foldl_append]
      rfl
    rw [List.map_cons, List.cons_append, SegmentedLog.openSegments, wp_bind, wp_getDisk,
      hfile s List.mem_cons_self]
    simp only [hscan, insertLocs_locsFrom]
    rw [if_neg (Nat.lt_irrefl _), if_neg (by simp [hne]), wp_bind]
    refine ih (fun x hx => hfile x (List.mem_cons_of_mem s hx))
      (fun x hx => hsmall x (List.mem_cons_of_mem s hx)) _ ?_
    rw [hins] at hrest
    exact hrest

/-- Scanning intact segments changes no file and indexes their records. -/
theorem wp_openSegments (hfile : ∀ s ∈ segs, dir.find? s.start = some s.bytes)
    (hsmall : ∀ s ∈ segs, ∀ p ∈ s.payloads, p.length < 2 ^ 32) (records : OrdMap Nat RecordLoc)
    (hQ : Q (segs.map Seg.start, insertRecs (recsOf segs) records, segs.getLast?.map Seg.active)
      dir log) :
    wp (SegmentedLog.openSegments (segs.map Seg.start) records) Q E C dir log := by
  rcases List.eq_nil_or_concat' segs with rfl | ⟨pre, s, rfl⟩
  · exact hQ
  · simp only [List.forall_mem_append, List.forall_mem_singleton] at hfile hsmall
    rw [List.map_append]
    refine wp_openSegments_append (List.cons_ne_nil _ _) hfile.1 hsmall.1 records ?_
    have hscan : scanSegment s.start s.bytes = (locsFrom s.start 0 s.payloads, s.bytes.length) :=
      scanSegment_frames hsmall.2 s.start
    rw [SegmentedLog.openSegments, wp_bind, wp_getDisk, hfile.2]
    simp only [hscan, insertLocs_locsFrom]
    rw [if_neg (Nat.lt_irrefl _)]
    simpa [recsOf, insertRecs, Seg.recs, Seg.active] using hQ

/-- **Opening an intact directory** leaves it alone and indexes exactly its
records. -/
theorem wp_openWithSegmentMax {Q : Unit → LogDir → SegmentedLog → Prop} (h : DirRep dir segs)
    (hord : Ordered segs) (segmentMax : Nat)
    (hQ : ∀ log', MemRep log' segs → log'.records.toList = (recsOf segs).map Rec.key →
      log'.segmentMaxBytes = segmentMax → Q () dir log') :
    wp (SegmentedLog.openWithSegmentMax segmentMax) Q E C dir log := by
  rw [SegmentedLog.openWithSegmentMax, wp_bind, wp_getDisk, wp_bind, h.keys]
  refine wp_openSegments (fun s hs => h.find? hs) h.small _ ?_
  refine hQ _ ⟨rfl, rfl⟩ ?_ rfl
  have hl := toList_insertRecs hord.recsOf_sorted ∅ (by simp)
  simpa using hl

/-- Reading everything an index made of the directory's records. -/
theorem wp_readAll {Q : List (Nat × Bytes) → LogDir → SegmentedLog → Prop} (h : DirRep dir segs)
    {rs : List Rec} (hrs : rs ⊆ recsOf segs) (hlog : log.records.toList = rs.map Rec.key)
    (hQ : Q (rs.map Rec.item) dir log) : wp SegmentedLog.readAll Q E C dir log := by
  rw [SegmentedLog.readAll, wp_bind, wp_getDisk, wp_bind, wp_getMem, hlog,
    readLocs_recs fun r hr => h.readable (hrs hr)]
  exact hQ

/-- Reading a range. -/
theorem wp_readRange {Q : List (Nat × Bytes) → LogDir → SegmentedLog → Prop}
    (h : DirRep dir segs) {rs : List Rec} (hrs : rs ⊆ recsOf segs)
    (hlog : log.records.toList = rs.map Rec.key) {lo hi : Nat} (hle : lo ≤ hi)
    (hQ : Q ((rs.filter fun r => lo ≤ r.index ∧ r.index < hi).map Rec.item) dir log) :
    wp (SegmentedLog.readRange lo hi) Q E C dir log := by
  have hfilter : (log.records.filter fun k _ => lo ≤ k ∧ k < hi).toList =
      (rs.filter fun r => lo ≤ r.index ∧ r.index < hi).map Rec.key := by
    rw [OrdMap.toList_filter, hlog, List.filter_map]
    rfl
  rw [SegmentedLog.readRange, wp_bind, wp_getDisk, wp_bind, wp_getMem, if_neg (by omega), hfilter,
    readLocs_recs fun r hr => h.readable (hrs (List.mem_of_mem_filter hr))]
  exact hQ

end

end Lumen
