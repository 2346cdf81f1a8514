import Lumen.Log.Rep

/-!
# Lumen.Log.Ops

What `append` and `purgeThrough` do to the segments a log stands for.

Both specifications hold whatever numbers the index gives the records: the
write-ahead log, whose sequence numbers may skip, and the Raft log, whose
indexes are positions, use the same two.
-/

namespace Lumen

open Lib Prog

/-! ## the segments afterwards -/

/-- The segments after an append: into a new segment, or at the end of the
last. -/
def push (rotate : Bool) (index : Nat) (p : Bytes) (segs : List Seg) : List Seg :=
  if rotate then segs ++ [⟨index, [p]⟩]
  else segs.dropLast ++ (segs.getLast?.map fun s => { s with payloads := s.payloads ++ [p] }).toList

theorem push_true (index : Nat) (p : Bytes) (segs : List Seg) :
    push true index p segs = segs ++ [⟨index, [p]⟩] := rfl

theorem push_false (index : Nat) (p : Bytes) (pre : List Seg) (s : Seg) :
    push false index p (pre ++ [s]) = pre ++ [{ s with payloads := s.payloads ++ [p] }] := by
  simp [push]

/-- A sorted list with something larger put in front sorts to the list with
it at the end. -/
theorem insertionSort_cons_of_lt {l : List Nat} {x : Nat} (hl : l.Pairwise (· < ·))
    (hx : ∀ y ∈ l, y < x) : (x :: l).insertionSort (· ≤ ·) = l ++ [x] := by
  have hperm : ((x :: l).insertionSort (· ≤ ·)).Perm (l ++ [x]) :=
    (List.perm_insertionSort _ _).trans (List.perm_append_singleton x l).symm
  have hsorted : (l ++ [x]).Pairwise (· ≤ ·) := by
    refine List.pairwise_append.mpr ⟨hl.imp Nat.le_of_lt, List.pairwise_singleton _ _, ?_⟩
    intro a ha b hb
    rw [List.mem_singleton] at hb
    exact hb ▸ Nat.le_of_lt (hx a ha)
  exact hperm.eq_of_pairwise (fun a b _ _ hab hba => Nat.le_antisymm hab hba)
    (List.pairwise_insertionSort _ _) hsorted

/-- The segments a purge keeps: it drops from the front while the next
segment's start shows the first to be covered. -/
def purged (index : Nat) : List Seg → List Seg
  | [] => []
  | [s] => [s]
  | s :: t :: rest => if t.start - 1 ≤ index then purged index (t :: rest) else s :: t :: rest

theorem purged_suffix (index : Nat) (segs : List Seg) : purged index segs <:+ segs := by
  induction segs using purged.induct index with
  | case1 => exact List.suffix_rfl
  | case2 s => exact List.suffix_rfl
  | case3 s t rest hle ih =>
    rw [purged, if_pos hle]
    exact ih.trans (List.suffix_cons s _)
  | case4 s t rest hle =>
    have hstop : purged index (s :: t :: rest) = s :: t :: rest := by rw [purged, if_neg hle]
    exact ⟨[], hstop⟩

theorem getLast?_purged (index : Nat) (segs : List Seg) :
    (purged index segs).getLast? = segs.getLast? := by
  induction segs using purged.induct index with
  | case1 => rfl
  | case2 s => rfl
  | case3 s t rest hle ih => rw [purged, if_pos hle, ih, List.getLast?_cons_cons]
  | case4 s t rest hle => rw [purged, if_neg hle]

section
variable [Ext] {dir : LogDir} {log : SegmentedLog} {segs : List Seg}

/-! ## changing one file -/

theorem map_start_bytes_ne {segs : List Seg} {k : Nat} (f : Bytes → Bytes)
    (h : ∀ s ∈ segs, s.start ≠ k) :
    (segs.map fun s => (s.start, s.bytes)).map
      (fun p => if p.1 = k then (p.1, f p.2) else p) = segs.map fun s => (s.start, s.bytes) := by
  rw [List.map_map]
  refine List.map_congr_left fun s hs => ?_
  exact if_neg (h s hs)

/-- Rewriting one segment file. -/
theorem DirRep.modify {pre post : List Seg} {s : Seg} (h : DirRep dir (pre ++ s :: post))
    (f : Bytes → Bytes) (ps : List Bytes) (hbytes : f s.bytes = frames ps)
    (hps : ∀ p ∈ ps, p.length < 2 ^ 32) :
    DirRep (dir.modify s.start f) (pre ++ { s with payloads := ps } :: post) := by
  have hlt := List.pairwise_append.mp h.starts_lt
  have hpre : ∀ t ∈ pre, t.start ≠ s.start := fun t ht =>
    Nat.ne_of_lt (hlt.2.2 t ht s List.mem_cons_self)
  have hpost : ∀ t ∈ post, t.start ≠ s.start := fun t ht =>
    Nat.ne_of_gt ((List.pairwise_cons.mp hlt.2.1).1 t ht)
  refine ⟨?_, ?_⟩
  · rw [OrdMap.toList_modify, h.files, List.map_append, List.map_append, List.map_cons,
      List.map_cons, map_start_bytes_ne f hpre, map_start_bytes_ne f hpost, if_pos rfl, hbytes,
      List.map_append, List.map_cons]
    rfl
  · intro t ht p hp
    rw [List.mem_append, List.mem_cons] at ht
    rcases ht with ht | rfl | ht
    · exact h.small t (List.mem_append_left _ ht) p hp
    · exact hps p hp
    · exact h.small t (List.mem_append_right _ (List.mem_cons_of_mem _ ht)) p hp

/-- Creating the next segment file. -/
theorem DirRep.create (h : DirRep dir segs) {start : Nat} (hlt : ∀ s ∈ segs, s.start < start) :
    DirRep (dir.insert start []) (segs ++ [⟨start, []⟩]) := by
  refine ⟨?_, ?_⟩
  · rw [OrdMap.toList_insert_of_lt, h.files, List.map_append]
    · rfl
    · intro p hp
      rw [h.files, List.mem_map] at hp
      obtain ⟨s, hs, rfl⟩ := hp
      exact hlt s hs
  · intro s hs p hp
    rw [List.mem_append, List.mem_singleton] at hs
    rcases hs with hs | rfl
    · exact h.small s hs p hp
    · simp at hp

/-- Unlinking one segment file. -/
theorem DirRep.erase (pre : List Seg) {post : List Seg} {s : Seg} (h : DirRep dir (pre ++ s :: post)) :
    DirRep (dir.erase s.start) (pre ++ post) := by
  have hlt := List.pairwise_append.mp h.starts_lt
  have hne : ∀ t ∈ pre ++ post, t.start ≠ s.start := by
    intro t ht
    rcases List.mem_append.mp ht with ht | ht
    · exact Nat.ne_of_lt (hlt.2.2 t ht s List.mem_cons_self)
    · exact Nat.ne_of_gt ((List.pairwise_cons.mp hlt.2.1).1 t ht)
  have hkept : ((pre ++ post).map fun t => (t.start, t.bytes)).filter
      (fun q => decide (q.1 ≠ s.start)) = (pre ++ post).map fun t => (t.start, t.bytes) := by
    refine List.filter_eq_self.mpr fun q hq => ?_
    obtain ⟨t, ht, rfl⟩ := List.mem_map.mp hq
    simpa using hne t ht
  refine ⟨?_, fun t ht => h.small t ?_⟩
  · rw [List.map_append] at hkept
    rw [OrdMap.erase, OrdMap.toList_filter, h.files, List.map_append, List.map_cons,
      List.filter_append, List.filter_cons_of_neg (by simp), ← List.filter_append, hkept,
      List.map_append]
  · rw [List.mem_append] at ht ⊢
    exact ht.imp_right (List.mem_cons_of_mem s)

/-! ## append -/

theorem MemRep.needsRotation_nil (hm : MemRep log []) : log.needsRotation = true := by
  rw [SegmentedLog.needsRotation, hm.active]
  rfl

variable {Q : Unit → LogDir → SegmentedLog → Prop} {E : Error → LogDir → SegmentedLog → Prop}
  {C : LogDir → Prop}

/-- The directory with one more record `r` in its segments. -/
structure Pushed (rotate : Bool) (index : Nat) (p : Bytes) (segs : List Seg) (dir : LogDir)
    (r : Rec) : Prop where
  rep : DirRep dir (push rotate index p segs)
  recs : recsOf (push rotate index p segs) = recsOf segs ++ [r]
  payload : r.payload = p
  rotated : rotate = true → r.index = index
  appended : rotate = false → ∀ s, segs.getLast? = some s → r.index = s.stop

/-- The log after a record was written to the active segment `a`. -/
def SegmentedLog.extended (log : SegmentedLog) (a : Active) (index : Nat) (p : Bytes) :
    SegmentedLog :=
  { log with
    active := some { a with bytes := a.bytes + (frame p).length }
    records := log.records.insert index ⟨a.start, a.bytes + headerBytes, p.length⟩ }

/-- An append without a rotation is one write. -/
theorem wp_append_active {index : Nat} {p : Bytes} {a : Active} (hact : log.active = some a)
    (hrot : log.needsRotation = false) (hp : p.length < 2 ^ 32) :
    wp (SegmentedLog.append index p) Q E C dir log ↔
      C (dir.modify a.start (· ++ frame p)) ∧
        Q () (dir.modify a.start (· ++ frame p)) (log.extended a index p) := by
  rw [SegmentedLog.append, if_neg (by omega), wp_bind, wp_getMem, hrot]
  simp only [wp_bind, wp_getMem, hact, wp_step, wp_modifyMem, if_neg Bool.false_ne_true]
  exact Iff.rfl

/-- The directory after a rotation to `start`. -/
def LogDir.created (dir : LogDir) (start : Nat) : LogDir :=
  if dir.contains start then dir else dir.insert start []

/-- The log after a rotation to `start`. -/
def SegmentedLog.rotated (log : SegmentedLog) (start : Nat) : SegmentedLog :=
  { log with
    active := some ⟨start, 0⟩
    starts := if start ∈ log.starts then log.starts
      else (start :: log.starts).insertionSort (· ≤ ·) }

/-- An append with a rotation opens the segment, and then writes. -/
theorem wp_append_rotating {index : Nat} {p : Bytes} (hrot : log.needsRotation = true)
    (hp : p.length < 2 ^ 32) :
    wp (SegmentedLog.append index p) Q E C dir log ↔
      C (LogDir.created dir index) ∧
        C ((LogDir.created dir index).modify index (· ++ frame p)) ∧
        Q () ((LogDir.created dir index).modify index (· ++ frame p))
          ((log.rotated index).extended ⟨index, 0⟩ index p) := by
  rw [SegmentedLog.append, if_neg (by omega), wp_bind, wp_getMem, hrot]
  simp only [if_true, SegmentedLog.rotate, wp_bind, wp_step, wp_modifyMem, wp_getMem]
  exact Iff.rfl

/-- Only a record that fits its length field is written. -/
theorem append_ok_small {index : Nat} {p : Bytes} {dir' : LogDir} {log' : SegmentedLog}
    (h : (SegmentedLog.append index p).run dir log = (.ok (), dir', log')) : p.length < 2 ^ 32 := by
  by_contra hp
  rw [SegmentedLog.append, if_pos (by omega)] at h
  cases h

/-- **Append** puts one record behind the last: a new segment named by its
index when the active one is full, the end of the active one otherwise.  A
crash on the way leaves the new segment empty. -/
theorem wp_append {index : Nat} {p : Bytes} (h : DirRep dir segs) (hm : MemRep log segs)
    (hp : p.length < 2 ^ 32) (hlt : log.needsRotation = true → ∀ s ∈ segs, s.start < index)
    (hC : ∀ dir', log.needsRotation = true ∧ DirRep dir' (segs ++ [⟨index, []⟩]) ∨
      (∃ r, Pushed log.needsRotation index p segs dir' r) → C dir')
    (hQ : ∀ dir' log' r, Pushed log.needsRotation index p segs dir' r →
      MemRep log' (push log.needsRotation index p segs) →
      log'.records = log.records.insert index r.loc →
      log'.segmentMaxBytes = log.segmentMaxBytes → Q () dir' log') :
    wp (SegmentedLog.append index p) Q E C dir log := by
  cases hrot : log.needsRotation with
  | true =>
    rw [hrot] at hQ hC
    have hlt := hlt hrot
    have hno : dir.contains index = false := by
      rw [OrdMap.contains, Option.isSome_eq_false_iff, Option.isNone_iff_eq_none,
        ← Option.not_isSome_iff_eq_none, Option.isSome_iff_exists]
      rintro ⟨v, hv⟩
      rw [OrdMap.find?_eq_some_iff, h.files, List.mem_map] at hv
      obtain ⟨s, hs, he⟩ := hv
      have := hlt s hs
      rw [Prod.mk.injEq] at he
      omega
    have hnm : index ∉ log.starts := by
      rw [hm.starts, List.mem_map]
      rintro ⟨s, hs, he⟩
      have := hlt s hs
      omega
    have hsort : (index :: log.starts).insertionSort (· ≤ ·) = log.starts ++ [index] := by
      refine insertionSort_cons_of_lt ?_ ?_
      · rw [hm.starts, List.pairwise_map]
        exact h.starts_lt
      · rw [hm.starts]
        intro y hy
        obtain ⟨s, hs, rfl⟩ := List.mem_map.mp hy
        exact hlt s hs
    have hrep := (h.create hlt).modify (· ++ frame p) [p]
      (by rw [frames_singleton]; rfl) (by simpa using hp)
    have hrecs : recsOf (push true index p segs) =
        recsOf segs ++ [⟨index, ⟨index, 0 + headerBytes, p.length⟩, p⟩] := by
      rw [push_true, recsOf_append, recsOf_singleton]
      rfl
    have hpushed := Pushed.mk hrep hrecs rfl (fun _ => rfl) fun hf => absurd hf (by simp)
    have hcreated : LogDir.created dir index = dir.insert index [] := by
      rw [LogDir.created, if_neg (by simp [hno])]
    rw [wp_append_rotating hrot hp, hcreated]
    refine ⟨hC _ (.inl ⟨rfl, h.create hlt⟩), hC _ (.inr ⟨_, hpushed⟩),
      hQ _ _ _ hpushed ⟨?_, ?_⟩ rfl rfl⟩
    · rw [SegmentedLog.extended, SegmentedLog.rotated, if_neg hnm, hsort, hm.starts, push_true,
        List.map_append]
      rfl
    · simp [SegmentedLog.extended, push_true, Seg.active, Seg.bytes, frames_singleton]
  | false =>
    rw [hrot] at hQ hC
    rcases List.eq_nil_or_concat' segs with rfl | ⟨pre, s, rfl⟩
    · rw [hm.needsRotation_nil] at hrot
      contradiction
    · have hact : log.active = some s.active := by rw [hm.active]; simp
      have hbytes : s.bytes ++ frame p = frames (s.payloads ++ [p]) := by
        rw [frames_append, frames_singleton]
        rfl
      have hrep := h.modify (· ++ frame p) (s.payloads ++ [p]) hbytes (by
        intro q hq
        rw [List.mem_append, List.mem_singleton] at hq
        rcases hq with hq | rfl
        · exact h.small s (by simp) q hq
        · exact hp)
      have hrecs : recsOf (push false index p (pre ++ [s])) = recsOf (pre ++ [s]) ++
          [⟨s.stop, ⟨s.start, s.bytes.length + headerBytes, p.length⟩, p⟩] := by
        rw [push_false, recsOf_append, recsOf_append, recsOf_singleton, recsOf_singleton, Seg.recs,
          recsFrom_append, Nat.zero_add, List.append_assoc]
        rfl
      rw [wp_append_active hact hrot hp]
      rw [← push_false index p] at hrep
      have hpushed := Pushed.mk hrep hrecs rfl (fun ht => absurd ht (by simp)) fun _ t ht => by
        rw [List.getLast?_concat, Option.some.injEq] at ht
        rw [ht]
      refine ⟨hC _ (.inr ⟨_, hpushed⟩), hQ _ _ _ hpushed ⟨?_, ?_⟩ rfl rfl⟩
      · simp [SegmentedLog.extended, push_false, hm.starts]
      · simp [SegmentedLog.extended, push_false, Seg.active, ← hbytes, Seg.bytes]

/-! ## purge -/

omit [Ext] in
/-- A purge only unlinks files: it keeps what unlinking one keeps. -/
theorem wp_purgeFiles_erase {I : LogDir → Prop} (herase : ∀ dir start, I dir → I (dir.erase start))
    (h : I dir) (index : Nat) (activeStart : Option Nat) (starts : List Nat) :
    wp (SegmentedLog.purgeFiles index activeStart starts) (fun _ dir' log' => I dir' ∧ log' = log)
      (fun _ _ _ => True) (fun _ => True) dir log := by
  induction starts generalizing dir with
  | nil => exact ⟨h, rfl⟩
  | cons start rest ih =>
    rw [SegmentedLog.purgeFiles, wp_bind]
    have hpurge : wp (SegmentedLog.purgeFile index activeStart start rest.head?)
        (fun _ dir' log' => I dir' ∧ log' = log) (fun _ _ _ => True) (fun _ => True)
        dir log := by
      unfold SegmentedLog.purgeFile
      repeat' split
      all_goals try exact ⟨h, rfl⟩
      rw [SegmentedLog.removeFile, wp_bind, wp_getDisk]
      split
      · exact ⟨trivial, herase dir start h, rfl⟩
      · trivial
    refine wp_mono _ hpurge (fun _ dir' log' hd => ?_) (fun _ _ _ _ => trivial) fun _ _ => trivial
    obtain ⟨hd, rfl⟩ := hd
    exact ih hd

omit [Ext] in
/-- Segments whose successors all start above the bound are left alone. -/
theorem wp_purgeFiles_kept {index : Nat} {activeStart : Option Nat} {starts : List Nat}
    (h : ∀ t ∈ starts.tail, index < t - 1) (hQ : Q () dir log) :
    wp (SegmentedLog.purgeFiles index activeStart starts) Q E C dir log := by
  induction starts with
  | nil => exact hQ
  | cons s rest ih =>
    have hrest : wp (SegmentedLog.purgeFiles index activeStart rest) Q E C dir log :=
      ih fun t ht => h t (List.mem_of_mem_tail ht)
    rw [SegmentedLog.purgeFiles, wp_bind, SegmentedLog.purgeFile.eq_def]
    split
    · exact hrest
    · cases rest with
      | nil => exact hrest
      | cons t rest =>
        have ht := h t List.mem_cons_self
        simp only [List.head?_cons]
        rw [if_neg (by omega)]
        exact hrest

/-- The files a purge unlinks, from the first on; what is left at any moment
is a suffix of the segments that still has all the segments kept. -/
theorem wp_purgeFiles {index : Nat} (h : DirRep dir segs)
    (hC : ∀ dir' segs', DirRep dir' segs' → segs' <:+ segs → purged index segs <:+ segs' → C dir')
    (hQ : ∀ dir', DirRep dir' (purged index segs) → Q () dir' log) :
    wp (SegmentedLog.purgeFiles index (segs.getLast?.map Seg.start) (segs.map Seg.start)) Q E C dir
      log := by
  induction segs using purged.induct index generalizing dir with
  | case1 => exact hQ dir h
  | case2 s => exact wp_purgeFiles_kept (by simp) (hQ dir h)
  | case3 s t rest hle ih =>
    have hlt : ∀ x ∈ t :: rest, s.start < x.start := (List.pairwise_cons.mp h.starts_lt).1
    have hne : some s.start ≠ (s :: t :: rest).getLast?.map Seg.start := by
      intro he
      obtain ⟨l, hl, hs⟩ := Option.map_eq_some_iff.mp he.symm
      have := hlt l (List.mem_of_getLast? hl)
      omega
    have hpurged : purged index (s :: t :: rest) = purged index (t :: rest) := by
      rw [purged, if_pos hle]
    have herase : DirRep (dir.erase s.start) (t :: rest) := DirRep.erase [] h
    rw [hpurged] at hC hQ
    rw [List.map_cons, SegmentedLog.purgeFiles, wp_bind, SegmentedLog.purgeFile.eq_def, if_neg hne]
    simp only [List.map_cons, List.head?_cons]
    rw [if_pos hle, SegmentedLog.removeFile, wp_bind, wp_getDisk,
      if_pos (h.contains List.mem_cons_self), wp_step]
    refine ⟨hC _ _ herase (List.suffix_cons s _) (purged_suffix index _), ?_⟩
    have hrec := ih herase
      (fun dir' segs' hd hsuf hpur => hC dir' segs' hd (hsuf.trans (List.suffix_cons s _)) hpur) hQ
    rwa [List.getLast?_cons_cons]
  | case4 s t rest hle =>
    have hpurged : purged index (s :: t :: rest) = s :: t :: rest := by
      rw [purged, if_neg hle]
    rw [hpurged] at hQ
    refine wp_purgeFiles_kept (fun x hx => ?_) (hQ dir h)
    have hlt : ∀ y ∈ rest, t.start < y.start :=
      (List.pairwise_cons.mp (List.pairwise_cons.mp h.starts_lt).2).1
    simp only [List.map_cons, List.tail_cons, List.mem_cons, List.mem_map] at hx
    rcases hx with rfl | ⟨y, hy, rfl⟩
    · omega
    · have := hlt y hy
      omega

/-- **Purge** drops the covered records from the index and the covered
segments from the directory.  The log in memory lists the segments that are
kept, provided the index still has a record of exactly the inactive ones. -/
theorem wp_purgeThrough {index : Nat} (h : DirRep dir segs) (hm : MemRep log segs)
    (hC : ∀ dir' segs', DirRep dir' segs' → segs' <:+ segs → purged index segs <:+ segs' → C dir')
    (hQ : ∀ dir' log', DirRep dir' (purged index segs) →
      ((segs.map Seg.start).filter (fun s => decide (some s = segs.getLast?.map Seg.start ∨
        (log.records.filter fun k _ => index < k).toList.any fun p => p.2.segmentStart = s)) =
          (purged index segs).map Seg.start → MemRep log' (purged index segs)) →
      log'.records = log.records.filter (fun k _ => index < k) →
      log'.segmentMaxBytes = log.segmentMaxBytes → Q () dir' log') :
    wp (SegmentedLog.purgeThrough index) Q E C dir log := by
  have hact : log.active.map (·.start) = segs.getLast?.map Seg.start := by
    rw [hm.active, Option.map_map]
    rfl
  rw [SegmentedLog.purgeThrough]
  simp only [wp_bind, wp_modifyMem, wp_getMem, hact, hm.starts]
  refine wp_purgeFiles h hC fun dir' hdir => ?_
  refine hQ _ _ hdir (fun hkeep => ⟨hkeep, ?_⟩) rfl rfl
  rw [getLast?_purged]
  exact hm.active

end

end Lumen
