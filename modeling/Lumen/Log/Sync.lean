import Lumen.Log.Contents
import Lumen.Reference
import Mathlib.Logic.Function.Basic

/-!
# Lumen.Log.Sync

Which bytes of the log survive a crash of the machine.

A `Volume` is a log with the number of leading bytes of each segment file that
an `fsync` has covered; the operations record where the code syncs: `sync` the
active segment, a rotation the segment it leaves, a torn open the file it cut.
A crash keeps the synced bytes of every file, and puts anything behind those of
the active segment (`Volume.crash`).

`Volume.Inv` says that only the last segment has bytes that are not synced, and
that its synced part ends at a frame.
-/

namespace Lumen

open Lib Prog

/-! ## volumes -/

structure Volume where
  dir : LogDir
  log : SegmentedLog
  synced : Nat → Nat

namespace Volume

/-- `fsync` of a segment file. -/
def fsync (start : Nat) (v : Volume) : Volume :=
  { v with synced := Function.update v.synced start ((v.dir.find? start).getD []).length }

/-- `SegmentedLog::sync`. -/
def sync (v : Volume) : Volume :=
  match v.log.active with
  | none => v
  | some active => v.fsync active.start

/-- The append of `index` creates a segment file. -/
def creates (v : Volume) (index : Nat) : Bool := v.log.needsRotation && !v.dir.contains index

/-- What a crash leaves: of every file what is synced, and `tail` behind it in
the active one. -/
def crash (tail : Bytes) (v : Volume) : LogDir :=
  v.dir.mapValues fun start bytes =>
    bytes.take (v.synced start) ++ if v.log.active.map Active.start = some start then tail else []

section
variable [Ext]

/-- `SegmentedLog::append`.  A rotation syncs the segment it leaves. -/
def append (index : Nat) (payload : Bytes) (v : Volume) : Except Error Unit × Volume :=
  let v := if payload.length < 2 ^ 32 ∧ v.log.needsRotation = true then v.sync else v
  let r := (SegmentedLog.append index payload).run v.dir v.log
  (r.1, { v with dir := r.2.1, log := r.2.2 })

/-- `SegmentedLog::open_with_segment_max` on a directory with the given synced
lengths.  A file that is cut is synced. -/
def openOn (segmentMax : Nat) (dir : LogDir) (synced : Nat → Nat) : Except Error Unit × Volume :=
  let r := (SegmentedLog.openWithSegmentMax segmentMax).run dir .closed
  let v : Volume := ⟨r.2.1, r.2.2, synced⟩
  (r.1, if r.2.1 = dir then v else v.sync)

/-- `SegmentedLog::read_all`. -/
def readAll (v : Volume) : Except Error (List (Nat × Bytes)) :=
  (SegmentedLog.readAll.run v.dir v.log).1

end

end Volume

/-- Runs of contiguous appends from `first` on and syncs, from an empty
directory; with `crashes`, also of crashes after which the log is opened again.
Of the payloads in the log, the first `k` were there at the last sync. -/
inductive LogRun [Ext] (crashes : Prop) (segmentMax first : Nat) :
    Volume → List Bytes → Nat → Prop where
  | opened {v : Volume} (h : Volume.openOn segmentMax ∅ (fun _ => 0) = (.ok (), v)) :
      LogRun crashes segmentMax first v [] 0
  | append {v v' : Volume} {ps : List Bytes} {k : Nat} (p : Bytes)
      (prev : LogRun crashes segmentMax first v ps k)
      (h : v.append (first + ps.length) p = (.ok (), v')) :
      LogRun crashes segmentMax first v' (ps ++ [p]) k
  | refused {v v' : Volume} {ps : List Bytes} {k : Nat} {e : Error} (p : Bytes)
      (prev : LogRun crashes segmentMax first v ps k)
      (h : v.append (first + ps.length) p = (.error e, v')) :
      LogRun crashes segmentMax first v' ps k
  | sync {v : Volume} {ps : List Bytes} {k : Nat} (prev : LogRun crashes segmentMax first v ps k) :
      LogRun crashes segmentMax first v.sync ps ps.length
  | reopen {v v' : Volume} {ps qs : List Bytes} {k : Nat} (hc : crashes) (tail : Bytes)
      (prev : LogRun crashes segmentMax first v ps k)
      (h : Volume.openOn segmentMax (v.crash tail) v.synced = (.ok (), v'))
      (hread : v'.readAll = .ok (numbered first qs)) :
      LogRun crashes segmentMax first v' qs k

/-! ## positions -/

/-- The end of a numbered list that is itself numbered. -/
theorem numbered_eq_append {first start : Nat} {ps xs : List Bytes} {l : List (Nat × Bytes)}
    (h : numbered first ps = l ++ numbered start xs)
    (hstop : start + xs.length = first + ps.length) :
    ∃ us, ps = us ++ xs ∧ l = numbered first us ∧ start = first + us.length := by
  have hlen := congrArg List.length h
  simp only [length_numbered, List.length_append] at hlen
  refine ⟨ps.take l.length, ?_, ?_, ?_⟩
  · have hsnd := congrArg (List.map Prod.snd) h
    rw [List.map_append, map_snd_numbered, map_snd_numbered] at hsnd
    conv_lhs => rw [hsnd]
    rw [hsnd, List.take_left' (by rw [List.length_map])]
  · have hsplit := numbered_append first (ps.take l.length) (ps.drop l.length)
    rw [List.take_append_drop, h] at hsplit
    exact (List.append_inj hsplit (by rw [length_numbered, List.length_take]; omega)).1
  · rw [List.length_take]
    omega

section
variable [Ext] {segmentMax first k : Nat} {v v' : Volume} {segs : List Seg} {ps : List Bytes}

theorem Live.readAll {mem : OrdMap Nat Bytes} (h : Live segs v.log.records mem)
    (hdir : DirRep v.dir segs) {items : List (Nat × Bytes)} (hm : mem.toList = items) :
    v.readAll = .ok items := by
  have hw : wp SegmentedLog.readAll (fun out _ _ => out = items) (fun _ _ _ => False)
      (fun _ => True) v.dir v.log := h.wp_readAll hdir hm
  obtain ⟨_, _, _, hrun, rfl⟩ := run_ok_of_wp hw
  rw [Volume.readAll, hrun]

/-! ## the invariant -/

/-- The log stands for the payloads, and the synced parts of its files hold the
first `k` of them. -/
structure Volume.Inv (segmentMax first : Nat) (v : Volume) (segs : List Seg) (ps : List Bytes)
    (k : Nat) : Prop where
  log : Extensible v.dir v.log segs (first + ps.length) (contents segs)
  ordered : Ordered segs
  items : (recsOf segs).map Rec.item = numbered first ps
  active : v.log.active = segs.getLast?.map Seg.active
  max : v.log.segmentMaxBytes = segmentMax
  inner : ∀ s ∈ segs.dropLast, v.synced s.start = s.bytes.length
  last : ∀ s, segs.getLast? = some s → s.stop = first + ps.length ∧
    ∃ j, v.synced s.start = (frames (s.payloads.take j)).length ∧ j ≤ s.payloads.length ∧
      k + s.payloads.length ≤ ps.length + j
  fresh : ∀ start, v.dir.contains start = false → v.synced start = 0
  le : k ≤ ps.length

theorem Volume.Inv.opened (h : Volume.openOn segmentMax ∅ (fun _ => 0) = (.ok (), v)) :
    v.Inv segmentMax first [] [] 0 := by
  have hv : v = ⟨∅, ⟨segmentMax, [], ∅, none⟩, fun _ => 0⟩ := (congrArg Prod.snd h).symm
  subst hv
  exact ⟨⟨DirRep.empty, by simp, Live.empty [], by simp [contents, recsOf, OrdMap.ofList], by simp⟩,
    List.Pairwise.nil, rfl, rfl, rfl, by simp, by simp, fun _ _ => rfl, Nat.le_refl _⟩

namespace Volume

omit [Ext] in
@[simp] theorem sync_dir (v : Volume) : v.sync.dir = v.dir := by
  rw [sync]
  split <;> rfl

omit [Ext] in
@[simp] theorem sync_log (v : Volume) : v.sync.log = v.log := by
  rw [sync]
  split <;> rfl

namespace Inv

variable {pre : List Seg} {s : Seg}

theorem ne_last (h : v.Inv segmentMax first (pre ++ [s]) ps k) {t : Seg} (ht : t ∈ pre) :
    t.start ≠ s.start :=
  Nat.ne_of_lt ((List.pairwise_append.mp h.log.dirRep.starts_lt).2.2 t ht s
    (List.mem_singleton_self s))

theorem synced_sync (h : v.Inv segmentMax first (pre ++ [s]) ps k) :
    v.sync.synced = Function.update v.synced s.start s.bytes.length := by
  have hact : v.log.active = some s.active := by rw [h.active, List.getLast?_concat]; rfl
  have hfind := h.log.dirRep.find? (by simp : s ∈ pre ++ [s])
  rw [sync, hact]
  show Function.update v.synced s.start ((v.dir.find? s.start).getD []).length = _
  rw [hfind]
  rfl

/-- **Sync** covers every record. -/
theorem synced (h : v.Inv segmentMax first segs ps k) :
    v.sync.Inv segmentMax first segs ps ps.length := by
  rcases List.eq_nil_or_concat' segs with rfl | ⟨pre, s, rfl⟩
  · have hnone : v.sync = v := by
      rw [sync, h.active]
      rfl
    rw [hnone]
    exact { h with last := by simp, le := Nat.le_refl _ }
  · have hsync := h.synced_sync
    refine ⟨?_, h.ordered, h.items, ?_, ?_, fun t ht => ?_, fun t ht => ?_, fun start hs => ?_,
      Nat.le_refl _⟩
    · simpa using h.log
    · simpa using h.active
    · simpa using h.max
    · have hinner := h.inner t ht
      rw [List.dropLast_concat] at ht
      rw [hsync, Function.update_of_ne (h.ne_last ht), hinner]
    · rw [List.getLast?_concat, Option.some.injEq] at ht
      subst ht
      refine ⟨(h.last s (by simp)).1, s.payloads.length, ?_, Nat.le_refl _, by omega⟩
      rw [hsync, Function.update_self, List.take_length]
      rfl
    · rw [sync_dir] at hs
      have hne : start ≠ s.start := by
        rintro rfl
        simp [h.log.dirRep.contains (by simp : s ∈ pre ++ [s])] at hs
      rw [hsync, Function.update_of_ne hne, h.fresh start hs]

theorem mono (h : v.Inv segmentMax first segs ps k) {k' : Nat} (hle : k' ≤ k) :
    v.Inv segmentMax first segs ps k' :=
  { h with
    last := fun s hs => by
      obtain ⟨hstop, j, hj⟩ := h.last s hs
      exact ⟨hstop, j, hj.1, hj.2.1, by omega⟩
    le := hle.trans h.le }

/-- The next record goes to the last segment or behind it. -/
theorem start_le_target (h : v.Inv segmentMax first segs ps k) {t : Seg} (ht : t ∈ segs) :
    t.start ≤ v.log.target (first + ps.length) := by
  have hle := h.log.stops t ht
  rw [Seg.stop] at hle
  rw [SegmentedLog.target]
  split
  · omega
  · rcases List.eq_nil_or_concat' segs with rfl | ⟨pre, s, rfl⟩
    · simp at ht
    · rw [h.active, List.getLast?_concat]
      show t.start ≤ s.start
      rcases List.mem_append.mp ht with ht | ht
      · exact Nat.le_of_lt ((List.pairwise_append.mp h.log.dirRep.starts_lt).2.2 t ht s
          (List.mem_singleton_self s))
      · rw [List.mem_singleton.mp ht]

/-- The log in memory goes on with the segment that has grown. -/
theorem active_eq {dir' : LogDir} {log' : SegmentedLog} {segs' : List Seg} {next start : Nat}
    {mem : OrdMap Nat Bytes} (h : Extensible dir' log' (segs' ++ [s]) next mem)
    (hact : log'.active.map Active.start = some start) (hs : s.start = start) :
    log'.active = (segs' ++ [s]).getLast?.map Seg.active := by
  obtain ⟨a, ha, rfl⟩ := Option.map_eq_some_iff.mp hact
  obtain ⟨t, ht, rfl, _⟩ := h.active a ha
  have hts : t = s := h.dirRep.start_inj ht (by simp) hs.symm
  rw [ha, List.getLast?_concat, hts]
  rfl

theorem synced_eq_zero (h : v.Inv segmentMax first segs ps k) {start : Nat}
    (hs : ∀ t ∈ segs, t.start ≠ start) : v.synced start = 0 := by
  refine h.fresh start (OrdMap.contains_eq_false_iff.mpr ?_)
  by_contra hne
  obtain ⟨b, hb⟩ := Option.ne_none_iff_exists'.mp hne
  have hmem := OrdMap.mem_keys_iff.mpr ⟨b, hb⟩
  rw [h.log.dirRep.keys, List.mem_map] at hmem
  obtain ⟨t, ht, he⟩ := hmem
  exact hs t ht he

section
variable {p : Bytes} {dir' : LogDir} {log' : SegmentedLog}

/-- The record went into a new segment, and all others are synced. -/
theorem append_fresh (h : v.Inv segmentMax first segs ps k)
    (hall : ∀ s ∈ segs, v.synced s.start = s.bytes.length)
    (hext : Extensible dir' log' (segs ++ [⟨first + ps.length, [p]⟩]) (first + ps.length + 1)
      (contents (segs ++ [⟨first + ps.length, [p]⟩])))
    (hact : log'.active.map Active.start = some (first + ps.length))
    (hmax : log'.segmentMaxBytes = segmentMax) :
    (⟨dir', log', v.synced⟩ : Volume).Inv segmentMax first (segs ++ [⟨first + ps.length, [p]⟩])
      (ps ++ [p]) k := by
  have hlen : first + (ps ++ [p]).length = first + ps.length + 1 := by
    rw [List.length_append, List.length_singleton, Nat.add_assoc]
  have hlt := List.pairwise_append.mp hext.dirRep.starts_lt
  refine ⟨hlen ▸ hext, ?_, ?_, active_eq hext hact rfl, hmax, fun s hs => ?_, fun s hs => ?_,
    fun start hs => ?_, ?_⟩
  · refine List.pairwise_append.mpr ⟨h.ordered, List.pairwise_singleton _ _, fun s hs t ht => ?_⟩
    rw [List.mem_singleton.mp ht]
    exact h.log.stops s hs
  · rw [recsOf_append, recsOf_singleton, List.map_append, h.items, Seg.map_item_recs,
      numbered_append]
  · rw [List.dropLast_concat] at hs
    exact hall s hs
  · rw [List.getLast?_concat, Option.some.injEq] at hs
    subst hs
    refine ⟨hlen.symm, 0, ?_, Nat.zero_le _, ?_⟩
    · exact h.synced_eq_zero fun t ht => Nat.ne_of_lt (hlt.2.2 t ht _ (List.mem_singleton_self _))
    · rw [List.length_append]
      have := h.le
      simp only [List.length_singleton]
      omega
  · refine h.synced_eq_zero fun t ht he => ?_
    have hc := hext.dirRep.contains (List.mem_append_left _ ht)
    rw [he] at hc
    simp [hc] at hs
  · rw [List.length_append]
    exact h.le.trans (Nat.le_add_right _ _)

/-- The record went to the end of the last segment. -/
theorem append_last (h : v.Inv segmentMax first (pre ++ [s]) ps k)
    (hext : Extensible dir' log' (pre ++ [{ s with payloads := s.payloads ++ [p] }])
      (first + ps.length + 1) (contents (pre ++ [{ s with payloads := s.payloads ++ [p] }])))
    (hact : log'.active.map Active.start = some s.start)
    (hmax : log'.segmentMaxBytes = segmentMax) :
    (⟨dir', log', v.synced⟩ : Volume).Inv segmentMax first
      (pre ++ [{ s with payloads := s.payloads ++ [p] }]) (ps ++ [p]) k := by
  have hlen : first + (ps ++ [p]).length = first + ps.length + 1 := by
    rw [List.length_append, List.length_singleton, Nat.add_assoc]
  obtain ⟨hstop, j, hj, hjle, hk⟩ := h.last s (by simp)
  refine ⟨hlen ▸ hext, ?_, ?_, active_eq hext hact rfl, hmax, fun t ht => ?_, fun t ht => ?_,
    fun start hs => ?_, ?_⟩
  · obtain ⟨h₁, _, h₃⟩ := List.pairwise_append.mp h.ordered
    refine List.pairwise_append.mpr ⟨h₁, List.pairwise_singleton _ _, fun t ht u hu => ?_⟩
    rw [List.mem_singleton.mp hu]
    exact h₃ t ht s (List.mem_singleton_self s)
  · have hitems := h.items
    rw [recsOf_append, recsOf_singleton, List.map_append, Seg.map_item_recs] at hitems ⊢
    rw [numbered_append, ← List.append_assoc, hitems, numbered_append]
    congr 2
  · rw [List.dropLast_concat] at ht
    exact h.inner t (by rw [List.dropLast_concat]; exact ht)
  · rw [List.getLast?_concat, Option.some.injEq] at ht
    subst ht
    refine ⟨?_, j, ?_, ?_, ?_⟩
    · rw [hlen, ← hstop, Seg.stop, Seg.stop, List.length_append, List.length_singleton,
        Nat.add_assoc]
    · rw [List.take_append_of_le_length hjle]
      exact hj
    · rw [List.length_append]
      omega
    · simp only [List.length_append, List.length_singleton]
      omega
  · refine h.synced_eq_zero fun t ht he => ?_
    have hmem : ∃ u ∈ pre ++ [{ s with payloads := s.payloads ++ [p] }], u.start = start := by
      rcases List.mem_append.mp ht with ht | ht
      · exact ⟨t, by simp [ht], he⟩
      · exact ⟨{ s with payloads := s.payloads ++ [p] }, by simp, (List.mem_singleton.mp ht) ▸ he⟩
    obtain ⟨u, hu, rfl⟩ := hmem
    simp [hext.dirRep.contains hu] at hs
  · rw [List.length_append]
    exact h.le.trans (Nat.le_add_right _ _)

end

/-- Before the record is written, a rotation syncs the segment it leaves. -/
theorem before_append (h : v.Inv segmentMax first segs ps k) (p : Bytes) :
    (if p.length < 2 ^ 32 ∧ v.log.needsRotation = true then v.sync else v).Inv segmentMax first segs
      ps k := by
  split
  · exact h.synced.mono h.le
  · exact h

theorem all_synced (h : v.Inv segmentMax first segs ps ps.length) :
    ∀ s ∈ segs, v.synced s.start = s.bytes.length := by
  intro s hs
  rcases List.eq_nil_or_concat' segs with rfl | ⟨pre, t, rfl⟩
  · simp at hs
  · rcases List.mem_append.mp hs with hs | hs
    · exact h.inner s (by rw [List.dropLast_concat]; exact hs)
    · rw [List.mem_singleton.mp hs]
      obtain ⟨_, j, hj, _, hk⟩ := h.last t (by simp)
      rw [hj, List.take_of_length_le (by omega)]
      rfl

/-- **Append** keeps the synced records.  Unless it creates a file, the record goes to
the end of the last segment. -/
theorem append_cases {p : Bytes} (h : v.Inv segmentMax first segs ps k) (hp : p.length < 2 ^ 32) :
    ∃ v' segs', v.append (first + ps.length) p = (.ok (), v') ∧
      v'.Inv segmentMax first segs' (ps ++ [p]) k ∧
      ((v.creates (first + ps.length) = true ∧ segs' = segs ++ [⟨first + ps.length, [p]⟩]) ∨
        (v.creates (first + ps.length) = false ∧ ∃ pre s, segs = pre ++ [s] ∧
          segs' = pre ++ [{ s with payloads := s.payloads ++ [p] }])) := by
  have hw : wp (SegmentedLog.append (first + ps.length) p) (fun _ dir' log' => ∃ segs',
      Extensible dir' log' segs' (first + ps.length + 1) ((contents segs).insert _ p) ∧
      Grown (first + ps.length) p (v.log.target (first + ps.length)) segs segs' ∧
      log'.active.map Active.start = some (v.log.target (first + ps.length)) ∧
      log'.segmentMaxBytes = segmentMax) (fun _ _ _ => False) (fun _ => True) v.dir v.log :=
    h.log.wp_append hp (fun _ => trivial) fun dir' log' segs' h₁ h₂ h₃ h₄ =>
      ⟨segs', h₁, h₂, h₃, h₄.trans h.max⟩
  obtain ⟨_, dir', log', hrun, segs', hext, hgrown, hact, hmax⟩ := run_ok_of_wp hw
  rw [← hgrown.contents h.log.stops] at hext
  have hinv := h.before_append p
  refine ⟨⟨dir', log', (if p.length < 2 ^ 32 ∧ v.log.needsRotation = true then v.sync
    else v).synced⟩, segs', ?_, ?_⟩
  · rw [Volume.append]
    split <;> simp only [sync_dir, sync_log, hrun]
  · rcases hgrown.at_end h.log.dirRep.starts_lt fun t ht => h.start_le_target ht with
      ⟨htarget, rfl⟩ | ⟨pre, s, rfl, _, htarget, rfl⟩
    · have hlt := (List.pairwise_append.mp hext.dirRep.starts_lt).2.2
      -- a new segment is only made by a rotation
      have hrot : v.log.needsRotation = true := by
        by_contra hrot
        rw [SegmentedLog.target, if_neg hrot, h.active] at htarget
        rw [SegmentedLog.needsRotation, h.active] at hrot
        cases hlast : segs.getLast? with
        | none => simp [hlast] at hrot
        | some t =>
          have := hlt t (List.mem_of_getLast? hlast) _ (List.mem_singleton_self _)
          rw [hlast] at htarget
          exact Nat.ne_of_lt this htarget
      refine ⟨hinv.append_fresh (fun s hs => ?_) hext (htarget ▸ hact) hmax, .inl ⟨?_, rfl⟩⟩
      · rw [if_pos ⟨hp, hrot⟩]
        exact h.synced.all_synced s hs
      · have hnew : v.dir.contains (first + ps.length) = false := by
          by_contra hc
          obtain ⟨b, hb⟩ := OrdMap.contains_eq_true_iff.mp (Bool.eq_true_of_not_eq_false hc)
          have hmem := OrdMap.mem_keys_iff.mpr ⟨b, hb⟩
          rw [h.log.dirRep.keys, List.mem_map] at hmem
          obtain ⟨t, ht, he⟩ := hmem
          exact Nat.ne_of_lt (hlt t ht _ (List.mem_singleton_self _)) he
        rw [creates, hrot, hnew]
        rfl
    · refine ⟨hinv.append_last hext (htarget ▸ hact) hmax, .inr ⟨?_, pre, s, rfl, rfl⟩⟩
      cases hrot : v.log.needsRotation with
      | false => rw [creates, hrot, Bool.false_and]
      | true =>
        -- the segment is empty, and named by the record
        rw [SegmentedLog.target, if_pos hrot] at htarget
        rw [creates, ← htarget, h.log.dirRep.contains (by simp), Bool.not_true, Bool.and_false]

theorem append {p : Bytes} (h : v.Inv segmentMax first segs ps k) (hp : p.length < 2 ^ 32) :
    ∃ v' segs', v.append (first + ps.length) p = (.ok (), v') ∧
      v'.Inv segmentMax first segs' (ps ++ [p]) k := by
  obtain ⟨v', segs', hrun, hinv, _⟩ := h.append_cases hp
  exact ⟨v', segs', hrun, hinv⟩

/-! ## crashes -/

/-- Only the last file changes in a crash. -/
theorem crash_files (h : v.Inv segmentMax first (pre ++ [s]) ps k) {j : Nat}
    (hj : v.synced s.start = (frames (s.payloads.take j)).length) (tail : Bytes) :
    (v.crash tail).toList = (pre.map fun t => (t.start, t.bytes)) ++
      [(s.start, frames (s.payloads.take j) ++ tail)] := by
  have hact : v.log.active.map Active.start = some s.start := by
    rw [h.active, List.getLast?_concat]
    rfl
  have hlast : s.bytes.take (v.synced s.start) = frames (s.payloads.take j) := by
    have hsplit : s.bytes = frames (s.payloads.take j) ++ frames (s.payloads.drop j) := by
      rw [← frames_append, List.take_append_drop]
      rfl
    rw [hj, hsplit]
    exact List.take_left
  rw [crash, OrdMap.toList_mapValues, h.log.dirRep.files, List.map_append, List.map_append]
  congr 1
  · rw [List.map_map]
    refine List.map_congr_left fun t ht => ?_
    have hne : some s.start ≠ some t.start := fun he => h.ne_last ht (Option.some.inj he).symm
    have hinner := h.inner t (by rw [List.dropLast_concat]; exact ht)
    simp only [Function.comp_apply, hact, if_neg hne, List.append_nil, hinner, List.take_length]
  · simp only [List.map_cons, List.map_nil, hact, if_true, hlast]

/-- Opening finds the records whose frames are synced, and whatever of the tail
is accepted. -/
theorem wp_recovered {Q : Unit → LogDir → SegmentedLog → Prop}
    {E : Error → LogDir → SegmentedLog → Prop} {C : LogDir → Prop} {log : SegmentedLog}
    (h : v.Inv segmentMax first (pre ++ [s]) ps k) {j : Nat}
    (hj : v.synced s.start = (frames (s.payloads.take j)).length) (tail : Bytes) (hC : ∀ d, C d)
    (hQ : ∀ dir' log', DirRep dir' (pre ++ [⟨s.start, s.payloads.take j ++ accepted tail⟩]) →
      MemRep log' (pre ++ [⟨s.start, s.payloads.take j ++ accepted tail⟩]) →
      Live (pre ++ [⟨s.start, s.payloads.take j ++ accepted tail⟩]) log'.records
        (contents (pre ++ [⟨s.start, s.payloads.take j ++ accepted tail⟩])) →
      log'.segmentMaxBytes = segmentMax → Q () dir' log') :
    wp (SegmentedLog.openWithSegmentMax segmentMax) Q E C (v.crash tail) log := by
  have hsmall : ∀ p ∈ s.payloads.take j, p.length < 2 ^ 32 := fun p hp =>
    h.log.dirRep.small s (by simp) p (List.mem_of_mem_take hp)
  refine wp_open_last (h.crash_files hj tail) (fun t ht => h.log.dirRep.small t (by simp [ht]))
    segmentMax hC fun dir' log' h₁ h₂ h₃ h₄ _ => ?_
  rw [(accepted_append hsmall tail).1] at h₁ h₂ h₃
  exact hQ dir' log' h₁ h₂ h₃ h₄

/-- The payloads before the last segment. -/
theorem exists_before (h : v.Inv segmentMax first (pre ++ [s]) ps k) :
    ∃ us, ps = us ++ s.payloads ∧ (recsOf pre).map Rec.item = numbered first us ∧
      s.start = first + us.length := by
  have hitems := h.items
  rw [recsOf_append, recsOf_singleton, List.map_append, Seg.map_item_recs] at hitems
  exact numbered_eq_append hitems.symm (h.last s (by simp)).1

/-- The log goes on with other payloads `xs` behind the synced part of its last
segment. -/
theorem mended (h : v.Inv segmentMax first (pre ++ [s]) ps k) {j : Nat}
    (hj : v.synced s.start = (frames (s.payloads.take j)).length) (hjle : j ≤ s.payloads.length)
    (hk : k + s.payloads.length ≤ ps.length + j) {us xs : List Bytes} (hps : ps = us ++ s.payloads)
    (hpre : (recsOf pre).map Rec.item = numbered first us) (hstart : s.start = first + us.length)
    {dir' : LogDir} {log' : SegmentedLog}
    (hdir : DirRep dir' (pre ++ [⟨s.start, s.payloads.take j ++ xs⟩]))
    (hmem : MemRep log' (pre ++ [⟨s.start, s.payloads.take j ++ xs⟩]))
    (hlive : Live (pre ++ [⟨s.start, s.payloads.take j ++ xs⟩]) log'.records
      (contents (pre ++ [⟨s.start, s.payloads.take j ++ xs⟩])))
    (hmax : log'.segmentMaxBytes = segmentMax) :
    (⟨dir', log', v.synced⟩ : Volume).Inv segmentMax first
      (pre ++ [⟨s.start, s.payloads.take j ++ xs⟩]) (us ++ (s.payloads.take j ++ xs)) k := by
  have hlen := congrArg List.length hps
  rw [List.length_append] at hlen
  have htake : (s.payloads.take j).length = j := by
    rw [List.length_take]
    omega
  have hpre' := (List.pairwise_append.mp h.ordered).2.2
  have hend : (⟨s.start, s.payloads.take j ++ xs⟩ : Seg).stop =
      first + (us ++ (s.payloads.take j ++ xs)).length := by
    show s.start + (s.payloads.take j ++ xs).length = _
    simp only [List.length_append]
    omega
  have hstops : ∀ t ∈ pre ++ [(⟨s.start, s.payloads.take j ++ xs⟩ : Seg)],
      t.stop ≤ first + (us ++ (s.payloads.take j ++ xs)).length := by
    intro t ht
    rcases List.mem_append.mp ht with ht | ht
    · have := hpre' t ht s (List.mem_singleton_self s)
      rw [List.length_append]
      omega
    · rw [List.mem_singleton.mp ht]
      exact Nat.le_of_eq hend
  refine ⟨⟨hdir, hstops, hlive, fun i p hp => contents_lt hstops hp, fun a ha => ?_⟩, ?_, ?_,
    hmem.active, hmax, fun t ht => ?_, fun t ht => ?_, fun start hs => ?_, ?_⟩
  · rw [hmem.active, List.getLast?_concat, Option.map_some, Option.some.injEq] at ha
    exact ⟨_, List.mem_append_right _ (List.mem_singleton_self _), ha, Or.inl hend⟩
  · refine List.pairwise_append.mpr ⟨(List.pairwise_append.mp h.ordered).1,
      List.pairwise_singleton _ _, fun t ht u hu => ?_⟩
    rw [List.mem_singleton.mp hu]
    exact hpre' t ht s (List.mem_singleton_self s)
  · rw [recsOf_append, recsOf_singleton, List.map_append, Seg.map_item_recs, hpre, hstart,
      ← numbered_append]
  · rw [List.dropLast_concat] at ht
    exact h.inner t (by rw [List.dropLast_concat]; exact ht)
  · rw [List.getLast?_concat, Option.some.injEq] at ht
    subst ht
    refine ⟨hend, j, ?_, ?_, ?_⟩
    · rw [List.take_left' htake]
      exact hj
    · rw [List.length_append]
      omega
    · simp only [List.length_append]
      omega
  · refine h.synced_eq_zero fun t ht he => ?_
    have hmem : ∃ u ∈ pre ++ [(⟨s.start, s.payloads.take j ++ xs⟩ : Seg)],
        u.start = start := by
      rcases List.mem_append.mp ht with ht | ht
      · exact ⟨t, by simp [ht], he⟩
      · exact ⟨_, List.mem_append_right _ (List.mem_singleton_self _),
          (List.mem_singleton.mp ht) ▸ he⟩
    obtain ⟨u, hu, rfl⟩ := hmem
    simp [hdir.contains hu] at hs
  · simp only [List.length_append]
    omega

/-- **Recovery** after a crash with `tail` behind the synced bytes. -/
theorem recovered (h : v.Inv segmentMax first (pre ++ [s]) ps k) {j : Nat}
    (hj : v.synced s.start = (frames (s.payloads.take j)).length) (hjle : j ≤ s.payloads.length)
    (hk : k + s.payloads.length ≤ ps.length + j) (tail : Bytes) :
    ∃ v' us, Volume.openOn segmentMax (v.crash tail) v.synced = (.ok (), v') ∧
      ps = us ++ s.payloads ∧
      v'.Inv segmentMax first (pre ++ [⟨s.start, s.payloads.take j ++ accepted tail⟩])
        (us ++ (s.payloads.take j ++ accepted tail)) k ∧
      ∀ start bytes, (v.crash tail).find? start = some bytes →
        v'.dir.find? start = some (bytes.take (scanSegment start bytes).2) := by
  have hw : wp (SegmentedLog.openWithSegmentMax segmentMax) (fun _ dir' log' =>
      DirRep dir' (pre ++ [⟨s.start, s.payloads.take j ++ accepted tail⟩]) ∧
      MemRep log' (pre ++ [⟨s.start, s.payloads.take j ++ accepted tail⟩]) ∧
      Live (pre ++ [⟨s.start, s.payloads.take j ++ accepted tail⟩]) log'.records
        (contents (pre ++ [⟨s.start, s.payloads.take j ++ accepted tail⟩])) ∧
      log'.segmentMaxBytes = segmentMax)
      (fun _ _ _ => False) (fun _ => True) (v.crash tail) .closed :=
    h.wp_recovered hj tail (fun _ => trivial) fun dir' log' h₁ h₂ h₃ h₄ => ⟨h₁, h₂, h₃, h₄⟩
  obtain ⟨_, dir', log', hrun, hdir, hmem, hlive, hmax⟩ := run_ok_of_wp hw
  obtain ⟨us, hps, hpre, hstart⟩ := h.exists_before
  have hinv := h.mended hj hjle hk hps hpre hstart hdir hmem hlive hmax
  have hopen : Volume.openOn segmentMax (v.crash tail) v.synced = (.ok (),
      if dir' = v.crash tail then ⟨dir', log', v.synced⟩
      else (⟨dir', log', v.synced⟩ : Volume).sync) := by
    rw [Volume.openOn, hrun]
  refine ⟨_, us, hopen, hps, ?_, ?_⟩
  · split
    · exact hinv
    · exact hinv.synced.mono hinv.le
  · intro start bytes hb
    have hd : (if dir' = v.crash tail then ⟨dir', log', v.synced⟩
        else (⟨dir', log', v.synced⟩ : Volume).sync).dir = dir' := by
      split
      · rfl
      · exact sync_dir _
    rw [OrdMap.find?_eq_some_iff, h.crash_files hj, List.mem_append, List.mem_map] at hb
    rw [hd, take_scanSegment]
    rcases hb with ⟨t, ht, he⟩ | he
    · obtain ⟨rfl, rfl⟩ := Prod.mk.inj he
      rw [Seg.bytes, accepted_frames (h.log.dirRep.small t (by simp [ht]))]
      exact hdir.find? (List.mem_append_left _ ht)
    · obtain ⟨rfl, rfl⟩ := Prod.mk.inj (List.mem_singleton.mp he)
      rw [(accepted_append (fun p hp => h.log.dirRep.small s (by simp) p
        (List.mem_of_mem_take hp)) tail).1]
      exact hdir.find? (List.mem_append_right _ (List.mem_singleton_self _))

theorem toList_contents (h : v.Inv segmentMax first segs ps k) :
    (contents segs).toList = numbered first ps := h.ordered.toList_contents.trans h.items

theorem readAll (h : v.Inv segmentMax first segs ps k) : v.readAll = .ok (numbered first ps) :=
  h.log.live.readAll h.log.dirRep h.toList_contents

theorem nil_payloads (h : v.Inv segmentMax first [] ps k) : ps = [] := by
  have hitems : numbered first ps = numbered first [] := h.items.symm
  exact numbered_inj hitems

/-- A crash before the first record leaves nothing. -/
theorem reopened_nil (h : v.Inv segmentMax first [] ps k) (tail : Bytes) :
    v.crash tail = ∅ ∧ ∃ v', Volume.openOn segmentMax (v.crash tail) v.synced = (.ok (), v') ∧
      v'.Inv segmentMax first [] [] k := by
  have hps := h.nil_payloads
  subst hps
  have hdir : v.dir.toList = [] := h.log.dirRep.files
  have hcrash : v.crash tail = ∅ :=
    OrdMap.ext_find? fun i => congrArg (List.lookup i) (by
      rw [crash, OrdMap.toList_mapValues, hdir]
      rfl)
  refine ⟨hcrash, ⟨∅, ⟨segmentMax, [], ∅, none⟩, v.synced⟩, by rw [hcrash]; rfl, ?_⟩
  refine ⟨⟨DirRep.empty, by simp, Live.empty [], ?_, by simp⟩, h.ordered, h.items, rfl, rfl,
    by simp, by simp, fun start _ => h.synced_eq_zero (by simp), h.le⟩
  simp [contents, recsOf, OrdMap.ofList]

/-- Opening after a crash, whether there is a segment or not. -/
theorem reopened (h : v.Inv segmentMax first segs ps k) (tail : Bytes) :
    ∃ v' segs' qs, Volume.openOn segmentMax (v.crash tail) v.synced = (.ok (), v') ∧
      v'.Inv segmentMax first segs' qs k ∧ ps.take k <+: qs ∧
      ∀ start bytes, (v.crash tail).find? start = some bytes →
        v'.dir.find? start = some (bytes.take (scanSegment start bytes).2) := by
  rcases List.eq_nil_or_concat' segs with rfl | ⟨pre, s, rfl⟩
  · obtain ⟨hcrash, v', hopen, hinv⟩ := h.reopened_nil tail
    refine ⟨v', [], [], hopen, hinv, by simp [h.nil_payloads], ?_⟩
    rw [hcrash]
    simp
  · obtain ⟨_, j, hj, hjle, hk⟩ := h.last s (by simp)
    obtain ⟨v', us, hopen, hps, hinv, hcut⟩ := h.recovered hj hjle hk tail
    refine ⟨v', _, _, hopen, hinv, ?_, hcut⟩
    have hlen := congrArg List.length hps
    rw [List.length_append] at hlen
    have htake : ps.take k <+: us ++ s.payloads.take j := by
      have hle : k ≤ (us ++ s.payloads.take j).length := by
        rw [List.length_append, List.length_take]
        omega
      have hpre : us ++ s.payloads.take j <+: ps := by
        rw [hps]
        exact (List.prefix_append_right_inj us).mpr (List.take_prefix j _)
      exact List.prefix_of_prefix_length_le (List.take_prefix k ps) hpre
        ((List.length_take_le k ps).trans hle)
    exact htake.trans (by rw [← List.append_assoc]; exact List.prefix_append _ _)

end Inv

end Volume

/-- Every state of a run has the invariant. -/
theorem LogRun.inv {crashes : Prop} (h : LogRun crashes segmentMax first v ps k) :
    ∃ segs, v.Inv segmentMax first segs ps k := by
  induction h with
  | opened h => exact ⟨[], .opened h⟩
  | append p prev h ih =>
    obtain ⟨segs, hinv⟩ := ih
    rcases Nat.lt_or_ge p.length (2 ^ 32) with hp | hp
    · obtain ⟨v₁, segs', hrun, hinv'⟩ := hinv.append hp
      rw [h, Prod.mk.injEq] at hrun
      exact ⟨segs', hrun.2 ▸ hinv'⟩
    · rw [Volume.append, if_neg (by omega), SegmentedLog.append, if_pos hp] at h
      cases h
  | refused p prev h ih =>
    obtain ⟨segs, hinv⟩ := ih
    rcases Nat.lt_or_ge p.length (2 ^ 32) with hp | hp
    · obtain ⟨v₁, segs', hrun, _⟩ := hinv.append hp
      rw [h] at hrun
      cases hrun
    · rw [Volume.append, if_neg (by omega), SegmentedLog.append, if_pos hp] at h
      cases h
      exact ⟨segs, hinv⟩
  | sync prev ih =>
    obtain ⟨segs, hinv⟩ := ih
    exact ⟨segs, hinv.synced⟩
  | reopen hc tail prev h hread ih =>
    obtain ⟨segs, hinv⟩ := ih
    obtain ⟨v₁, segs', qs', hopen, hinv', _⟩ := hinv.reopened tail
    rw [h, Prod.mk.injEq] at hopen
    obtain rfl := hopen.2
    rw [hinv'.readAll, Except.ok.injEq] at hread
    exact ⟨segs', numbered_inj hread ▸ hinv'⟩

/-- **No synced record is lost.**  After every run of appends, syncs and earlier
crashes, and every crash that puts anything behind the synced bytes of the active
segment, opening succeeds with a list that begins with the records of the last
sync.  The files are cut to what is accepted, so that opening once more gives the
same list; and records appended behind it are read back behind it, in this
process and after opening again. -/
theorem synced_records_survive (h : LogRun True segmentMax first v ps k) (tail : Bytes) :
    ∃ v' qs, Volume.openOn segmentMax (v.crash tail) v.synced = (.ok (), v') ∧
      v'.readAll = .ok (numbered first qs) ∧ ps.take k <+: qs ∧
      (∀ start bytes, (v.crash tail).find? start = some bytes →
        v'.dir.find? start = some (bytes.take (scanSegment start bytes).2)) ∧
      (∃ v'', Volume.openOn segmentMax v'.dir v'.synced = (.ok (), v'') ∧ v''.dir = v'.dir ∧
        v''.readAll = .ok (numbered first qs)) ∧
      ∀ rs : List Bytes, (∀ p ∈ rs, p.length < 2 ^ 32) →
        ((SegmentedLog.carryOn segmentMax (first + qs.length) rs).run v'.dir v'.log).1 =
          .ok (numbered first (qs ++ rs), numbered first (qs ++ rs)) := by
  obtain ⟨segs, hinv⟩ := h.inv
  obtain ⟨v', segs', qs, hopen, hinv', hpre, hcut⟩ := hinv.reopened tail
  refine ⟨v', qs, hopen, hinv'.readAll, hpre, hcut, ?_, fun rs hrs => ?_⟩
  · have hw : wp (SegmentedLog.openWithSegmentMax segmentMax) (fun _ dir' log' => dir' = v'.dir ∧
        Live segs' log'.records (contents segs')) (fun _ _ _ => False) (fun _ => True)
        v'.dir .closed :=
      wp_open_contents hinv'.log.dirRep segmentMax fun log' _ hlive _ => ⟨rfl, hlive⟩
    obtain ⟨_, dir', log', hrun, rfl, hlive⟩ := run_ok_of_wp hw
    refine ⟨⟨v'.dir, log', v'.synced⟩, ?_, rfl,
      Live.readAll (v := ⟨v'.dir, log', v'.synced⟩) hlive hinv'.log.dirRep hinv'.toList_contents⟩
    rw [Volume.openOn, hrun]
    simp only [if_true]
  · rw [hinv'.log.carryOn hrs, hinv'.toList_contents, numbered_append]

end

section
open Reference

/-- The volume after a call. -/
def Volume.appended (index : Nat) (payload : Bytes) (v : Volume) : Volume :=
  (v.append index payload).2

/-- A record that is synced and one that is not, in segments that hold one
record. -/
def halfSynced : Volume :=
  ((Volume.openOn 1 ∅ fun _ => 0).2.appended 5 [10]).sync.appended 6 [20]

theorem halfSynced_run : LogRun True 1 5 halfSynced [[10], [20]] 1 :=
  .append [20] (.sync (.append [10] (.opened (Prod.ext (by decide +kernel) rfl))
    (Prod.ext (by decide +kernel) rfl))) (Prod.ext (by decide +kernel) rfl)

/-- The crash leaves half a header in the second segment. -/
theorem synced_records_survive_half_header :
    ∃ v' qs, Volume.openOn 1 (halfSynced.crash [1, 0, 0, 0]) halfSynced.synced = (.ok (), v') ∧
      v'.readAll = .ok (numbered 5 qs) ∧ [[10]] <+: qs := by
  obtain ⟨v', qs, hopen, hread, hpre, _⟩ :=
    synced_records_survive halfSynced_run [1, 0, 0, 0]
  exact ⟨v', qs, hopen, hread, hpre⟩

end

end Lumen
