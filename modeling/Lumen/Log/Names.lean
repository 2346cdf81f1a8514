import Lumen.Log.Sync

/-!
# Lumen.Log.Names

Which segment files survive a loss of power.

The bytes of a file are safe once the file was synced (`Volume.synced`), its name
once the directory was.  The log syncs files only: a rotation creates a name, and
`sync` covers the bytes behind it.  The directory is synced by the owner, if at all:
`write_snapshot` does it to the directory that also holds the segments of the WAL.

* `sync_durable_iff` — after a sync the records survive a loss of power if and only
  if no append has created a segment since the directory was synced.
-/

namespace Lumen

open Lib Prog

namespace Volume

/-- What a loss of power leaves: the files whose names are safe. -/
def powerLoss (names : List Nat) (tail : Bytes) (v : Volume) : LogDir :=
  (v.crash tail).filter fun start _ => start ∈ names

/-- A file that is gone has nothing synced. -/
def syncedOf (names : List Nat) (v : Volume) : Nat → Nat :=
  fun start => if start ∈ names then v.synced start else 0

end Volume

/-- Runs of contiguous appends from `first` on, syncs of the log and of its directory,
restarts and losses of power, from an empty directory.  `names` are the entries the
directory is known to keep; `created` says that an append has made one since. -/
inductive PowerRun [Ext] (segmentMax first : Nat) :
    Volume → List Nat → List Bytes → Bool → Prop where
  | opened {v : Volume} (h : Volume.openOn segmentMax ∅ (fun _ => 0) = (.ok (), v)) :
      PowerRun segmentMax first v [] [] false
  | append {v v' : Volume} {names : List Nat} {ps : List Bytes} {created : Bool} (p : Bytes)
      (prev : PowerRun segmentMax first v names ps created)
      (h : v.append (first + ps.length) p = (.ok (), v')) :
      PowerRun segmentMax first v' names (ps ++ [p]) (created || v.creates (first + ps.length))
  | refused {v v' : Volume} {names : List Nat} {ps : List Bytes} {created : Bool} {e : Error}
      (p : Bytes) (prev : PowerRun segmentMax first v names ps created)
      (h : v.append (first + ps.length) p = (.error e, v')) :
      PowerRun segmentMax first v' names ps created
  | sync {v : Volume} {names : List Nat} {ps : List Bytes} {created : Bool}
      (prev : PowerRun segmentMax first v names ps created) :
      PowerRun segmentMax first v.sync names ps created
  | syncDir {v : Volume} {names : List Nat} {ps : List Bytes} {created : Bool}
      (prev : PowerRun segmentMax first v names ps created) :
      PowerRun segmentMax first v v.dir.keys ps false
  | restart {v v' : Volume} {names : List Nat} {ps : List Bytes} {created : Bool}
      (prev : PowerRun segmentMax first v names ps created)
      (h : Volume.openOn segmentMax v.dir v.synced = (.ok (), v')) :
      PowerRun segmentMax first v' names ps created
  | powerLoss {v v' : Volume} {names : List Nat} {ps qs : List Bytes} {created : Bool}
      (tail : Bytes) (prev : PowerRun segmentMax first v names ps created)
      (h : Volume.openOn segmentMax (v.powerLoss names tail) (v.syncedOf names) = (.ok (), v'))
      (hread : v'.readAll = .ok (numbered first qs)) :
      PowerRun segmentMax first v' v'.dir.keys qs false

/-- After a sync: every file that holds a live record has all its bytes and its name
safe, and a loss of power leaves every record. -/
structure Volume.Durable [Ext] (segmentMax first : Nat) (names : List Nat) (ps : List Bytes)
    (v : Volume) : Prop where
  bytes : ∀ i loc, v.log.records.find? i = some loc → ∃ bytes,
    v.dir.find? loc.segmentStart = some bytes ∧ v.synced loc.segmentStart = bytes.length
  entries : ∀ i loc, v.log.records.find? i = some loc → loc.segmentStart ∈ names
  recovered : ∀ tail, ∃ v' qs,
    Volume.openOn segmentMax (v.powerLoss names tail) (v.syncedOf names) = (.ok (), v') ∧
      v'.readAll = .ok (numbered first qs) ∧ ps <+: qs

section
variable [Ext] {segmentMax first k : Nat} {v v' : Volume} {segs pre suf : List Seg}
  {ps : List Bytes} {names : List Nat}

/-! ## the names that are safe -/

/-- The segments `pre` are those whose names are safe.  Only the last segment of all,
when it was recovered, can be without a record. -/
structure Volume.Named (segmentMax first : Nat) (v : Volume) (pre suf : List Seg)
    (ps : List Bytes) : Prop where
  inv : ∃ k, v.Inv segmentMax first (pre ++ suf) ps k
  inner : ∀ s ∈ (pre ++ suf).dropLast, s.payloads ≠ []
  fresh : ∀ s ∈ suf, s.payloads ≠ []

namespace Volume.Named

/-- A file is only created behind a segment with a record: an empty last segment has
the name the new one would get. -/
theorem nonempty_of_creates (h : v.Named segmentMax first pre suf ps)
    (hc : v.creates (first + ps.length) = true) : ∀ s ∈ pre ++ suf, s.payloads ≠ [] := by
  obtain ⟨k, hinv⟩ := h.inv
  intro s hs hnil
  obtain ⟨init, t, he⟩ : ∃ init t, pre ++ suf = init ++ [t] := by
    rcases List.eq_nil_or_concat' (pre ++ suf) with he | ⟨init, t, he⟩
    · simp [he] at hs
    · exact ⟨init, t, he⟩
  have hcont := hinv.log.dirRep.contains hs
  have hin := h.inner
  rw [he, List.dropLast_concat] at hin
  rw [he] at hs
  rcases List.mem_append.mp hs with hs | hs
  · exact hin s hs hnil
  · obtain rfl := List.mem_singleton.mp hs
    have hstop := (hinv.last s (by rw [he, List.getLast?_concat])).1
    rw [Seg.stop, hnil, List.length_nil, Nat.add_zero] at hstop
    simp [Volume.creates, ← hstop, hcont] at hc

/-- A record goes to a new segment, or to the end of the last one. -/
theorem append {p : Bytes} (h : v.Named segmentMax first pre suf ps)
    (hrun : v.append (first + ps.length) p = (.ok (), v')) :
    ∃ pre' suf', v'.Named segmentMax first pre' suf' (ps ++ [p]) ∧
      pre'.map Seg.start = pre.map Seg.start ∧
      (suf' ≠ [] ↔ suf ≠ [] ∨ v.creates (first + ps.length) = true) := by
  obtain ⟨k, hinv⟩ := h.inv
  have hp : p.length < 2 ^ 32 := by
    by_contra hp
    rw [Volume.append, if_neg (by omega), SegmentedLog.append, if_pos (by omega)] at hrun
    cases hrun
  obtain ⟨v₁, segs', hrun₁, hinv', hcases⟩ := hinv.append_cases hp
  rw [hrun, Prod.mk.injEq] at hrun₁
  obtain rfl := hrun₁.2
  rcases hcases with ⟨hc, rfl⟩ | ⟨hc, init, s, hsegs, rfl⟩
  · refine ⟨pre, suf ++ [⟨first + ps.length, [p]⟩], ⟨⟨k, by rwa [← List.append_assoc]⟩, ?_, ?_⟩,
      rfl, by simp [hc]⟩
    · rw [← List.append_assoc, List.dropLast_concat]
      exact h.nonempty_of_creates hc
    · intro s hs
      rcases List.mem_append.mp hs with hs | hs
      · exact h.fresh s hs
      · rw [List.mem_singleton.mp hs]
        exact List.cons_ne_nil _ _
  · have hin := h.inner
    rw [hsegs, List.dropLast_concat] at hin
    rcases List.eq_nil_or_concat' suf with rfl | ⟨suf₀, t, rfl⟩
    · rw [List.append_nil] at hsegs
      subst hsegs
      refine ⟨init ++ [{ s with payloads := s.payloads ++ [p] }], [], ⟨⟨k, by simpa using hinv'⟩, ?_,
        by simp⟩, by simp, by simp [hc]⟩
      rwa [List.append_nil, List.dropLast_concat]
    · rw [← List.append_assoc] at hsegs
      obtain ⟨rfl, hts⟩ := List.append_inj' hsegs rfl
      obtain rfl := List.singleton_inj.mp hts
      refine ⟨pre, suf₀ ++ [{ t with payloads := t.payloads ++ [p] }],
        ⟨⟨k, by rwa [← List.append_assoc]⟩, ?_, fun s hs => ?_⟩, rfl, by simp⟩
      · rwa [← List.append_assoc, List.dropLast_concat]
      · rcases List.mem_append.mp hs with hs | hs
        · exact h.fresh s (List.mem_append_left _ hs)
        · rw [List.mem_singleton.mp hs]
          exact List.append_ne_nil_of_right_ne_nil _ (List.cons_ne_nil _ _)

/-- After a sync of the directory every name is safe. -/
theorem syncDir (h : v.Named segmentMax first pre suf ps) :
    v.Named segmentMax first (pre ++ suf) [] ps :=
  ⟨by simpa using h.inv, by simpa using h.inner, by simp⟩

end Volume.Named

/-! ## opening again -/

namespace Volume.Inv

/-- A restart finds the log as it was. -/
theorem restarted (h : v.Inv segmentMax first segs ps k) :
    ∃ v', Volume.openOn segmentMax v.dir v.synced = (.ok (), v') ∧
      v'.Inv segmentMax first segs ps k := by
  rcases List.eq_nil_or_concat' segs with rfl | ⟨pre, s, rfl⟩
  · obtain ⟨hcrash, v', hopen, hinv⟩ := h.reopened_nil []
    have hdir : v.dir = v.crash [] := by
      rw [hcrash]
      exact OrdMap.ext_find? fun i => congrArg (List.lookup i) h.log.dirRep.files
    rw [hdir]
    exact ⟨v', hopen, h.nil_payloads ▸ hinv⟩
  · obtain ⟨_, j, hj, hjle, hk⟩ := h.last s (by simp)
    have hsmall : ∀ p ∈ s.payloads.drop j, p.length < 2 ^ 32 := fun p hp =>
      h.log.dirRep.small s (by simp) p (List.mem_of_mem_drop hp)
    have hdir : v.dir = v.crash (frames (s.payloads.drop j)) := by
      refine OrdMap.ext_find? fun i => congrArg (List.lookup i) ?_
      rw [h.crash_files hj, h.log.dirRep.files, List.map_append, ← frames_append,
        List.take_append_drop]
      rfl
    obtain ⟨v', us, hopen, hps, hinv, _⟩ := h.recovered hj hjle hk (frames (s.payloads.drop j))
    rw [accepted_frames hsmall, List.take_append_drop, ← hps] at hinv
    rw [hdir]
    exact ⟨v', hopen, hinv⟩

/-- When every name is safe, a loss of power is a crash. -/
theorem powerLoss_eq_crash (h : v.Inv segmentMax first segs ps k) (tail : Bytes) :
    v.powerLoss (segs.map Seg.start) tail = v.crash tail ∧
      v.syncedOf (segs.map Seg.start) = v.synced := by
  have hkeys := h.log.dirRep.keys
  constructor
  · refine OrdMap.ext_find? fun start => congrArg (List.lookup start) ?_
    rw [Volume.powerLoss, OrdMap.toList_filter, List.filter_eq_self]
    intro p hp
    rw [crash, OrdMap.toList_mapValues, List.mem_map] at hp
    obtain ⟨q, hq, rfl⟩ := hp
    refine decide_eq_true ?_
    rw [← hkeys]
    exact List.mem_map.mpr ⟨q, hq, rfl⟩
  · funext start
    rw [Volume.syncedOf]
    split
    · rfl
    · rename_i hno
      exact (h.synced_eq_zero fun t ht he => hno (List.mem_map.mpr ⟨t, ht, he⟩)).symm

/-- Every record is in the index, where it lies. -/
theorem find?_of_mem (h : v.Inv segmentMax first segs ps k) {r : Rec} (hr : r ∈ recsOf segs) :
    ∃ loc, v.log.records.find? r.index = some loc ∧ loc = r.loc := by
  have hmem : (r.index, r.payload) ∈ (contents segs).toList := by
    rw [h.ordered.toList_contents]
    exact List.mem_map_of_mem hr
  obtain ⟨loc, hfind⟩ := h.log.live.known _ _ (OrdMap.find?_eq_some_iff.mpr hmem)
  obtain ⟨r', hr', he, rfl, _⟩ := h.log.live.read _ _ hfind
  refine ⟨r'.loc, hfind, congrArg Rec.loc ?_⟩
  have hnd : ((recsOf segs).map Rec.index).Nodup := by
    rw [List.Nodup, List.pairwise_map]
    exact h.ordered.recsOf_sorted.imp Nat.ne_of_lt
  exact List.inj_on_of_nodup_map hnd hr' hr he

/-- Opening a directory of whole segments whose bytes are all synced. -/
theorem of_files {files : LogDir} {synced : Nat → Nat} (hdir : DirRep files segs)
    (hord : Ordered segs) (hitems : (recsOf segs).map Rec.item = numbered first ps)
    (hlast : ∀ s, segs.getLast? = some s → s.stop = first + ps.length)
    (hsynced : ∀ s ∈ segs, synced s.start = s.bytes.length)
    (hfresh : ∀ start, files.contains start = false → synced start = 0) :
    ∃ v', Volume.openOn segmentMax files synced = (.ok (), v') ∧
      v'.Inv segmentMax first segs ps ps.length := by
  have hw : wp (SegmentedLog.openWithSegmentMax segmentMax) (fun _ dir' log' => dir' = files ∧
      MemRep log' segs ∧ Live segs log'.records (contents segs) ∧
      log'.segmentMaxBytes = segmentMax) (fun _ _ _ => False) (fun _ => True) files .closed :=
    wp_open_contents hdir segmentMax fun log' hm hl hmax => ⟨rfl, hm, hl, hmax⟩
  obtain ⟨_, dir', log', hrun, rfl, hm, hlive, hmax⟩ := run_ok_of_wp hw
  refine ⟨⟨dir', log', synced⟩, by rw [Volume.openOn, hrun]; simp only [if_true], ?_⟩
  have hstops : ∀ s ∈ segs, s.stop ≤ first + ps.length := by
    rcases List.eq_nil_or_concat' segs with rfl | ⟨init, t, rfl⟩
    · simp
    · have ht := hlast t (by simp)
      intro s hs
      rcases List.mem_append.mp hs with hs | hs
      · have hle := (List.pairwise_append.mp hord).2.2 s hs t (List.mem_singleton_self t)
        have : t.start ≤ t.stop := Nat.le_add_right _ _
        omega
      · rw [List.mem_singleton.mp hs, ht]
  refine ⟨⟨hdir, hstops, hlive, fun i p hp => contents_lt hstops hp, fun a ha => ?_⟩, hord, hitems,
    hm.active, hmax, fun s hs => hsynced s (List.dropLast_subset _ hs), fun s hs => ?_, hfresh,
    Nat.le_refl _⟩
  · rw [hm.active] at ha
    obtain ⟨s, hs, rfl⟩ := Option.map_eq_some_iff.mp ha
    exact ⟨s, List.mem_of_getLast? hs, rfl, .inl (hlast s hs)⟩
  · refine ⟨hlast s hs, s.payloads.length, ?_, Nat.le_refl _, Nat.le_refl _⟩
    rw [List.take_length]
    exact hsynced s (List.mem_of_getLast? hs)

end Volume.Inv

namespace Volume.Named

/-- A loss of power leaves the segments whose names are safe. -/
theorem powerLoss_files (h : v.Named segmentMax first pre suf ps) (hsuf : suf ≠ []) (tail : Bytes) :
    DirRep (v.powerLoss (pre.map Seg.start) tail) pre := by
  obtain ⟨k, hinv⟩ := h.inv
  obtain ⟨mid, s, rfl⟩ : ∃ mid s, suf = mid ++ [s] := by
    rcases List.eq_nil_or_concat' suf with he | ⟨mid, s, he⟩
    · exact absurd he hsuf
    · exact ⟨mid, s, he⟩
  rw [← List.append_assoc] at hinv
  obtain ⟨_, j, hj, _⟩ := hinv.last s (by simp)
  have hlt : ∀ a ∈ pre, ∀ b ∈ mid ++ [s], a.start < b.start := by
    have hall := hinv.log.dirRep.starts_lt
    rw [List.append_assoc] at hall
    exact (List.pairwise_append.mp hall).2.2
  have hgone : ∀ b ∈ mid ++ [s], b.start ∉ pre.map Seg.start := by
    intro b hb hmem
    obtain ⟨a, ha, he⟩ := List.mem_map.mp hmem
    exact Nat.ne_of_lt (hlt a ha b hb) he
  refine ⟨?_, fun t ht => hinv.log.dirRep.small t (by simp [ht])⟩
  rw [Volume.powerLoss, OrdMap.toList_filter, hinv.crash_files hj, List.map_append,
    List.append_assoc, List.filter_append, List.filter_append]
  have hkeep : (pre.map fun t => (t.start, t.bytes)).filter
      (fun p => decide (p.1 ∈ pre.map Seg.start)) = pre.map fun t => (t.start, t.bytes) := by
    refine List.filter_eq_self.mpr fun p hp => ?_
    obtain ⟨t, ht, rfl⟩ := List.mem_map.mp hp
    exact decide_eq_true (List.mem_map_of_mem ht)
  have hmid : (mid.map fun t => (t.start, t.bytes)).filter
      (fun p => decide (p.1 ∈ pre.map Seg.start)) = [] := by
    refine List.filter_eq_nil_iff.mpr fun p hp => ?_
    obtain ⟨t, ht, rfl⟩ := List.mem_map.mp hp
    exact fun hc => hgone t (by simp [ht]) (of_decide_eq_true hc)
  have hlast : s.start ∉ pre.map Seg.start := hgone s (by simp)
  rw [hkeep, hmid, List.filter_singleton, decide_eq_false hlast]
  simp

/-- The records of the segments whose names are safe. -/
theorem exists_payloads (h : v.Named segmentMax first pre suf ps) (hsuf : suf ≠ []) :
    ∃ qs, (recsOf pre).map Rec.item = numbered first qs ∧
      ∀ s, pre.getLast? = some s → s.stop = first + qs.length := by
  obtain ⟨k, hinv⟩ := h.inv
  have hitems := hinv.items
  rw [recsOf_append, List.map_append] at hitems
  obtain ⟨qs, hqs⟩ : ∃ qs, (recsOf pre).map Rec.item = numbered first qs :=
    ⟨_, (numbered_split hitems).1⟩
  refine ⟨qs, hqs, fun s hs => ?_⟩
  obtain ⟨init, rfl⟩ := List.getLast?_eq_some_iff.mp hs
  have hne : s.payloads ≠ [] := by
    refine h.inner s ?_
    rw [List.dropLast_append_of_ne_nil hsuf]
    simp
  rw [recsOf_append, recsOf_singleton, List.map_append, Seg.map_item_recs] at hqs
  exact numbered_stop hqs hne

/-- **Power loss**: the log that is opened again has all its names safe. -/
theorem powerLoss (h : v.Named segmentMax first pre suf ps) (tail : Bytes) :
    ∃ v' segs' qs, Volume.openOn segmentMax (v.powerLoss (pre.map Seg.start) tail)
        (v.syncedOf (pre.map Seg.start)) = (.ok (), v') ∧
      v'.Named segmentMax first segs' [] qs := by
  obtain ⟨k, hinv⟩ := h.inv
  by_cases hsuf : suf = []
  · subst hsuf
    have hin := h.inner
    rw [List.append_nil] at hinv hin
    obtain ⟨hcrash, hsynced⟩ := hinv.powerLoss_eq_crash tail
    rw [hcrash, hsynced]
    rcases List.eq_nil_or_concat' pre with rfl | ⟨init, s, rfl⟩
    · obtain ⟨_, v', hopen, hinv'⟩ := hinv.reopened_nil tail
      exact ⟨v', [], [], hopen, ⟨k, hinv'⟩, by simp, by simp⟩
    · obtain ⟨_, j, hj, hjle, hk⟩ := hinv.last s (by simp)
      obtain ⟨v', us, hopen, _, hinv', _⟩ := hinv.recovered hj hjle hk tail
      refine ⟨v', _, _, hopen, ⟨k, by rwa [List.append_nil]⟩, ?_, by simp⟩
      rw [List.dropLast_concat] at hin
      rwa [List.append_nil, List.dropLast_concat]
  · have hdir := h.powerLoss_files hsuf tail
    obtain ⟨qs, hitems, hlast⟩ := h.exists_payloads hsuf
    have hdrop : (pre ++ suf).dropLast = pre ++ suf.dropLast := List.dropLast_append_of_ne_nil hsuf
    have hsynced : ∀ s ∈ pre, v.syncedOf (pre.map Seg.start) s.start = s.bytes.length := by
      intro s hs
      rw [Volume.syncedOf, if_pos (List.mem_map_of_mem hs)]
      exact hinv.inner s (hdrop ▸ List.mem_append_left _ hs)
    have hfresh : ∀ start, (v.powerLoss (pre.map Seg.start) tail).contains start = false →
        v.syncedOf (pre.map Seg.start) start = 0 := by
      intro start hs
      rw [Volume.syncedOf, if_neg]
      intro hmem
      obtain ⟨t, ht, rfl⟩ := List.mem_map.mp hmem
      rw [hdir.contains ht] at hs
      cases hs
    obtain ⟨v', hopen, hinv'⟩ := Volume.Inv.of_files hdir
      (List.pairwise_append.mp hinv.ordered).1 hitems hlast hsynced hfresh
    refine ⟨v', pre, qs, hopen, ⟨qs.length, by rwa [List.append_nil]⟩, fun s hs => ?_, by simp⟩
    rw [List.append_nil] at hs
    exact h.inner s (hdrop ▸ List.mem_append_left _ (List.dropLast_subset _ hs))

end Volume.Named

/-- Every state of a run: the safe names are those of the first segments, and the others
were created since. -/
theorem PowerRun.named {created : Bool} (h : PowerRun segmentMax first v names ps created) :
    ∃ pre suf, v.Named segmentMax first pre suf ps ∧ names = pre.map Seg.start ∧
      (created = true ↔ suf ≠ []) := by
  induction h with
  | opened h => exact ⟨[], [], ⟨⟨0, .opened h⟩, by simp, by simp⟩, rfl, by simp⟩
  | append p prev h ih =>
    obtain ⟨pre, suf, hn, rfl, hc⟩ := ih
    obtain ⟨pre', suf', hn', hpre, hsuf⟩ := hn.append h
    exact ⟨pre', suf', hn', hpre.symm, by rw [hsuf, Bool.or_eq_true, hc]⟩
  | refused p prev h ih =>
    obtain ⟨pre, suf, hn, hnames, hc⟩ := ih
    obtain ⟨k, hinv⟩ := hn.inv
    rcases Nat.lt_or_ge p.length (2 ^ 32) with hp | hp
    · obtain ⟨v₁, segs', hrun, _⟩ := hinv.append hp
      rw [h] at hrun
      cases hrun
    · rw [Volume.append, if_neg (by omega), SegmentedLog.append, if_pos hp] at h
      cases h
      exact ⟨pre, suf, hn, hnames, hc⟩
  | sync prev ih =>
    obtain ⟨pre, suf, hn, hnames, hc⟩ := ih
    obtain ⟨k, hinv⟩ := hn.inv
    exact ⟨pre, suf, ⟨⟨_, hinv.synced⟩, hn.inner, hn.fresh⟩, hnames, hc⟩
  | syncDir prev ih =>
    obtain ⟨pre, suf, hn, _, _⟩ := ih
    obtain ⟨k, hinv⟩ := hn.inv
    exact ⟨pre ++ suf, [], hn.syncDir, hinv.log.dirRep.keys, by simp⟩
  | restart prev h ih =>
    obtain ⟨pre, suf, hn, hnames, hc⟩ := ih
    obtain ⟨k, hinv⟩ := hn.inv
    obtain ⟨v₁, hopen, hinv'⟩ := hinv.restarted
    rw [h, Prod.mk.injEq] at hopen
    obtain rfl := hopen.2
    exact ⟨pre, suf, ⟨⟨k, hinv'⟩, hn.inner, hn.fresh⟩, hnames, hc⟩
  | powerLoss tail prev h hread ih =>
    obtain ⟨pre, suf, hn, rfl, _⟩ := ih
    obtain ⟨v₁, segs', qs', hopen, hn'⟩ := hn.powerLoss tail
    rw [h, Prod.mk.injEq] at hopen
    obtain rfl := hopen.2
    obtain ⟨k, hinv⟩ := hn'.inv
    rw [hinv.readAll, Except.ok.injEq] at hread
    rw [List.append_nil] at hinv
    exact ⟨segs', [], numbered_inj hread ▸ hn', hinv.log.dirRep.keys, by simp⟩

/-- **Segment creation is durable with the record** if and only if the directory was
synced since: after a sync every file with a live record has its bytes and its name
safe, and a loss of power leaves every record, exactly when no append has created a
file since the directory was last synced. -/
theorem sync_durable_iff {created : Bool} (h : PowerRun segmentMax first v names ps created) :
    v.sync.Durable segmentMax first names ps ↔ created = false := by
  obtain ⟨pre, suf, hn, rfl, hc⟩ := h.named
  obtain ⟨k, hinv⟩ := hn.inv
  have hsync := hinv.synced
  have hlive := hsync.log.live
  constructor
  · intro hd
    by_contra hne
    have hsuf := hc.mp (Bool.eq_true_of_not_eq_false hne)
    obtain ⟨s, rest, rfl⟩ := List.exists_cons_of_ne_nil hsuf
    -- the created segment has a record, and its name is not safe
    obtain ⟨p, qs, hp⟩ := List.exists_cons_of_ne_nil (hn.fresh s List.mem_cons_self)
    obtain ⟨r, hr, _⟩ : ∃ r ∈ s.recs, r.index = s.start :=
      Seg.exists_recs (Nat.le_refl s.start) (by rw [Seg.stop, hp, List.length_cons]; omega)
    have hrs : r ∈ recsOf (pre ++ s :: rest) := List.mem_flatMap.mpr ⟨s, by simp, hr⟩
    obtain ⟨loc, hfind, hloc⟩ := hsync.find?_of_mem hrs
    have hmem := hd.entries _ _ hfind
    rw [hloc, (Seg.recs_bounds hr).2.2] at hmem
    obtain ⟨t, ht, he⟩ := List.mem_map.mp hmem
    have hlt := (List.pairwise_append.mp hsync.log.dirRep.starts_lt).2.2 t ht s List.mem_cons_self
    omega
  · intro hno
    have hsuf : suf = [] := by
      by_contra hne
      have := hc.mpr hne
      rw [hno] at this
      cases this
    subst hsuf
    rw [List.append_nil] at hsync hlive
    have hseg : ∀ i loc, v.sync.log.records.find? i = some loc →
        ∃ s ∈ pre, s.start = loc.segmentStart := by
      intro i loc hfind
      obtain ⟨r, hr, _, rfl, _⟩ := hlive.read i loc hfind
      obtain ⟨s, hs, hrs⟩ := List.mem_flatMap.mp hr
      exact ⟨s, hs, (Seg.recs_bounds hrs).2.2.symm⟩
    refine ⟨fun i loc hfind => ?_, fun i loc hfind => ?_, fun tail => ?_⟩
    · obtain ⟨s, hs, he⟩ := hseg i loc hfind
      exact ⟨s.bytes, he ▸ hsync.log.dirRep.find? hs, he ▸ hsync.all_synced s hs⟩
    · obtain ⟨s, hs, he⟩ := hseg i loc hfind
      exact he ▸ List.mem_map_of_mem hs
    · obtain ⟨hcrash, hsynced⟩ := hsync.powerLoss_eq_crash tail
      obtain ⟨v', _, qs, hopen, hinv', hpre, _⟩ := hsync.reopened tail
      rw [List.take_length] at hpre
      exact ⟨v', qs, by rw [hcrash, hsynced, hopen], hinv'.readAll, hpre⟩

end

section
open Reference

/-- The first record of a log, synced. -/
def firstSynced : Volume := ((Volume.openOn 64 ∅ fun _ => 0).2.appended 0 [10]).sync

/-- The record before the directory is synced, and one more behind it. -/
def secondSynced : Volume := (firstSynced.appended 1 [20]).sync

theorem firstSynced_run : PowerRun 64 0 firstSynced [] [[10]] true :=
  .sync (.append [10] (.opened (Prod.ext (by decide +kernel) rfl))
    (Prod.ext (by decide +kernel) rfl))

theorem secondSynced_run : PowerRun 64 0 secondSynced [0] [[10], [20]] false :=
  .sync (.append [20] (.syncDir firstSynced_run) (Prod.ext (by decide +kernel) rfl))

/-- With the directory synced behind the first record, both survive. -/
theorem sync_durable_secondSynced : secondSynced.sync.Durable 64 0 [0] [[10], [20]] :=
  (sync_durable_iff secondSynced_run).mpr rfl

/-- The first append of a log and a sync that returns: a loss of power takes the file
and the record with it. -/
theorem synced_record_lost :
    PowerRun 64 0 firstSynced [] [[10]] true ∧ firstSynced.readAll = .ok [(0, [10])] ∧
      (Volume.openOn 64 (firstSynced.powerLoss [] []) (firstSynced.syncedOf [])).1 = .ok () ∧
      (Volume.openOn 64 (firstSynced.powerLoss [] []) (firstSynced.syncedOf [])).2.readAll =
        .ok [] :=
  ⟨firstSynced_run, by decide +kernel, by decide +kernel, by decide +kernel⟩

end

end Lumen
