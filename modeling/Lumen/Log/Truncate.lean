import Lumen.Log.Inv
import Lumen.Log.Sync

/-!
# Lumen.Log.Truncate

Crashes between the filesystem steps of `truncate_from`.

The segment that holds the first dropped record is cut, and then the later
segments are unlinked from the first to the last.  Until the last of these steps
the records of a later segment stand behind a hole; a crash there is recovered to
a list that is no beginning of the log.
-/

namespace Lumen

open Lib Prog

section
variable [Ext] {segmentMax first k : Nat} {v : Volume} {ps : List Bytes} {segs : List Seg}

namespace SegmentedLog

/-- Open the log and read everything. -/
def reopenAll (segmentMax : Nat) : LogM (List (Nat × Bytes)) := do
  openWithSegmentMax segmentMax
  readAll

end SegmentedLog

theorem DirRep.reopenAll {dir : LogDir} (h : DirRep dir segs) (segmentMax : Nat)
    (log : SegmentedLog) :
    ((SegmentedLog.reopenAll segmentMax).run dir log).1 = .ok (contents segs).toList := by
  have hw : wp (SegmentedLog.reopenAll segmentMax) (fun out _ _ => out = (contents segs).toList)
      (fun _ _ _ => False) (fun _ => True) dir log := by
    rw [SegmentedLog.reopenAll, wp_bind]
    refine wp_open_contents h segmentMax fun log' _ hlive _ => ?_
    exact hlive.wp_readAll h rfl
  obtain ⟨_, _, _, hrun, rfl⟩ := run_ok_of_wp hw
  rw [hrun]

/-! ## runs without crashes -/

theorem Volume.append_run {index : Nat} {p : Bytes} {r : Except Error Unit} {v' : Volume}
    (h : v.append index p = (r, v')) :
    (SegmentedLog.append index p).run v.dir v.log = (r, v'.dir, v'.log) := by
  obtain ⟨rfl, rfl⟩ := Prod.mk.inj h
  split <;> simp only [sync_dir, sync_log]

/-- Without crashes every segment has records, and they follow one another. -/
theorem LogRun.endsAt (h : LogRun False segmentMax first v ps k) :
    ∃ segs, EndsAt v.dir v.log segs 0 (first + ps.length) ∧
      (recsOf segs).map Rec.item = numbered first ps := by
  induction h with
  | opened h =>
    obtain rfl := (congrArg Prod.snd h).symm
    exact ⟨[], ⟨⟨DirRep.empty, ⟨rfl, rfl⟩, by simp, List.isChain_nil, rfl⟩, by simp,
      Nat.zero_le _⟩, rfl⟩
  | @append v v' ps k p prev h ih =>
    obtain ⟨segs, hend, hitems⟩ := ih
    have hrun := Volume.append_run h
    rcases Nat.lt_or_ge p.length (2 ^ 32) with hp | hp
    · have hw : wp (SegmentedLog.append (first + ps.length) p) (fun _ dir' log' =>
          ∃ segs', EndsAt dir' log' segs' 0 (first + (ps ++ [p]).length) ∧
            (recsOf segs').map Rec.item = numbered first (ps ++ [p]))
          (fun _ _ _ => False) (fun _ => True) v.dir v.log := by
        refine hend.wp_append hp (fun _ => trivial) fun dir' log' segs' hend' hitems' =>
          ⟨segs', ?_, ?_⟩
        · rwa [List.length_append, List.length_singleton, ← Nat.add_assoc]
        · rw [hitems', hitems, numbered_append]
          rfl
      exact post_of_wp hw hrun
    · rw [SegmentedLog.append, if_pos hp] at hrun
      cases hrun
  | @refused v v' ps k e p prev h ih =>
    obtain ⟨segs, hend, hitems⟩ := ih
    have hrun := Volume.append_run h
    rcases Nat.lt_or_ge p.length (2 ^ 32) with hp | hp
    · have hw : wp (SegmentedLog.append (first + ps.length) p) (fun _ _ _ => True)
          (fun _ _ _ => False) (fun _ => True) v.dir v.log :=
        hend.wp_append hp (fun _ => trivial) fun _ _ _ _ _ => trivial
      exact (error_of_wp hw hrun).elim
    · rw [SegmentedLog.append, if_pos hp] at hrun
      obtain ⟨hd, hl⟩ := Prod.mk.inj (Prod.mk.inj hrun).2
      rw [← hd, ← hl]
      exact ⟨segs, hend, hitems⟩
  | sync prev ih => simpa using ih
  | reopen hc => exact hc.elim

/-! ## crash states -/

/-- Opening gives a beginning of the payloads, with all those below `index`. -/
def RecoversPrefix (segmentMax first index : Nat) (ps : List Bytes) (dir : LogDir) : Prop :=
  ∃ qs, ((SegmentedLog.reopenAll segmentMax).run dir .closed).1 = .ok (numbered first qs) ∧
    qs <+: ps ∧ ps.take (index - first) <+: qs

variable {index : Nat}

omit [Ext] in
theorem numbered_filter_lt (first index : Nat) (ps : List Bytes) :
    (numbered first ps).filter (fun r => r.1 < index) = numbered first (ps.take (index - first)) := by
  induction ps generalizing first with
  | nil => simp [numbered]
  | cons p ps ih =>
    rw [numbered]
    rcases Nat.lt_or_ge first index with hlt | hge
    · have hsub : index - first = index - (first + 1) + 1 := by omega
      rw [List.filter_cons_of_pos (by simpa using hlt), ih, hsub, List.take_succ_cons, numbered]
    · have hsub : index - first = 0 := by omega
      rw [List.filter_cons_of_neg (by simpa using hge), ih, hsub,
        (by omega : index - (first + 1) = 0)]
      rfl

section
variable {dir : LogDir} {log : SegmentedLog} {gap lo : Nat} {rest : List Seg}

omit [Ext] in
theorem items_trunc (h : (recsOf segs).map Rec.item = numbered first ps) :
    (recsOf (trunc index segs)).map Rec.item = numbered first (ps.take (index - first)) := by
  rw [recsOf_trunc, ← numbered_filter_lt, ← h, List.filter_map]
  rfl

/-- The segments below `index` and those from there on. -/
theorem LogInv.stop_le_start (h : LogInv dir log segs gap lo) {s t : Seg} (hs : s ∈ segs)
    (ht : t ∈ segs) (hlt : s.start < t.start) : s.stop ≤ t.start := by
  obtain ⟨pre, post, rfl⟩ := List.append_of_mem ht
  have hord := List.pairwise_append.mp h.linked.ordered
  have hlt' := List.pairwise_append.mp h.dirRep.starts_lt
  rcases List.mem_append.mp hs with hs | hs
  · exact hord.2.2 s hs t List.mem_cons_self
  · rcases List.mem_cons.mp hs with rfl | hs
    · omega
    · have := (List.pairwise_cons.mp hlt'.2.1).1 s hs
      omega

theorem LogInv.ordered_trunc (h : LogInv dir log segs gap lo)
    (hrest : rest <:+ segs.filter fun s => index ≤ s.start) :
    Ordered (trunc index segs ++ rest) := by
  refine List.pairwise_append.mpr ⟨h.linked_trunc.ordered,
    (h.linked.ordered.filter _).sublist hrest.sublist, fun s hs t ht => ?_⟩
  obtain ⟨s, hsm, rfl⟩ := List.mem_map.mp hs
  have hlt := (List.mem_filter.mp hsm).2
  have hge := (List.mem_filter.mp (hrest.subset ht)).2
  rw [decide_eq_true_iff] at hlt hge
  have hcut := Seg.stop_cut (Nat.le_of_lt hlt)
  omega

/-- As long as a later segment is there, a record in front of it is missing. -/
theorem LogInv.exists_missing (h : LogInv dir log segs gap lo)
    (hrest : rest <:+ segs.filter fun s => index ≤ s.start)
    (hall : rest = (segs.filter fun s => index ≤ s.start) → Splits index segs) :
    ∃ r ∈ recsOf segs, index ≤ r.index ∧ ∀ t ∈ rest, r.index < t.start := by
  have hmem : ∀ t ∈ rest, t ∈ segs ∧ index ≤ t.start := fun t ht => by
    have := List.mem_filter.mp (hrest.subset ht)
    simpa using this
  by_cases he : rest = segs.filter fun s => index ≤ s.start
  · -- the record at `index`, which the cut dropped
    obtain ⟨s, hs, hlt, hgt⟩ := hall he
    obtain ⟨r, hr, hri⟩ := Seg.exists_recs (Nat.le_of_lt hlt) hgt
    refine ⟨r, List.mem_flatMap.mpr ⟨s, hs, hr⟩, Nat.le_of_eq hri.symm, fun t ht => ?_⟩
    have := h.stop_le_start hs (hmem t ht).1 (by have := (hmem t ht).2; omega)
    omega
  · -- the first record of a segment that was unlinked
    obtain ⟨gone, hgone⟩ := hrest
    cases gone with
    | nil => exact absurd hgone he
    | cons s gone =>
      have hs : s ∈ segs.filter fun s => index ≤ s.start := by
        rw [← hgone]
        exact List.mem_cons_self
      obtain ⟨hs, hge⟩ := List.mem_filter.mp hs
      rw [decide_eq_true_iff] at hge
      obtain ⟨r, hr, hri⟩ := Seg.exists_recs (Nat.le_refl s.start) (h.start_lt_stop hs)
      refine ⟨r, List.mem_flatMap.mpr ⟨s, hs, hr⟩, by omega, fun t ht => ?_⟩
      have hlt := h.dirRep.starts_lt.filter fun s => decide (index ≤ s.start)
      rw [← hgone] at hlt
      have := (List.pairwise_cons.mp hlt).1 t (List.mem_append_right gone ht)
      omega

/-- A later segment brings back the last record. -/
theorem LogInv.exists_last (h : LogInv dir log segs gap lo)
    (hrest : rest <:+ segs.filter fun s => index ≤ s.start) (hne : rest ≠ []) :
    ∃ s r, segs.getLast? = some s ∧ r ∈ recsOf rest ∧ r.index + 1 = s.stop := by
  obtain ⟨gone, hgone⟩ := hrest
  have hs : segs.getLast? = some (rest.getLast hne) := by
    rw [filter_lt_append_filter_le h.dirRep.starts_lt index, ← hgone, ← List.append_assoc,
      List.getLast?_append_of_ne_nil _ hne, List.getLast?_eq_some_getLast hne]
  have hpos := h.start_lt_stop (List.mem_of_getLast? hs)
  obtain ⟨r, hr, hri⟩ := Seg.exists_recs (by omega : (rest.getLast hne).start ≤
    (rest.getLast hne).stop - 1) (by omega)
  exact ⟨_, r, hs, List.mem_flatMap.mpr ⟨_, List.getLast_mem hne, hr⟩, by omega⟩

/-- Only when every later segment is gone the log is a beginning of what it
was. -/
theorem LogInv.recoversPrefix_iff (h : LogInv dir log segs gap lo)
    (hitems : (recsOf segs).map Rec.item = numbered first ps)
    (hstop : ∀ s, segs.getLast? = some s → s.stop = first + ps.length)
    (hrest : rest <:+ segs.filter fun s => index ≤ s.start)
    (hall : rest = (segs.filter fun s => index ≤ s.start) → Splits index segs) {d : LogDir}
    (hd : DirRep d (trunc index segs ++ rest)) :
    RecoversPrefix segmentMax first index ps d ↔ rest = [] := by
  have hread := hd.reopenAll segmentMax .closed
  rw [(h.ordered_trunc hrest).toList_contents] at hread
  constructor
  · rintro ⟨qs, hqs, hpre, _⟩
    rw [hread, Except.ok.injEq] at hqs
    by_contra hne
    obtain ⟨s, last, hs, hlast, hi⟩ := h.exists_last hrest hne
    have hlen : ps.length ≤ qs.length := by
      have hmem : last.item ∈ numbered first qs := by
        rw [← hqs, recsOf_append]
        exact List.mem_map_of_mem (List.mem_append_right _ hlast)
      obtain ⟨j, hj, hq⟩ := mem_numbered.mp hmem
      have := (List.getElem?_eq_some_iff.mp hq).1
      have := hstop s hs
      omega
    obtain rfl := hpre.eq_of_length_le hlen
    obtain ⟨r, hr, hge, hlt⟩ := h.exists_missing hrest hall
    have hmem : r.item ∈ (recsOf (trunc index segs ++ rest)).map Rec.item := by
      rw [hqs, ← hitems]
      exact List.mem_map_of_mem hr
    obtain ⟨x, hx, he⟩ := List.mem_map.mp hmem
    have hxi : x.index = r.index := congrArg Prod.fst he
    rw [recsOf_append, List.mem_append, recsOf_trunc, List.mem_filter] at hx
    rcases hx with ⟨_, hx⟩ | hx
    · rw [decide_eq_true_iff] at hx
      omega
    · obtain ⟨t, ht, hxt⟩ := List.mem_flatMap.mp hx
      have := hlt t ht
      have := (Seg.recs_bounds hxt).1
      omega
  · rintro rfl
    rw [List.append_nil, items_trunc hitems] at hread
    exact ⟨_, hread, List.take_prefix _ _, List.prefix_refl _⟩

theorem DirRep.exists_suffix {pre post : List Seg} (h : DirRep dir (pre ++ post))
    (hrest : rest <:+ post) : ∃ d, DirRep d (pre ++ rest) := by
  induction post generalizing dir with
  | nil => exact ⟨dir, by rwa [List.suffix_nil.mp hrest]⟩
  | cons s post ih =>
    rcases List.suffix_cons_iff.mp hrest with rfl | hrest
    · exact ⟨dir, h⟩
    · exact ih (h.erase pre) hrest

/-- The steps of a truncation. -/
theorem LogInv.one_step_iff (h : LogInv dir log segs 0 lo) :
    ((Splits index segs → (segs.filter fun s => index ≤ s.start) = []) ∧
      ∀ rest, rest <:+ (segs.filter fun s => index ≤ s.start) →
        rest ≠ (segs.filter fun s => index ≤ s.start) → rest = []) ↔
      log.starts.length ≤ 1 ∨ ∀ a, log.active = some a → a.start ≤ index := by
  rw [h.memRep.starts, h.memRep.active, List.length_map]
  rcases List.eq_nil_or_concat' segs with rfl | ⟨pre, s, rfl⟩
  · simp
  have hright : (pre ++ [s]).length ≤ 1 ∨
      (∀ a, (pre ++ [s]).getLast?.map Seg.active = some a → a.start ≤ index) ↔
      pre = [] ∨ s.start ≤ index := by
    simp [Seg.active]
  have hpre := (List.pairwise_append.mp h.linked.ordered).2.2
  rw [hright, List.filter_append]
  constructor
  · rintro ⟨hfirst, hlater⟩
    by_contra! hno
    obtain ⟨hne, hlt⟩ := hno
    have hs : [s].filter (fun s => index ≤ s.start) = [s] := by simp [Nat.le_of_lt hlt]
    rw [hs] at hfirst hlater
    -- only `s` starts above, so the segment before it holds `index`
    have hnil : pre.filter (fun s => index ≤ s.start) = [] := by
      by_contra hn
      have := hlater [s] (List.suffix_append _ _) (by simpa using hn)
      simp at this
    obtain ⟨pre', t, rfl⟩ := (List.eq_nil_or_concat' pre).resolve_left hne
    have ht : t.start < index := by
      have := List.filter_eq_nil_iff.mp hnil t (by simp)
      simpa using this
    have hlink : t.stop = s.start := by
      have hl := List.isChain_append.mp h.linked
      have := hl.2.2 t (by simp) s (by simp)
      have := h.start_lt_stop (by simp : t ∈ pre' ++ [t] ++ [s])
      omega
    have := hfirst ⟨t, by simp, ht, by omega⟩
    simp at this
  · intro hcase
    have hnil : pre.filter (fun s => index ≤ s.start) = [] := by
      refine List.filter_eq_nil_iff.mpr fun t ht => ?_
      rcases hcase with rfl | hle
      · simp at ht
      · have := (List.pairwise_append.mp h.dirRep.starts_lt).2.2 t ht s (by simp)
        simp only [decide_eq_true_iff]
        omega
    rw [hnil, List.nil_append]
    refine ⟨?_, fun rest hrest hne => ?_⟩
    · rintro ⟨t, ht, hlt, hgt⟩
      have hslt : s.start < index := by
        rcases List.mem_append.mp ht with ht | ht
        · have := hpre t ht s (by simp)
          rcases hcase with rfl | hle
          · simp at ht
          · omega
        · rwa [← List.mem_singleton.mp ht]
      simpa using hslt
    · have hle := (List.filter_sublist (p := fun s => decide (index ≤ s.start)) (l := [s])).length_le
      have := hrest.length_le
      have hlt : rest.length ≠ ([s].filter fun s => index ≤ s.start).length :=
        fun he => hne (hrest.eq_of_length he)
      exact List.length_eq_zero_iff.mp (by simp only [List.length_singleton] at hle; omega)

end

/-- **Truncation survives a crash** at every step exactly when it has no more than
one: the log has one segment, or `index` lies in the active one or is its start. -/
theorem truncateFrom_crashes_iff (h : LogRun False segmentMax first v ps k) (index : Nat) :
    (∀ d ∈ (SegmentedLog.truncateFrom index).crashes v.dir v.log,
      RecoversPrefix segmentMax first index ps d) ↔
      v.log.starts.length ≤ 1 ∨ ∀ a, v.log.active = some a → a.start ≤ index := by
  obtain ⟨segs, ⟨hinv, hstop, _⟩, hitems⟩ := h.endsAt
  obtain ⟨_, _, _, hiff⟩ := wp_truncateFrom_iff hinv (Nat.zero_le index)
  obtain ⟨_, hcut, _⟩ := wp_cutSegment hinv (Nat.zero_le index)
  have hcrashes : (∀ d ∈ (SegmentedLog.truncateFrom index).crashes v.dir v.log,
      RecoversPrefix segmentMax first index ps d) ↔
      wp (SegmentedLog.truncateFrom index) (fun _ _ _ => True) (fun _ _ _ => True)
        (RecoversPrefix segmentMax first index ps) v.dir v.log := by
    rw [wp_iff]
    refine ⟨fun hC => ⟨hC, ?_⟩, And.left⟩
    split <;> trivial
  rw [hcrashes, hiff, ← hinv.one_step_iff]
  constructor
  · rintro ⟨hfirst, hlater, _⟩
    refine ⟨fun hs => ?_, fun rest hrest hne => ?_⟩
    · exact (hinv.recoversPrefix_iff hitems hstop (List.suffix_refl _) (fun _ => hs) hcut).mp
        (hfirst hs _ hcut)
    · obtain ⟨d, hd⟩ := hcut.exists_suffix hrest
      exact (hinv.recoversPrefix_iff hitems hstop hrest (fun he => absurd he hne) hd).mp
        (hlater rest d hrest hne hd)
  · rintro ⟨hfirst, hlater⟩
    refine ⟨fun hs d hd => ?_, fun rest d hrest hne hd => ?_, trivial⟩
    · exact (hinv.recoversPrefix_iff hitems hstop (List.suffix_refl _) (fun _ => hs) hd).mpr
        (hfirst hs)
    · exact (hinv.recoversPrefix_iff hitems hstop hrest (fun he => absurd he hne) hd).mpr
        (hlater rest hrest hne)

end

section
open Reference

/-- Three records in segments that hold one record. -/
def threeSegments : Volume :=
  (((Volume.openOn 1 ∅ fun _ => 0).2.appended 5 [10]).appended 6 [20]).appended 7 [30]

theorem threeSegments_run : LogRun False 1 5 threeSegments [[10], [20], [30]] 0 :=
  .append [30] (.append [20] (.append [10] (.opened (Prod.ext (by decide +kernel) rfl))
    (Prod.ext (by decide +kernel) rfl)) (Prod.ext (by decide +kernel) rfl))
    (Prod.ext (by decide +kernel) rfl)

theorem truncateFrom_crashes_iff_last :
    (∀ d ∈ (SegmentedLog.truncateFrom 7).crashes threeSegments.dir threeSegments.log,
      RecoversPrefix 1 5 7 [[10], [20], [30]] d) ↔
      threeSegments.log.starts.length ≤ 1 ∨
        ∀ a, threeSegments.log.active = some a → a.start ≤ 7 :=
  truncateFrom_crashes_iff threeSegments_run 7

/-- Truncating from the second record on: after the first unlink the third stands
behind a hole. -/
theorem truncateFrom_crash_leaves_hole :
    LogRun False 1 5 threeSegments [[10], [20], [30]] 0 ∧
      ∃ d ∈ (SegmentedLog.truncateFrom 6).crashes threeSegments.dir threeSegments.log,
        ((SegmentedLog.reopenAll 1).run d .closed).1 = .ok [(5, [10]), (7, [30])] :=
  ⟨threeSegments_run, by decide +kernel⟩

end

end Lumen
