import Lumen.Log.Ops
import Mathlib.Data.List.Chain

/-!
# Lumen.Log.Inv

The log whose indexes are positions: a segment's `i`-th record is numbered
`start + i`, in memory as on disk.

`LogInv dir log segs gap lo` says that the directory and the in-memory log
stand for the same segments, that the index holds exactly the records from
`lo` on, and that segments follow one another without a hole except at or
below `gap` (a purge beyond the end of the log leaves one there).  `append`,
`truncateFrom` and `purgeThrough` keep it, and opening the directory
establishes it with every record back in the index.  `EndsAt` is the case without
holes, with the position behind the last record.
-/

namespace Lumen

open Lib Prog

/-! ## truncated segments -/

theorem recsFrom_take (start index offset n : Nat) (ps : List Bytes) :
    recsFrom start index offset (ps.take n) =
      (recsFrom start index offset ps).filter fun r => r.index < index + n := by
  induction ps generalizing index offset n with
  | nil => simp [recsFrom]
  | cons p ps ih =>
    cases n with
    | zero =>
      rw [List.take_zero, recsFrom, eq_comm, List.filter_eq_nil_iff]
      intro r hr
      have hb := (recsFrom_bounds hr).1
      rw [decide_eq_true_iff]
      omega
    | succ n =>
      have hn : index + 1 + n = index + (n + 1) := by omega
      rw [List.take_succ_cons, recsFrom, recsFrom, ih,
        List.filter_cons_of_pos (by rw [decide_eq_true_iff]; show index < _; omega), hn]

theorem Seg.recs_cut {s : Seg} {index : Nat} (h : s.start ≤ index) :
    (s.cut index).recs = s.recs.filter fun r => r.index < index := by
  have hadd : s.start + (index - s.start) = index := by omega
  rw [Seg.recs, Seg.cut, recsFrom_take, hadd]
  rfl

theorem Seg.cut_eq_self {s : Seg} {index : Nat} (h : s.stop ≤ index) : s.cut index = s := by
  rw [Seg.stop] at h
  rw [Seg.cut, List.take_of_length_le (by omega)]

theorem Seg.stop_cut {s : Seg} {index : Nat} (h : s.start ≤ index) :
    (s.cut index).stop = min index s.stop := by
  rw [Seg.stop, Seg.stop, Seg.cut, List.length_take]
  show s.start + _ = _
  omega

/-- The segments below `index`, the last of them cut there. -/
def trunc (index : Nat) (segs : List Seg) : List Seg :=
  (segs.filter fun s => s.start < index).map (Seg.cut index)

theorem recsOf_trunc (index : Nat) (segs : List Seg) :
    recsOf (trunc index segs) = (recsOf segs).filter fun r => r.index < index := by
  induction segs with
  | nil => rfl
  | cons s segs ih =>
    have hcons : recsOf (s :: segs) = s.recs ++ recsOf segs := List.flatMap_cons
    rw [hcons, List.filter_append, ← ih, trunc, List.filter_cons]
    split
    · rename_i hlt
      rw [decide_eq_true_iff] at hlt
      rw [← Seg.recs_cut (Nat.le_of_lt hlt), List.map_cons]
      exact List.flatMap_cons
    · rename_i hge
      rw [decide_eq_true_iff] at hge
      have hnil : s.recs.filter (fun r => decide (r.index < index)) = [] := by
        refine List.filter_eq_nil_iff.mpr fun r hr => ?_
        have hb := (Seg.recs_bounds hr).1
        rw [decide_eq_true_iff]
        omega
      rw [hnil, List.nil_append]
      rfl

/-! ## segments that follow one another -/

/-- Each segment starts where the one before stops, or leaves a hole at or
below `gap`. -/
def Linked (gap : Nat) (segs : List Seg) : Prop :=
  segs.IsChain fun a b => a.stop = b.start ∨ (a.stop ≤ b.start ∧ b.start ≤ gap)

theorem Linked.ordered {gap : Nat} {segs : List Seg} (h : Linked gap segs) : Ordered segs := by
  induction segs with
  | nil => exact List.Pairwise.nil
  | cons s segs ih =>
    obtain ⟨hs, hsegs⟩ := List.isChain_cons.mp h
    have hord := ih hsegs
    refine List.pairwise_cons.mpr ⟨fun x hx => ?_, hord⟩
    cases segs with
    | nil => simp at hx
    | cons t rest =>
      have hst := hs t rfl
      have htx : t.start ≤ x.start := by
        rcases List.mem_cons.mp hx with rfl | hx
        · exact Nat.le_refl _
        · have hle := (List.pairwise_cons.mp hord).1 x hx
          rw [Seg.stop] at hle
          omega
      omega

theorem Linked.mono {gap gap' : Nat} {segs : List Seg} (h : Linked gap segs) (hle : gap ≤ gap') :
    Linked gap' segs :=
  List.IsChain.imp (fun _ _ => Or.imp_right fun hb => ⟨hb.1, Nat.le_trans hb.2 hle⟩) h

/-- What a purge drops lies at or below its bound, and what it keeps reaches
above it, the last segment apart. -/
theorem Linked.purged_split {gap index : Nat} {segs : List Seg} (h : Linked gap segs)
    (hgap : gap ≤ index + 1) :
    ∃ pre, segs = pre ++ purged index segs ∧ (∀ s ∈ pre, s.stop ≤ index + 1) ∧
      ∀ s ∈ purged index segs, segs.getLast? = some s ∨ index + 1 < s.stop := by
  induction segs using purged.induct index with
  | case1 => exact ⟨[], rfl, by simp, by simp [purged]⟩
  | case2 s => exact ⟨[], rfl, by simp, by simp [purged]⟩
  | case3 s t rest hle ih =>
    obtain ⟨hs, hsegs⟩ := List.isChain_cons.mp h
    obtain ⟨pre, heq, hpre, hkept⟩ := ih hsegs
    have hst := hs t rfl
    rw [purged, if_pos hle, List.getLast?_cons_cons]
    refine ⟨s :: pre, by rw [List.cons_append, ← heq], ?_, hkept⟩
    rw [List.forall_mem_cons]
    exact ⟨by omega, hpre⟩
  | case4 s t rest hle =>
    rw [purged, if_neg hle]
    refine ⟨[], rfl, by simp, ?_⟩
    obtain ⟨hs, hsegs⟩ := List.isChain_cons.mp h
    have hord := List.pairwise_cons.mp (Linked.ordered hsegs)
    have hst := hs t rfl
    have hlater : ∀ x ∈ t :: rest, index + 1 < x.stop := by
      rw [List.forall_mem_cons]
      refine ⟨by rw [Seg.stop]; omega, fun x hx => ?_⟩
      have hle := hord.1 x hx
      rw [Seg.stop] at hle ⊢
      omega
    rw [List.forall_mem_cons]
    exact ⟨Or.inr (by omega), fun x hx => Or.inr (hlater x hx)⟩

section
variable [Ext] {dir : LogDir} {log : SegmentedLog} {segs : List Seg} {gap lo index : Nat}

/-- Directory and in-memory log agree on the segments, and the index holds
their records from `lo` on. -/
structure LogInv (dir : LogDir) (log : SegmentedLog) (segs : List Seg) (gap lo : Nat) : Prop where
  dirRep : DirRep dir segs
  memRep : MemRep log segs
  nonempty : ∀ s ∈ segs, s.payloads ≠ []
  linked : Linked gap segs
  records : log.records.toList = ((recsOf segs).filter fun r => lo ≤ r.index).map Rec.key

theorem LogInv.mem_records (h : LogInv dir log segs gap lo) {p : Nat × RecordLoc} :
    p ∈ log.records.toList ↔ ∃ r ∈ recsOf segs, lo ≤ r.index ∧ r.key = p := by
  rw [h.records, List.mem_map]
  simp only [List.mem_filter, decide_eq_true_iff, and_assoc]

/-- A record lies in the segment its location names. -/
theorem LogInv.mem_recs (h : LogInv dir log segs gap lo) {r : Rec} (hr : r ∈ recsOf segs)
    {s : Seg} (hs : s ∈ segs) (hstart : r.loc.segmentStart = s.start) : r ∈ s.recs := by
  obtain ⟨t, ht, hrt⟩ := List.mem_flatMap.mp hr
  have hts : t.start = s.start := (Seg.recs_bounds hrt).2.2.symm.trans hstart
  exact h.dirRep.start_inj ht hs hts ▸ hrt

/-- Holes below a higher bound are allowed too. -/
theorem LogInv.mono (h : LogInv dir log segs gap lo) {gap' : Nat} (hle : gap ≤ gap') :
    LogInv dir log segs gap' lo :=
  { h with linked := h.linked.mono hle }

theorem LogInv.start_lt_stop (h : LogInv dir log segs gap lo) {s : Seg} (hs : s ∈ segs) :
    s.start < s.stop := by
  have hpos := List.length_pos_iff.mpr (h.nonempty s hs)
  rw [Seg.stop]
  omega

variable {Q : Unit → LogDir → SegmentedLog → Prop} {E : Error → LogDir → SegmentedLog → Prop}
  {C : LogDir → Prop}

/-! ## open -/

theorem wp_open_inv (h : DirRep dir segs) (hne : ∀ s ∈ segs, s.payloads ≠ [])
    (hl : Linked gap segs) {segmentMax : Nat}
    (hQ : ∀ log', LogInv dir log' segs gap 0 → Q () dir log') :
    wp (SegmentedLog.openWithSegmentMax segmentMax) Q E C dir log := by
  refine wp_openWithSegmentMax h hl.ordered _ fun log' hm hrecs _ => ?_
  refine hQ log' ⟨h, hm, hne, hl, ?_⟩
  rw [hrecs, List.filter_eq_self.mpr (by simp)]

/-! ## append -/

/-- The index an append may use without its position and its number coming
apart: the next one of the active segment, or that of a new segment. -/
def Appendable (log : SegmentedLog) (segs : List Seg) (gap index : Nat) : Prop :=
  ∀ s, segs.getLast? = some s →
    s.stop = index ∨ (log.needsRotation = true ∧ s.stop ≤ index ∧ index ≤ gap)

omit [Ext] in
theorem Appendable.stop_le (happ : Appendable log segs gap index) (h : Linked gap segs) {s : Seg}
    (hs : s ∈ segs) : s.stop ≤ index := by
  rcases List.eq_nil_or_concat' segs with rfl | ⟨pre, t, rfl⟩
  · simp at hs
  · have ht : t.stop ≤ index := by
      rcases happ t (by simp) with he | hle
      · exact Nat.le_of_eq he
      · exact hle.2.1
    rcases List.mem_append.mp hs with hs | hs
    · have hle := (List.pairwise_append.mp h.ordered).2.2 s hs t (List.mem_singleton_self t)
      have hstop : t.start ≤ t.stop := Nat.le_add_right _ _
      omega
    · rw [List.mem_singleton.mp hs]
      exact ht

theorem Appendable.linked_push {p : Bytes} (happ : Appendable log segs gap index)
    (h : Linked gap segs) (hm : MemRep log segs) :
    Linked gap (push log.needsRotation index p segs) := by
  cases hrot : log.needsRotation with
  | true =>
    refine List.IsChain.append h (List.isChain_singleton _) ?_
    intro s hs t ht
    simp only [List.head?_cons, Option.mem_some_iff] at ht
    subst ht
    exact (happ s hs).imp_right And.right
  | false =>
    rcases List.eq_nil_or_concat' segs with rfl | ⟨pre, t, rfl⟩
    · rw [hm.needsRotation_nil] at hrot
      contradiction
    · rw [push_false]
      obtain ⟨h₁, _, h₃⟩ := List.isChain_append.mp h
      refine List.IsChain.append h₁ (List.isChain_singleton _) ?_
      intro s hs u hu
      simp only [List.head?_cons, Option.mem_some_iff] at hu
      subst hu
      exact h₃ s hs t rfl

omit [Ext] in
theorem nonempty_push {rotate : Bool} {p : Bytes} (h : ∀ s ∈ segs, s.payloads ≠ []) :
    ∀ s ∈ push rotate index p segs, s.payloads ≠ [] := by
  intro s hs
  rw [push] at hs
  split at hs
  · rcases List.mem_append.mp hs with hs | hs
    · exact h s hs
    · rw [List.mem_singleton.mp hs]
      simp
  · rcases List.mem_append.mp hs with hs | hs
    · exact h s ((List.dropLast_sublist segs).subset hs)
    · rw [Option.mem_toList, Option.map_eq_some_iff] at hs
      obtain ⟨t, _, rfl⟩ := hs
      simp

/-- The last segment of an appended log ends behind the new record. -/
theorem Appendable.stop_push {p : Bytes} (happ : Appendable log segs gap index)
    (hm : MemRep log segs) {t : Seg}
    (ht : (push log.needsRotation index p segs).getLast? = some t) : t.stop = index + 1 := by
  cases hrot : log.needsRotation with
  | true =>
    rw [hrot, push_true, List.getLast?_append, List.getLast?_singleton, Option.some_or,
      Option.some.injEq] at ht
    rw [← ht]
    rfl
  | false =>
    rcases List.eq_nil_or_concat' segs with rfl | ⟨pre, s, rfl⟩
    · rw [hm.needsRotation_nil] at hrot
      contradiction
    · rw [hrot, push_false, List.getLast?_append, List.getLast?_singleton, Option.some_or,
        Option.some.injEq] at ht
      have hs := happ s (by simp)
      rw [hrot] at hs
      have hstop : s.stop = index := hs.resolve_right (by simp)
      rw [← ht, ← hstop]
      show s.start + (s.payloads ++ [p]).length = s.start + s.payloads.length + 1
      rw [List.length_append, List.length_singleton, Nat.add_assoc]

/-- **Append keeps the positions**, at an index that is the next position or
opens a segment. -/
theorem wp_append_inv {p : Bytes} (h : LogInv dir log segs gap lo) (hp : p.length < 2 ^ 32)
    (happ : Appendable log segs gap index) (hlo : lo ≤ index) (hC : ∀ d, C d)
    (hQ : ∀ dir' log' r, LogInv dir' log' (push log.needsRotation index p segs) gap lo →
      recsOf (push log.needsRotation index p segs) = recsOf segs ++ [r] →
      r.item = (index, p) → Q () dir' log') :
    wp (SegmentedLog.append index p) Q E C dir log := by
  have hstop : ∀ s ∈ segs, s.stop ≤ index := fun s hs => happ.stop_le h.linked hs
  refine wp_append h.dirRep h.memRep hp
    (fun _ s hs => Nat.lt_of_lt_of_le (h.start_lt_stop hs) (hstop s hs)) (fun _ _ => hC _) ?_
  intro dir' log' r hpushed hmem hins _
  have hri : r.index = index := by
    cases hneeds : log.needsRotation with
    | true => exact hpushed.rotated hneeds
    | false =>
      cases hlast : segs.getLast? with
      | none =>
        have hnil := List.getLast?_eq_none_iff.mp hlast
        have hm := h.memRep
        rw [hnil] at hm
        rw [hm.needsRotation_nil] at hneeds
        contradiction
      | some s =>
        rw [hpushed.appended hneeds s hlast]
        rcases happ s hlast with he | he
        · exact he
        · rw [hneeds] at he
          exact absurd he.1 (by simp)
  have hlt : ∀ q ∈ log.records.toList, q.1 < index := by
    intro q hq
    obtain ⟨r', hr', _, rfl⟩ := h.mem_records.mp hq
    obtain ⟨s, hs, hrs⟩ := List.mem_flatMap.mp hr'
    exact Nat.lt_of_lt_of_le (Seg.recs_bounds hrs).2.1 (hstop s hs)
  refine hQ dir' log' r ⟨hpushed.rep, hmem, nonempty_push h.nonempty,
    happ.linked_push h.linked h.memRep, ?_⟩ hpushed.recs (by rw [Rec.item, hri, hpushed.payload])
  rw [hins, OrdMap.toList_insert_of_lt hlt, h.records, hpushed.recs, List.filter_append,
    List.map_append, List.filter_cons_of_pos (by rw [hri]; exact decide_eq_true hlo), List.filter_nil,
    List.map_singleton, Rec.key, hri]

/-! ## purge -/

/-- After a purge the index still knows a record of each segment kept, the
active one apart, and none of a segment dropped. -/
theorem LogInv.keep_starts (h : LogInv dir log segs gap lo) (hgap : gap ≤ index + 1)
    (hlo : lo ≤ index + 1) :
    (segs.map Seg.start).filter (fun s => decide (some s = segs.getLast?.map Seg.start ∨
        (log.records.filter fun k _ => index < k).toList.any fun p => p.2.segmentStart = s)) =
      (purged index segs).map Seg.start := by
  obtain ⟨pre, heq, hpre, hkept⟩ := h.linked.purged_split hgap
  have hany : ∀ s ∈ segs, ((log.records.filter fun k _ => index < k).toList.any fun p =>
      p.2.segmentStart = s.start) = true ↔ index + 1 < s.stop := by
    intro s hs
    simp only [List.any_eq_true, OrdMap.toList_filter, List.mem_filter, decide_eq_true_iff]
    constructor
    · rintro ⟨p, ⟨hp, hidx⟩, hstart⟩
      obtain ⟨r, hr, _, rfl⟩ := h.mem_records.mp hp
      have hb := (Seg.recs_bounds (h.mem_recs hr hs hstart)).2.1
      have hlt : index < r.index := hidx
      omega
    · intro hlt
      have hstart := h.start_lt_stop hs
      by_cases hin : s.start ≤ s.stop - 1
      · obtain ⟨r, hr, hri⟩ := Seg.exists_recs hin (by omega)
        refine ⟨r.key, ⟨h.mem_records.mpr ⟨r, List.mem_flatMap.mpr ⟨s, hs, hr⟩, by omega, rfl⟩, ?_⟩,
          (Seg.recs_bounds hr).2.2⟩
        show index < r.index
        omega
      · omega
  have hsplit := h.dirRep.starts_lt
  rw [heq] at hsplit
  have hlt := (List.pairwise_append.mp hsplit).2.2
  have hdrop : (pre.map Seg.start).filter (fun s => decide (some s = segs.getLast?.map Seg.start ∨
      (log.records.filter fun k _ => index < k).toList.any fun p => p.2.segmentStart = s)) = [] := by
    refine List.filter_eq_nil_iff.mpr fun x hx => ?_
    obtain ⟨s, hs, rfl⟩ := List.mem_map.mp hx
    have hmem : s ∈ segs := by rw [heq]; exact List.mem_append_left _ hs
    have hle := hpre s hs
    rw [decide_eq_true_iff, hany s hmem, not_or]
    refine ⟨fun he => ?_, by omega⟩
    obtain ⟨t, ht, hst⟩ := Option.map_eq_some_iff.mp he.symm
    rw [← getLast?_purged index] at ht
    have := hlt s hs t (List.mem_of_getLast? ht)
    omega
  have hkeep : ((purged index segs).map Seg.start).filter (fun s =>
      decide (some s = segs.getLast?.map Seg.start ∨
        (log.records.filter fun k _ => index < k).toList.any fun p => p.2.segmentStart = s)) =
      (purged index segs).map Seg.start := by
    refine List.filter_eq_self.mpr fun x hx => ?_
    obtain ⟨s, hs, rfl⟩ := List.mem_map.mp hx
    have hmem : s ∈ segs := (purged_suffix index segs).subset hs
    rw [decide_eq_true_iff, hany s hmem]
    refine (hkept s hs).imp_left fun hlast => ?_
    rw [hlast]
    rfl
  conv_lhs => rw [heq]
  rw [List.map_append, List.filter_append, ← heq, hdrop, hkeep, List.nil_append]

/-- The records a purge drops from the index are those at or below its
bound. -/
theorem LogInv.recs_purged (h : LogInv dir log segs gap lo) (hgap : gap ≤ index + 1) :
    (recsOf segs).filter (fun r => decide (index + 1 ≤ r.index)) =
      (recsOf (purged index segs)).filter fun r => index + 1 ≤ r.index := by
  obtain ⟨pre, heq, hpre, _⟩ := h.linked.purged_split hgap
  have hnil : (recsOf pre).filter (fun r => decide (index + 1 ≤ r.index)) = [] := by
    refine List.filter_eq_nil_iff.mpr fun r hr => ?_
    obtain ⟨s, hs, hrs⟩ := List.mem_flatMap.mp hr
    have hb := (Seg.recs_bounds hrs).2.1
    have hle := hpre s hs
    rw [decide_eq_true_iff]
    omega
  conv_lhs => rw [heq]
  rw [recsOf_append, List.filter_append, hnil, List.nil_append]

/-- **Purge** raises the bound of the index. -/
theorem wp_purgeThrough_inv (h : LogInv dir log segs gap lo) (hgap : gap ≤ index + 1)
    (hlo : lo ≤ index + 1) (hC : ∀ d, C d)
    (hQ : ∀ dir' log', LogInv dir' log' (purged index segs) gap (index + 1) → Q () dir' log') :
    wp (SegmentedLog.purgeThrough index) Q E C dir log := by
  refine wp_purgeThrough h.dirRep h.memRep (fun _ _ _ _ _ => hC _) ?_
  intro dir' log' hdir hmem hrecs _
  have hmem := hmem (h.keep_starts hgap hlo)
  have hsuf := purged_suffix index segs
  refine hQ dir' log' ⟨hdir, hmem, fun s hs => h.nonempty s (hsuf.subset hs),
    h.linked.suffix hsuf, ?_⟩
  rw [← h.recs_purged hgap, hrecs, OrdMap.toList_filter, h.records, List.filter_map,
    List.filter_filter]
  congr 1
  refine List.filter_congr fun r _ => ?_
  rw [Bool.eq_iff_iff, Bool.and_eq_true, decide_eq_true_iff, decide_eq_true_iff]
  show decide (index < r.index) = true ∧ _ ↔ _
  rw [decide_eq_true_iff]
  omega

/-! ## truncate -/

omit [Ext] in
/-- A list in increasing order of `f` splits at any bound. -/
theorem filter_lt_append_filter_le {α : Type} {f : α → Nat} {l : List α}
    (h : l.Pairwise fun a b => f a < f b) (k : Nat) :
    l = (l.filter fun a => f a < k) ++ l.filter fun a => k ≤ f a := by
  induction l with
  | nil => rfl
  | cons a l ih =>
    obtain ⟨ha, hl⟩ := List.pairwise_cons.mp h
    by_cases hk : f a < k
    · rw [List.filter_cons_of_pos (by simp [hk]), List.filter_cons_of_neg (by simp [hk]),
        List.cons_append, ← ih hl]
    · have hall : ∀ b ∈ l, k ≤ f b := fun b hb => by have := ha b hb; omega
      have hnil : l.filter (fun a => decide (f a < k)) = [] :=
        List.filter_eq_nil_iff.mpr fun b hb => by
          have := hall b hb
          rw [decide_eq_true_iff]
          omega
      rw [List.filter_cons_of_neg (by simp [hk]), hnil,
        List.filter_cons_of_pos (by simpa using hk), List.nil_append,
        List.filter_eq_self.mpr fun b hb => decide_eq_true (hall b hb)]

theorem LogInv.find?_eq_some (h : LogInv dir log segs gap lo) (hlo : lo ≤ index) {loc : RecordLoc} :
    log.records.find? index = some loc ↔ ∃ r ∈ recsOf segs, r.index = index ∧ r.loc = loc := by
  rw [OrdMap.find?_eq_some_iff, h.mem_records]
  constructor
  · rintro ⟨r, hr, _, he⟩
    exact ⟨r, hr, congrArg Prod.fst he, congrArg Prod.snd he⟩
  · rintro ⟨r, hr, rfl, rfl⟩
    exact ⟨r, hr, hlo, rfl⟩

/-- Where a record's frame starts: behind the frames of the records before
it. -/
theorem recsFrom_offset {start index offset : Nat} {ps : List Bytes} {r : Rec}
    (h : r ∈ recsFrom start index offset ps) :
    r.loc.payloadOffset = offset + (frames (ps.take (r.index - index))).length + headerBytes := by
  induction ps generalizing index offset with
  | nil => simp [recsFrom] at h
  | cons p ps ih =>
    rw [recsFrom, List.mem_cons] at h
    rcases h with rfl | h
    · simp [frames_nil]
    · have hb := (recsFrom_bounds h).1
      have hsub : r.index - index = (r.index - (index + 1)) + 1 := by omega
      rw [ih h, hsub, List.take_succ_cons, frames_cons, List.length_append, length_frame]
      omega

/-- Cutting a segment file where a record starts leaves the records before
it. -/
theorem setLen_bytes {s : Seg} {r : Rec} (h : r ∈ s.recs) :
    setLen (r.loc.payloadOffset - headerBytes) s.bytes = (s.cut r.index).bytes := by
  have hoff := recsFrom_offset h
  have hsplit : s.bytes = (s.cut r.index).bytes ++ frames (s.payloads.drop (r.index - s.start)) := by
    rw [Seg.bytes, Seg.bytes, Seg.cut, ← frames_append, List.take_append_drop]
  rw [hsplit]
  refine setLen_append _ ?_
  rw [hoff, Nat.zero_add, Nat.add_sub_cancel]
  rfl

/-- Every segment that starts below `index`, the last apart, ends there too. -/
theorem LogInv.trunc_eq (h : LogInv dir log segs gap lo) {pre : List Seg} {s : Seg}
    (hpre : (segs.filter fun s => s.start < index) = pre ++ [s]) :
    trunc index segs = pre ++ [s.cut index] := by
  have hord : Ordered (pre ++ [s]) := by
    rw [← hpre]
    exact h.linked.ordered.filter _
  have hs : s.start < index := by
    have hmem : s ∈ segs.filter fun s => s.start < index := by simp [hpre]
    simpa using (List.mem_filter.mp hmem).2
  have hcut : pre.map (Seg.cut index) = pre := by
    conv_rhs => rw [← List.map_id pre]
    refine List.map_congr_left fun x hx => Seg.cut_eq_self ?_
    have hle := (List.pairwise_append.mp hord).2.2 x hx s (List.mem_singleton_self s)
    omega
  rw [trunc, hpre, List.map_append, hcut, List.map_singleton]

/-- `index` lies inside a segment, not at its start. -/
def Splits (index : Nat) (segs : List Seg) : Prop := ∃ s ∈ segs, s.start < index ∧ index < s.stop

/-- The cut leaves the segments below `index` truncated and the others
untouched; it is a step only when `index` lies inside a segment. -/
theorem wp_cutSegment (h : LogInv dir log segs gap lo) (hlo : lo ≤ index) :
    ∃ dir', DirRep dir' (trunc index segs ++ segs.filter fun s => index ≤ s.start) ∧
      ∀ {Q E C log'}, wp (SegmentedLog.cutSegment index ((log.records.find? index).map
        fun loc => (loc.segmentStart, loc.payloadOffset - headerBytes))) Q E C dir log' ↔
          (Splits index segs → C dir') ∧ Q () dir' log' := by
  have hsplit := filter_lt_append_filter_le h.dirRep.starts_lt index
  -- a record at `index` that is the first of its segment is not cut
  have hkeep : ¬ Splits index segs → ∀ {Q E C log'}, wp (SegmentedLog.cutSegment index
      ((log.records.find? index).map fun loc => (loc.segmentStart, loc.payloadOffset - headerBytes)))
      Q E C dir log' ↔ (Splits index segs → C dir) ∧ Q () dir log' := by
    intro hno Q E C log'
    have hiff : Q () dir log' ↔ (Splits index segs → C dir) ∧ Q () dir log' :=
      ⟨fun hQ => ⟨fun hs => absurd hs hno, hQ⟩, And.right⟩
    cases hfind : log.records.find? index with
    | none => exact hiff
    | some loc =>
      obtain ⟨r, hr, hri, rfl⟩ := (h.find?_eq_some hlo).mp hfind
      obtain ⟨t, ht, hrt⟩ := List.mem_flatMap.mp hr
      obtain ⟨_, hb₂, hb₃⟩ := Seg.recs_bounds hrt
      have hge : ¬ r.loc.segmentStart < index := fun hlt =>
        hno ⟨t, ht, hb₃ ▸ hlt, hri ▸ hb₂⟩
      rw [Option.map_some, SegmentedLog.cutSegment, if_neg hge]
      exact hiff
  rcases List.eq_nil_or_concat' (segs.filter fun s => s.start < index) with hnil | ⟨pre, s, hpre⟩
  · have htrunc : trunc index segs = [] := by rw [trunc, hnil, List.map_nil]
    refine ⟨dir, ?_, hkeep ?_⟩
    · rw [htrunc, ← hnil, ← hsplit]
      exact h.dirRep
    · rintro ⟨t, ht, hlt, _⟩
      have hmem : t ∈ segs.filter fun s => decide (s.start < index) :=
        List.mem_filter.mpr ⟨ht, decide_eq_true hlt⟩
      rw [hnil] at hmem
      simp at hmem
  · have htrunc := h.trunc_eq hpre
    have hmem : s ∈ segs.filter fun s => decide (s.start < index) := by simp [hpre]
    obtain ⟨hs, hslt⟩ := List.mem_filter.mp hmem
    rw [decide_eq_true_iff] at hslt
    have hdir : DirRep dir (pre ++ s :: segs.filter fun s => index ≤ s.start) := by
      rw [← List.singleton_append, ← List.append_assoc, ← hpre, ← hsplit]
      exact h.dirRep
    have hlast : ∀ t ∈ segs, t.start < index → index < t.stop → t = s := by
      intro t ht hlt hstop
      have htm : t ∈ pre ++ [s] := by
        rw [← hpre]
        exact List.mem_filter.mpr ⟨ht, decide_eq_true hlt⟩
      rcases List.mem_append.mp htm with htp | hte
      · have hord : Ordered (pre ++ [s]) := by
          rw [← hpre]
          exact h.linked.ordered.filter _
        have hle := (List.pairwise_append.mp hord).2.2 t htp s (List.mem_singleton_self s)
        omega
      · exact List.mem_singleton.mp hte
    rcases Nat.lt_or_ge index s.stop with hstop | hstop
    · obtain ⟨r, hr, hri⟩ := Seg.exists_recs (Nat.le_of_lt hslt) hstop
      have hfind := (h.find?_eq_some hlo).mpr ⟨r, List.mem_flatMap.mpr ⟨s, hs, hr⟩, hri, rfl⟩
      have hbytes := setLen_bytes hr
      rw [hri] at hbytes
      have hmod := hdir.modify (setLen (r.loc.payloadOffset - headerBytes))
        (s.cut index).payloads hbytes
        fun p hp => h.dirRep.small s hs p (List.mem_of_mem_take hp)
      refine ⟨dir.modify s.start (setLen (r.loc.payloadOffset - headerBytes)), ?_,
        fun {Q E C log'} => ?_⟩
      · rw [htrunc, List.append_assoc, List.singleton_append]
        exact hmod
      · rw [hfind, Option.map_some, SegmentedLog.cutSegment, (Seg.recs_bounds hr).2.2, if_pos hslt,
          wp_bind, wp_getDisk, if_pos (h.dirRep.contains hs), wp_step]
        exact and_congr_left fun _ => ⟨fun hC _ => hC, fun hC => hC ⟨s, hs, hslt, hstop⟩⟩
    · refine ⟨dir, ?_, hkeep ?_⟩
      · rw [htrunc, Seg.cut_eq_self hstop, List.append_assoc, List.singleton_append]
        exact hdir
      · rintro ⟨t, ht, hlt, hgt⟩
        rw [hlast t ht hlt hgt] at hgt
        omega

/-- Unlinking the segments at and above `index`, from the first to the last. -/
theorem wp_removeFiles (log : SegmentedLog) {pre post : List Seg} (h : DirRep dir (pre ++ post)) :
    ∃ dir', DirRep dir' pre ∧ ∀ {Q E C},
      wp (forEach (post.map Seg.start) SegmentedLog.removeFile) Q E C dir log ↔
        (∀ rest d, rest <:+ post → rest ≠ post → DirRep d (pre ++ rest) → C d) ∧
          Q () dir' log := by
  induction post generalizing dir with
  | nil =>
    refine ⟨dir, by rwa [List.append_nil] at h, fun {Q E C} => ?_⟩
    exact ⟨fun hQ => ⟨fun rest d hrest hne => absurd (List.suffix_nil.mp hrest) hne, hQ⟩,
      And.right⟩
  | cons s post ih =>
    have herase := h.erase pre
    obtain ⟨dir', hdir', hiff⟩ := ih herase
    refine ⟨dir', hdir', fun {Q E C} => ?_⟩
    rw [List.map_cons, forEach, wp_bind', SegmentedLog.removeFile, wp_bind, wp_getDisk,
      if_pos (h.contains (List.mem_append_right _ List.mem_cons_self)), wp_step, hiff,
      ← and_assoc]
    refine and_congr_left fun _ => ⟨?_, fun hall => ?_⟩
    · rintro ⟨hfirst, hlater⟩ rest d hrest hne hd
      rcases List.suffix_cons_iff.mp hrest with rfl | hrest
      · exact absurd rfl hne
      · by_cases he : rest = post
        · rw [he] at hd
          exact hd.unique herase ▸ hfirst
        · exact hlater rest d hrest he hd
    · refine ⟨hall post _ (List.suffix_cons s post) ?_ herase, fun rest d hrest _ hd =>
        hall rest d (hrest.trans (List.suffix_cons s post)) ?_ hd⟩
      · exact fun he => absurd (congrArg List.length he) (by simp)
      · intro he
        have := hrest.length_le
        rw [he, List.length_cons] at this
        omega

theorem LogInv.nonempty_trunc (h : LogInv dir log segs gap lo) :
    ∀ s ∈ trunc index segs, s.payloads ≠ [] := by
  intro s hs
  obtain ⟨t, ht, rfl⟩ := List.mem_map.mp hs
  obtain ⟨hmem, hlt⟩ := List.mem_filter.mp ht
  rw [decide_eq_true_iff] at hlt
  have hne := h.nonempty t hmem
  rw [Seg.cut, Ne, List.take_eq_nil_iff, not_or]
  exact ⟨by omega, hne⟩

theorem LogInv.linked_trunc (h : LogInv dir log segs gap lo) : Linked gap (trunc index segs) := by
  have hsplit := filter_lt_append_filter_le h.dirRep.starts_lt index
  have hl := h.linked
  rw [hsplit] at hl
  have hpre := List.IsChain.left_of_append hl
  rcases List.eq_nil_or_concat' (segs.filter fun s => s.start < index) with hnil | ⟨pre, s, heq⟩
  · rw [trunc, hnil]
    exact List.isChain_nil
  · rw [h.trunc_eq heq]
    rw [heq] at hpre
    obtain ⟨h₁, _, h₃⟩ := List.isChain_append.mp hpre
    refine List.IsChain.append h₁ (List.isChain_singleton _) ?_
    intro a ha b hb
    simp only [List.head?_cons, Option.mem_some_iff] at hb
    subst hb
    exact h₃ a ha s rfl

omit [Ext] in
theorem map_start_trunc (index : Nat) (segs : List Seg) :
    (trunc index segs).map Seg.start = (segs.map Seg.start).filter (· < index) := by
  rw [trunc, List.map_map, List.filter_map]
  rfl

/-- **Truncate** drops the records at and above `index`, from the index and
from the files: first the cut, then the files one by one. -/
theorem wp_truncateFrom_iff (h : LogInv dir log segs gap lo) (hlo : lo ≤ index) :
    ∃ dir' log', LogInv dir' log' (trunc index segs) gap lo ∧ ∀ {Q E C},
      wp (SegmentedLog.truncateFrom index) Q E C dir log ↔
        (Splits index segs → ∀ d,
          DirRep d (trunc index segs ++ segs.filter fun s => index ≤ s.start) → C d) ∧
        (∀ rest d, rest <:+ (segs.filter fun s => index ≤ s.start) →
          rest ≠ (segs.filter fun s => index ≤ s.start) →
          DirRep d (trunc index segs ++ rest) → C d) ∧ Q () dir' log' := by
  have hdel : log.starts.filter (fun s => decide (index ≤ s)) =
      (segs.filter fun s => index ≤ s.start).map Seg.start := by
    rw [h.memRep.starts, List.filter_map]
    rfl
  have hkeep : log.starts.filter (fun s => decide (s ∉ (segs.filter fun s =>
      decide (index ≤ s.start)).map Seg.start)) = (trunc index segs).map Seg.start := by
    rw [map_start_trunc, h.memRep.starts]
    refine List.filter_congr fun x hx => ?_
    obtain ⟨s, hs, rfl⟩ := List.mem_map.mp hx
    rw [decide_eq_decide, List.mem_map]
    constructor
    · intro hno
      by_contra hge
      exact hno ⟨s, List.mem_filter.mpr ⟨hs, decide_eq_true (by omega)⟩, rfl⟩
    · rintro hlt ⟨t, ht, he⟩
      have hge := (List.mem_filter.mp ht).2
      rw [decide_eq_true_iff] at hge
      omega
  have hrecs : ((log.records.filter fun k _ => k < index).toList) =
      ((recsOf (trunc index segs)).filter fun r => lo ≤ r.index).map Rec.key := by
    rw [OrdMap.toList_filter, h.records, List.filter_map, recsOf_trunc, List.filter_filter,
      List.filter_filter]
    congr 1
    refine List.filter_congr fun r _ => ?_
    exact Bool.and_comm _ _
  obtain ⟨dir₁, hdir₁, hcut⟩ := wp_cutSegment h hlo
  obtain ⟨dir₂, hdir₂, hremove⟩ := wp_removeFiles
    { log with records := log.records.filter fun k _ => k < index } hdir₁
  refine ⟨dir₂, ⟨log.segmentMaxBytes, (trunc index segs).map Seg.start,
    log.records.filter fun k _ => k < index, (trunc index segs).getLast?.map Seg.active⟩,
    ⟨hdir₂, ⟨rfl, rfl⟩, h.nonempty_trunc, h.linked_trunc, hrecs⟩, fun {Q E C} => ?_⟩
  have hreopen : ∀ {Q E C}, wp SegmentedLog.reopenActive Q E C dir₂ ⟨log.segmentMaxBytes,
      (trunc index segs).map Seg.start, log.records.filter fun k _ => k < index, log.active⟩ ↔
        Q () dir₂ ⟨log.segmentMaxBytes, (trunc index segs).map Seg.start,
          log.records.filter fun k _ => k < index,
          (trunc index segs).getLast?.map Seg.active⟩ := by
    intro Q E C
    rw [SegmentedLog.reopenActive, wp_bind, wp_getMem, List.getLast?_map]
    cases hlast : (trunc index segs).getLast? with
    | none => exact Iff.rfl
    | some s =>
      simp only [Option.map_some, wp_bind, wp_getDisk, hdir₂.find? (List.mem_of_getLast? hlast)]
      exact Iff.rfl
  rw [SegmentedLog.truncateFrom]
  simp only [wp_bind, wp_getMem, wp_modifyMem, hdel]
  rw [hcut, hremove]
  simp only [hkeep]
  rw [hreopen]
  refine and_congr_left fun _ => imp_congr_right fun _ => ?_
  exact ⟨fun hC d hd => hd.unique hdir₁ ▸ hC, fun hC => hC dir₁ hdir₁⟩

theorem wp_truncateFrom_inv (h : LogInv dir log segs gap lo) (hlo : lo ≤ index) (hC : ∀ d, C d)
    (hQ : ∀ dir' log', LogInv dir' log' (trunc index segs) gap lo → Q () dir' log') :
    wp (SegmentedLog.truncateFrom index) Q E C dir log := by
  obtain ⟨dir', log', hinv, hiff⟩ := wp_truncateFrom_iff h hlo
  exact hiff.mpr ⟨fun _ d _ => hC d, fun _ d _ _ _ => hC d, hQ dir' log' hinv⟩

/-! ## contiguous logs -/

/-- The records follow one another up to `next`. -/
structure EndsAt (dir : LogDir) (log : SegmentedLog) (segs : List Seg) (lo next : Nat) : Prop where
  inv : LogInv dir log segs 0 lo
  stop : ∀ s, segs.getLast? = some s → s.stop = next
  lo_le : lo ≤ next

namespace EndsAt

variable {next : Nat}

theorem appendable (h : EndsAt dir log segs lo next) : Appendable log segs 0 next :=
  fun s hs => Or.inl (h.stop s hs)

theorem stop_le (h : EndsAt dir log segs lo next) {s : Seg} (hs : s ∈ segs) : s.stop ≤ next :=
  h.appendable.stop_le h.inv.linked hs

theorem wp_append {p : Bytes} (h : EndsAt dir log segs lo next) (hp : p.length < 2 ^ 32)
    (hC : ∀ d, C d)
    (hQ : ∀ dir' log' segs', EndsAt dir' log' segs' lo (next + 1) →
      (recsOf segs').map Rec.item = (recsOf segs).map Rec.item ++ [(next, p)] → Q () dir' log') :
    wp (SegmentedLog.append next p) Q E C dir log := by
  refine wp_append_inv h.inv hp h.appendable h.lo_le hC fun dir' log' r hinv hrecs hr => ?_
  refine hQ dir' log' _ ⟨hinv, fun s hs => h.appendable.stop_push h.inv.memRep hs,
    h.lo_le.trans (Nat.le_succ _)⟩ ?_
  rw [hrecs, List.map_append, List.map_singleton, hr]

/-- Where the log ends after a truncation. -/
theorem stop_trunc (h : EndsAt dir log segs lo next) {s : Seg}
    (hs : (trunc index segs).getLast? = some s) : s.stop = min index next := by
  rcases List.eq_nil_or_concat' (segs.filter fun s => s.start < index) with hnil | ⟨pre, t, hpre⟩
  · rw [trunc, hnil] at hs
    simp at hs
  · rw [h.inv.trunc_eq hpre, List.getLast?_concat, Option.some.injEq] at hs
    subst hs
    have hmem : t ∈ segs.filter fun s => decide (s.start < index) := by simp [hpre]
    obtain ⟨ht, hlt⟩ := List.mem_filter.mp hmem
    rw [decide_eq_true_iff] at hlt
    rw [Seg.stop_cut (Nat.le_of_lt hlt)]
    have hle := h.stop_le ht
    rcases Nat.lt_or_ge t.stop index with hin | hout
    · -- the segment behind `t` would start below `index` as well
      obtain ⟨a, rest, rfl⟩ := List.append_of_mem ht
      cases rest with
      | nil => rw [h.stop t (by simp)]
      | cons u rest =>
        have hlink := (List.isChain_cons.mp (List.isChain_append.mp h.inv.linked).2.1).1 u rfl
        have hpos := h.inv.start_lt_stop ht
        have hu : u ∈ pre ++ [t] := by
          rw [← hpre]
          exact List.mem_filter.mpr ⟨by simp, decide_eq_true (by omega)⟩
        have hsorted := h.inv.dirRep.starts_lt.filter fun s => decide (s.start < index)
        rw [hpre] at hsorted
        rcases List.mem_append.mp hu with hu | hu
        · have := (List.pairwise_append.mp hsorted).2.2 u hu t (List.mem_singleton_self t)
          omega
        · have := List.mem_singleton.mp hu
          subst this
          omega
    · omega

theorem wp_truncateFrom (h : EndsAt dir log segs lo next) (hlo : lo ≤ index) (hC : ∀ d, C d)
    (hQ : ∀ dir' log', EndsAt dir' log' (trunc index segs) lo (min index next) → Q () dir' log') :
    wp (SegmentedLog.truncateFrom index) Q E C dir log := by
  refine wp_truncateFrom_inv h.inv hlo hC fun dir' log' hinv =>
    hQ dir' log' ⟨hinv, fun s hs => h.stop_trunc hs, ?_⟩
  have := h.lo_le
  omega

theorem wp_purgeThrough (h : EndsAt dir log segs lo next) (hlo : lo ≤ index + 1)
    (hle : index < next) (hC : ∀ d, C d)
    (hQ : ∀ dir' log', EndsAt dir' log' (purged index segs) (index + 1) next → Q () dir' log') :
    wp (SegmentedLog.purgeThrough index) Q E C dir log := by
  refine wp_purgeThrough_inv h.inv (Nat.zero_le _) hlo hC fun dir' log' hinv =>
    hQ dir' log' ⟨hinv, fun s hs => ?_, hle⟩
  rw [getLast?_purged] at hs
  exact h.stop s hs

theorem wp_open (h : EndsAt dir log segs lo next) {segmentMax : Nat} {log₀ : SegmentedLog}
    (hQ : ∀ log', EndsAt dir log' segs 0 next → Q () dir log') :
    wp (SegmentedLog.openWithSegmentMax segmentMax) Q E C dir log₀ :=
  wp_open_inv h.inv.dirRep h.inv.nonempty h.inv.linked fun log' hinv =>
    hQ log' ⟨hinv, h.stop, Nat.zero_le _⟩

end EndsAt

end

end Lumen
