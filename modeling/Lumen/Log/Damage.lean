import Lumen.Log.Truncate

/-!
# Lumen.Log.Damage

Opening a directory in which one segment file was replaced by other bytes.

A file that is torn ends the scan: the later segments are not indexed, but their
files stay, and the next open scans them.  A file that is whole but holds more
records than before reaches beyond the last segment, which is the active one, and
the next record goes where its number does not lead.  `Mendable` says that neither
happens.
-/

namespace Lumen

open Lib Prog

namespace SegmentedLog

/-- Where appends go on: behind the last record, or at `first` when there is
none. -/
def nextIndex (first : Nat) (log : SegmentedLog) : Nat :=
  match log.lastIndex with
  | none => first
  | some index => index + 1

end SegmentedLog

section
variable {segs segs' : List Seg} {log : SegmentedLog} {first n : Nat}

theorem Live.keys {mem : OrdMap Nat Bytes} (h : Live segs log.records mem) :
    log.records.keys = mem.keys := by
  obtain ⟨rs, _, hkeys, hitems⟩ := h.recs
  rw [OrdMap.keys, OrdMap.keys, hkeys, hitems, List.map_map, List.map_map]
  rfl

theorem Live.nextIndex (h : Live segs log.records (contents segs'))
    (hlt : ∀ r ∈ recsOf segs', r.index < n)
    (hn : (∃ r ∈ recsOf segs', r.index + 1 = n) ∨ (recsOf segs' = [] ∧ n = first)) :
    log.nextIndex first = n := by
  rw [SegmentedLog.nextIndex, SegmentedLog.lastIndex, OrdMap.lastKey?_eq, h.keys,
    ← OrdMap.lastKey?_eq]
  rcases hn with ⟨r, hr, rfl⟩ | ⟨hnil, rfl⟩
  · obtain ⟨p, hp⟩ := exists_contents hr
    cases hlast : (contents segs').lastKey? with
    | none =>
      rw [OrdMap.lastKey?_eq, List.getLast?_eq_none_iff] at hlast
      have := OrdMap.mem_keys_iff.mpr ⟨p, hp⟩
      simp [hlast] at this
    | some m =>
      have hle := OrdMap.le_lastKey? hlast (OrdMap.mem_keys_iff.mpr ⟨p, hp⟩)
      obtain ⟨q, hq⟩ := OrdMap.mem_keys_iff.mp (OrdMap.lastKey?_mem hlast)
      obtain ⟨x, hx, he⟩ := mem_of_contents hq
      have := hlt x hx
      have hxm : x.index = m := congrArg Prod.fst he
      show m + 1 = r.index + 1
      omega
  · rw [contents, hnil]
    rfl

end

section
variable [Ext] {segmentMax first k : Nat} {v : Volume} {ps : List Bytes} {pre post : List Seg}
  {s : Seg} {b : Bytes} {dir : LogDir} {log : SegmentedLog}

/-- The segments of a directory are read off its files. -/
theorem DirRep.segs_eq {segs : List Seg} (h : DirRep dir segs) :
    segs = dir.toList.map fun f => ⟨f.1, accepted f.2⟩ := by
  rw [h.files, List.map_map]
  conv_lhs => rw [← List.map_id segs]
  refine List.map_congr_left fun s hs => ?_
  simp only [id, Function.comp_apply, Seg.bytes, accepted_frames (h.small s hs)]

/-! ## opening a damaged directory -/

/-- The segments in the index: when the damaged one is torn, none behind it. -/
def indexed (pre : List Seg) (start : Nat) (b : Bytes) (post : List Seg) : List Seg :=
  pre ++ ⟨start, accepted b⟩ :: if residue b = [] then post else []

theorem indexed_clean (h : residue b = []) (start : Nat) :
    indexed pre start b post = pre ++ ⟨start, accepted b⟩ :: post := by
  rw [indexed, if_pos h]

theorem indexed_torn (h : residue b ≠ []) (start : Nat) :
    indexed pre start b post = pre ++ [⟨start, accepted b⟩] := by
  rw [indexed, if_neg h]

theorem DirRep.wp_open_damaged {Q : Unit → LogDir → SegmentedLog → Prop}
    {E : Error → LogDir → SegmentedLog → Prop} {C : LogDir → Prop} {log : SegmentedLog}
    (h : DirRep dir (pre ++ s :: post)) (b : Bytes) (segmentMax : Nat) (hC : ∀ d, C d)
    (hQ : ∀ dir' log', DirRep dir' (pre ++ ⟨s.start, accepted b⟩ :: post) →
      MemRep log' (indexed pre s.start b post) →
      Live (pre ++ ⟨s.start, accepted b⟩ :: post) log'.records
        (contents (indexed pre s.start b post)) →
      log'.segmentMaxBytes = segmentMax → Q () dir' log') :
    wp (SegmentedLog.openWithSegmentMax segmentMax) Q E C (dir.modify s.start fun _ => b) log := by
  have hfiles : (dir.modify s.start fun _ => b).toList =
      (pre.map fun s => (s.start, s.bytes)) ++ (s.start, b) ::
        post.map fun s => (s.start, s.bytes) :=
    OrdMap.toList_modify_of_split (by rw [h.files, List.map_append, List.map_cons]) _
  have hrep : ∀ dir' : LogDir, dir'.toList = (pre.map fun s => (s.start, s.bytes)) ++
      (s.start, frames (accepted b)) :: (post.map fun s => (s.start, s.bytes)) →
      DirRep dir' (pre ++ ⟨s.start, accepted b⟩ :: post) := by
    intro dir' hd
    refine ⟨by simpa [Seg.bytes] using hd, fun t ht => ?_⟩
    simp only [List.mem_append, List.mem_cons] at ht
    rcases ht with ht | rfl | ht
    · exact h.small t (by simp [ht])
    · exact (split_accepted b).2.1
    · exact h.small t (by simp [ht])
  by_cases hres : residue b = []
  · have hb := (split_accepted b).1
    rw [hres, List.append_nil] at hb
    rw [indexed_clean hres] at hQ
    have hd := hrep (dir.modify s.start fun _ => b) (by rw [hfiles, ← hb])
    exact wp_open_contents hd segmentMax fun log' hm hl hmax => hQ _ log' hd hm hl hmax
  · rw [indexed_torn hres] at hQ
    refine wp_open_torn hfiles (fun t ht => h.small t (by simp [ht])) hres segmentMax
      (fun _ _ => hC _) fun dir' log' hd hm hr hmax => ?_
    refine hQ dir' log' (hrep dir' hd) hm ?_ hmax
    rw [hr]
    refine (Live.empty _).insertRecs fun r hr => ?_
    simp only [recsOf, List.flatMap_append, List.flatMap_cons, List.mem_append] at hr ⊢
    exact hr.imp_right fun hr => Or.inl (by simpa using hr)

/-! ## going on -/

/-- The damage can be mended: no record behind a torn segment comes back that is
not among its own, and a whole one reaches no further than the last segment, or the
last segment is full. -/
def Mendable (segmentMax start : Nat) (b : Bytes) (post : List Seg) : Prop :=
  (residue b ≠ [] → ∀ r ∈ recsOf post, r.item ∈ numbered start (accepted b)) ∧
    (residue b = [] → ∀ t, post.getLast? = some t →
      start + (accepted b).length ≤ t.stop ∨ segmentMax ≤ t.bytes.length)

omit [Ext] in
theorem Seg.exists_last (t : Seg) (h : t.start < t.stop) : ∃ r ∈ t.recs, r.index + 1 = t.stop := by
  obtain ⟨r, hr, hri⟩ := Seg.exists_recs (by omega : t.start ≤ t.stop - 1) (by omega)
  exact ⟨r, hr, by omega⟩

namespace LogInv

/-- Behind the damaged segment, when nothing else is indexed. -/
theorem next_last (h : LogInv dir log (pre ++ s :: post) 0 0)
    (hitems : (recsOf (pre ++ s :: post)).map Rec.item = numbered first ps) (qs : List Bytes) :
    (∃ r ∈ recsOf (pre ++ [⟨s.start, qs⟩]), r.index + 1 = s.start + qs.length) ∨
      (recsOf (pre ++ [⟨s.start, qs⟩]) = [] ∧ s.start + qs.length = first) := by
  rw [recsOf_append, recsOf_singleton]
  by_cases hqs : qs = []
  · subst hqs
    rcases List.eq_nil_or_concat' pre with rfl | ⟨pre', t, rfl⟩
    · refine Or.inr ⟨rfl, ?_⟩
      obtain ⟨p, rest, hp⟩ := List.exists_cons_of_ne_nil (h.nonempty s (by simp))
      cases ps with
      | nil => simp [recsOf, Seg.recs, hp, recsFrom, numbered] at hitems
      | cons q ps =>
        simp only [recsOf, List.nil_append, List.flatMap_cons, Seg.recs, hp, recsFrom,
          List.cons_append, List.map_cons, numbered, List.cons.injEq] at hitems
        exact congrArg Prod.fst hitems.1
    · obtain ⟨r, hr, hri⟩ := t.exists_last (h.start_lt_stop (by simp))
      refine Or.inl ⟨r, by simp [recsOf, hr], ?_⟩
      have hlink := (List.isChain_append.mp h.linked).2.2 t (by simp) s (by simp)
      simp only [List.length_nil]
      omega
  · have hlt : (⟨s.start, qs⟩ : Seg).start < (⟨s.start, qs⟩ : Seg).stop :=
      Nat.lt_add_of_pos_right (List.length_pos_iff.mpr hqs)
    obtain ⟨r, hr, hri⟩ := Seg.exists_last ⟨s.start, qs⟩ hlt
    exact Or.inl ⟨r, List.mem_append_right _ hr, hri⟩

theorem stop_le_of_pre (h : LogInv dir log (pre ++ s :: post) 0 0) {t : Seg} (ht : t ∈ pre) :
    t.stop ≤ s.start :=
  (List.pairwise_append.mp h.linked.ordered).2.2 t ht s List.mem_cons_self

/-- No segment reaches beyond `n`. -/
theorem stops_le (h : LogInv dir log (pre ++ s :: post) 0 0) {qs : List Bytes} {n : Nat}
    (hn : s.start + qs.length ≤ n) (hpost : ∀ t ∈ post, t.stop ≤ n) :
    ∀ t ∈ pre ++ ⟨s.start, qs⟩ :: post, t.stop ≤ n := by
  intro t ht
  simp only [List.mem_append, List.mem_cons] at ht
  rcases ht with ht | rfl | ht
  · have := h.stop_le_of_pre ht
    omega
  · exact hn
  · exact hpost t ht

end LogInv

omit [Ext] in
theorem recs_lt_of_stops {segs : List Seg} {n : Nat} (h : ∀ t ∈ segs, t.stop ≤ n) :
    ∀ r ∈ recsOf segs, r.index < n := by
  intro r hr
  obtain ⟨t, ht, hrt⟩ := List.mem_flatMap.mp hr
  exact Nat.lt_of_lt_of_le (Seg.recs_bounds hrt).2.1 (h t ht)

omit [Ext] in
/-- Records that are in the map already change nothing. -/
theorem contents_append_of_subset {segs segs' : List Seg}
    (h : ∀ r ∈ recsOf segs', (contents segs).find? r.index = some r.payload) :
    contents (segs ++ segs') = contents segs := by
  rw [contents_append]
  generalize recsOf segs' = rs at h
  generalize contents segs = m at h
  induction rs with
  | nil => rfl
  | cons r rs ih =>
    have hr := h r List.mem_cons_self
    show (m.insert r.index r.payload).insertAll _ = m
    rw [OrdMap.insert_of_find?_some hr]
    exact ih fun x hx => h x (List.mem_cons_of_mem r hx)

/-- The damaged log after the open. -/
structure Opened (segmentMax : Nat) (pre : List Seg) (start : Nat) (b : Bytes) (post : List Seg)
    (dir : LogDir) (log : SegmentedLog) : Prop where
  dirRep : DirRep dir (pre ++ ⟨start, accepted b⟩ :: post)
  memRep : MemRep log (indexed pre start b post)
  live : Live (pre ++ ⟨start, accepted b⟩ :: post) log.records (contents (indexed pre start b post))
  size : log.segmentMaxBytes = segmentMax

/-- A second open, and going on at the next index, give back what was read. -/
def GivesBack (segmentMax first : Nat) (dir : LogDir) (log : SegmentedLog)
    (items : List (Nat × Bytes)) : Prop :=
  ((SegmentedLog.reopenAll segmentMax).run dir .closed).1 = .ok items ∧
    ∀ ps : List Bytes, (∀ p ∈ ps, p.length < 2 ^ 32) →
      ((SegmentedLog.carryOn segmentMax (log.nextIndex first) ps).run dir log).1 =
        .ok (items ++ numbered (log.nextIndex first) ps, items ++ numbered (log.nextIndex first) ps)

namespace Opened

variable {dir' : LogDir} {log' : SegmentedLog}

/-- The log goes on when the directory opens to what is indexed and the active
segment ends at the next index or is full. -/
theorem givesBack (ho : Opened segmentMax pre s.start b post dir' log')
    (hsame : contents (pre ++ ⟨s.start, accepted b⟩ :: post) =
      contents (indexed pre s.start b post))
    (hstops : ∀ t ∈ pre ++ ⟨s.start, accepted b⟩ :: post, t.stop ≤ log'.nextIndex first)
    (hact : ∀ t, (indexed pre s.start b post).getLast? = some t →
      t ∈ pre ++ ⟨s.start, accepted b⟩ :: post ∧
        (t.stop = log'.nextIndex first ∨ segmentMax ≤ t.bytes.length)) :
    GivesBack segmentMax first dir' log' (contents (indexed pre s.start b post)).toList := by
  have hext : Extensible dir' log' (pre ++ ⟨s.start, accepted b⟩ :: post) (log'.nextIndex first)
      (contents (indexed pre s.start b post)) := by
    refine ⟨ho.dirRep, hstops, ho.live, fun i p hp => ?_, fun a ha => ?_⟩
    · rw [← hsame] at hp
      exact contents_lt hstops hp
    · rw [ho.memRep.active] at ha
      obtain ⟨t, ht, rfl⟩ := Option.map_eq_some_iff.mp ha
      obtain ⟨hmem, hstop⟩ := hact t ht
      refine ⟨t, hmem, rfl, hstop.imp_right fun hfull => ?_⟩
      rw [SegmentedLog.needsRotation, ho.memRep.active, ht, ho.size]
      exact decide_eq_true hfull
  refine ⟨by rw [ho.dirRep.reopenAll, hsame], fun ps hps => ?_⟩
  rw [hext.carryOn hps, hsame]

/-- A record beyond the end of the active segment takes another number when the
log is opened again. -/
theorem overlong (ho : Opened segmentMax pre s.start b post dir' log') {segs : List Seg} {t : Seg}
    (hsegs : pre ++ ⟨s.start, accepted b⟩ :: post = segs ++ [t])
    (hlast : (indexed pre s.start b post).getLast? = some t)
    (hstops : ∀ x ∈ segs, x.stop ≤ log'.nextIndex first) (hlt : t.stop < log'.nextIndex first)
    (hroom : t.bytes.length < segmentMax) {items : List (Nat × Bytes)} :
    ¬ GivesBack segmentMax first dir' log' items := by
  rintro ⟨_, hall⟩
  have hrot : log'.needsRotation = false := by
    rw [SegmentedLog.needsRotation, ho.memRep.active, hlast, ho.size]
    exact decide_eq_false (Nat.not_le_of_lt hroom)
  have hact : log'.active = some t.active := by
    rw [ho.memRep.active, hlast]
    rfl
  have hdir := ho.dirRep
  rw [hsegs] at hdir
  have hmod := hdir.modify (· ++ frame []) (t.payloads ++ [[]])
    (by rw [frames_append, frames_singleton]; rfl) (by
      intro p hp
      rcases List.mem_append.mp hp with hp | hp
      · exact hdir.small t (by simp) p hp
      · rw [List.mem_singleton.mp hp]
        simp)
  have hbelow : ∀ x ∈ segs ++ [{ t with payloads := t.payloads ++ [[]] }],
      x.stop ≤ log'.nextIndex first := by
    intro x hx
    rcases List.mem_append.mp hx with hx | hx
    · exact hstops x hx
    · rw [List.mem_singleton.mp hx, Seg.stop, List.length_append]
      exact hlt
  have hw : wp (SegmentedLog.carryOn segmentMax (log'.nextIndex first) [[]])
      (fun out _ _ => ∀ x ∈ out.2, x.1 < log'.nextIndex first) (fun _ _ _ => True)
      (fun _ => True) dir' log' := by
    rw [SegmentedLog.carryOn, SegmentedLog.appendAll, SegmentedLog.appendAll, wp_bind, wp_bind,
      wp_append_active hact hrot (by simp)]
    refine ⟨trivial, ?_⟩
    simp only [wp_pure, wp_bind, SegmentedLog.sync]
    rw [SegmentedLog.readAll, wp_bind, wp_getDisk, wp_bind, wp_getMem]
    generalize SegmentedLog.readLocs _ _ = out
    cases out with
    | error e => trivial
    | ok out =>
      refine wp_open_contents hmod segmentMax fun log'' _ hlive _ => ?_
      refine hlive.wp_readAll hmod fun x hx => ?_
      exact contents_lt hbelow (OrdMap.find?_eq_some_iff.mpr hx)
  obtain ⟨_, _, hout⟩ := value_of_wp hw (hall [[]] (by simp))
  exact Nat.lt_irrefl _ (hout (log'.nextIndex first, []) (by simp [numbered]))

section
variable (h : LogInv dir log (pre ++ s :: post) 0 0)
  (hitems : (recsOf (pre ++ s :: post)).map Rec.item = numbered first ps)
include h hitems

/-- The next index is the end of the damaged segment when it is the last that is
indexed. -/
theorem nextIndex_last (ho : Opened segmentMax pre s.start b post dir' log')
    (hlast : indexed pre s.start b post = pre ++ [⟨s.start, accepted b⟩]) :
    log'.nextIndex first = s.start + (accepted b).length := by
  have hlive := ho.live
  rw [hlast] at hlive
  refine hlive.nextIndex (recs_lt_of_stops fun t ht => ?_) (h.next_last hitems _)
  rcases List.mem_append.mp ht with ht | ht
  · exact (h.stop_le_of_pre ht).trans (Nat.le_add_right _ _)
  · rw [List.mem_singleton.mp ht]
    exact Nat.le_refl _

theorem givesBack_torn_iff (ho : Opened segmentMax pre s.start b post dir' log')
    (hres : residue b ≠ []) :
    GivesBack segmentMax first dir' log' (contents (indexed pre s.start b post)).toList ↔
      ∀ r ∈ recsOf post, r.item ∈ numbered s.start (accepted b) := by
  have hlast : indexed pre s.start b post = pre ++ [⟨s.start, accepted b⟩] := indexed_torn hres _
  have hnext := ho.nextIndex_last h hitems hlast
  obtain ⟨hpre, hsuf, hcross⟩ := List.pairwise_append.mp h.linked.ordered
  obtain ⟨hspost, hpost⟩ := List.pairwise_cons.mp hsuf
  have hord : Ordered (pre ++ [⟨s.start, accepted b⟩]) :=
    List.pairwise_append.mpr ⟨hpre, List.pairwise_singleton _ _, fun t ht u hu => by
      rw [List.mem_singleton.mp hu]
      exact h.stop_le_of_pre ht⟩
  have hsplit : pre ++ ⟨s.start, accepted b⟩ :: post = pre ++ [⟨s.start, accepted b⟩] ++ post := by
    simp
  constructor
  · rintro ⟨hopen, _⟩ r hr
    rw [ho.dirRep.reopenAll, Except.ok.injEq, hlast] at hopen
    have hmem : r.item ∈ (contents (pre ++ ⟨s.start, accepted b⟩ :: post)).toList := by
      rw [hsplit, contents_append, ← OrdMap.find?_eq_some_iff]
      refine OrdMap.find?_insertAll_of_mem _ ?_ (List.mem_map_of_mem hr)
      exact List.pairwise_map.mpr ((Ordered.recsOf_sorted hpost).imp Nat.ne_of_lt)
    rw [hopen, hord.toList_contents, recsOf_append, recsOf_singleton, List.map_append,
      List.mem_append, Seg.map_item_recs] at hmem
    refine hmem.resolve_left fun hin => ?_
    obtain ⟨x, hx, he⟩ := List.mem_map.mp hin
    obtain ⟨t, ht, hrt⟩ := List.mem_flatMap.mp hr
    have hi : x.index = r.index := congrArg Prod.fst he
    have h₁ := recs_lt_of_stops (fun u hu => h.stop_le_of_pre hu) x hx
    have h₂ := hspost t ht
    have h₃ := (Seg.recs_bounds hrt).1
    have h₄ := h.start_lt_stop (by simp : s ∈ pre ++ s :: post)
    omega
  · intro hall
    refine ho.givesBack ?_ ?_ ?_
    · rw [hsplit, hlast]
      refine contents_append_of_subset fun r hr => ?_
      rw [OrdMap.find?_eq_some_iff, hord.toList_contents, recsOf_append, recsOf_singleton,
        List.map_append, Seg.map_item_recs]
      exact List.mem_append_right _ (hall r hr)
    · rw [hnext]
      refine h.stops_le (Nat.le_refl _) fun t ht => ?_
      obtain ⟨r, hr, hri⟩ := t.exists_last (h.start_lt_stop (by simp [ht]))
      obtain ⟨j, hj, hp⟩ := mem_numbered.mp (hall r (List.mem_flatMap.mpr ⟨t, ht, hr⟩))
      have := (List.getElem?_eq_some_iff.mp hp).1
      omega
    · intro t ht
      rw [hlast, List.getLast?_concat, Option.some.injEq] at ht
      subst ht
      exact ⟨by simp, Or.inl hnext.symm⟩

theorem givesBack_clean_iff (ho : Opened segmentMax pre s.start b post dir' log')
    (hres : residue b = []) :
    GivesBack segmentMax first dir' log' (contents (indexed pre s.start b post)).toList ↔
      ∀ t, post.getLast? = some t →
        s.start + (accepted b).length ≤ t.stop ∨ segmentMax ≤ t.bytes.length := by
  have hclean : indexed pre s.start b post = pre ++ ⟨s.start, accepted b⟩ :: post :=
    indexed_clean hres _
  rcases List.eq_nil_or_concat' post with rfl | ⟨post, t, rfl⟩
  · refine iff_of_true (ho.givesBack (by rw [hclean]) ?_ fun t ht => ?_) (by simp)
    · rw [ho.nextIndex_last h hitems hclean]
      exact h.stops_le (Nat.le_refl _) (by simp)
    · rw [hclean, List.getLast?_concat, Option.some.injEq] at ht
      subst ht
      exact ⟨by simp, Or.inl (ho.nextIndex_last h hitems hclean).symm⟩
  have hlast : (indexed pre s.start b (post ++ [t])).getLast? = some t := by
    rw [hclean, ← List.cons_append, ← List.append_assoc, List.getLast?_concat]
  have hlater : ∀ x ∈ post ++ [t], x.stop ≤ t.stop := by
    intro x hx
    rcases List.mem_append.mp hx with hx | hx
    · have hord := (List.pairwise_cons.mp (List.pairwise_append.mp h.linked.ordered).2.1).2
      have hle := (List.pairwise_append.mp hord).2.2 x hx t (by simp)
      exact hle.trans (Nat.le_add_right _ _)
    · rw [List.mem_singleton.mp hx]
  have hnext : log'.nextIndex first = max (s.start + (accepted b).length) t.stop := by
    have hlive := ho.live
    rw [hclean] at hlive
    refine hlive.nextIndex (recs_lt_of_stops (h.stops_le (le_max_left _ _) fun x hx =>
      (hlater x hx).trans (le_max_right _ _))) (Or.inl ?_)
    rcases Nat.le_total (s.start + (accepted b).length) t.stop with hle | hle
    · obtain ⟨r, hr, hri⟩ := t.exists_last (h.start_lt_stop (by simp))
      exact ⟨r, List.mem_flatMap.mpr ⟨t, by simp, hr⟩, by rw [max_eq_right hle, hri]⟩
    · have hst := (List.pairwise_cons.mp (List.pairwise_append.mp h.linked.ordered).2.1).1 t (by simp)
      have := h.start_lt_stop (by simp : t ∈ pre ++ s :: (post ++ [t]))
      have := h.start_lt_stop (by simp : s ∈ pre ++ s :: (post ++ [t]))
      obtain ⟨r, hr, hri⟩ := Seg.exists_last ⟨s.start, accepted b⟩ (by
        show s.start < s.start + (accepted b).length
        omega)
      exact ⟨r, List.mem_flatMap.mpr ⟨_, by simp, hr⟩, by rw [max_eq_left hle, hri]; rfl⟩
  have hiff : (∀ x, (post ++ [t]).getLast? = some x →
      s.start + (accepted b).length ≤ x.stop ∨ segmentMax ≤ x.bytes.length) ↔
      s.start + (accepted b).length ≤ t.stop ∨ segmentMax ≤ t.bytes.length := by
    simp
  rw [hiff]
  constructor
  · intro hback
    by_contra! hno
    have hsegs : pre ++ ⟨s.start, accepted b⟩ :: (post ++ [t]) =
        (pre ++ ⟨s.start, accepted b⟩ :: post) ++ [t] := by simp
    refine ho.overlong hsegs hlast
      (fun x hx => ?_) (by omega) hno.2 hback
    rw [hnext]
    exact h.stops_le (le_max_left _ _) (fun x hx => (hlater x hx).trans (le_max_right _ _)) x
      (by simp only [List.mem_append, List.mem_cons] at hx ⊢; tauto)
  · intro hcase
    refine ho.givesBack (by rw [hclean]) ?_ fun x hx => ?_
    · rw [hnext]
      exact h.stops_le (le_max_left _ _) fun x hx => (hlater x hx).trans (le_max_right _ _)
    · rw [hlast, Option.some.injEq] at hx
      subst hx
      refine ⟨by simp, hcase.imp_left fun hle => ?_⟩
      rw [hnext, max_eq_right hle]

end

end Opened

/-- **Recovery from a damaged segment.**  Opening a directory of a run of appends in
which the bytes of one segment were replaced succeeds with some records.  Opening
again gives them back, and appending behind them is read back behind them, exactly
when the damage can be mended. -/
theorem damaged_segment_recovery_iff (h : LogRun False segmentMax first v ps k)
    (hdir : DirRep v.dir (pre ++ s :: post)) (b : Bytes) :
    ∃ dir' log' items,
      (SegmentedLog.openWithSegmentMax segmentMax).run (v.dir.modify s.start fun _ => b) .closed =
          (.ok (), dir', log') ∧
        (SegmentedLog.readAll.run dir' log').1 = .ok items ∧
        (GivesBack segmentMax first dir' log' items ↔ Mendable segmentMax s.start b post) := by
  obtain ⟨segs, ⟨hinv, _, _⟩, hitems⟩ := h.endsAt
  obtain rfl : segs = pre ++ s :: post := hinv.dirRep.segs_eq.trans hdir.segs_eq.symm
  have hw : wp (SegmentedLog.openWithSegmentMax segmentMax)
      (fun _ dir' log' => Opened segmentMax pre s.start b post dir' log') (fun _ _ _ => False)
      (fun _ => True) (v.dir.modify s.start fun _ => b) .closed :=
    hdir.wp_open_damaged b segmentMax (fun _ => trivial) fun _ _ h₁ h₂ h₃ h₄ => ⟨h₁, h₂, h₃, h₄⟩
  obtain ⟨_, dir', log', hrun, ho⟩ := run_ok_of_wp hw
  have hread : wp SegmentedLog.readAll
      (fun out _ _ => out = (contents (indexed pre s.start b post)).toList) (fun _ _ _ => False)
      (fun _ => True) dir' log' := ho.live.wp_readAll ho.dirRep rfl
  obtain ⟨_, _, _, hall, rfl⟩ := run_ok_of_wp hread
  refine ⟨dir', log', _, hrun, by rw [hall], ?_⟩
  by_cases hres : residue b = []
  · rw [ho.givesBack_clean_iff hinv hitems hres, Mendable]
    simp [hres]
  · rw [ho.givesBack_torn_iff hinv hitems hres, Mendable]
    simp [hres]

end

section
open Reference

theorem threeSegments_rep :
    DirRep threeSegments.dir ([⟨5, [[10]]⟩] ++ ⟨6, [[20]]⟩ :: [⟨7, [[30]]⟩]) :=
  ⟨by decide +kernel, by decide⟩

/-- The middle segment loses its last byte. -/
theorem damaged_segment_recovery_iff_middle :
    ∃ dir' log' items,
      (SegmentedLog.openWithSegmentMax 1).run
          (threeSegments.dir.modify 6 fun _ => (frame [20]).take 8) .closed = (.ok (), dir', log') ∧
        (SegmentedLog.readAll.run dir' log').1 = .ok items ∧
        (GivesBack 1 5 dir' log' items ↔ Mendable 1 6 ((frame [20]).take 8) [⟨7, [[30]]⟩]) :=
  damaged_segment_recovery_iff threeSegments_run threeSegments_rep ((frame [20]).take 8)

/-- The first open returns one record, the second also the one behind the damaged
segment. -/
theorem damaged_segment_comes_back :
    LogRun False 1 5 threeSegments [[10], [20], [30]] 0 ∧
      ∃ dir' log', (SegmentedLog.openWithSegmentMax 1).run
          (threeSegments.dir.modify 6 fun _ => (frame [20]).take 8) .closed = (.ok (), dir', log') ∧
        (SegmentedLog.readAll.run dir' log').1 = .ok [(5, [10])] ∧
        ((SegmentedLog.reopenAll 1).run dir' .closed).1 = .ok [(5, [10]), (7, [30])] :=
  ⟨threeSegments_run, _, _, Prod.ext (by decide +kernel) rfl, by decide +kernel, by decide +kernel⟩

end

end Lumen
