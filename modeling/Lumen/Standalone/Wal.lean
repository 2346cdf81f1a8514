import Lumen.Catalog.Open
import Lumen.Log.Ops

/-!
# Lumen.Standalone.Wal

The write-ahead log of a single node: the entries its segments hold.

The sequence number of an entry is in its payload; the index numbers the
records of a segment from the segment's start and may lag behind.  Trimming
and appending need that no index passes the last sequence number, and that no
segment starts behind the next one (`Roomy`).
-/

namespace Lumen

open Lib Prog

section
variable [Ext]

/-- The segments hold the entries, and none is numbered behind `last`. -/
structure WalSegs (dir : LogDir) (segs : List Seg) (es : List Proto.WalEntry) (last : Nat) :
    Prop where
  rep : DirRep dir segs
  ordered : Ordered segs
  payloads : (recsOf segs).map Rec.payload = es.map Ext.walEntry.encode
  bound : ∀ r ∈ recsOf segs, r.index ≤ last

/-- The log directory holds the entries. -/
def WalDisk (dir : LogDir) (es : List Proto.WalEntry) (last : Nat) : Prop :=
  ∃ segs, WalSegs dir segs es last

/-- The log directory holds the entries, and the log in memory works on it. -/
def WalLive (dir : LogDir) (log : SegmentedLog) (es : List Proto.WalEntry) (last seq : Nat) :
    Prop :=
  ∃ segs, WalSegs dir segs es last ∧ MemRep log segs ∧ (∀ p ∈ log.records.toList, p.1 ≤ seq) ∧
    0 < log.segmentMaxBytes

/-- No segment starts behind the number that comes next. -/
def Roomy (dir : LogDir) (seq : Nat) : Prop := ∀ start, dir.contains start = true → start ≤ seq + 1

variable {dir : LogDir} {log : SegmentedLog} {segs : List Seg} {es : List Proto.WalEntry}
  {last seq : Nat}

theorem WalDisk.empty : WalDisk ∅ [] last :=
  ⟨[], DirRep.empty, List.Pairwise.nil, rfl, by simp [recsOf]⟩

theorem WalLive.disk (h : WalLive dir log es last seq) : WalDisk dir es last := by
  obtain ⟨segs, hs, _⟩ := h
  exact ⟨segs, hs⟩

theorem WalLive.mono {seq' : Nat} (h : WalLive dir log es last seq) (hle : seq ≤ seq') :
    WalLive dir log es last seq' := by
  obtain ⟨segs, hs, hm, hkeys, hmax⟩ := h
  exact ⟨segs, hs, hm, fun p hp => (hkeys p hp).trans hle, hmax⟩

/-- The bound can be raised. -/
theorem WalLive.raise {last' : Nat} (h : WalLive dir log es last seq) (hle : last ≤ last') :
    WalLive dir log es last' seq := by
  obtain ⟨segs, hs, hm⟩ := h
  exact ⟨segs, { hs with bound := fun r hr => (hs.bound r hr).trans hle }, hm⟩

/-- The log that opening leaves in memory. -/
theorem WalSegs.live (h : WalSegs dir segs es last) (hm : MemRep log segs)
    (hrec : log.records.toList = (recsOf segs).map Rec.key) (hmax : 0 < log.segmentMaxBytes) :
    WalLive dir log es last last := by
  refine ⟨segs, h, hm, fun p hp => ?_, hmax⟩
  rw [hrec] at hp
  obtain ⟨r, hr, rfl⟩ := List.mem_map.mp hp
  exact h.bound r hr

/-- A suffix of the segments holds a suffix of the entries. -/
theorem WalSegs.suffix {dir' : LogDir} {segs' : List Seg} (h : WalSegs dir segs es last)
    (hrep : DirRep dir' segs') (hsuf : segs' <:+ segs) :
    ∃ es', es' <:+ es ∧ WalSegs dir' segs' es' last := by
  obtain ⟨pre, hpre⟩ := hsuf
  have hord : Ordered (pre ++ segs') := hpre ▸ h.ordered
  have hrecs : (recsOf pre).map Rec.payload ++ (recsOf segs').map Rec.payload =
      es.map Ext.walEntry.encode := by
    rw [← List.map_append, ← recsOf_append, hpre]
    exact h.payloads
  obtain ⟨es₁, es₂, rfl, _, hes₂⟩ := List.map_eq_append_iff.mp hrecs.symm
  refine ⟨es₂, List.suffix_append es₁ es₂, hrep, (List.pairwise_append.mp hord).2.1, hes₂.symm,
    fun r hr => h.bound r ?_⟩
  rw [← hpre, recsOf_append]
  exact List.mem_append_right _ hr

/-! ## room for the next number -/

section
omit [Ext]

theorem Roomy.empty : Roomy ∅ seq := fun _ hc => by simp [OrdMap.contains] at hc

theorem Roomy.mono {seq' : Nat} (h : Roomy dir seq) (hle : seq ≤ seq') : Roomy dir seq' :=
  fun start hc => (h start hc).trans (by omega)

end

theorem DirRep.roomy_iff (h : DirRep dir segs) :
    Roomy dir seq ↔ ∀ s ∈ segs, s.start ≤ seq + 1 := by
  refine ⟨fun hroom s hs => hroom s.start (h.contains hs), fun hstarts start hc => ?_⟩
  have hmem := OrdMap.mem_keys_iff.mpr (Option.isSome_iff_exists.mp hc)
  rw [h.keys, List.mem_map] at hmem
  obtain ⟨s, hs, rfl⟩ := hmem
  exact hstarts s hs

/-- With room for the next number, every segment ends below it. -/
theorem WalSegs.stop_le (h : WalSegs dir segs es last) (hroom : Roomy dir seq) (hle : last ≤ seq)
    {s : Seg} (hs : s ∈ segs) : s.stop ≤ seq + 1 := by
  rcases Nat.eq_or_lt_of_le (Nat.le_add_right s.start s.payloads.length) with he | hlt
  · rw [Seg.stop, ← he]
    exact h.rep.roomy_iff.mp hroom s hs
  · have hlt : s.start < s.stop := hlt
    obtain ⟨r, hr, hri⟩ := Seg.exists_recs (s := s) (i := s.stop - 1) (by omega) (by omega)
    have := h.bound r (List.mem_flatMap.mpr ⟨s, hs, hr⟩)
    omega

/-! ## append -/

omit [Ext] in
theorem mem_push {rotate : Bool} {index : Nat} {p : Bytes} {s : Seg}
    (hs : s ∈ push rotate index p segs) : (∃ t ∈ segs, s.start = t.start) ∨ s.start = index := by
  rw [push] at hs
  split at hs
  · rcases List.mem_append.mp hs with hs | hs
    · exact .inl ⟨s, hs, rfl⟩
    · exact .inr (by rw [List.mem_singleton.mp hs])
  · rw [List.mem_append, Option.mem_toList, Option.map_eq_some_iff] at hs
    rcases hs with hs | ⟨t, ht, rfl⟩
    · exact .inl ⟨s, List.dropLast_subset segs hs, rfl⟩
    · exact .inl ⟨t, List.mem_of_getLast? ht, rfl⟩

omit [Ext] in
theorem ordered_push {rotate : Bool} {p : Bytes} (h : Ordered segs)
    (hstop : ∀ s ∈ segs, s.stop ≤ seq + 1) : Ordered (push rotate (seq + 1) p segs) := by
  rw [push]
  split
  · refine List.pairwise_append.mpr ⟨h, List.pairwise_singleton _ _, fun s hs t ht => ?_⟩
    rw [List.mem_singleton] at ht
    rw [ht]
    exact hstop s hs
  · rcases List.eq_nil_or_concat' segs with rfl | ⟨pre, t, rfl⟩
    · exact List.Pairwise.nil
    · obtain ⟨hpre, _, hlast⟩ := List.pairwise_append.mp h
      simp only [List.dropLast_concat, List.getLast?_concat, Option.map_some, Option.toList_some]
      refine List.pairwise_append.mpr ⟨hpre, List.pairwise_singleton _ _, fun s hs x hx => ?_⟩
      rw [List.mem_singleton] at hx
      rw [hx]
      exact hlast s hs t List.mem_cons_self

variable {Q : Unit → LogDir → SegmentedLog → Prop} {E : Error → LogDir → SegmentedLog → Prop}
  {C : LogDir → Prop}

/-- A full segment has a record, so the next number starts behind all of
them. -/
theorem MemRep.start_lt (hm : MemRep log segs) (hrep : DirRep dir segs)
    (hstop : ∀ s ∈ segs, s.stop ≤ seq + 1) (hmax : 0 < log.segmentMaxBytes)
    (hrot : log.needsRotation = true) {s : Seg} (hs : s ∈ segs) : s.start < seq + 1 := by
  rcases List.eq_nil_or_concat' segs with rfl | ⟨pre, t, rfl⟩
  · contradiction
  · have hfull : log.segmentMaxBytes ≤ t.bytes.length := by
      rw [SegmentedLog.needsRotation, hm.active, List.getLast?_concat] at hrot
      exact of_decide_eq_true hrot
    have hlast : t.start < t.stop := by
      rw [Seg.stop]
      cases hp : t.payloads with
      | nil =>
        rw [Seg.bytes, hp] at hfull
        exact absurd hfull (Nat.not_le.mpr hmax)
      | cons p ps => simp
    have hend := hstop t (List.mem_append_right pre List.mem_cons_self)
    rcases List.mem_append.mp hs with hs | hs
    · have := (List.pairwise_append.mp hrep.starts_lt).2.2 s hs t List.mem_cons_self
      omega
    · rw [List.mem_singleton.mp hs]
      omega

/-- A rotated segment holds nothing yet. -/
theorem WalSegs.rotated {dir' : LogDir} (h : WalSegs dir segs es last)
    (hstop : ∀ s ∈ segs, s.stop ≤ seq + 1) (hrep : DirRep dir' (segs ++ [⟨seq + 1, []⟩])) :
    WalSegs dir' (segs ++ [⟨seq + 1, []⟩]) es last := by
  have hrecs : recsOf (segs ++ [⟨seq + 1, []⟩]) = recsOf segs := by
    rw [recsOf_append, recsOf_singleton, Seg.recs, recsFrom, List.append_nil]
  refine ⟨hrep, List.pairwise_append.mpr ⟨h.ordered, List.pairwise_singleton _ _, ?_⟩, ?_, ?_⟩
  · intro s hs t ht
    rw [List.mem_singleton.mp ht]
    exact hstop s hs
  · rw [hrecs, h.payloads]
  · rw [hrecs]
    exact h.bound

/-- A pushed record is one more entry. -/
theorem WalSegs.pushed {dir' : LogDir} {rotate : Bool} {e : Proto.WalEntry} {r : Rec}
    (h : WalSegs dir segs es last) (hstop : ∀ s ∈ segs, s.stop ≤ seq + 1) (hle : last ≤ seq)
    (hp : Pushed rotate (seq + 1) (Ext.walEntry.encode e) segs dir' r) :
    WalSegs dir' (push rotate (seq + 1) (Ext.walEntry.encode e) segs) (es ++ [e]) (seq + 1) := by
  refine ⟨hp.rep, ordered_push h.ordered hstop, ?_, fun r' hr' => ?_⟩
  · rw [hp.recs, List.map_append, h.payloads, List.map_append, List.map_singleton,
      List.map_singleton, hp.payload]
  · rw [hp.recs] at hr'
    rcases List.mem_append.mp hr' with hr' | hr'
    · exact (h.bound r' hr').trans (by omega)
    · rw [List.mem_singleton.mp hr']
      cases hrot : rotate with
      | true => exact (hp.rotated hrot).le
      | false =>
        cases hlast : segs.getLast? with
        | some s => exact hp.appended hrot s hlast ▸ hstop s (List.mem_of_getLast? hlast)
        | none =>
          have hrecs := hp.recs
          rw [List.getLast?_eq_none_iff.mp hlast, hrot] at hrecs
          simp [push, recsOf] at hrecs

/-- **Appending** the next entry; one whose encoding does not fit the length
field is refused and nothing changes.  A crash leaves the entries as they were
or with the new one. -/
theorem WalLive.wp_append {e : Proto.WalEntry} (h : WalLive dir log es last seq)
    (hroom : Roomy dir seq) (hle : last ≤ seq) (he : e.seq = seq + 1)
    (hC : ∀ dir', WalDisk dir' es last ∨ WalDisk dir' (es ++ [e]) (seq + 1) → C dir')
    (hE : ∀ err, 2 ^ 32 ≤ (Ext.walEntry.encode e).length → E err dir log)
    (hQ : ∀ dir' log', (Ext.walEntry.encode e).length < 2 ^ 32 →
      WalLive dir' log' (es ++ [e]) (seq + 1) (seq + 1) → Roomy dir' (seq + 1) → Q () dir' log') :
    wp (Wal.append e) Q E C dir log := by
  obtain ⟨segs, hs, hm, hkeys, hmax⟩ := h
  have hstop : ∀ s ∈ segs, s.stop ≤ seq + 1 := fun s hmem => hs.stop_le hroom hle hmem
  rw [Wal.append, he]
  by_cases hlen : (Ext.walEntry.encode e).length < 2 ^ 32
  · refine Lumen.wp_append hs.rep hm hlen (fun hrot s => hm.start_lt hs.rep hstop hmax hrot)
      (fun dir' hcut => hC dir' ?_) fun dir' log' r hp hmem hrec hmax' => ?_
    · rcases hcut with ⟨_, hrep⟩ | ⟨r, hp⟩
      · exact .inl ⟨_, hs.rotated hstop hrep⟩
      · exact .inr ⟨_, hs.pushed hstop hle hp⟩
    · have hs' := hs.pushed hstop hle hp
      refine hQ dir' log' hlen ⟨_, hs', hmem, fun q hq => ?_, hmax' ▸ hmax⟩
        (hs'.rep.roomy_iff.mpr fun s hmem' => ?_)
      · have hfind := OrdMap.find?_eq_some_iff.mpr hq
        rw [hrec, OrdMap.find?_insert] at hfind
        split at hfind
        · omega
        · exact (hkeys q (OrdMap.find?_eq_some_iff.mp hfind)).trans (by omega)
      · rcases mem_push hmem' with ⟨t, ht, hstart⟩ | hstart
        · have := hs.rep.roomy_iff.mp hroom t ht
          omega
        · omega
  · rw [SegmentedLog.append, if_pos (by omega)]
    exact hE _ (by omega)

/-! ## trim -/

omit [Ext] in
/-- Past every start, a purge keeps the last segment only. -/
theorem purged_of_le {index : Nat} (h : ∀ s ∈ segs, s.start ≤ index + 1) :
    purged index segs = segs.getLast?.toList := by
  induction segs using purged.induct index with
  | case1 => rfl
  | case2 s => rfl
  | case3 s t rest hle ih =>
    rw [purged, if_pos hle, ih fun x hx => h x (List.mem_cons_of_mem s hx),
      List.getLast?_cons_cons]
  | case4 s t rest hle =>
    have := h t (by simp)
    omega

/-- The segments that trimming keeps in memory. -/
theorem WalSegs.keep_starts (hs : WalSegs dir segs es last) (hroom : Roomy dir seq)
    (hkeys : ∀ p ∈ log.records.toList, p.1 ≤ seq) :
    (segs.map Seg.start).filter (fun s => decide (some s = segs.getLast?.map Seg.start ∨
      (log.records.filter fun k _ => seq < k).toList.any fun p => p.2.segmentStart = s)) =
      (purged seq segs).map Seg.start := by
  have hnone : ∀ s, ((log.records.filter fun k _ => seq < k).toList.any
      fun p => p.2.segmentStart = s) = false := by
    intro s
    rw [List.any_eq_false]
    intro p hp
    rw [OrdMap.toList_filter, List.mem_filter] at hp
    have := hkeys p hp.1
    have hlt : seq < p.1 := of_decide_eq_true hp.2
    omega
  simp only [hnone, Bool.false_eq_true, or_false]
  rw [purged_of_le (hs.rep.roomy_iff.mp hroom)]
  rcases List.eq_nil_or_concat' segs with rfl | ⟨pre, t, rfl⟩
  · rfl
  · have hlt := (List.pairwise_append.mp hs.rep.starts_lt).2.2
    have hpre : (pre.map Seg.start).filter (fun s => decide (some s = some t.start)) = [] := by
      refine List.filter_eq_nil_iff.mpr fun s hmem => ?_
      obtain ⟨x, hx, rfl⟩ := List.mem_map.mp hmem
      have := hlt x hx t List.mem_cons_self
      simp only [decide_eq_true_eq, Option.some.injEq]
      omega
    rw [List.getLast?_concat, Option.map_some, List.map_append, List.filter_append, hpre]
    simp

/-- **Trimming**: at every moment a suffix of the entries is left.  With room
for the next number, the log in memory still works on the directory. -/
theorem WalLive.wp_trim (h : WalLive dir log es last seq)
    (hC : ∀ dir' es', es' <:+ es → WalDisk dir' es' last → (Roomy dir seq → Roomy dir' seq) →
      C dir')
    (hQ : ∀ dir' log' es', es' <:+ es → WalDisk dir' es' last → (Roomy dir seq →
      Roomy dir' seq ∧ WalLive dir' log' es' last seq) → Q () dir' log') :
    wp (Wal.trim seq) Q E C dir log := by
  obtain ⟨segs, hs, hm, hkeys, hmax⟩ := h
  have hroomy : ∀ dir' segs', DirRep dir' segs' → segs' <:+ segs → Roomy dir seq → Roomy dir' seq :=
    fun dir' segs' hrep hsuf hroom =>
      hrep.roomy_iff.mpr fun s hmem => hs.rep.roomy_iff.mp hroom s (hsuf.subset hmem)
  rw [Wal.trim]
  refine wp_purgeThrough hs.rep hm (fun dir' segs' hrep hsuf _ => ?_)
    fun dir' log' hrep hmem hrec hmax' => ?_
  · obtain ⟨es', hes, hs'⟩ := hs.suffix hrep hsuf
    exact hC dir' es' hes ⟨segs', hs'⟩ (hroomy dir' segs' hrep hsuf)
  · have hsuf := purged_suffix seq segs
    obtain ⟨es', hes, hs'⟩ := hs.suffix hrep hsuf
    refine hQ dir' log' es' hes ⟨_, hs'⟩ fun hroom => ⟨hroomy dir' _ hrep hsuf hroom, _, hs',
      hmem (hs.keep_starts hroom hkeys), fun p hp => ?_, hmax' ▸ hmax⟩
    rw [hrec, OrdMap.toList_filter] at hp
    exact hkeys p (List.mem_of_mem_filter hp)

end

end Lumen
