import Lumen.LogStore
import Lumen.Reference

/-!
# Lumen.LogStore.Refine

The durable log store against the in-memory one.  `StoreRep` relates the two:
the segments hold the encodings of the reference's entries from the purge
floor on, and `raft-meta.pb` holds the reference's metadata.  Every operation
keeps the relation, and under it the two stores answer alike.

The relation survives an append only where the entry's position in its file is
its index (`Contiguous`): an append that jumps over a purged range into a
segment that is not full is stored under one index and read back under
another.
-/

namespace Lumen

open Lib Raft Prog

/-! ## runs -/

inductive StoreOp where
  | append (entries : List Entry)
  | truncate (logId : LogId)
  | purge (logId : LogId)
  | saveVote (vote : Vote)
  | saveCommitted (committed : Option LogId)
  | reopen

namespace MemLogStore

/-- The number of the first entry a purge has not dropped. -/
def floor (s : MemLogStore) : Nat :=
  match s.lastPurged with
  | none => 0
  | some p => p.index + 1

/-- One more than the last log index and the last purged one. -/
def nextIndex (s : MemLogStore) : Nat :=
  match s.log.lastKey? with
  | none => s.floor
  | some last => max (last + 1) s.floor

def metadata (s : MemLogStore) : Meta := ⟨s.vote, s.committed, s.lastPurged⟩

end MemLogStore

namespace StoreOp

def memExec : StoreOp → MemLogStore → MemLogStore
  | append entries, s => s.append entries
  | truncate logId, s => s.truncate logId
  | purge logId, s => s.purge logId
  | saveVote vote, s => s.saveVote vote
  | saveCommitted committed, s => s.saveCommitted committed
  | reopen, s => s

/-- What openraft guarantees of the calls it makes: appends continue behind
the last and the last purged index, truncations stay above the purge floor,
and purges do not go back. -/
def Allowed (s : MemLogStore) : StoreOp → Prop
  | append entries => entries.map (·.logId.index) = List.range' s.nextIndex entries.length
  | truncate logId => s.floor ≤ logId.index
  | purge logId => s.floor ≤ logId.index + 1
  | _ => True

end StoreOp

section
variable [Ext] {d : StoreDir} {m : LogStore} {s : MemLogStore} {segs : List Seg}

def StoreOp.exec : StoreOp → StoreM Unit
  | .append entries => LogStore.append entries
  | .truncate logId => LogStore.truncate logId
  | .purge logId => LogStore.purge logId
  | .saveVote vote => LogStore.saveVote vote
  | .saveCommitted committed => LogStore.saveCommitted committed
  | .reopen => LogStore.openStore

/-- The number the next frame of the active segment file is read back under. -/
def nextPosition (d : StoreDir) (m : LogStore) : Option Nat :=
  match m.log.active with
  | none => none
  | some active =>
    (d.log.find? active.start).map fun bytes =>
      active.start + (scanSegment active.start bytes).1.length

/-- An append at `index` opens a segment, or goes to the position that
number is read back from. -/
def Contiguous (d : StoreDir) (m : LogStore) (index : Nat) : Prop :=
  m.log.needsRotation = true ∨ nextPosition d m = some index

/-- The appends the store can hold: no record over the frame's length field,
no index at the end of `u64`, and the first entry contiguous. -/
def StoreOp.Fits (d : StoreDir) (m : LogStore) : StoreOp → Prop
  | .append entries =>
    (∀ e ∈ entries, (LogStore.encodeEntry e).length < 2 ^ 32 ∧ e.logId.index < 2 ^ 64 - 1) ∧
      ∀ e ∈ entries.head?, Contiguous d m e.logId.index
  | _ => True

/-- The states of a durable store and of the reference after the same
operations, from a store opened on an empty directory. -/
inductive StoreRun : StoreDir → LogStore → MemLogStore → Prop where
  | start {d : StoreDir} {m : LogStore}
      (h : LogStore.openStore.run StoreDir.empty default = (.ok (), d, m)) :
      StoreRun d m .empty
  | step {d d' : StoreDir} {m m' : LogStore} {s : MemLogStore} (op : StoreOp)
      (prev : StoreRun d m s) (allowed : op.Allowed s) (fits : op.Fits d m)
      (h : op.exec.run d m = (.ok (), d', m')) : StoreRun d' m' (op.memExec s)

/-! ## the relation -/

/-- The durable store holds what the reference holds. -/
structure StoreRep (d : StoreDir) (m : LogStore) (s : MemLogStore) (segs : List Seg) : Prop where
  log : LogInv d.log m.log segs s.floor s.floor
  items : ((recsOf segs).filter fun r => s.floor ≤ r.index).map Rec.item =
    s.log.toList.map fun p => (p.1, LogStore.encodeEntry p.2)
  index : ∀ p ∈ s.log.toList, p.2.logId.index = p.1 ∧ p.1 < 2 ^ 64 - 1
  metadata : m.metadata = s.metadata
  saved : LogStore.loadMeta d = .ok s.metadata

variable {α : Type} {Q : α → StoreDir → LogStore → Prop}
  {E : StorageError → StoreDir → LogStore → Prop} {C : StoreDir → Prop}

omit [Ext] in
/-- A log operation of the store is the operation on its log. -/
theorem wp_onLog (wrap : Cause → StorageError) (p : LogM α)
    (h : wp p (fun a l lg => Q a { d with log := l } { m with log := lg })
      (fun e l lg => E (wrap (.core e)) { d with log := l } { m with log := lg })
      (fun l => C { d with log := l }) d.log m.log) :
    wp (LogStore.onLog wrap p) Q E C d m := by
  rw [LogStore.onLog, wp_mapError, wp_zoom]
  exact h

theorem StoreRep.keys (h : StoreRep d m s segs) : m.log.records.keys = s.log.keys := by
  have hfst := congrArg (List.map Prod.fst) h.items
  rw [List.map_map, List.map_map] at hfst
  rw [OrdMap.keys, OrdMap.keys, h.log.records, List.map_map]
  exact hfst

theorem StoreRep.lastIndex (h : StoreRep d m s segs) : m.log.lastIndex = s.log.lastKey? := by
  rw [SegmentedLog.lastIndex, OrdMap.lastKey?_eq, OrdMap.lastKey?_eq, h.keys]

/-! ## reading -/

/-- A range read returns the encodings of the reference's entries there. -/
theorem wp_readRange_store {Q : List (Nat × Bytes) → StoreDir → LogStore → Prop}
    (h : StoreRep d m s segs) (wrap : Cause → StorageError) {lo hi : Nat} (hle : lo ≤ hi)
    (hQ : Q ((s.log.filter fun k _ => lo ≤ k ∧ k < hi).toList.map
      fun p => (p.1, LogStore.encodeEntry p.2)) d m) :
    wp (LogStore.onLog wrap (SegmentedLog.readRange lo hi)) Q E C d m := by
  refine wp_onLog wrap _ (wp_readRange h.log.dirRep (List.filter_subset_self _) h.log.records hle ?_)
  have hitems := congrArg (List.filter fun q => decide (lo ≤ q.1 ∧ q.1 < hi)) h.items
  rw [List.filter_map, List.filter_map] at hitems
  have heq : (((recsOf segs).filter fun r => s.floor ≤ r.index).filter
      fun r => lo ≤ r.index ∧ r.index < hi).map Rec.item =
        (s.log.filter fun k _ => lo ≤ k ∧ k < hi).toList.map
          fun p => (p.1, LogStore.encodeEntry p.2) := hitems
  rw [heq]
  exact hQ

theorem decodeEntries_map (l : List (Nat × Entry)) :
    LogStore.decodeEntries (l.map fun p => (p.1, LogStore.encodeEntry p.2)) =
      .ok (l.map Prod.snd) := by
  induction l with
  | nil => rfl
  | cons p l ih =>
    simp only [List.map_cons, LogStore.decodeEntries, LogStore.decodeEntry_encodeEntry, ih]

theorem wp_tryGetLogEntries {Q : List Entry → StoreDir → LogStore → Prop}
    (h : StoreRep d m s segs) {a b : Nat} (hle : a ≤ b) (hQ : Q (s.tryGetLogEntries a b) d m) :
    wp (LogStore.tryGetLogEntries (.included a) (.excluded b)) Q E C d m := by
  rw [LogStore.tryGetLogEntries, wp_bind, wp_getMem, wp_bind]
  refine wp_readRange_store h _ hle ?_
  rw [decodeEntries_map]
  exact hQ

omit [Ext] in
/-- In key order, the entries with the last key are the last entry. -/
theorem OrdMap.filter_lastKey {V : Type} (t : OrdMap Nat V) {pre : List (Nat × V)} {p : Nat × V}
    (h : t.toList = pre ++ [p]) :
    (t.filter fun k _ => p.1 ≤ k ∧ k < p.1 + 1).toList = [p] := by
  have hs := t.sorted
  rw [h] at hs
  have hlt := (List.pairwise_append.mp hs).2.2
  have hnil : pre.filter (fun q => decide (p.1 ≤ q.1 ∧ q.1 < p.1 + 1)) = [] := by
    refine List.filter_eq_nil_iff.mpr fun q hq => ?_
    have := hlt q hq p (List.mem_singleton_self p)
    rw [decide_eq_true_iff]
    omega
  rw [OrdMap.toList_filter, h, List.filter_append, hnil, List.nil_append,
    List.filter_cons_of_pos (by simp), List.filter_nil]

theorem wp_getLogState {Q : LogState → StoreDir → LogStore → Prop} (h : StoreRep d m s segs)
    (hQ : Q s.getLogState d m) : wp LogStore.getLogState Q E C d m := by
  have hpurged : m.metadata.lastPurged = s.lastPurged := by rw [h.metadata]; rfl
  rw [LogStore.getLogState, wp_bind, wp_getMem, wp_bind, h.lastIndex, hpurged]
  rcases List.eq_nil_or_concat' s.log.toList with hnil | ⟨pre, p, hp⟩
  · have hlast : s.log.lastKey? = none := by rw [OrdMap.lastKey?, hnil]; rfl
    have hstate : s.getLogState = ⟨s.lastPurged, s.lastPurged⟩ := by
      rw [MemLogStore.getLogState, hnil]
      rfl
    rw [hstate] at hQ
    rw [hlast]
    exact hQ
  · have hlast : s.log.lastKey? = some p.1 := by rw [OrdMap.lastKey?, hp]; simp
    have hmem : p ∈ s.log.toList := by simp [hp]
    have hidx := h.index p hmem
    have hstate : s.getLogState = ⟨s.lastPurged, some p.2.logId⟩ := by
      rw [MemLogStore.getLogState, hp]
      simp
    have hsat : satSucc p.1 = p.1 + 1 := by rw [satSucc]; omega
    rw [hstate] at hQ
    rw [hlast, LogStore.lastLogId, wp_bind, hsat]
    refine wp_readRange_store h _ (Nat.le_succ _) ?_
    rw [OrdMap.filter_lastKey s.log hp]
    simp only [List.map_cons, List.map_nil, List.head?_cons, wp_bind,
      LogStore.decodeEntry_encodeEntry, wp_ofExcept_ok]
    exact hQ

/-! ## metadata -/

theorem loadMeta_of_metaPb {x : Meta} (h : d.metaPb = some (Ext.raftMeta.encode x.toProto)) :
    LogStore.loadMeta d = .ok x := by
  simp only [LogStore.loadMeta, h, Codec.decode_encode, Meta.tryFrom_toProto]

/-- A crash leaves the old file with anything in the temporary one, or the new
file. -/
theorem wp_persistMeta {Q : Unit → StoreDir → LogStore → Prop} (x : Meta)
    (hold : ∀ tmp, C { d with metaTmp := tmp })
    (hnew : C { d with metaPb := some (Ext.raftMeta.encode x.toProto), metaTmp := none })
    (hQ : Q () { d with metaPb := some (Ext.raftMeta.encode x.toProto), metaTmp := none } m) :
    wp (LogStore.persistMeta x) Q E C d m := by
  rw [LogStore.persistMeta]
  exact ⟨hold _, hold _, hnew, hQ⟩

/-! ## append -/

/-- The reference's last entry is the last record of the last segment, unless
that record has been purged. -/
theorem StoreRep.last (h : StoreRep d m s segs) {t : Seg} (ht : segs.getLast? = some t) :
    (s.log.lastKey? = some (t.stop - 1) ∧ s.floor < t.stop) ∨
      (s.log.lastKey? = none ∧ t.stop ≤ s.floor) := by
  obtain ⟨pre, rfl⟩ : ∃ pre, segs = pre ++ [t] := by
    rcases List.eq_nil_or_concat' segs with rfl | ⟨pre, u, rfl⟩
    · simp at ht
    · rw [List.getLast?_append, List.getLast?_singleton, Option.some_or, Option.some.injEq] at ht
      exact ⟨pre, by rw [ht]⟩
  have hmem : t ∈ pre ++ [t] := by simp
  obtain ⟨ps, p, hps⟩ : ∃ ps p, t.payloads = ps ++ [p] := by
    rcases List.eq_nil_or_concat' t.payloads with hnil | ⟨ps, p, hps⟩
    · exact absurd hnil (h.log.nonempty t hmem)
    · exact ⟨ps, p, hps⟩
  have hstop : t.stop = t.start + ps.length + 1 := by
    rw [Seg.stop, hps, List.length_append, List.length_singleton]
    omega
  obtain ⟨rs, r, hrecs, hri⟩ : ∃ rs r, recsOf (pre ++ [t]) = rs ++ [r] ∧ r.index = t.stop - 1 := by
    refine ⟨recsOf pre ++ recsFrom t.start t.start 0 ps,
      ⟨t.start + ps.length, ⟨t.start, 0 + (frames ps).length + headerBytes, p.length⟩, p⟩, ?_, ?_⟩
    · rw [recsOf_append, recsOf_singleton, Seg.recs, hps, recsFrom_append, List.append_assoc]
      rfl
    · show t.start + ps.length = _
      omega
  have hkeys : s.log.keys =
      ((rs ++ [r]).filter fun r => decide (s.floor ≤ r.index)).map Rec.index := by
    rw [← h.keys, OrdMap.keys, h.log.records, hrecs, List.map_map]
    rfl
  by_cases hfl : s.floor < t.stop
  · refine Or.inl ⟨?_, hfl⟩
    rw [OrdMap.lastKey?_eq, hkeys, List.filter_append,
      List.filter_cons_of_pos (by rw [hri]; exact decide_eq_true (by omega)), List.filter_nil,
      List.map_append, List.getLast?_append, List.map_singleton, List.getLast?_singleton, hri]
    rfl
  · refine Or.inr ⟨?_, by omega⟩
    have hnil : (rs ++ [r]).filter (fun r => decide (s.floor ≤ r.index)) = [] := by
      refine List.filter_eq_nil_iff.mpr fun x hx => ?_
      rw [← hrecs] at hx
      obtain ⟨u, hu, hxu⟩ := List.mem_flatMap.mp hx
      have hb := (Seg.recs_bounds hxu).2.1
      have hle : u.stop ≤ t.stop := by
        rcases List.mem_append.mp hu with hu | hu
        · have hle := (List.pairwise_append.mp h.log.linked.ordered).2.2 u hu t
            (List.mem_singleton_self t)
          have hst : t.start ≤ t.stop := Nat.le_add_right _ _
          omega
        · rw [List.mem_singleton.mp hu]
      rw [decide_eq_true_iff]
      omega
    rw [OrdMap.lastKey?_eq, hkeys, hnil]
    rfl

omit [Ext] in
theorem MemLogStore.floor_le_nextIndex (s : MemLogStore) : s.floor ≤ s.nextIndex := by
  rw [MemLogStore.nextIndex]
  split
  · exact Nat.le_refl _
  · exact Nat.le_max_right _ _

/-- A contiguous append at the next index keeps positions and indexes
together. -/
theorem StoreRep.appendable (h : StoreRep d m s segs) (hc : Contiguous d m s.nextIndex) :
    Appendable m.log segs s.floor s.nextIndex := by
  intro t ht
  have hmem := List.mem_of_getLast? ht
  rcases hc with hrot | hpos
  · rcases h.last ht with ⟨hl, hfl⟩ | ⟨hl, hfl⟩
    · refine Or.inl ?_
      simp only [MemLogStore.nextIndex, hl]
      omega
    · refine Or.inr ⟨hrot, ?_⟩
      simp only [MemLogStore.nextIndex, hl]
      exact ⟨hfl, Nat.le_refl _⟩
  · refine Or.inl ?_
    have hscan : scanSegment t.start t.bytes = (locsFrom t.start 0 t.payloads, t.bytes.length) :=
      scanSegment_frames (h.log.dirRep.small t hmem) t.start
    have hlen : ∀ (ps : List Bytes) (i o : Nat), (locsFrom i o ps).length = ps.length := by
      intro ps
      induction ps with
      | nil => intro _ _; rfl
      | cons p ps ih => intro i o; rw [locsFrom, List.length_cons, List.length_cons, ih]
    rw [nextPosition, h.log.memRep.active, ht] at hpos
    simp only [Option.map_some, Seg.active, h.log.dirRep.find? hmem, hscan, hlen,
      Option.some.injEq] at hpos
    exact hpos

/-- One entry at the next index. -/
theorem wp_append_entry {Q : Unit → StoreDir → LogStore → Prop} (h : StoreRep d m s segs)
    {e : Entry} (hidx : e.logId.index = s.nextIndex)
    (hfit : (LogStore.encodeEntry e).length < 2 ^ 32 ∧ e.logId.index < 2 ^ 64 - 1)
    (happ : Appendable m.log segs s.floor s.nextIndex) (hC : ∀ d, C d)
    (hQ : ∀ d' m' segs', StoreRep d' m' (s.append [e]) segs' →
      Appendable m'.log segs' s.floor (s.nextIndex + 1) →
      (s.append [e]).nextIndex = s.nextIndex + 1 → Q () d' m') :
    wp (LogStore.onLog .writeLogs
      (SegmentedLog.append e.logId.index (LogStore.encodeEntry e))) Q E C d m := by
  have hlt : ∀ p ∈ s.log.toList, p.1 < e.logId.index := by
    intro p hp
    have hk : p.1 ∈ m.log.records.keys := by
      rw [h.keys]
      exact List.mem_map_of_mem hp
    obtain ⟨loc, hloc⟩ := OrdMap.mem_keys_iff.mp hk
    obtain ⟨r, hr, _, hrk⟩ := h.log.mem_records.mp (OrdMap.find?_eq_some_iff.mp hloc)
    obtain ⟨t, ht, hrt⟩ := List.mem_flatMap.mp hr
    have hrp : r.index = p.1 := congrArg Prod.fst hrk
    rw [← hrp, hidx]
    exact Nat.lt_of_lt_of_le (Seg.recs_bounds hrt).2.1 (happ.stop_le h.log.linked ht)
  have hlist : (s.append [e]).log.toList = s.log.toList ++ [(e.logId.index, e)] :=
    OrdMap.toList_insert_of_lt hlt
  have hfloor : (s.append [e]).floor = s.floor := rfl
  have hnext : (s.append [e]).nextIndex = s.nextIndex + 1 := by
    have hle := s.floor_le_nextIndex
    have hlast : (s.append [e]).log.lastKey? = some e.logId.index := by
      rw [OrdMap.lastKey?, hlist]
      simp
    simp only [MemLogStore.nextIndex, hlast, hfloor] at hidx ⊢
    rw [MemLogStore.nextIndex] at hle
    omega
  refine wp_onLog _ _ (wp_append_inv h.log hfit.1 (by rw [hidx]; exact happ)
    (by rw [hidx]; exact s.floor_le_nextIndex) (fun _ => hC _) ?_)
  intro dir' log' r hlog hrecs hitem
  have hri : r.index = e.logId.index := congrArg Prod.fst hitem
  refine hQ _ _ _ ⟨hlog, ?_, ?_, h.metadata, h.saved⟩ ?_ hnext
  · rw [hrecs, List.filter_append, List.map_append, hfloor, h.items, hlist, List.map_append,
      List.filter_cons_of_pos (by
        rw [hri, hidx]; exact decide_eq_true s.floor_le_nextIndex), List.filter_nil,
      List.map_singleton, hitem, List.map_singleton]
  · intro p hp
    rw [hlist, List.mem_append, List.mem_singleton] at hp
    rcases hp with hp | rfl
    · exact h.index p hp
    · exact ⟨rfl, hfit.2⟩
  · intro t ht
    refine Or.inl ?_
    rw [hidx] at ht
    exact happ.stop_push h.log.memRep ht

/-- Consecutive entries from the next index on. -/
theorem wp_append_entries {Q : Unit → StoreDir → LogStore → Prop} {entries : List Entry}
    (h : StoreRep d m s segs)
    (hidx : entries.map (·.logId.index) = List.range' s.nextIndex entries.length)
    (hfit : ∀ e ∈ entries,
      (LogStore.encodeEntry e).length < 2 ^ 32 ∧ e.logId.index < 2 ^ 64 - 1)
    (happ : entries ≠ [] → Appendable m.log segs s.floor s.nextIndex) (hC : ∀ d, C d)
    (hQ : ∀ d' m' segs', StoreRep d' m' (s.append entries) segs' → Q () d' m') :
    wp (LogStore.append entries) Q E C d m := by
  induction entries generalizing d m s segs with
  | nil => exact hQ d m segs h
  | cons e entries ih =>
    rw [List.map_cons, List.length_cons, List.range'_succ, List.cons.injEq] at hidx
    rw [LogStore.append, forEach, wp_bind']
    refine wp_append_entry h hidx.1 (hfit e List.mem_cons_self) (happ (by simp)) hC ?_
    intro d' m' segs' hrep happ' hnext
    refine ih hrep (by rw [hnext]; exact hidx.2) (fun x hx => hfit x (List.mem_cons_of_mem e hx))
      (fun _ => by rw [hnext]; exact happ') hQ

/-! ## truncate and purge -/

theorem wp_truncate {Q : Unit → StoreDir → LogStore → Prop} (h : StoreRep d m s segs)
    {logId : LogId} (hfl : s.floor ≤ logId.index) (hC : ∀ d, C d)
    (hQ : ∀ d' m' segs', StoreRep d' m' (s.truncate logId) segs' → Q () d' m') :
    wp (LogStore.truncate logId) Q E C d m := by
  refine wp_onLog _ _ (wp_truncateFrom_inv h.log hfl (fun _ => hC _) ?_)
  intro dir' log' hlog
  refine hQ _ _ _ ⟨hlog, ?_, ?_, h.metadata, h.saved⟩
  · have hitems := congrArg (List.filter fun q => decide (q.1 < logId.index)) h.items
    rw [List.filter_map, List.filter_map, List.filter_filter] at hitems
    rw [recsOf_trunc, List.filter_filter]
    refine Eq.trans ?_ hitems
    congr 1
    refine List.filter_congr fun r _ => ?_
    exact Bool.and_comm _ _
  · intro p hp
    exact h.index p (List.mem_of_mem_filter hp)

theorem wp_purgeThrough_store {Q : Unit → StoreDir → LogStore → Prop} {gap lo index : Nat}
    (h : LogInv d.log m.log segs gap lo) (hgap : gap ≤ index + 1) (hlo : lo ≤ index + 1)
    (hC : ∀ d, C d)
    (hQ : ∀ dir' log', LogInv dir' log' (purged index segs) (index + 1) (index + 1) →
      Q () { d with log := dir' } { m with log := log' }) :
    wp (LogStore.onLog .writeLogs (SegmentedLog.purgeThrough index)) Q E C d m :=
  wp_onLog _ _ (wp_purgeThrough_inv h hgap hlo (fun _ => hC _) fun dir' log' h' =>
    hQ dir' log' (h'.mono hgap))

theorem wp_purge {Q : Unit → StoreDir → LogStore → Prop} (h : StoreRep d m s segs)
    {logId : LogId} (hfl : s.floor ≤ logId.index + 1) (hC : ∀ d, C d)
    (hQ : ∀ d' m' segs', StoreRep d' m' (s.purge logId) segs' → Q () d' m') :
    wp (LogStore.purge logId) Q E C d m := by
  have hmeta : ({ m.metadata with lastPurged := some logId } : Meta) =
      (s.purge logId).metadata := by rw [h.metadata]; rfl
  rw [LogStore.purge]
  simp only [wp_bind, wp_modifyMem, wp_getMem, hmeta]
  refine wp_persistMeta _ (fun _ => hC _) (hC _) ?_
  refine wp_purgeThrough_store h.log hfl hfl hC ?_
  intro dir' log' hlog
  refine hQ _ _ _ ⟨hlog, ?_, ?_, rfl, loadMeta_of_metaPb rfl⟩
  · have hitems := congrArg (List.filter fun q => decide (logId.index < q.1)) h.items
    rw [List.filter_map, List.filter_map, List.filter_filter] at hitems
    have hfloor : (s.purge logId).floor = logId.index + 1 := rfl
    rw [hfloor, ← h.log.recs_purged hfl]
    refine Eq.trans ?_ hitems
    congr 1
    refine List.filter_congr fun r _ => ?_
    rw [Bool.eq_iff_iff, Bool.and_eq_true, decide_eq_true_iff, decide_eq_true_iff]
    show _ ↔ decide (logId.index < r.index) = true ∧ _
    rw [decide_eq_true_iff]
    omega
  · intro p hp
    exact h.index p (List.mem_of_mem_filter hp)

/-! ## open -/

/-- Opening brings back every entry from the saved purge floor on. -/
theorem wp_openStore {Q : Unit → StoreDir → LogStore → Prop}
    (hdir : DirRep d.log segs) (hne : ∀ t ∈ segs, t.payloads ≠ []) (hl : Linked s.floor segs)
    (hitems : ((recsOf segs).filter fun r => s.floor ≤ r.index).map Rec.item =
      s.log.toList.map fun p => (p.1, LogStore.encodeEntry p.2))
    (hindex : ∀ p ∈ s.log.toList, p.2.logId.index = p.1 ∧ p.1 < 2 ^ 64 - 1)
    (hsaved : LogStore.loadMeta d = .ok s.metadata) (hC : ∀ d, C d)
    (hQ : ∀ d' m' segs', StoreRep d' m' s segs' → Q () d' m') :
    wp LogStore.openStore Q E C d m := by
  rw [LogStore.openStore, wp_bind]
  refine wp_onLog _ _ (wp_open_inv hdir hne hl fun log' hlog => ?_)
  simp only [wp_bind, wp_getDisk, hsaved, wp_ofExcept_ok, wp_modifyMem]
  have hlp : s.metadata.lastPurged = s.lastPurged := rfl
  rw [hlp]
  cases hp : s.lastPurged with
  | none =>
    have hfl : s.floor = 0 := by rw [MemLogStore.floor, hp]
    rw [LogStore.purgeFloor.eq_def]
    exact hQ _ _ segs ⟨by rw [hfl] at hlog ⊢; exact hlog, hitems, hindex, rfl, hsaved⟩
  | some purged =>
    have hfl : s.floor = purged.index + 1 := by rw [MemLogStore.floor, hp]
    rw [LogStore.purgeFloor.eq_def]
    refine wp_purgeThrough_store hlog (Nat.le_of_eq hfl) (Nat.zero_le _) hC ?_
    intro dir' log'' hlog'
    refine hQ _ _ _ ⟨by rw [hfl]; exact hlog', ?_, hindex, rfl, hsaved⟩
    rw [← hitems, hfl, ← hlog.recs_purged (Nat.le_of_eq hfl)]

/-! ## refinement -/

theorem wp_exec {Q : Unit → StoreDir → LogStore → Prop} (h : StoreRep d m s segs) {op : StoreOp}
    (hallowed : op.Allowed s) (hfits : op.Fits d m) (hC : ∀ d, C d)
    (hQ : ∀ d' m' segs', StoreRep d' m' (op.memExec s) segs' → Q () d' m') :
    wp op.exec Q E C d m := by
  cases op with
  | append entries =>
    refine wp_append_entries h hallowed hfits.1 (fun hne => h.appendable ?_) hC hQ
    cases entries with
    | nil => exact absurd rfl hne
    | cons e entries =>
      have hidx : e.logId.index = s.nextIndex := by
        have ha : (e :: entries).map (·.logId.index) =
          List.range' s.nextIndex (e :: entries).length := hallowed
        rw [List.map_cons, List.length_cons, List.range'_succ, List.cons.injEq] at ha
        exact ha.1
      rw [← hidx]
      exact hfits.2 e rfl
  | truncate logId => exact wp_truncate h hallowed hC hQ
  | purge logId => exact wp_purge h hallowed hC hQ
  | saveVote vote =>
    have hmeta : ({ m.metadata with vote := some vote } : Meta) =
        (s.saveVote vote).metadata := by rw [h.metadata]; rfl
    simp only [StoreOp.exec, LogStore.saveVote, wp_bind, wp_modifyMem, wp_getMem, hmeta]
    exact wp_persistMeta _ (fun _ => hC _) (hC _)
      (hQ _ _ segs ⟨h.log, h.items, h.index, rfl, loadMeta_of_metaPb rfl⟩)
  | saveCommitted committed =>
    have hmeta : ({ m.metadata with committed := committed } : Meta) =
        (s.saveCommitted committed).metadata := by rw [h.metadata]; rfl
    simp only [StoreOp.exec, LogStore.saveCommitted, wp_bind, wp_modifyMem, wp_getMem, hmeta]
    exact wp_persistMeta _ (fun _ => hC _) (hC _)
      (hQ _ _ segs ⟨h.log, h.items, h.index, rfl, loadMeta_of_metaPb rfl⟩)
  | reopen =>
    exact wp_openStore h.log.dirRep h.log.nonempty h.log.linked h.items h.index h.saved hC hQ

theorem StoreRun.rep (h : StoreRun d m s) : ∃ segs, StoreRep d m s segs := by
  induction h with
  | start h =>
    have hw : wp LogStore.openStore (fun _ d m => ∃ segs, StoreRep d m MemLogStore.empty segs)
        (fun _ _ _ => True) (fun _ => True) StoreDir.empty default :=
      wp_openStore DirRep.empty (by simp) List.isChain_nil rfl (by simp [MemLogStore.empty]) rfl
        (fun _ => trivial) fun _ _ segs hrep => ⟨segs, hrep⟩
    exact post_of_wp hw h
  | step op prev allowed fits h ih =>
    obtain ⟨segs, hrep⟩ := ih
    have hw : wp op.exec (fun _ d m => ∃ segs, StoreRep d m (op.memExec _) segs)
        (fun _ _ _ => True) (fun _ => True) _ _ :=
      wp_exec hrep allowed fits (fun _ => trivial) fun _ _ segs' hrep' => ⟨segs', hrep'⟩
    exact post_of_wp hw h

/-- **The durable log store refines the in-memory one** across reopens, in
every run whose appends fit: both answer `get_log_state` and
`try_get_log_entries` alike, every entry stands at its own index, and the next
operation succeeds. -/
theorem logStore_refines_memLogStore (h : StoreRun d m s) :
    LogStore.getLogState.run d m = (.ok s.getLogState, d, m) ∧
      (∀ a b, a ≤ b →
        (LogStore.tryGetLogEntries (.included a) (.excluded b)).run d m =
          (.ok (s.tryGetLogEntries a b), d, m)) ∧
      (∀ i e, s.log.find? i = some e → e.logId.index = i) ∧
      ∀ op : StoreOp, op.Allowed s → op.Fits d m → ∃ d' m', op.exec.run d m = (.ok (), d', m') := by
  obtain ⟨segs, hrep⟩ := h.rep
  refine ⟨?_, fun a b hab => ?_, fun i e he => ?_, fun op hallowed hfits => ?_⟩
  · have hw : wp LogStore.getLogState (fun r d' m' => r = s.getLogState ∧ d' = d ∧ m' = m)
        (fun _ _ _ => False) (fun _ => True) d m := wp_getLogState hrep ⟨rfl, rfl, rfl⟩
    obtain ⟨r, d', m', hrun, rfl, rfl, rfl⟩ := run_ok_of_wp hw
    exact hrun
  · have hw : wp (LogStore.tryGetLogEntries (.included a) (.excluded b))
        (fun r d' m' => r = s.tryGetLogEntries a b ∧ d' = d ∧ m' = m)
        (fun _ _ _ => False) (fun _ => True) d m := wp_tryGetLogEntries hrep hab ⟨rfl, rfl, rfl⟩
    obtain ⟨r, d', m', hrun, rfl, rfl, rfl⟩ := run_ok_of_wp hw
    exact hrun
  · exact (hrep.index (i, e) (OrdMap.find?_eq_some_iff.mp he)).1
  · have hw : wp op.exec (fun _ _ _ => True) (fun _ _ _ => False) (fun _ => True) d m :=
      wp_exec hrep hallowed hfits (fun _ => trivial) fun _ _ _ _ => trivial
    obtain ⟨_, d', m', hrun, _⟩ := run_ok_of_wp hw
    exact ⟨d', m', hrun⟩

end

/-! ## runs on fixed inputs -/

section
open Reference

instance (s : MemLogStore) (op : StoreOp) : Decidable (op.Allowed s) := by
  cases op <;> unfold StoreOp.Allowed <;> infer_instance

instance (d : StoreDir) (m : LogStore) (index : Nat) : Decidable (Contiguous d m index) := by
  unfold Contiguous
  infer_instance

instance (d : StoreDir) (m : LogStore) (op : StoreOp) : Decidable (op.Fits d m) := by
  cases op <;> unfold StoreOp.Fits <;> infer_instance

/-- A leader's blank entry at an index. -/
def blankEntry (index : Nat) : Entry := ⟨⟨⟨1, 1⟩, index⟩, .blank⟩

/-- The disk and the memory after an operation. -/
def StoreOp.after (op : StoreOp) (x : StoreDir × LogStore) : StoreDir × LogStore :=
  (op.exec.run x.1 x.2).2

def openedStore : StoreDir × LogStore := (LogStore.openStore.run StoreDir.empty default).2

theorem StoreRun.after {x : StoreDir × LogStore} {s : MemLogStore} (h : StoreRun x.1 x.2 s)
    (op : StoreOp) (hop : op.Allowed s ∧ op.Fits x.1 x.2 ∧ (op.exec.run x.1 x.2).1 = .ok ()) :
    StoreRun (op.after x).1 (op.after x).2 (op.memExec s) :=
  .step op h hop.1 hop.2.1 (Prod.ext hop.2.2 rfl)

/-- A run through a truncation, a purge and a reopen. -/
theorem logStore_refines_memLogStore_after_reopen :
    let x := StoreOp.reopen.after <| (StoreOp.append [blankEntry 1]).after <|
      (StoreOp.purge ⟨⟨1, 1⟩, 0⟩).after <| (StoreOp.truncate ⟨⟨1, 1⟩, 1⟩).after <|
        (StoreOp.append [blankEntry 0, blankEntry 1]).after openedStore
    (LogStore.getLogState.run x.1 x.2).1 =
        .ok ⟨some ⟨⟨1, 1⟩, 0⟩, some ⟨⟨1, 1⟩, 1⟩⟩ ∧
      ((LogStore.tryGetLogEntries (.included 0) (.excluded 10)).run x.1 x.2).1 =
        .ok [blankEntry 1] := by
  intro x
  have hrun : StoreRun x.1 x.2 _ :=
    ((((StoreRun.after (x := openedStore) (.start (Prod.ext (by decide +kernel) rfl))
      (.append [blankEntry 0, blankEntry 1]) (by decide +kernel)).after
      (.truncate ⟨⟨1, 1⟩, 1⟩) (by decide +kernel)).after
      (.purge ⟨⟨1, 1⟩, 0⟩) (by decide +kernel)).after
      (.append [blankEntry 1]) (by decide +kernel)).after .reopen (by decide +kernel)
  obtain ⟨hstate, hget, _⟩ := logStore_refines_memLogStore hrun
  rw [hstate, hget 0 10 (by decide)]
  decide +kernel

/-- Whether openraft may make these calls one after the other. -/
def AllowedRun : MemLogStore → List StoreOp → Prop
  | _, [] => True
  | s, op :: ops => op.Allowed s ∧ AllowedRun (op.memExec s) ops

instance decidableAllowedRun : (s : MemLogStore) → (ops : List StoreOp) →
    Decidable (AllowedRun s ops)
  | _, [] => .isTrue trivial
  | s, op :: ops => @instDecidableAnd _ _ _ (decidableAllowedRun (op.memExec s) ops)

/-- A purge past the end of the log, as openraft makes it after installing a
snapshot, and an append behind it: the entry is lost at the next open. -/
theorem logStore_loses_entry_appended_behind_purge :
    let ops : List StoreOp :=
      [.append [blankEntry 0], .purge ⟨⟨1, 1⟩, 5⟩, .append [blankEntry 6], .reopen]
    let durable := do
      LogStore.openStore
      forEach ops StoreOp.exec
      LogStore.tryGetLogEntries (.included 0) (.excluded 10)
    AllowedRun .empty ops ∧
      (durable.run StoreDir.empty default).1 = .ok [] ∧
      (ops.foldl (fun s op => op.memExec s) MemLogStore.empty).tryGetLogEntries 0 10 =
        [blankEntry 6] := by
  decide +kernel

end

end Lumen
