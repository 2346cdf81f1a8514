import Lumen.LogStore.Refine
import Mathlib.Data.List.Forall2

/-!
# Lumen.LogStore.Ranges

Range reads of the log store.  `concrete_range` turns any pair of bounds into a
half-open pair of indexes and hands it to `BTreeMap::range`, which panics when the
pair is reversed.

`tryGetLogEntries_exact`: a range that an ordered map could be asked for is answered
with exactly the entries in it, unless it has no end and starts above the log, or an
entry in it has the last index of all.
-/

namespace Lumen

open Lib Raft Prog

/-! ## ranges -/

/-- The values of a bound are of type `u64`. -/
def Bound.IsU64 : Bound → Prop
  | .included n => n < 2 ^ 64
  | .excluded n => n < 2 ^ 64
  | .unbounded => True

/-- The indexes behind a start bound. -/
def Bound.Below : Bound → Nat → Prop
  | .included s, k => s ≤ k
  | .excluded s, k => s < k
  | .unbounded, _ => True

/-- The indexes before an end bound. -/
def Bound.Above : Bound → Nat → Prop
  | .included e, k => k ≤ e
  | .excluded e, k => k < e
  | .unbounded, _ => True

instance (b : Bound) (k : Nat) : Decidable (b.Below k) := by
  cases b <;> unfold Bound.Below <;> infer_instance

instance (b : Bound) (k : Nat) : Decidable (b.Above k) := by
  cases b <;> unfold Bound.Above <;> infer_instance

/-- The ranges `BTreeMap::range` is defined on: the start is not above the end, nor
equal to it with both excluded. -/
def RangeDefined : Bound → Bound → Prop
  | .included s, .included e => s ≤ e
  | .included s, .excluded e => s ≤ e
  | .excluded s, .included e => s ≤ e
  | .excluded s, .excluded e => s < e
  | .unbounded, _ => True
  | _, .unbounded => True

/-- A range without an end starts at most one behind the last index. -/
def StartsWithin : Bound → Option Nat → Prop
  | .unbounded, _ => True
  | .included s, none => s = 0
  | .included s, some last => s ≤ last + 1
  | .excluded _, none => False
  | .excluded s, some last => s ≤ last ∨ 2 ^ 64 - 2 ≤ last

section
variable [Ext]

/-- A record that reads back as an entry. -/
def ReadsAs (dir : LogDir) (loc : RecordLoc) (e : Entry) : Prop :=
  ∃ bytes, dir.find? loc.segmentStart = some bytes ∧
    loc.payloadOffset + loc.len ≤ bytes.length ∧
    LogStore.decodeEntry (slice bytes loc.payloadOffset loc.len) = .ok e

/-- A log state: the records of the store read back as the entries `t`. -/
structure HoldsEntries (d : StoreDir) (m : LogStore) (t : OrdMap Nat Entry) : Prop where
  records : List.Forall₂ (fun p q => p.1 = q.1 ∧ ReadsAs d.log p.2 q.2) m.log.records.toList
    t.toList
  bound : ∀ k ∈ t.keys, k < 2 ^ 64

/-- The entries in a range, in the order of their indexes. -/
def entriesIn (t : OrdMap Nat Entry) (start stop : Bound) : List Entry :=
  (t.filter fun k _ => start.Below k ∧ stop.Above k).toList.map Prod.snd

variable {d : StoreDir} {m : LogStore} {t : OrdMap Nat Entry} {start stop : Bound}

theorem HoldsEntries.keys (h : HoldsEntries d m t) : m.log.records.keys = t.keys := by
  have hkeys : ∀ {l : List (Nat × RecordLoc)} {l' : List (Nat × Entry)},
      List.Forall₂ (fun p q => p.1 = q.1 ∧ ReadsAs d.log p.2 q.2) l l' →
        l.map Prod.fst = l'.map Prod.fst := by
    intro l l' hl
    induction hl with
    | nil => rfl
    | cons hpq _ ih => rw [List.map_cons, List.map_cons, hpq.1, ih]
  exact hkeys h.records

theorem HoldsEntries.lastIndex (h : HoldsEntries d m t) : m.log.lastIndex = t.lastKey? := by
  rw [SegmentedLog.lastIndex, OrdMap.lastKey?_eq, OrdMap.lastKey?_eq, h.keys]

/-- Reading records that read back. -/
theorem readLocs_of_readsAs {dir : LogDir} {l : List (Nat × RecordLoc)} {l' : List (Nat × Entry)}
    (h : List.Forall₂ (fun p q => p.1 = q.1 ∧ ReadsAs dir p.2 q.2) l l') :
    ∃ raw, SegmentedLog.readLocs dir l = .ok raw ∧
      LogStore.decodeEntries raw = .ok (l'.map Prod.snd) := by
  induction h with
  | nil => exact ⟨[], rfl, rfl⟩
  | @cons p q l l' hpq _ ih =>
    obtain ⟨index, loc⟩ := p
    obtain ⟨raw, hraw, hdecode⟩ := ih
    obtain ⟨_, bytes, hbytes, hlen, he⟩ := hpq
    refine ⟨(index, slice bytes loc.payloadOffset loc.len) :: raw, ?_, ?_⟩
    · rw [SegmentedLog.readLocs]
      simp only [hbytes, if_neg (Nat.not_lt.mpr hlen), hraw]
    · rw [LogStore.decodeEntries]
      simp only [he, hdecode, List.map_cons]

/-- A reversed pair panics. -/
theorem HoldsEntries.run_reversed (h : HoldsEntries d m t)
    (hlt : (concreteRange start stop t.lastKey?).2 < (concreteRange start stop t.lastKey?).1) :
    ∃ msg, (LogStore.tryGetLogEntries start stop).run d m =
      (.error (.readLogs (.core (.panicked msg))), d, m) := by
  have hw : wp (LogStore.tryGetLogEntries start stop) (fun _ _ _ => False)
      (fun e d' m' => (∃ msg, e = .readLogs (.core (.panicked msg))) ∧ d' = d ∧ m' = m)
      (fun _ => True) d m := by
    rw [LogStore.tryGetLogEntries, wp_bind, wp_getMem, wp_bind, h.lastIndex]
    refine wp_onLog _ _ ?_
    rw [SegmentedLog.readRange, wp_bind, wp_getDisk, wp_bind, wp_getMem, if_pos hlt]
    exact ⟨⟨_, rfl⟩, rfl, rfl⟩
  obtain ⟨e, d', m', hrun, ⟨msg, rfl⟩, rfl, rfl⟩ := run_error_of_wp hw
  exact ⟨msg, hrun⟩

/-- The records in a pair read back as the entries in it. -/
theorem HoldsEntries.filter (h : HoldsEntries d m t) (lo hi : Nat) :
    List.Forall₂ (fun p q => p.1 = q.1 ∧ ReadsAs d.log p.2 q.2)
      (m.log.records.filter fun k _ => lo ≤ k ∧ k < hi).toList
      (t.filter fun k _ => lo ≤ k ∧ k < hi).toList := by
  refine List.rel_filter (fun p q hpq => ?_) h.records
  show _ = true ↔ _ = true
  rw [hpq.1]

/-- Any other pair is answered with the entries in it. -/
theorem HoldsEntries.run_pair (h : HoldsEntries d m t)
    (hle : (concreteRange start stop t.lastKey?).1 ≤ (concreteRange start stop t.lastKey?).2) :
    (LogStore.tryGetLogEntries start stop).run d m =
      (.ok ((t.filter fun k _ => (concreteRange start stop t.lastKey?).1 ≤ k ∧
        k < (concreteRange start stop t.lastKey?).2).toList.map Prod.snd), d, m) := by
  obtain ⟨raw, hraw, hdecode⟩ := readLocs_of_readsAs (h.filter
    (concreteRange start stop t.lastKey?).1 (concreteRange start stop t.lastKey?).2)
  have hw : wp (LogStore.tryGetLogEntries start stop)
      (fun r d' m' => r = (t.filter fun k _ => (concreteRange start stop t.lastKey?).1 ≤ k ∧
        k < (concreteRange start stop t.lastKey?).2).toList.map Prod.snd ∧ d' = d ∧ m' = m)
      (fun _ _ _ => False) (fun _ => True) d m := by
    rw [LogStore.tryGetLogEntries, wp_bind, wp_getMem, wp_bind, h.lastIndex]
    refine wp_onLog _ _ ?_
    rw [SegmentedLog.readRange, wp_bind, wp_getDisk, wp_bind, wp_getMem,
      if_neg (Nat.not_lt.mpr hle), hraw, wp_ofExcept_ok, hdecode]
    exact ⟨rfl, rfl, rfl⟩
  exact run_eq_ok_of_wp hw

section
omit [Ext]

theorem lt_satSucc_iff {k n : Nat} : k < satSucc n ↔ k ≤ n ∧ k < 2 ^ 64 - 1 := by
  rw [satSucc, lt_min_iff, Nat.lt_succ_iff]

theorem satSucc_le_iff {k n : Nat} : satSucc n ≤ k ↔ n < k ∨ 2 ^ 64 - 1 ≤ k := by
  rw [satSucc, min_le_iff, Nat.succ_le_iff]

/-- The pair holds the indexes of the range, but for the last index of all. -/
theorem mem_concreteRange (start : Bound) {k l : Nat} (hk : k < 2 ^ 64) (hl : k ≤ l)
    (hstop : stop.IsU64) :
    (concreteRange start stop (some l)).1 ≤ k ∧ k < (concreteRange start stop (some l)).2 ↔
      (start.Below k ∧ stop.Above k) ∧ k < 2 ^ 64 - 1 := by
  cases start <;> cases stop <;>
    simp only [concreteRange, lt_satSucc_iff, satSucc_le_iff, Bound.Below, Bound.Above,
      Bound.IsU64, and_true, true_and, Nat.zero_le] at * <;> omega

/-- The pair of a defined range is reversed only if the range has no end and starts
above the log. -/
theorem concreteRange_le_iff (last : Option Nat) (hstart : start.IsU64) (hstop : stop.IsU64)
    (hdef : RangeDefined start stop) :
    (concreteRange start stop last).1 ≤ (concreteRange start stop last).2 ↔
      (stop = .unbounded → StartsWithin start last) := by
  cases last with
  | none =>
    cases start <;> cases stop <;>
      simp [concreteRange, satSucc, StartsWithin, RangeDefined, Bound.IsU64] at * <;> omega
  | some l =>
    cases start <;> cases stop <;>
      simp [concreteRange, satSucc, StartsWithin, RangeDefined, Bound.IsU64] at * <;> omega

end

/-- The ranges that are answered: a range without an end starts within the log, and
no entry in the range has the last index of all. -/
structure RangeServed (t : OrdMap Nat Entry) (start stop : Bound) : Prop where
  within : stop = .unbounded → StartsWithin start t.lastKey?
  notLast : ∀ k ∈ t.keys, start.Below k → stop.Above k → k < 2 ^ 64 - 1

theorem HoldsEntries.filter_pair (h : HoldsEntries d m t) (hstop : stop.IsU64) :
    (t.filter fun k _ => (concreteRange start stop t.lastKey?).1 ≤ k ∧
        k < (concreteRange start stop t.lastKey?).2).toList =
      (t.filter fun k _ => start.Below k ∧ stop.Above k).toList.filter
        fun p => p.1 < 2 ^ 64 - 1 := by
  rw [OrdMap.toList_filter, OrdMap.toList_filter, List.filter_filter]
  refine List.filter_congr fun p hp => ?_
  have hk : p.1 ∈ t.keys := List.mem_map_of_mem hp
  obtain ⟨l, hl⟩ : ∃ l, t.lastKey? = some l := by
    cases hlast : t.lastKey? with
    | some l => exact ⟨l, rfl⟩
    | none =>
      rw [OrdMap.lastKey?, Option.map_eq_none_iff, List.getLast?_eq_none_iff] at hlast
      rw [hlast] at hp
      contradiction
  have hmem := mem_concreteRange start (h.bound p.1 hk) (OrdMap.le_lastKey? hl hk) hstop
  rw [hl, Bool.eq_iff_iff, decide_eq_true_iff, hmem, Bool.and_eq_true, decide_eq_true_iff,
    decide_eq_true_iff, and_comm]

/-- **Range reads**: on every log state, a range that an ordered map could be asked
for is answered with exactly the entries in it if and only if it is served. -/
theorem tryGetLogEntries_exact (h : HoldsEntries d m t) (hstart : start.IsU64) (hstop : stop.IsU64)
    (hdef : RangeDefined start stop) :
    (LogStore.tryGetLogEntries start stop).run d m = (.ok (entriesIn t start stop), d, m) ↔
      RangeServed t start stop := by
  have hpair := concreteRange_le_iff t.lastKey? hstart hstop hdef
  by_cases hle : (concreteRange start stop t.lastKey?).1 ≤ (concreteRange start stop t.lastKey?).2
  · rw [h.run_pair hle, h.filter_pair hstop, entriesIn]
    simp only [Prod.mk.injEq, Except.ok.injEq, and_true]
    constructor
    · intro heq
      have hlen := congrArg List.length heq
      rw [List.length_map, List.length_map, List.length_filter_eq_length_iff] at hlen
      refine ⟨hpair.mp hle, fun k hk hbelow habove => ?_⟩
      obtain ⟨e, he⟩ := OrdMap.mem_keys_iff.mp hk
      have hin : (k, e) ∈ (t.filter fun k _ => start.Below k ∧ stop.Above k).toList := by
        rw [OrdMap.toList_filter, List.mem_filter]
        exact ⟨OrdMap.find?_eq_some_iff.mp he, decide_eq_true ⟨hbelow, habove⟩⟩
      exact of_decide_eq_true (hlen (k, e) hin)
    · intro hserved
      rw [List.filter_eq_self.mpr]
      intro p hp
      rw [OrdMap.toList_filter, List.mem_filter, decide_eq_true_iff] at hp
      exact decide_eq_true (hserved.notLast p.1 (List.mem_map_of_mem hp.1) hp.2.1 hp.2.2)
  · obtain ⟨msg, hrun⟩ := h.run_reversed (Nat.lt_of_not_le hle)
    rw [hrun]
    exact ⟨fun heq => by simp at heq, fun hserved => absurd (hpair.mpr hserved.within) hle⟩

/-! ## the states of runs -/

theorem forall₂_readsAs {dir : LogDir} {rs : List Rec} {l : List (Nat × Entry)}
    (hread : ∀ r ∈ rs, Readable dir r)
    (h : rs.map Rec.item = l.map fun q => (q.1, LogStore.encodeEntry q.2)) :
    List.Forall₂ (fun p q => p.1 = q.1 ∧ ReadsAs dir p.2 q.2) (rs.map Rec.key) l := by
  induction rs generalizing l with
  | nil =>
    rw [List.map_nil, eq_comm, List.map_eq_nil_iff] at h
    rw [h]
    exact .nil
  | cons r rs ih =>
    obtain _ | ⟨q, l⟩ := l
    · contradiction
    rw [List.map_cons, List.map_cons, List.cons.injEq] at h
    obtain ⟨hr, hrs⟩ := List.forall_mem_cons.mp hread
    obtain ⟨bytes, hbytes, hlen, hslice⟩ := hr
    have hpayload : r.payload = LogStore.encodeEntry q.2 := congrArg Prod.snd h.1
    refine .cons ⟨congrArg Prod.fst h.1, bytes, hbytes, hlen, ?_⟩ (ih hrs h.2)
    rw [Rec.key, hslice, hpayload]
    exact LogStore.decodeEntry_encodeEntry q.2

/-- The states of a run are log states. -/
theorem StoreRep.holdsEntries {s : MemLogStore} {segs : List Seg} (h : StoreRep d m s segs) :
    HoldsEntries d m s.log := by
  refine ⟨?_, fun k hk => ?_⟩
  · rw [h.log.records]
    exact forall₂_readsAs (fun r hr => h.log.dirRep.readable (List.mem_of_mem_filter hr)) h.items
  · obtain ⟨e, he⟩ := OrdMap.mem_keys_iff.mp hk
    have := (h.index (k, e) (OrdMap.find?_eq_some_iff.mp he)).2
    omega

end

/-! ## ranges on fixed inputs -/

section
open Reference

instance : (start : Bound) → (last : Option Nat) → Decidable (StartsWithin start last)
  | .unbounded, _ => .isTrue trivial
  | .included s, none => inferInstanceAs (Decidable (s = 0))
  | .included s, some last => inferInstanceAs (Decidable (s ≤ last + 1))
  | .excluded _, none => .isFalse not_false
  | .excluded s, some last => inferInstanceAs (Decidable (s ≤ last ∨ 2 ^ 64 - 2 ≤ last))

/-- A store with the entries 0 and 1. -/
def twoEntries : StoreDir × LogStore :=
  (StoreOp.append [blankEntry 0, blankEntry 1]).after openedStore

theorem twoEntries_run : StoreRun twoEntries.1 twoEntries.2
    ((StoreOp.append [blankEntry 0, blankEntry 1]).memExec .empty) :=
  StoreRun.after (x := openedStore) (.start (Prod.ext (by decide +kernel) rfl))
    (.append [blankEntry 0, blankEntry 1]) (by decide +kernel)

/-- From 1 on, the second entry is returned. -/
theorem tryGetLogEntries_exact_from_one :
    (LogStore.tryGetLogEntries (.included 1) .unbounded).run twoEntries.1 twoEntries.2 =
      (.ok [blankEntry 1], twoEntries) := by
  obtain ⟨segs, hrep⟩ := twoEntries_run.rep
  have hin : entriesIn ((StoreOp.append [blankEntry 0, blankEntry 1]).memExec .empty).log
      (.included 1) .unbounded = [blankEntry 1] := by decide +kernel
  rw [← hin]
  have hstart : (Bound.included 1).IsU64 := show 1 < 2 ^ 64 by decide
  have hstop : Bound.unbounded.IsU64 := trivial
  have hdef : RangeDefined (.included 1) .unbounded := trivial
  exact (tryGetLogEntries_exact hrep.holdsEntries hstart hstop hdef).mpr
    ⟨fun _ => by decide +kernel, by decide +kernel⟩

/-- From 5 on, there is nothing, and the read panics; an entry at the last index of
all is in every range without an end, and is not returned. -/
theorem tryGetLogEntries_misses :
    ((LogStore.tryGetLogEntries (.included 5) .unbounded).run twoEntries.1 twoEntries.2).1 =
        .error (.readLogs (.core (.panicked "range start is greater than range end in BTreeMap"))) ∧
      let x := (StoreOp.append [blankEntry (2 ^ 64 - 1)]).after openedStore
      ((StoreOp.append [blankEntry (2 ^ 64 - 1)]).exec.run openedStore.1 openedStore.2).1 = .ok () ∧
        ((LogStore.tryGetLogEntries (.included 0) .unbounded).run x.1 x.2).1 = .ok [] := by
  decide +kernel

end

end Lumen
