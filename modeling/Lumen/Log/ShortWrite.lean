import Lumen.Log.Contents
import Lumen.Log.Inv
import Lumen.Reference

/-!
# Lumen.Log.ShortWrite

An append whose write fails after some bytes.

The file has the bytes, but the length that the process keeps of it has not grown.
The next record is written behind them, and its location is counted from the old
length: it names bytes of the record that failed.  `LogUse` are the states in which
the position of a record is its number.
-/

namespace Lumen

open Lib Prog

section
variable [Ext]

namespace SegmentedLog

/-- `append` whose `write_all` fails after `written` bytes of the frame. -/
def appendShort (index : Nat) (payload : Bytes) (written : Nat) (kind : IoKind) : LogM Unit := do
  if 2 ^ 32 ≤ payload.length then
    Prog.throw (.recovery "log record exceeds u32 length")
  else do
    let log ← getMem
    if log.needsRotation then rotate index else pure ()
    let log ← getMem
    match log.active with
    | none => Prog.throw (.panicked "active present after rotation")
    | some active =>
      step (fun dir => dir.modify active.start (· ++ (frame payload).take written))
      Prog.throw (.io kind)

/-- Append payloads and sync, read them back, then open the log again and read
everything. -/
def appendRead (segmentMax next : Nat) (ps : List Bytes) :
    LogM (List (Nat × Bytes) × List (Nat × Bytes)) := do
  appendAll next ps
  sync
  let live ← readRange next (next + ps.length)
  openWithSegmentMax segmentMax
  let again ← readAll
  pure (live, again)

end SegmentedLog

/-- The states of a log that goes on where it ends: `lo` is the lowest index that is
not purged, and `next` the position behind the last record.  A log without a segment
goes on anywhere.  (`sync` changes neither the files nor the index.) -/
inductive LogUse (segmentMax : Nat) : LogDir → SegmentedLog → Nat → Nat → Prop where
  | opened {dir : LogDir} {log log' : SegmentedLog} (first : Nat)
      (h : (SegmentedLog.openWithSegmentMax segmentMax).run ∅ log = (.ok (), dir, log')) :
      LogUse segmentMax dir log' 0 first
  | append {dir dir' : LogDir} {log log' : SegmentedLog} {lo next : Nat} (payload : Bytes)
      (prev : LogUse segmentMax dir log lo next)
      (h : (SegmentedLog.append next payload).run dir log = (.ok (), dir', log')) :
      LogUse segmentMax dir' log' lo (next + 1)
  | refused {dir dir' : LogDir} {log log' : SegmentedLog} {lo next : Nat} {err : Error}
      (payload : Bytes) (prev : LogUse segmentMax dir log lo next)
      (h : (SegmentedLog.append next payload).run dir log = (.error err, dir', log')) :
      LogUse segmentMax dir' log' lo next
  | truncate {dir dir' : LogDir} {log log' : SegmentedLog} {lo next next' : Nat} (index : Nat)
      (prev : LogUse segmentMax dir log lo next) (hlo : lo ≤ index)
      (h : (SegmentedLog.truncateFrom index).run dir log = (.ok (), dir', log'))
      (hnext : next' = min index next ∨ (log'.active = none ∧ lo ≤ next')) :
      LogUse segmentMax dir' log' lo next'
  | purge {dir dir' : LogDir} {log log' : SegmentedLog} {lo next : Nat} (index : Nat)
      (prev : LogUse segmentMax dir log lo next) (hlo : lo ≤ index + 1) (hle : index < next)
      (h : (SegmentedLog.purgeThrough index).run dir log = (.ok (), dir', log')) :
      LogUse segmentMax dir' log' (index + 1) next
  | reopen {dir dir' : LogDir} {log log' : SegmentedLog} {lo next : Nat}
      (prev : LogUse segmentMax dir log lo next)
      (h : (SegmentedLog.openWithSegmentMax segmentMax).run dir log = (.ok (), dir', log')) :
      LogUse segmentMax dir' log' 0 next

variable {segmentMax lo next : Nat} {dir : LogDir} {log : SegmentedLog} {segs : List Seg}

/-- Every state of a run ends at its next position. -/
theorem LogUse.endsAt (h : LogUse segmentMax dir log lo next) :
    ∃ segs, EndsAt dir log segs lo next := by
  induction h with
  | opened first h =>
    injection h with _ h
    injection h with hdir hlog
    subst hdir hlog
    exact ⟨[], ⟨DirRep.empty, ⟨rfl, rfl⟩, by simp, List.isChain_nil, rfl⟩, by simp, Nat.zero_le _⟩
  | append payload prev h ih =>
    obtain ⟨segs, hend⟩ := ih
    exact post_of_wp (E := fun _ _ _ => False) (Q := fun _ d l => ∃ segs, EndsAt d l segs _ _)
      (hend.wp_append (append_ok_small h) (fun _ => trivial)
        fun _ _ segs' hend' _ => ⟨segs', hend'⟩) h
  | refused payload prev h ih =>
    obtain ⟨segs, hend⟩ := ih
    rcases Nat.lt_or_ge payload.length (2 ^ 32) with hp | hp
    · exact (error_of_wp (Q := fun _ _ _ => True) (E := fun _ _ _ => False) (hend.wp_append hp
        (fun _ => trivial) fun _ _ _ _ _ => trivial) h).elim
    · rw [SegmentedLog.append, if_pos hp] at h
      injection h with _ h
      injection h with hdir hlog
      subst hdir hlog
      exact ⟨segs, hend⟩
  | truncate index prev hlo h hnext ih =>
    obtain ⟨segs, hend⟩ := ih
    obtain ⟨segs', hend'⟩ := post_of_wp (E := fun _ _ _ => False)
      (Q := fun _ d l => ∃ segs, EndsAt d l segs _ _)
      (hend.wp_truncateFrom hlo (fun _ => trivial) fun _ _ hend' => ⟨_, hend'⟩) h
    rcases hnext with rfl | ⟨hnone, hle⟩
    · exact ⟨segs', hend'⟩
    · have hnil := hend'.inv.memRep.active
      rw [hnone, eq_comm, Option.map_eq_none_iff, List.getLast?_eq_none_iff] at hnil
      exact ⟨segs', hend'.inv, by simp [hnil], hle⟩
  | purge index prev hlo hle h ih =>
    obtain ⟨segs, hend⟩ := ih
    exact post_of_wp (E := fun _ _ _ => False) (Q := fun _ d l => ∃ segs, EndsAt d l segs _ _)
      (hend.wp_purgeThrough hlo hle (fun _ => trivial) fun _ _ hend' => ⟨_, hend'⟩) h
  | reopen prev h ih =>
    obtain ⟨segs, hend⟩ := ih
    exact post_of_wp (E := fun _ _ _ => False) (C := fun _ => True)
      (Q := fun _ d l => ∃ segs, EndsAt d l segs _ _) (hend.wp_open fun _ hend' => ⟨_, hend'⟩) h

/-- The index of a contiguous log. -/
theorem EndsAt.extensible (h : EndsAt dir log segs lo next) :
    ∃ mem, Extensible dir log segs next mem := by
  have hsorted : (((recsOf segs).filter fun r => lo ≤ r.index).map Rec.item).Pairwise
      fun a b => a.1 < b.1 :=
    List.pairwise_map.mpr (h.inv.linked.ordered.recsOf_sorted.filter _)
  have hmem : ∀ {i p}, (OrdMap.ofList (((recsOf segs).filter fun r => lo ≤ r.index).map
      Rec.item)).find? i = some p ↔ ∃ r ∈ recsOf segs, lo ≤ r.index ∧ r.item = (i, p) := by
    intro i p
    rw [OrdMap.find?_eq_some_iff, OrdMap.toList_ofList hsorted]
    simp [and_assoc]
  refine ⟨OrdMap.ofList (((recsOf segs).filter fun r => lo ≤ r.index).map Rec.item), h.inv.dirRep,
    fun s hs => h.stop_le hs, ⟨fun i loc hl => ?_, fun i p hp => ?_⟩, fun i p hp => ?_, ?_⟩
  · obtain ⟨r, hr, hle, he⟩ := h.inv.mem_records.mp (OrdMap.find?_eq_some_iff.mp hl)
    have hi : r.index = i := congrArg Prod.fst he
    exact ⟨r, hr, hi, congrArg Prod.snd he, hmem.mpr ⟨r, hr, hle, by rw [← hi]; rfl⟩⟩
  · obtain ⟨r, hr, hle, he⟩ := hmem.mp hp
    have hi : r.index = i := congrArg Prod.fst he
    exact ⟨r.loc, OrdMap.find?_eq_some_iff.mpr
      (h.inv.mem_records.mpr ⟨r, hr, hle, by rw [← hi]; rfl⟩)⟩
  · obtain ⟨r, hr, _, he⟩ := hmem.mp hp
    obtain ⟨s, hs, hrs⟩ := List.mem_flatMap.mp hr
    have hi : r.index = i := congrArg Prod.fst he
    have := (Seg.recs_bounds hrs).2.1
    have := h.stop_le hs
    omega
  · intro a ha
    rw [h.inv.memRep.active] at ha
    obtain ⟨s, hs, rfl⟩ := Option.map_eq_some_iff.mp ha
    exact ⟨s, List.mem_of_getLast? hs, rfl, Or.inl (h.stop s hs)⟩

theorem EndsAt.lastIndex (h : EndsAt dir log segs lo next) {i : Nat} (hi : log.lastIndex = some i) :
    next = i + 1 := by
  obtain ⟨loc, hloc⟩ := OrdMap.mem_keys_iff.mp (OrdMap.lastKey?_mem hi)
  obtain ⟨r, hr, hle, he⟩ := h.inv.mem_records.mp (OrdMap.find?_eq_some_iff.mp hloc)
  have hri : r.index = i := congrArg Prod.fst he
  obtain ⟨t, ht, hrt⟩ := List.mem_flatMap.mp hr
  have hlt := (Seg.recs_bounds hrt).2.1
  have hstop := h.stop_le ht
  -- the record before `next` is in the index too
  cases hlast : segs.getLast? with
  | none =>
    rw [List.getLast?_eq_none_iff] at hlast
    simp [hlast] at ht
  | some s =>
    have hs := List.mem_of_getLast? hlast
    have hend := h.stop s hlast
    have hpos := h.inv.start_lt_stop hs
    obtain ⟨x, hx, hxi⟩ := Seg.exists_recs (by omega : s.start ≤ s.stop - 1) (by omega)
    have hkey := h.inv.mem_records.mpr ⟨x, List.mem_flatMap.mpr ⟨s, hs, hx⟩, by omega, rfl⟩
    have := OrdMap.le_lastKey? hi (List.mem_map_of_mem hkey)
    have hxk : x.key.1 = x.index := rfl
    omega

/-! ## the failed append -/

section
variable {mem : OrdMap Nat Bytes} {p : Bytes}

/-- A failed append has opened the segment for the record, and left a piece of the
frame at its end. -/
theorem Extensible.appendShort (h : Extensible dir log segs next mem) (hp : p.length < 2 ^ 32)
    (written : Nat) (kind : IoKind) :
    ∃ dir₁ log₁ segs₁ s, Extensible dir₁ log₁ segs₁ next mem ∧ s ∈ segs₁ ∧
      log₁.active = some s.active ∧ (log₁.needsRotation = true → s = ⟨next, []⟩) ∧
      log₁.records = log.records ∧
      (SegmentedLog.appendShort next p written kind).run dir log =
        (.error (.io kind), dir₁.modify s.start (· ++ (frame p).take written), log₁) := by
  cases hrot : log.needsRotation with
  | true =>
    obtain ⟨pre, post, hdir, hlive, hstops, _⟩ := h.rotated
    refine ⟨_, log.rotated next, pre ++ ⟨next, []⟩ :: post, ⟨next, []⟩,
      ⟨hdir, hstops, hlive, h.below, fun a ha => ?_⟩, by simp, rfl, fun _ => rfl, rfl, ?_⟩
    · exact ⟨⟨next, []⟩, by simp, Option.some.inj ha, Or.inl rfl⟩
    · refine run_eq_error_of_wp (C := fun _ => True) ?_
      rw [SegmentedLog.appendShort, if_neg (by omega), wp_bind, wp_getMem, hrot]
      simp only [if_true, SegmentedLog.rotate, wp_bind, wp_step, wp_modifyMem, wp_getMem, wp_throw]
      exact ⟨trivial, trivial, trivial, rfl, rfl⟩
  | false =>
    cases hact : log.active with
    | none => simp [SegmentedLog.needsRotation, hact] at hrot
    | some a =>
      obtain ⟨s, hs, rfl, _⟩ := h.active a hact
      refine ⟨dir, log, segs, s, h, hs, hact, fun ht => absurd ht (by simp [hrot]), rfl, ?_⟩
      refine run_eq_error_of_wp (C := fun _ => True) ?_
      rw [SegmentedLog.appendShort, if_neg (by omega), wp_bind, wp_getMem, hrot]
      simp only [wp_bind, wp_getMem, hact, wp_step, wp_throw, if_neg Bool.false_ne_true]
      exact ⟨trivial, trivial, rfl, trivial⟩

/-- Records appended at `next` are read back from the index, and after opening
again. -/
theorem Extensible.appendRead (h : Extensible dir log segs next mem) {ps : List Bytes}
    (hps : ∀ p ∈ ps, p.length < 2 ^ 32) (segmentMax : Nat) :
    ((SegmentedLog.appendRead segmentMax next ps).run dir log).1 =
      .ok (numbered next ps, (contents segs).toList ++ numbered next ps) := by
  have hw : wp (SegmentedLog.appendRead segmentMax next ps) (fun out _ _ =>
      out = (numbered next ps, (contents segs).toList ++ numbered next ps))
      (fun _ _ _ => False) (fun _ => True) dir log := by
    rw [SegmentedLog.appendRead, wp_bind]
    refine h.wp_appendAll hps (fun _ => trivial) fun dir' log' segs' h' hcont => ?_
    rw [wp_bind, SegmentedLog.sync, wp_pure, wp_bind]
    refine h'.live.wp_readRange h'.dirRep (Nat.le_add_right _ _) ?_
    rw [wp_bind]
    refine wp_open_contents h'.dirRep segmentMax fun log'' _ hlive _ => ?_
    rw [wp_bind]
    refine hlive.wp_readAll h'.dirRep ?_
    have hrange : ((mem.insertAll (numbered next ps)).filter
        fun k _ => next ≤ k ∧ k < next + ps.length).toList = numbered next ps := by
      rw [OrdMap.toList_filter, toList_insertAll_numbered h.below, List.filter_append,
        List.filter_eq_nil_iff.mpr, List.nil_append, List.filter_eq_self.mpr]
      · rintro ⟨i, q⟩ hq
        obtain ⟨j, rfl, hj⟩ := mem_numbered.mp hq
        have := (List.getElem?_eq_some_iff.mp hj).1
        simp only [decide_eq_true_iff]
        omega
      · rintro ⟨i, q⟩ hq
        have := h.below i q (OrdMap.find?_eq_some_iff.mpr hq)
        simp only [decide_eq_true_iff]
        omega
    rw [hrange, hcont, toList_insertAll_numbered fun i p hp => contents_lt h.stops hp]
    exact rfl
  obtain ⟨out, _, _, hrun, rfl⟩ := run_ok_of_wp hw
  rw [hrun]

/-! ## misreading -/

theorem getElem?_frame (q : Bytes) (i : Nat) : (frame q)[headerBytes + i]? = q[i]? := by
  have hlen : (u32ToLe q.length ++ u32ToLe (crc32c q).toNat).length = headerBytes := rfl
  rw [frame, List.getElem?_append_right (by omega), hlen, Nat.add_sub_cancel_left]

/-- Behind a piece of a frame some record is read back as another. -/
theorem exists_misread {written : Nat} (hpos : 0 < written) (hlt : written < (frame p).length) :
    ∃ q : Bytes, q.length < 2 ^ 32 ∧
      slice ((frame p).take written ++ frame q) headerBytes q.length ≠ q := by
  have hlen : ((frame p).take written).length = written := by
    rw [List.length_take]
    omega
  have hget : ∀ (q : Bytes) (i : Nat), i < q.length →
      (slice ((frame p).take written ++ frame q) headerBytes q.length)[i]? =
        ((frame p).take written ++ frame q)[headerBytes + i]? := by
    intro q i hi
    rw [slice, List.getElem?_take, if_pos hi, List.getElem?_drop]
  rcases Nat.lt_or_ge written headerBytes with hhead | hbody
  · -- the header is read for the first bytes, and the first byte where a later one stands
    refine ⟨1 :: List.replicate written 0, ?_, fun he => ?_⟩
    · simp only [List.length_cons, List.length_replicate, headerBytes] at hhead ⊢
      omega
    · have hread := congrArg (fun b => b[written]?) he
      rw [hget _ _ (by simp), List.getElem?_append_right (by omega), hlen,
        Nat.add_sub_cancel, ← Nat.add_zero headerBytes, getElem?_frame] at hread
      obtain ⟨m, rfl⟩ := Nat.exists_eq_add_of_lt hpos
      simp at hread
  · -- the first byte that is read does not depend on the record
    obtain ⟨c, hc⟩ : ∃ c : UInt8, ∀ b : UInt8,
        ((frame p).take written ++ frame [b])[headerBytes]? = some c := by
      rcases Nat.eq_or_lt_of_le hbody with rfl | hbody
      · refine ⟨1, fun b => ?_⟩
        rw [List.getElem?_append_right (by omega), hlen, Nat.sub_self]
        rfl
      · rw [length_frame] at hlt
        have hp0 : 0 < p.length := by omega
        refine ⟨p[0], fun b => ?_⟩
        rw [List.getElem?_append_left (by omega), List.getElem?_take, if_pos hbody,
          ← Nat.add_zero headerBytes, getElem?_frame, List.getElem?_eq_getElem hp0]
    obtain ⟨b, hb⟩ : ∃ b : UInt8, b ≠ c := by
      by_cases h0 : c = 0
      · exact ⟨1, by rw [h0]; decide⟩
      · exact ⟨0, Ne.symm h0⟩
    refine ⟨[b], by simp, fun he => ?_⟩
    have hread := congrArg (fun b => b[0]?) he
    rw [hget _ _ (by simp), Nat.add_zero, hc b] at hread
    exact hb (Option.some.inj hread).symm

/-- The record behind the piece is written, and its location points into the
piece. -/
theorem wp_append_lagging {Q : Unit → LogDir → SegmentedLog → Prop}
    {E : Error → LogDir → SegmentedLog → Prop} {C : LogDir → Prop} {s : Seg} {q : Bytes}
    (hact : log.active = some s.active) (hrot : log.needsRotation = true → s = ⟨next, []⟩)
    (hfile : dir.contains s.start = true) (hq : q.length < 2 ^ 32) (hC : ∀ d, C d)
    (hQ : ∀ log', log'.records = log.records.insert next
        ⟨s.start, s.bytes.length + headerBytes, q.length⟩ →
      Q () (dir.modify s.start (· ++ frame q)) log') :
    wp (SegmentedLog.append next q) Q E C dir log := by
  cases hneeds : log.needsRotation with
  | true =>
    obtain rfl := hrot hneeds
    rw [wp_append_rotating hneeds hq, LogDir.created, if_pos hfile]
    exact ⟨hC _, hC _, hQ _ rfl⟩
  | false =>
    rw [wp_append_active hact hneeds hq]
    exact ⟨hC _, hQ _ rfl⟩

omit [Ext] in
/-- What is read at a location is what the file has there. -/
theorem readLocs_mem {locs : List (Nat × RecordLoc)} {out : List (Nat × Bytes)}
    (h : SegmentedLog.readLocs dir locs = .ok out) {i : Nat} {loc : RecordLoc}
    (hloc : (i, loc) ∈ locs) {bytes : Bytes} (hb : dir.find? loc.segmentStart = some bytes) :
    (i, slice bytes loc.payloadOffset loc.len) ∈ out := by
  induction locs generalizing out with
  | nil => simp at hloc
  | cons x locs ih =>
    rw [SegmentedLog.readLocs] at h
    split at h
    · cases h
    · next bytes' hb' =>
        split at h
        · cases h
        · split at h
          · cases h
          · next rest hrest =>
              cases h
              rcases List.mem_cons.mp hloc with he | hloc
              · cases he
                rw [hb, Option.some.injEq] at hb'
                rw [hb']
                exact List.mem_cons_self
              · exact List.mem_cons_of_mem _ (ih hrest hloc)

/-- The process reads the record from inside the piece. -/
theorem wp_appendRead_lagging {s : Seg} {q : Bytes} (hfile : dir.find? s.start = some s.bytes)
    (hact : log.active = some s.active) (hrot : log.needsRotation = true → s = ⟨next, []⟩)
    (hq : q.length < 2 ^ 32) (piece : Bytes) (segmentMax : Nat) :
    wp (SegmentedLog.appendRead segmentMax next [q])
      (fun out _ _ => (next, slice (piece ++ frame q) headerBytes q.length) ∈ out.1)
      (fun _ _ _ => True) (fun _ => True) (dir.modify s.start (· ++ piece)) log := by
  have hpiece : (dir.modify s.start (· ++ piece)).find? s.start = some (s.bytes ++ piece) := by
    rw [OrdMap.find?_modify, if_pos rfl, hfile]
    rfl
  rw [SegmentedLog.appendRead, wp_bind, SegmentedLog.appendAll, SegmentedLog.appendAll, wp_bind]
  refine wp_append_lagging hact hrot (by rw [OrdMap.contains, hpiece]; rfl) hq (fun _ => trivial)
    fun log' hrec => ?_
  rw [wp_pure, wp_bind, SegmentedLog.sync, wp_pure, wp_bind, SegmentedLog.readRange, wp_bind,
    wp_getDisk, wp_bind, wp_getMem, if_neg (by omega)]
  cases hr : SegmentedLog.readLocs ((dir.modify s.start (· ++ piece)).modify s.start (· ++ frame q))
      (log'.records.filter fun k _ => next ≤ k ∧ k < next + [q].length).toList with
  | error e => trivial
  | ok out =>
    have hloc : (next, (⟨s.start, s.bytes.length + headerBytes, q.length⟩ : RecordLoc)) ∈
        (log'.records.filter fun k _ => next ≤ k ∧ k < next + [q].length).toList := by
      rw [OrdMap.toList_filter, List.mem_filter, ← OrdMap.find?_eq_some_iff, hrec]
      simp
    have hmem := readLocs_mem hr hloc (by rw [OrdMap.find?_modify, if_pos rfl, hpiece]; rfl)
    have hslice : slice (s.bytes ++ piece ++ frame q) (s.bytes.length + headerBytes) q.length =
        slice (piece ++ frame q) headerBytes q.length := by
      rw [slice, slice, List.append_assoc, List.drop_length_add_append]
    rw [wp_ofExcept_ok, wp_bind]
    refine wp_imp (wp_trivial _) fun _ d l _ => ?_
    rw [wp_bind]
    refine wp_imp (wp_trivial _) fun _ d l _ => ?_
    exact hslice ▸ hmem

/-- **A failed append** leaves the log usable exactly when no byte of the frame was
written: then records that are appended from there on are read back in the process
and after opening again; otherwise a record exists that is read back as another. -/
theorem failed_append_usable_iff (h : LogUse segmentMax dir log lo next) (hp : p.length < 2 ^ 32)
    {written : Nat} (hlt : written < (frame p).length) (kind : IoKind) :
    ∃ dir' log', (SegmentedLog.appendShort next p written kind).run dir log =
        (.error (.io kind), dir', log') ∧
      (∀ i, log'.lastIndex = some i → next = i + 1) ∧
      ((∀ ps : List Bytes, (∀ q ∈ ps, q.length < 2 ^ 32) → ∃ again,
          ((SegmentedLog.appendRead segmentMax next ps).run dir' log').1 =
            .ok (numbered next ps, again) ∧ ∀ r ∈ numbered next ps, r ∈ again) ↔ written = 0) := by
  obtain ⟨segs, hend⟩ := h.endsAt
  obtain ⟨mem, hext⟩ := hend.extensible
  obtain ⟨dir₁, log₁, segs₁, s, hext₁, hs, hact, hrot, hrecs, hrun⟩ :=
    hext.appendShort hp written kind
  refine ⟨_, log₁, hrun, fun i hi => ?_, fun hall => ?_, ?_⟩
  · rw [SegmentedLog.lastIndex, hrecs] at hi
    exact hend.lastIndex hi
  · by_contra hpos
    obtain ⟨q, hq, hwrong⟩ := exists_misread (Nat.pos_of_ne_zero hpos) hlt
    obtain ⟨again, hread, _⟩ := hall [q] (by simpa using hq)
    obtain ⟨_, _, hmem⟩ := value_of_wp (wp_appendRead_lagging (hext₁.dirRep.find? hs) hact hrot hq
      ((frame p).take written) segmentMax) hread
    simp only [numbered, List.mem_singleton, Prod.mk.injEq] at hmem
    exact hwrong hmem.2
  · rintro rfl ps hps
    have hsame : dir₁.modify s.start (· ++ (frame p).take 0) = dir₁ := by
      refine OrdMap.ext_find? fun k => ?_
      by_cases hk : k = s.start <;> simp [OrdMap.find?_modify, hk]
    rw [hsame]
    refine ⟨_, hext₁.appendRead hps segmentMax, fun r hr => List.mem_append_right _ hr⟩

end

end

section
open Reference

theorem emptyLog_use : LogUse 64 ∅ ⟨64, [], ∅, none⟩ 0 5 :=
  .opened 5 (rfl : (SegmentedLog.openWithSegmentMax 64).run ∅ .closed = _)

/-- A log with two records. -/
def twoAppended : LogDir × SegmentedLog :=
  after (SegmentedLog.append 6 [20]) <|
    after (SegmentedLog.append 5 [10]) (∅, ⟨64, [], ∅, none⟩)

theorem twoAppended_use : LogUse 64 twoAppended.1 twoAppended.2 0 7 :=
  .append [20] (.append [10] emptyLog_use (Prod.ext (by decide +kernel) rfl))
    (Prod.ext (by decide +kernel) rfl)

/-- Three bytes of the third record. -/
theorem failed_append_usable_iff_three :
    ∃ dir' log', (SegmentedLog.appendShort 7 [30] 3 .unexpectedEof).run twoAppended.1
        twoAppended.2 = (.error (.io .unexpectedEof), dir', log') ∧
      ((∀ ps : List Bytes, (∀ q ∈ ps, q.length < 2 ^ 32) → ∃ again,
          ((SegmentedLog.appendRead 64 7 ps).run dir' log').1 = .ok (numbered 7 ps, again) ∧
            ∀ r ∈ numbered 7 ps, r ∈ again) ↔ 3 = 0) := by
  obtain ⟨dir', log', hrun, _, hiff⟩ :=
    failed_append_usable_iff (p := [30]) twoAppended_use (by decide)
      (by decide +kernel : 3 < (frame [30]).length) .unexpectedEof
  exact ⟨dir', log', hrun, hiff⟩

/-- The record that is appended next is read back as a byte of a checksum, and is
gone when the log is opened again. -/
theorem failed_append_hides_next :
    LogUse 64 ∅ ⟨64, [], ∅, none⟩ 0 5 ∧
      ∃ dir' log', (SegmentedLog.appendShort 5 [10] 3 .unexpectedEof).run ∅ ⟨64, [], ∅, none⟩ =
          (.error (.io .unexpectedEof), dir', log') ∧
        ((SegmentedLog.appendRead 64 5 [[20]]).run dir' log').1 = .ok ([(5, [3])], []) :=
  ⟨emptyLog_use, _, _, Prod.ext (by decide +kernel) rfl, by decide +kernel⟩

end

end Lumen
