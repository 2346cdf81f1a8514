import Lumen.Catalog
import Lumen.Log.Sync
import Lumen.LogStore.Refine

/-!
# Lumen.Log.Padding

A crash that keeps some of the bytes that were written and not synced, and pads
them with zeros.

Behind the whole records that survive, recovery meets a piece of the next record
and the zeros.  Eight zero bytes are a frame of their own: the checksum of no
bytes is zero.  So the zeros make up a record as soon as they are not taken for the
end of the record that was cut (`Volume.Harmless`).
-/

namespace Lumen

open Lib Prog

def zeros (n : Nat) : Bytes := List.replicate n 0

/-- The numbered list of a prefix is part of the numbered list. -/
theorem numbered_subset_iff {first : Nat} {qs ps : List Bytes} :
    (∀ r ∈ numbered first qs, r ∈ numbered first ps) ↔ qs <+: ps := by
  constructor
  · intro h
    refine List.prefix_iff_getElem?.mpr fun i hi => ?_
    have hq : qs[i]? = some qs[i] := List.getElem?_eq_getElem hi
    obtain ⟨j, hj, hp⟩ := mem_numbered.mp (h _ (mem_numbered.mpr ⟨i, rfl, hq⟩))
    obtain rfl : j = i := by omega
    exact hp
  · rintro ⟨rest, rfl⟩ r hr
    rw [numbered_append]
    exact List.mem_append_left _ hr

section
variable [Ext]

/-! ## frames that are cut and padded -/

theorem frame_nil : frame [] = zeros headerBytes := by
  rw [frame, Ext.crc32c_nil]
  rfl

omit [Ext] in
theorem zeros_add (m n : Nat) : zeros (m + n) = zeros m ++ zeros n := List.replicate_add m n 0

/-- Zeros that are a header are taken for an empty record. -/
theorem accepted_zeros {n : Nat} (h : headerBytes ≤ n) :
    ∃ rest, accepted (zeros n) = [] :: rest := by
  obtain ⟨m, rfl⟩ := Nat.exists_eq_add_of_le h
  have hframes : zeros (headerBytes + m) = frames [[]] ++ zeros m := by
    rw [zeros_add, frames_singleton, frame_nil]
  rw [hframes, (accepted_append (by simp) _).1]
  exact ⟨_, rfl⟩

/-- A prefix of frames is whole frames and a piece of the next. -/
theorem take_frames {xs : List Bytes} (h : ∀ p ∈ xs, p.length < 2 ^ 32) (n : Nat) :
    ∃ i, accepted ((frames xs).take n) = xs.take i ∧ i ≤ xs.length ∧
      (frames xs).take n = frames (xs.take i) ++ residue ((frames xs).take n) ∧
      (residue ((frames xs).take n) = [] ∨ ∃ q, xs[i]? = some q ∧
        (residue ((frames xs).take n)).length < (frame q).length) := by
  induction xs generalizing n with
  | nil =>
    refine ⟨0, ?_, Nat.le_refl _, ?_, Or.inl ?_⟩
    · simp only [frames_nil, List.take_nil]
      exact accepted_eq_nil.mpr rejects_nil
    · simp only [frames_nil, List.take_nil, residue, List.drop_nil, List.append_nil]
    · simp only [frames_nil, List.take_nil, residue, List.drop_nil]
  | cons p xs ih =>
    have hp := h p List.mem_cons_self
    rcases Nat.lt_or_ge n (frame p).length with hn | hn
    · have htake : (frames (p :: xs)).take n = (frame p).take n := by
        rw [frames_cons, List.take_append_of_le_length (Nat.le_of_lt hn)]
      have hrej := rejects_take_frame hp hn
      have hres : residue ((frame p).take n) = (frame p).take n := by
        have hs := residue_split (by simp : ∀ q ∈ ([] : List Bytes), q.length < 2 ^ 32) hrej
        rwa [frames_nil, List.nil_append] at hs
      rw [htake, hres]
      refine ⟨0, accepted_eq_nil.mpr hrej, Nat.zero_le _, rfl, Or.inr ⟨p, rfl, ?_⟩⟩
      rw [List.length_take]
      omega
    · obtain ⟨m, rfl⟩ := Nat.exists_eq_add_of_le hn
      have htake : (frames (p :: xs)).take ((frame p).length + m) =
          frames [p] ++ (frames xs).take m := by
        rw [frames_cons, frames_singleton, List.take_append, List.take_of_length_le (by omega),
          Nat.add_sub_cancel_left]
      obtain ⟨hacc, hres⟩ := accepted_append
        (by simpa using hp : ∀ q ∈ [p], q.length < 2 ^ 32) ((frames xs).take m)
      obtain ⟨i, h₁, h₂, h₃, h₄⟩ := ih (fun q hq => h q (List.mem_cons_of_mem p hq)) m
      rw [htake, hacc, hres]
      refine ⟨i + 1, by rw [h₁]; rfl, by simpa using h₂, ?_, ?_⟩
      · rw [frames_singleton, List.take_succ_cons, frames_cons, List.append_assoc, ← h₃]
      · simpa using h₄

/-- What the zeros behind a cut frame do: nothing is accepted but records of the
list exactly when the bytes are rejected, or complete the frame that was cut and
are no header behind it. -/
theorem accepted_padded {xs : List Bytes} (hsmall : ∀ p ∈ xs, p.length < 2 ^ 32)
    (hne : ∀ p ∈ xs, p ≠ []) (piece : Bytes) (z : Nat)
    (hpiece : piece = [] ∨ ∃ q, xs[0]? = some q ∧ piece.length < (frame q).length) :
    accepted (piece ++ zeros z) <+: xs ↔
      if piece = [] then z < headerBytes
      else rejects (piece ++ zeros z) = true ∨
        ∃ q, xs[0]? = some q ∧ ∃ w < headerBytes, piece ++ zeros z = frame q ++ zeros w := by
  have hzeros : ∀ n, accepted (zeros n) <+: xs.drop 1 ∨ accepted (zeros n) <+: xs →
      n < headerBytes := by
    intro n hn
    by_contra hge
    obtain ⟨rest, hrest⟩ := accepted_zeros (Nat.le_of_not_lt hge)
    rw [hrest] at hn
    have hmem : ([] : Bytes) ∈ xs := by
      rcases hn with hn | hn
      · exact List.mem_of_mem_drop (hn.subset List.mem_cons_self)
      · exact hn.subset List.mem_cons_self
    exact hne [] hmem rfl
  have hnone : ∀ n, n < headerBytes → accepted (zeros n) = [] := fun n hn =>
    accepted_eq_nil.mpr ((rejects_zeros n).mpr hn)
  have hcons : ∀ q, xs[0]? = some q → ∃ ys, xs = q :: ys ∧ q.length < 2 ^ 32 := by
    intro q hq
    cases xs with
    | nil => simp at hq
    | cons x ys =>
      obtain rfl : x = q := by simpa using hq
      exact ⟨ys, rfl, hsmall x List.mem_cons_self⟩
  by_cases hp : piece = []
  · rw [if_pos hp, hp, List.nil_append]
    exact ⟨fun h => hzeros z (Or.inr h), fun h => by rw [hnone z h]; exact List.nil_prefix⟩
  rw [if_neg hp]
  constructor
  · intro h
    obtain ⟨q, hq, hlen⟩ := hpiece.resolve_left hp
    obtain ⟨ys, rfl, hqlen⟩ := hcons q hq
    obtain ⟨hsplit, _, _⟩ := split_accepted (piece ++ zeros z)
    cases hacc : accepted (piece ++ zeros z) with
    | nil => exact Or.inl (accepted_eq_nil.mp hacc)
    | cons q' rest =>
      rw [hacc] at h hsplit
      obtain ⟨rfl, hrest⟩ := List.cons_prefix_cons.mp h
      rw [frames_cons, List.append_assoc] at hsplit
      -- the frame ends in the zeros, so only zeros are left behind it
      have hzero : frames rest ++ residue (piece ++ zeros z) =
          zeros (z - ((frame q').length - piece.length)) := by
        have hdrop := congrArg (List.drop (frame q').length) hsplit
        rw [List.drop_left, List.drop_append, List.drop_of_length_le (Nat.le_of_lt hlen),
          List.nil_append, zeros, List.drop_replicate] at hdrop
        exact hdrop.symm
      rw [hzero] at hsplit
      refine Or.inr ⟨q', rfl, _, hzeros _ (Or.inl ?_), hsplit⟩
      have htail := (accepted_append (by simpa using hqlen : ∀ x ∈ [q'], x.length < 2 ^ 32)
        (zeros (z - ((frame q').length - piece.length)))).1
      rw [frames_singleton, ← hsplit, hacc] at htail
      have heq : rest = accepted (zeros (z - ((frame q').length - piece.length))) := by
        simpa using htail
      rw [← heq]
      exact hrest
  · rintro (hrej | ⟨q, hq, w, hw, heq⟩)
    · rw [accepted_eq_nil.mpr hrej]
      exact List.nil_prefix
    · obtain ⟨ys, rfl, hqlen⟩ := hcons q hq
      have hone := (accepted_append (by simpa using hqlen : ∀ x ∈ [q], x.length < 2 ^ 32)
        (zeros w)).1
      rw [frames_singleton, hnone w hw, ← heq] at hone
      rw [hone]
      exact List.cons_prefix_cons.mpr ⟨rfl, List.nil_prefix⟩

/-! ## padded crashes -/

namespace Volume

omit [Ext] in
/-- The bytes of the active segment that are not synced. -/
def unsynced (v : Volume) : Bytes :=
  match v.log.active with
  | none => []
  | some active => ((v.dir.find? active.start).getD []).drop (v.synced active.start)

/-- Of the bytes that are not synced the first `n`, and `z` zero bytes. -/
def padded (n z : Nat) (v : Volume) : Bytes := v.unsynced.take n ++ zeros z

/-- What is kept of the record that the crash cut. -/
def piece (n : Nat) (v : Volume) : Bytes := residue (v.unsynced.take n)

/-- The record that the crash cut. -/
def cutRecord (n : Nat) (v : Volume) : Option Bytes :=
  (accepted v.unsynced)[(accepted (v.unsynced.take n)).length]?

/-- The zeros are no header of their own: behind whole records there are fewer
than eight; behind a piece of a record the scan rejects the piece with the zeros,
or the zeros are the end of that record and fewer than eight are left. -/
def Harmless (n z : Nat) (v : Volume) : Prop :=
  v.log.active = none ∨
    if v.piece n = [] then z < headerBytes
    else rejects (v.piece n ++ zeros z) = true ∨
      ∃ q, v.cutRecord n = some q ∧ ∃ w < headerBytes, v.piece n ++ zeros z = frame q ++ zeros w

variable {segmentMax first k : Nat} {v : Volume} {pre : List Seg} {s : Seg} {ps : List Bytes}

theorem Inv.unsynced_eq (h : v.Inv segmentMax first (pre ++ [s]) ps k) {j : Nat}
    (hj : v.synced s.start = (frames (s.payloads.take j)).length) :
    v.unsynced = frames (s.payloads.drop j) := by
  have hact : v.log.active = some s.active := by rw [h.active, List.getLast?_concat]; rfl
  have hfind := h.log.dirRep.find? (by simp : s ∈ pre ++ [s])
  have hsplit : s.bytes = frames (s.payloads.take j) ++ frames (s.payloads.drop j) := by
    rw [← frames_append, List.take_append_drop]
    rfl
  rw [unsynced, hact]
  show ((v.dir.find? s.start).getD []).drop (v.synced s.start) = _
  rw [hfind, hj, Option.getD_some, hsplit, List.drop_left]

/-- A padded crash is harmless when what is recovered behind the synced records
are records that were written there. -/
theorem Inv.harmless_iff (h : v.Inv segmentMax first (pre ++ [s]) ps k) {j : Nat}
    (hj : v.synced s.start = (frames (s.payloads.take j)).length) (hne : ∀ p ∈ ps, p ≠ [])
    (n z : Nat) :
    v.Harmless n z ↔ accepted (v.padded n z) <+: s.payloads.drop j := by
  have hact : v.log.active ≠ none := by rw [h.active, List.getLast?_concat]; simp
  have hu := h.unsynced_eq hj
  obtain ⟨us, hps, _⟩ := h.exists_before
  have hsmall : ∀ p ∈ s.payloads.drop j, p.length < 2 ^ 32 := fun p hp =>
    h.log.dirRep.small s (by simp) p (List.mem_of_mem_drop hp)
  obtain ⟨i, hacc, hi, hkept, hpiece⟩ := take_frames hsmall n
  rw [← hu] at hacc hkept hpiece
  have htake : ∀ p ∈ (s.payloads.drop j).take i, p.length < 2 ^ 32 := fun p hp =>
    hsmall p (List.mem_of_mem_take hp)
  have hcut : v.cutRecord n = ((s.payloads.drop j).drop i)[0]? := by
    rw [cutRecord, hacc, hu, accepted_frames hsmall, List.length_take, Nat.min_eq_left hi,
      List.getElem?_drop (i := i), Nat.add_zero]
  have hpad : accepted (v.padded n z) =
      (s.payloads.drop j).take i ++ accepted (v.piece n ++ zeros z) := by
    rw [padded, hkept, List.append_assoc, (accepted_append htake _).1]
    rfl
  have hpre : accepted (v.padded n z) <+: s.payloads.drop j ↔
      accepted (v.piece n ++ zeros z) <+: (s.payloads.drop j).drop i := by
    conv_lhs => rw [hpad, ← List.take_append_drop i (s.payloads.drop j)]
    rw [List.take_left' (by rw [List.length_take, Nat.min_eq_left hi])]
    exact List.prefix_append_right_inj _
  rw [hpre, Harmless, hcut, accepted_padded (fun p hp => hsmall p (List.mem_of_mem_drop hp))]
  · simp [hact]
  · exact fun p hp => hne p (by
      rw [hps]
      exact List.mem_append_right _ (List.mem_of_mem_drop (List.mem_of_mem_drop hp)))
  · refine hpiece.imp_right fun ⟨q, hq, hlen⟩ => ⟨q, ?_, hlen⟩
    rw [List.getElem?_drop, Nat.add_zero]
    exact hq

end Volume

/-! ## what can be read -/

/-- Every record that the log can read is one of `items`. -/
def ReadsOnly (items : List (Nat × Bytes)) (dir : LogDir) (log : SegmentedLog) : Prop :=
  ∀ i loc bytes, log.records.find? i = some loc → dir.find? loc.segmentStart = some bytes →
    (i, slice bytes loc.payloadOffset loc.len) ∈ items

namespace ReadsOnly

variable {items : List (Nat × Bytes)} {dir : LogDir} {log : SegmentedLog}

theorem of_live {segs : List Seg} {mem : OrdMap Nat Bytes} (h : Live segs log.records mem)
    (hdir : DirRep dir segs) (hsub : ∀ r ∈ mem.toList, r ∈ items) : ReadsOnly items dir log := by
  intro i loc bytes hl hb
  obtain ⟨r, hr, rfl, rfl, hp⟩ := h.read i loc hl
  obtain ⟨bytes', hfind, _, hslice⟩ := hdir.readable hr
  rw [hb, Option.some.injEq] at hfind
  rw [hfind, hslice]
  exact hsub _ (OrdMap.find?_eq_some_iff.mp hp)

omit [Ext] in
theorem readLocs (h : ReadsOnly items dir log) {locs : List (Nat × RecordLoc)}
    (hlocs : ∀ x ∈ locs, log.records.find? x.1 = some x.2) {out : List (Nat × Bytes)}
    (hout : SegmentedLog.readLocs dir locs = .ok out) : ∀ r ∈ out, r ∈ items := by
  induction locs generalizing out with
  | nil =>
    cases hout
    simp
  | cons x locs ih =>
    obtain ⟨i, loc⟩ := x
    rw [SegmentedLog.readLocs] at hout
    split at hout
    · cases hout
    · next bytes hb =>
        split at hout
        · cases hout
        · split at hout
          · cases hout
          · next rest hrest =>
              cases hout
              refine List.forall_mem_cons.mpr ⟨?_, ih (fun x hx => hlocs x (by simp [hx])) hrest⟩
              exact h i loc bytes (hlocs (i, loc) List.mem_cons_self) hb

variable {E : Error → LogDir → SegmentedLog → Prop} {C : LogDir → Prop}

omit [Ext] in
theorem wp_readAll (h : ReadsOnly items dir log)
    {Q : List (Nat × Bytes) → LogDir → SegmentedLog → Prop} (hE : ∀ e, E e dir log)
    (hQ : ∀ out, (∀ r ∈ out, r ∈ items) → Q out dir log) :
    wp SegmentedLog.readAll Q E C dir log := by
  rw [SegmentedLog.readAll, wp_bind, wp_getDisk, wp_bind, wp_getMem]
  cases hr : SegmentedLog.readLocs dir log.records.toList with
  | error e => exact hE e
  | ok out => exact hQ out (h.readLocs (fun x hx => OrdMap.find?_eq_some_iff.mpr hx) hr)

omit [Ext] in
theorem wp_readRange (h : ReadsOnly items dir log)
    {Q : List (Nat × Bytes) → LogDir → SegmentedLog → Prop} (hE : ∀ e, E e dir log)
    (hQ : ∀ out, (∀ r ∈ out, r ∈ items) → Q out dir log) (lo hi : Nat) :
    wp (SegmentedLog.readRange lo hi) Q E C dir log := by
  rw [SegmentedLog.readRange, wp_bind, wp_getDisk, wp_bind, wp_getMem]
  split
  · exact hE _
  · cases hr : SegmentedLog.readLocs dir
        (log.records.filter fun k _ => lo ≤ k ∧ k < hi).toList with
    | error e => exact hE e
    | ok out =>
      refine hQ out (h.readLocs (fun x hx => OrdMap.find?_eq_some_iff.mpr ?_) hr)
      exact (List.mem_filter.mp hx).1

omit [Ext] in
theorem erase (h : ReadsOnly items dir log) (start : Nat) :
    ReadsOnly items (dir.erase start) log := by
  intro i loc bytes hl hb
  rw [OrdMap.find?_erase] at hb
  split at hb
  · cases hb
  · exact h i loc bytes hl hb

variable {Q : Unit → LogDir → SegmentedLog → Prop}

omit [Ext] in
/-- A purge leaves nothing new to read. -/
theorem wp_purgeThrough (h : ReadsOnly items dir log) (index : Nat)
    (hQ : ∀ dir' log', ReadsOnly items dir' log' → Q () dir' log') :
    wp (SegmentedLog.purgeThrough index) Q (fun _ _ _ => True) (fun _ => True) dir log := by
  rw [SegmentedLog.purgeThrough, wp_bind, wp_modifyMem, wp_bind, wp_getMem, wp_bind]
  have hfilter : ReadsOnly items dir
      { log with records := log.records.filter fun k _ => index < k } := by
    intro i loc bytes hl hb
    rw [OrdMap.find?_eq_some_iff, OrdMap.toList_filter] at hl
    exact h i loc bytes (OrdMap.find?_eq_some_iff.mpr (List.mem_filter.mp hl).1) hb
  refine wp_mono _ (wp_purgeFiles_erase (I := fun d => ReadsOnly items d _)
    (fun _ start hd => hd.erase start) hfilter index _ _) (fun _ d l hd => ?_)
    (fun _ _ _ _ => trivial) fun _ _ => trivial
  obtain ⟨hd, rfl⟩ := hd
  exact hQ _ _ fun i loc bytes hl hb => hd i loc bytes hl hb

end ReadsOnly

/-! ## the log, the write-ahead log and the Raft log -/

section
variable {items : List (Nat × Bytes)} {dir : LogDir}

/-- The entries of `Wal::open` are decoded from what the log reads. -/
theorem Wal.openWal_readsOnly
    (hopen : wp SegmentedLog.openLog (fun _ dir' log' => ReadsOnly items dir' log')
      (fun _ _ _ => False) (fun _ => True) dir .closed) {es : List Proto.WalEntry}
    (hes : (Wal.openWal.run dir .closed).1 = .ok es) :
    ∃ rs, (∀ r ∈ rs, r ∈ items) ∧ Wal.decodeAll rs = .ok es := by
  have hw : wp Wal.openWal (fun es _ _ => ∃ rs, (∀ r ∈ rs, r ∈ items) ∧ Wal.decodeAll rs = .ok es)
      (fun _ _ _ => True) (fun _ => True) dir .closed := by
    rw [Wal.openWal, wp_bind]
    refine wp_mono _ hopen (fun _ d l hd => ?_) (fun _ _ _ _ => trivial) fun _ _ => trivial
    rw [wp_bind]
    refine hd.wp_readAll (fun _ => trivial) fun rs hrs => ?_
    cases hdec : Wal.decodeAll rs with
    | error e => trivial
    | ok out => exact ⟨rs, hrs, hdec⟩
  obtain ⟨_, _, hrs⟩ := value_of_wp hw hes
  exact hrs

namespace LogStore

/-- After `LogStore::open` the log reads no more than it did before the purge. -/
theorem openStore_readsOnly
    (hopen : wp SegmentedLog.openLog (fun _ dir' log' => ReadsOnly items dir' log')
      (fun _ _ _ => False) (fun _ => True) dir .closed) {metaPb metaTmp : Option Bytes}
    {d' : StoreDir} {s' : LogStore}
    (hrun : openStore.run ⟨dir, metaPb, metaTmp⟩ default = (.ok (), d', s')) :
    ReadsOnly items d'.log s'.log := by
  have hw : wp openStore (fun _ d s => ReadsOnly items d.log s.log) (fun _ _ _ => True)
      (fun _ => True) ⟨dir, metaPb, metaTmp⟩ default := by
    rw [openStore, wp_bind]
    refine wp_onLog _ _ (wp_mono _ hopen (fun _ d l hd => ?_) (fun _ _ _ h => h.elim)
      fun _ _ => trivial)
    rw [wp_bind, wp_getDisk, wp_bind]
    generalize loadMeta _ = loaded
    cases loaded with
    | error e => trivial
    | ok loaded =>
      rw [wp_ofExcept_ok, wp_bind, wp_modifyMem]
      unfold purgeFloor
      split
      · exact hd
      · exact wp_onLog _ _ (hd.wp_purgeThrough _ fun _ _ h => h)
  exact post_of_wp hw hrun

variable {d : StoreDir} {s : LogStore}

theorem tryGetLogEntries_readsOnly (h : ReadsOnly items d.log s.log) {start stop : Bound}
    {es : List Raft.Entry} (hes : ((tryGetLogEntries start stop).run d s).1 = .ok es) :
    ∃ rs, (∀ r ∈ rs, r ∈ items) ∧ decodeEntries rs = .ok es := by
  have hw : wp (tryGetLogEntries start stop)
      (fun es _ _ => ∃ rs, (∀ r ∈ rs, r ∈ items) ∧ decodeEntries rs = .ok es)
      (fun _ _ _ => True) (fun _ => True) d s := by
    rw [tryGetLogEntries, wp_bind, wp_getMem, wp_bind]
    refine wp_onLog _ _ (h.wp_readRange (fun _ => trivial) (fun rs hrs => ?_) _ _)
    cases hdec : decodeEntries rs with
    | error e => trivial
    | ok out => exact ⟨rs, hrs, hdec⟩
  obtain ⟨_, _, hrs⟩ := value_of_wp hw hes
  exact hrs

theorem getLogState_readsOnly (h : ReadsOnly items d.log s.log) {state : LogState}
    (hst : (getLogState.run d s).1 = .ok state) :
    state.lastLogId = state.lastPurgedLogId ∨
      ∃ r ∈ items, ∃ e, decodeEntry r.2 = .ok e ∧ state.lastLogId = some e.logId := by
  have hw : wp getLogState (fun state _ _ => state.lastLogId = state.lastPurgedLogId ∨
      ∃ r ∈ items, ∃ e, decodeEntry r.2 = .ok e ∧ state.lastLogId = some e.logId)
      (fun _ _ _ => True) (fun _ => True) d s := by
    rw [getLogState, wp_bind, wp_getMem, wp_bind]
    cases s.log.lastIndex with
    | none => exact Or.inl rfl
    | some index =>
      rw [lastLogId, wp_bind]
      refine wp_onLog _ _ (h.wp_readRange (fun _ => trivial) (fun rs hrs => ?_) _ _)
      cases rs with
      | nil => trivial
      | cons r rs =>
        show wp (ofExcept (decodeEntry r.2) >>= fun entry => pure (some entry.logId)) _ _ _ _ _
        cases hdec : decodeEntry r.2 with
        | error e => trivial
        | ok e => exact Or.inr ⟨r, hrs r List.mem_cons_self, e, hdec, rfl⟩
  obtain ⟨_, _, hrs⟩ := value_of_wp hw hst
  exact hrs

end LogStore

end

section
variable {segmentMax first k : Nat} {v : Volume} {ps : List Bytes}

/-- What a padded crash is recovered to. -/
theorem Volume.Inv.padded {segs : List Seg} (h : v.Inv segmentMax first segs ps k)
    (hne : ∀ p ∈ ps, p ≠ []) (n z : Nat) :
    ∃ v' segs' qs, Volume.openOn segmentMax (v.crash (v.padded n z)) v.synced = (.ok (), v') ∧
      v'.Inv segmentMax first segs' qs k ∧ (qs <+: ps ↔ v.Harmless n z) := by
  rcases List.eq_nil_or_concat' segs with rfl | ⟨pre, s, rfl⟩
  · obtain ⟨_, v', hopen, hinv⟩ := h.reopened_nil (v.padded n z)
    refine ⟨v', [], [], hopen, hinv, iff_of_true List.nil_prefix (Or.inl ?_)⟩
    rw [h.active]
    rfl
  · obtain ⟨_, j, hj, hjle, hk⟩ := h.last s (by simp)
    obtain ⟨v', us, hopen, hps, hinv, _⟩ := h.recovered hj hjle hk (v.padded n z)
    refine ⟨v', _, _, hopen, hinv, ?_⟩
    rw [h.harmless_iff hj hne, hps, List.prefix_append_right_inj]
    conv_lhs => rw [← List.take_append_drop j s.payloads]
    rw [List.take_left' (by rw [List.length_take, Nat.min_eq_left hjle])]
    exact List.prefix_append_right_inj _

/-- The log that `openOn` opens. -/
theorem Volume.wp_openLog {dir : LogDir} {synced : Nat → Nat} {v' : Volume}
    {items : List (Nat × Bytes)}
    (h : Volume.openOn defaultSegmentMaxBytes dir synced = (.ok (), v'))
    (hread : ReadsOnly items v'.dir v'.log) :
    wp SegmentedLog.openLog (fun _ dir' log' => ReadsOnly items dir' log') (fun _ _ _ => False)
      (fun _ => True) dir .closed := by
  rw [SegmentedLog.openLog, wp_iff]
  rw [Volume.openOn] at h
  generalize (SegmentedLog.openWithSegmentMax defaultSegmentMaxBytes).run dir .closed = out at h ⊢
  obtain ⟨r, dir', log'⟩ := out
  obtain ⟨rfl, rfl⟩ := Prod.mk.inj h
  refine ⟨fun _ _ => trivial, ?_⟩
  split at hread
  · exact hread
  · rwa [Volume.sync_dir, Volume.sync_log] at hread

/-- **What a padded crash brings back.**  The records that are recovered after a
crash that keeps `n` bytes behind the synced ones and pads them with `z` zeros were
all appended, at their indexes, exactly when the zeros are harmless; then the
write-ahead log and the Raft log see no others. -/
theorem padded_crash_invents_nothing_iff {crashes : Prop}
    (h : LogRun crashes segmentMax first v ps k) (hne : ∀ p ∈ ps, p ≠ []) (n z : Nat) :
    ∃ v' rs, Volume.openOn segmentMax (v.crash (v.padded n z)) v.synced = (.ok (), v') ∧
      v'.readAll = .ok rs ∧ ((∀ r ∈ rs, r ∈ numbered first ps) ↔ v.Harmless n z) ∧
      (segmentMax = defaultSegmentMaxBytes → v.Harmless n z →
        (∀ es, (Wal.openWal.run (v.crash (v.padded n z)) .closed).1 = .ok es →
          ∃ rs, (∀ r ∈ rs, r ∈ numbered first ps) ∧ Wal.decodeAll rs = .ok es) ∧
        ∀ metaPb metaTmp d s,
          LogStore.openStore.run ⟨v.crash (v.padded n z), metaPb, metaTmp⟩ default =
              (.ok (), d, s) →
            (∀ start stop es, ((LogStore.tryGetLogEntries start stop).run d s).1 = .ok es →
              ∃ rs, (∀ r ∈ rs, r ∈ numbered first ps) ∧ LogStore.decodeEntries rs = .ok es) ∧
            ∀ state, (LogStore.getLogState.run d s).1 = .ok state →
              state.lastLogId = state.lastPurgedLogId ∨ ∃ r ∈ numbered first ps, ∃ e,
                LogStore.decodeEntry r.2 = .ok e ∧ state.lastLogId = some e.logId) := by
  obtain ⟨segs, hinv⟩ := h.inv
  obtain ⟨v', segs', qs, hopen, hinv', hiff⟩ := hinv.padded hne n z
  refine ⟨v', _, hopen, hinv'.readAll, numbered_subset_iff.trans hiff, fun hmax hharm => ?_⟩
  subst hmax
  have hread : ReadsOnly (numbered first ps) v'.dir v'.log := by
    refine .of_live hinv'.log.live hinv'.log.dirRep ?_
    rw [hinv'.toList_contents]
    exact numbered_subset_iff.mpr (hiff.mpr hharm)
  have hw := Volume.wp_openLog hopen hread
  refine ⟨fun es hes => Wal.openWal_readsOnly hw hes, fun metaPb metaTmp d s hrun => ?_⟩
  have hstore := LogStore.openStore_readsOnly hw hrun
  exact ⟨fun start stop es hes => LogStore.tryGetLogEntries_readsOnly hstore hes,
    fun state hst => LogStore.getLogState_readsOnly hstore hst⟩

end

end

section
open Reference

/-- Half the second record is kept and padded: nothing is invented. -/
theorem padded_crash_invents_nothing_iff_half :
    ∃ v' rs, Volume.openOn 1 (halfSynced.crash (halfSynced.padded 4 16)) halfSynced.synced =
        (.ok (), v') ∧ v'.readAll = .ok rs ∧
      ((∀ r ∈ rs, r ∈ numbered 5 [[10], [20]]) ↔ halfSynced.Harmless 4 16) := by
  obtain ⟨v', rs, hopen, hread, hiff, _⟩ :=
    padded_crash_invents_nothing_iff halfSynced_run (by decide) 4 16
  exact ⟨v', rs, hopen, hread, hiff⟩

/-- Nothing of the second record reached the disk, but the file was extended by
eight bytes: an empty record is recovered in its place. -/
theorem padded_crash_invents_record :
    LogRun True 1 5 halfSynced [[10], [20]] 1 ∧
      (Volume.openOn 1 (halfSynced.crash (halfSynced.padded 0 8)) halfSynced.synced).1 = .ok () ∧
      (Volume.openOn 1 (halfSynced.crash (halfSynced.padded 0 8)) halfSynced.synced).2.readAll =
        .ok [(5, [10]), (6, [])] ∧
      (6, []) ∉ numbered 5 [[10], [20]] :=
  ⟨halfSynced_run, by decide +kernel, by decide +kernel, by decide⟩

end

end Lumen
