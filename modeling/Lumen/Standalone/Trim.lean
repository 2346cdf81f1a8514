import Lumen.Catalog.Open
import Lumen.Log.Contents
import Lumen.Log.Inv
import Lumen.Reference

/-!
# Lumen.Standalone.Trim

Whole runs of the write-ahead log: appends with consecutive sequence numbers, trims
and reopenings.

The index of a record is derived from the name of its file, and equals the sequence
number in its payload as long as the segments follow one another.  A trim that is
lower than one before it breaks that: it forgets a segment whose records are all
purged, but not its file, and later trims go past it.
-/

namespace Lumen

open Lib Prog

section
variable [Ext]

/-- Runs of the write-ahead log from an empty directory.  `es` are the entries that
were appended, from the number `first` on; `high` is above every floor, and `lo` above
the floor of the last trim since the log was opened.  In a `steady` run no floor is
below an earlier one of the same process. -/
inductive WalRun (steady : Prop) :
    LogDir → SegmentedLog → Nat → List Proto.WalEntry → Nat → Nat → Prop where
  | opened {dir : LogDir} {log log' : SegmentedLog} {entries : List Proto.WalEntry} (first : Nat)
      (h : Wal.openWal.run ∅ log = (.ok entries, dir, log')) : WalRun steady dir log' first [] 0 0
  | append {dir dir' : LogDir} {log log' : SegmentedLog} {first high lo : Nat}
      {es : List Proto.WalEntry} (e : Proto.WalEntry) (prev : WalRun steady dir log first es high lo)
      (hseq : e.seq = first + es.length)
      (h : (Wal.append e).run dir log = (.ok (), dir', log')) :
      WalRun steady dir' log' first (es ++ [e]) high lo
  | refused {dir dir' : LogDir} {log log' : SegmentedLog} {first high lo : Nat}
      {es : List Proto.WalEntry} {err : Error} (e : Proto.WalEntry)
      (prev : WalRun steady dir log first es high lo) (hseq : e.seq = first + es.length)
      (h : (Wal.append e).run dir log = (.error err, dir', log')) :
      WalRun steady dir' log' first es high lo
  | trim {dir dir' : LogDir} {log log' : SegmentedLog} {first high lo : Nat}
      {es : List Proto.WalEntry} (floor : Nat) (prev : WalRun steady dir log first es high lo)
      (hle : floor < first + es.length) (hsteady : steady → lo ≤ floor + 1)
      (h : (Wal.trim floor).run dir log = (.ok (), dir', log')) :
      WalRun steady dir' log' first es (max high (floor + 1)) (floor + 1)
  | reopen {dir dir' : LogDir} {log log' : SegmentedLog} {first high lo : Nat}
      {es entries : List Proto.WalEntry} (prev : WalRun steady dir log first es high lo)
      (h : Wal.openWal.run dir log = (.ok entries, dir', log')) :
      WalRun steady dir' log' first es high 0

/-! ## the invariant -/

/-- The directory holds the entries without the first `n`, and those are below the
highest floor. -/
structure WalKeeps (dir : LogDir) (log : SegmentedLog) (segs : List Seg) (first : Nat)
    (es : List Proto.WalEntry) (high lo n : Nat) : Prop where
  ends : EndsAt dir log segs lo (first + es.length)
  items : (recsOf segs).map Rec.item =
    numbered (first + n) ((es.drop n).map Ext.walEntry.encode)
  seqs : ∀ i e, es[i]? = some e → e.seq = first + i
  last : (es = [] ∧ n = 0) ∨ n < es.length
  dropped : ∀ i < n, first + i < high

variable {dir dir' : LogDir} {log log' : SegmentedLog} {segs : List Seg} {first high lo n : Nat}
  {es : List Proto.WalEntry}

namespace WalKeeps

theorem payloads (h : WalKeeps dir log segs first es high lo n) :
    (recsOf segs).map Rec.payload = (es.drop n).map Ext.walEntry.encode := by
  have hsnd := congrArg (List.map Prod.snd) h.items
  rw [map_snd_numbered, List.map_map] at hsnd
  exact hsnd

/-- **Open** returns the entries that are kept. -/
theorem openWal (h : WalKeeps dir log segs first es high lo n) (log₀ : SegmentedLog) :
    ∃ log', Wal.openWal.run dir log₀ = (.ok (es.drop n), dir, log') ∧
      WalKeeps dir log' segs first es high 0 n := by
  have hw : wp Wal.openWal (fun out dir' log' => out = es.drop n ∧ dir' = dir ∧
      WalKeeps dir log' segs first es high 0 n) (fun _ _ _ => False) (fun _ => True) dir log₀ := by
    refine Wal.wp_openWal h.ends.inv.dirRep h.ends.inv.linked.ordered h.payloads
      fun log' hmem hrecs _ => ⟨rfl, rfl, ?_⟩
    refine { h with ends := ⟨{ h.ends.inv with memRep := hmem, records := ?_ }, h.ends.stop,
      Nat.zero_le _⟩ }
    rw [hrecs, List.filter_eq_self.mpr (by simp)]
  obtain ⟨_, _, log', hrun, rfl, rfl, hkeeps⟩ := run_ok_of_wp hw
  exact ⟨log', hrun, hkeeps⟩

theorem append {e : Proto.WalEntry} (h : WalKeeps dir log segs first es high lo n)
    (hseq : e.seq = first + es.length)
    (hrun : (Wal.append e).run dir log = (.ok (), dir', log')) :
    ∃ segs', WalKeeps dir' log' segs' first (es ++ [e]) high lo n := by
  rw [Wal.append, hseq] at hrun
  have hn : n ≤ es.length := by
    rcases h.last with ⟨_, hn⟩ | hn <;> omega
  have hlen : first + (es ++ [e]).length = first + es.length + 1 := by
    rw [List.length_append, List.length_singleton, Nat.add_assoc]
  refine post_of_wp (E := fun _ _ _ => False)
    (Q := fun _ d l => ∃ segs', WalKeeps d l segs' first (es ++ [e]) high lo n)
    (h.ends.wp_append (append_ok_small hrun) (fun _ => trivial)
      fun dir' log' segs' hends hitems => ⟨segs', hlen ▸ hends, ?_, fun i x hx => ?_,
        Or.inr (by omega), h.dropped⟩) hrun
  · rw [hitems, h.items, List.drop_append_of_le_length hn, List.map_append, numbered_append,
      List.length_map, List.length_drop, (by omega : first + n + (es.length - n) = first + es.length)]
    rfl
  · rw [List.getElem?_append] at hx
    split at hx
    · exact h.seqs i x hx
    · rw [List.getElem?_singleton] at hx
      split at hx
      · obtain rfl := Option.some.inj hx
        omega
      · cases hx

theorem trim {floor : Nat} (h : WalKeeps dir log segs first es high lo n)
    (hle : floor < first + es.length) (hlo : lo ≤ floor + 1)
    (hrun : (Wal.trim floor).run dir log = (.ok (), dir', log')) :
    ∃ segs' n', WalKeeps dir' log' segs' first es (max high (floor + 1)) (floor + 1) n' := by
  have hends := post_of_wp (E := fun _ _ _ => False)
    (Q := fun _ d l => EndsAt d l (purged floor segs) (floor + 1) (first + es.length))
    (h.ends.wp_purgeThrough hlo hle (fun _ => trivial) fun _ _ hends => hends) hrun
  obtain ⟨pre, hsegs, hpre, _⟩ := h.ends.inv.linked.purged_split (Nat.zero_le (floor + 1))
  have hitems := h.items
  rw [hsegs, recsOf_append, List.map_append] at hitems
  obtain ⟨hgone, hkept⟩ := numbered_split hitems
  have hlen := congrArg List.length hitems
  simp only [List.length_append, List.length_map, length_numbered, List.length_drop] at hgone hkept hlen
  refine ⟨_, n + (recsOf pre).length, hends, ?_, h.seqs, ?_, fun i hi => ?_⟩
  · rw [hkept, ← List.map_drop, List.drop_drop, Nat.add_assoc]
  · rcases h.last with ⟨hnil, hn⟩ | hn
    · rw [hnil, List.length_nil] at hlen
      exact Or.inl ⟨hnil, by omega⟩
    · -- the last segment is kept, and has a record
      have hne : recsOf (purged floor segs) ≠ [] := by
        intro hnil
        rw [hnil, List.length_nil] at hlen
        cases hlast : segs.getLast? with
        | none =>
          rw [List.getLast?_eq_none_iff] at hlast
          rw [hlast] at hsegs
          simp [(List.append_eq_nil_iff.mp hsegs.symm).1, recsOf] at hlen
          omega
        | some s =>
          have hs := h.ends.inv.start_lt_stop (List.mem_of_getLast? hlast)
          obtain ⟨r, hr, _⟩ := Seg.exists_recs (Nat.le_refl s.start) hs
          rw [← getLast?_purged floor] at hlast
          have hmem : r ∈ recsOf (purged floor segs) :=
            List.mem_flatMap.mpr ⟨s, List.mem_of_getLast? hlast, hr⟩
          simp [hnil] at hmem
      have := List.length_pos_iff.mpr hne
      omega
  · rcases Nat.lt_or_ge i n with hlt | hge
    · exact lt_max_of_lt_left (h.dropped i hlt)
    · refine lt_max_of_lt_right ?_
      obtain ⟨j, rfl⟩ := Nat.exists_eq_add_of_le hge
      obtain ⟨p, hp⟩ : ∃ p, (((es.drop n).map Ext.walEntry.encode).take (recsOf pre).length)[j]? =
          some p := by
        refine ⟨_, List.getElem?_eq_getElem ?_⟩
        simp only [List.length_take, List.length_map, List.length_drop]
        omega
      have hmem : (first + n + j, p) ∈ (recsOf pre).map Rec.item := by
        rw [hgone]
        exact mem_numbered.mpr ⟨j, rfl, hp⟩
      obtain ⟨r, hr, he⟩ := List.mem_map.mp hmem
      obtain ⟨s, hs, hrs⟩ := List.mem_flatMap.mp hr
      have hi : r.index = first + n + j := congrArg Prod.fst he
      have := (Seg.recs_bounds hrs).2.1
      have := hpre s hs
      omega

end WalKeeps

theorem WalRun.keeps (h : WalRun True dir log first es high lo) :
    ∃ segs n, WalKeeps dir log segs first es high lo n := by
  induction h with
  | opened first h =>
    obtain ⟨hd, hl⟩ := Prod.mk.inj (Prod.mk.inj h).2
    subst hd hl
    exact ⟨[], 0, ⟨⟨DirRep.empty, ⟨rfl, rfl⟩, by simp, List.isChain_nil, rfl⟩, by simp,
      Nat.zero_le _⟩, rfl, by simp, Or.inl ⟨rfl, rfl⟩, by simp⟩
  | append e prev hseq h ih =>
    obtain ⟨segs, n, hkeeps⟩ := ih
    obtain ⟨segs', hkeeps'⟩ := hkeeps.append hseq h
    exact ⟨segs', n, hkeeps'⟩
  | refused e prev hseq h ih =>
    obtain ⟨segs, n, hkeeps⟩ := ih
    rw [Wal.append, hseq] at h
    rcases Nat.lt_or_ge (Ext.walEntry.encode e).length (2 ^ 32) with hp | hp
    · exact (error_of_wp (E := fun _ _ _ => False) (Q := fun _ _ _ => True)
        (hkeeps.ends.wp_append hp (fun _ => trivial) fun _ _ _ _ _ => trivial) h).elim
    · rw [SegmentedLog.append, if_pos hp] at h
      obtain ⟨hd, hl⟩ := Prod.mk.inj (Prod.mk.inj h).2
      subst hd hl
      exact ⟨segs, n, hkeeps⟩
  | trim floor prev hle hsteady h ih =>
    obtain ⟨segs, n, hkeeps⟩ := ih
    exact hkeeps.trim hle (hsteady trivial) h
  | reopen prev h ih =>
    obtain ⟨segs, n, hkeeps⟩ := ih
    obtain ⟨log', hrun, hkeeps'⟩ := hkeeps.openWal _
    rw [h] at hrun
    obtain ⟨hd, hl⟩ := Prod.mk.inj (Prod.mk.inj hrun).2
    subst hd hl
    exact ⟨segs, n, hkeeps'⟩

/-! ## entries that fill a segment -/

/-- The directory of entries that have a segment each. -/
def apart (es : List Proto.WalEntry) : LogDir :=
  OrdMap.ofList (es.map fun e => (e.seq, [] ++ frame (Ext.walEntry.encode e)))

/-- The log that knows the segments `starts` and the records of `es`, and has written
`last`. -/
def apartLog (starts : List Nat) (es : List Proto.WalEntry) (last : Proto.WalEntry) :
    SegmentedLog :=
  ⟨defaultSegmentMaxBytes, starts,
    OrdMap.ofList (es.map fun e =>
      (e.seq, ⟨e.seq, 0 + headerBytes, (Ext.walEntry.encode e).length⟩)),
    some ⟨last.seq, 0 + (frame (Ext.walEntry.encode last)).length⟩⟩

theorem apartLog_needsRotation (starts : List Nat) (es : List Proto.WalEntry)
    {last : Proto.WalEntry}
    (h : defaultSegmentMaxBytes ≤ (frame (Ext.walEntry.encode last)).length) :
    (apartLog starts es last).needsRotation = true := by
  simpa [apartLog, SegmentedLog.needsRotation] using h

theorem run_append_rotating {e : Proto.WalEntry} (hrot : log.needsRotation = true)
    (hs : (Ext.walEntry.encode e).length < 2 ^ 32) :
    (Wal.append e).run dir log = (.ok (),
      (LogDir.created dir e.seq).modify e.seq (· ++ frame (Ext.walEntry.encode e)),
      (log.rotated e.seq).extended ⟨e.seq, 0⟩ e.seq (Ext.walEntry.encode e)) := by
  refine run_eq_ok_of_wp (C := fun _ => True) ?_
  rw [Wal.append, wp_append_rotating hrot hs]
  exact ⟨trivial, trivial, rfl, rfl, rfl⟩

/-- The log of a directory without segments. -/
def freshLog : SegmentedLog := ⟨defaultSegmentMaxBytes, [], ∅, none⟩

variable {e₁ e₂ e₃ : Proto.WalEntry}

theorem run_append_first (h₁ : e₁.seq = 1) (hs₁ : (Ext.walEntry.encode e₁).length < 2 ^ 32) :
    (Wal.append e₁).run ∅ freshLog = (.ok (), apart [e₁], apartLog [1] [e₁] e₁) := by
  rw [run_append_rotating rfl hs₁]
  simp only [apart, apartLog, List.map_cons, List.map_nil, h₁]
  rfl

/-- The second entry rotates the log, a trim removes the segment of the first, and the log
is opened again. -/
theorem rotated_run (h₁ : e₁.seq = 1) (h₂ : e₂.seq = 2)
    (hs₁ : (Ext.walEntry.encode e₁).length < 2 ^ 32)
    (hs₂ : (Ext.walEntry.encode e₂).length < 2 ^ 32)
    (hb₁ : defaultSegmentMaxBytes ≤ (frame (Ext.walEntry.encode e₁)).length) :
    ∃ log, WalRun True (apart [e₂]) log 1 [e₁, e₂] 2 0 := by
  have run₂ : (Wal.append e₂).run (apart [e₁]) (apartLog [1] [e₁] e₁) =
      (.ok (), apart [e₁, e₂], apartLog [1, 2] [e₁, e₂] e₂) := by
    rw [run_append_rotating (apartLog_needsRotation _ _ hb₁) hs₂]
    simp only [apart, apartLog, List.map_cons, List.map_nil, h₁, h₂]
    rfl
  have run₃ : (Wal.trim 1).run (apart [e₁, e₂]) (apartLog [1, 2] [e₁, e₂] e₂) =
      (.ok (), apart [e₂], apartLog [2] [e₂] e₂) := by
    simp only [apart, apartLog, List.map_cons, List.map_nil, h₁, h₂]
    rfl
  have trimmed : WalRun True (apart [e₂]) (apartLog [2] [e₂] e₂) 1 [e₁, e₂] 2 2 :=
    .trim 1 (.append e₂ (.append e₁ (.opened 1 (rfl : Wal.openWal.run ∅ .closed =
      (.ok [], ∅, freshLog))) h₁ (run_append_first h₁ hs₁)) h₂ run₂) (by simp) (by simp) run₃
  obtain ⟨segs, n, hkeeps⟩ := trimmed.keeps
  obtain ⟨log, hopen, _⟩ := hkeeps.openWal (apartLog [2] [e₂] e₂)
  exact ⟨log, .reopen trimmed hopen⟩

end

section
open Reference Wire

/-- An entry with the source of a document. -/
def sourceEntry (seq : Nat) (source : Bytes) : Proto.WalEntry :=
  Catalog.walEntry seq (.indexDocument ⟨"", "", source⟩)

theorem encode_sourceEntry (seq : Nat) {source : Bytes} (hne : source ≠ []) :
    Ext.walEntry.encode (sourceEntry seq source) =
      putFields (natField 1 seq) ++
        putField ⟨2, .bytes (putField ⟨1, .bytes (putField ⟨3, .bytes source⟩)⟩)⟩ := by
  have hdoc : Proto.indexDocumentMsg.bytes ⟨"", "", source⟩ = putField ⟨3, .bytes source⟩ := by
    simp [Msg.bytes, Proto.indexDocumentMsg, putString, blobField, blobVals, hne, fieldsOf,
      putFields]
  have hcommand : Proto.commandMsg.bytes ⟨some (.indexDocument ⟨"", "", source⟩)⟩ =
      putField ⟨1, .bytes (putField ⟨3, .bytes source⟩)⟩ := by
    rw [← hdoc]
    simp [Msg.bytes, Proto.commandMsg, optField, optVals, fieldsOf, putFields]
  show putFields (natField 1 seq ++ optField 2 (some (Proto.commandMsg.bytes _))) = _
  rw [hcommand]
  simp [putFields, optField, optVals, fieldsOf]

theorem length_sourceEntry {seq : Nat} (hseq : seq < 128) {source : Bytes} (hne : source ≠ [])
    (hlen : source.length < 2 ^ 27) :
    source.length ≤ (Ext.walEntry.encode (sourceEntry seq source)).length ∧
      (Ext.walEntry.encode (sourceEntry seq source)).length ≤ source.length + 20 := by
  have hseqLen : (putFields (natField 1 seq)).length ≤ 2 := by
    rw [natField, natVals]
    split
    · exact Nat.zero_le _
    · have h₁ := length_putVarint_le (by omega : seq < 128 ^ (0 + 1))
      simp only [fieldsOf, List.map_cons, List.map_nil, putFields, List.flatMap_cons,
        List.flatMap_nil, putField, List.length_append, List.length_nil]
      have h₂ : (putVarint (8 * 1)).length = 1 := rfl
      omega
  have wrapped (num : Nat) (hnum : 8 * num + 2 < 128) {b : Bytes} (hb : b.length < 128 ^ 4) :
      b.length ≤ (putField ⟨num, .bytes b⟩).length ∧
        (putField ⟨num, .bytes b⟩).length ≤ b.length + 5 := by
    have hle : (putField ⟨num, .bytes b⟩).length ≤ (0 + 1) + (3 + 1) + b.length :=
      length_putField_le (by omega) hb
    simp only [putField, List.length_append] at hle ⊢
    omega
  have hdoc := wrapped 3 (by decide) (b := source) (by omega)
  have hcommand := wrapped 1 (by decide) (b := putField ⟨3, .bytes source⟩) (by omega)
  have hentry := wrapped 2 (by decide) (b := putField ⟨1, .bytes (putField ⟨3, .bytes source⟩)⟩)
    (by omega)
  rw [encode_sourceEntry seq hne, List.length_append]
  omega

/-- An entry whose document is as long as a segment. -/
def bigEntry (seq : Nat) : Proto.WalEntry :=
  sourceEntry seq (List.replicate defaultSegmentMaxBytes 0)

theorem length_bigEntry {seq : Nat} (h : seq < 128) :
    defaultSegmentMaxBytes ≤ (Ext.walEntry.encode (bigEntry seq)).length ∧
      (Ext.walEntry.encode (bigEntry seq)).length < 2 ^ 32 := by
  have hlen : (List.replicate defaultSegmentMaxBytes (0 : UInt8)).length = defaultSegmentMaxBytes :=
    List.length_replicate
  have hmax : defaultSegmentMaxBytes = 2 ^ 26 := by decide
  have hne : List.replicate defaultSegmentMaxBytes (0 : UInt8) ≠ [] :=
    List.ne_nil_of_length_pos (by omega)
  obtain ⟨hge, hle⟩ := length_sourceEntry h hne (by omega)
  rw [hlen] at hge hle
  exact ⟨hge, Nat.lt_of_le_of_lt hle (by omega)⟩

theorem bigEntry_fills {seq : Nat} (h : seq < 128) :
    defaultSegmentMaxBytes ≤ (frame (Ext.walEntry.encode (bigEntry seq))).length := by
  rw [length_frame]
  exact (length_bigEntry h).1.trans (Nat.le_add_left _ _)

end

section
variable [Ext] {dir : LogDir} {log : SegmentedLog} {first high lo : Nat}
  {es : List Proto.WalEntry}

/-- **The write-ahead log round trip.**  In every state of every steady run, opening
returns the entries that were appended, without some first ones: the sequence numbers
are consecutive and end with the last one appended, and every entry above the highest
floor is there. -/
theorem wal_round_trip (h : WalRun True dir log first es high lo) (log₀ : SegmentedLog) :
    (∀ i e, es[i]? = some e → e.seq = first + i) ∧
      ∃ n log', Wal.openWal.run dir log₀ = (.ok (es.drop n), dir, log') ∧
        (es = [] ∨ n < es.length) ∧ ∀ i < n, first + i < high := by
  obtain ⟨segs, n, hkeeps⟩ := h.keeps
  obtain ⟨log', hrun, _⟩ := hkeeps.openWal log₀
  exact ⟨hkeeps.seqs, n, log', hrun, hkeeps.last.imp_left And.left, hkeeps.dropped⟩

end

section
open Reference

/-- The first of two entries that fill a segment each is trimmed, and the second is there. -/
theorem wal_round_trip_rotated :
    ∃ dir log log', WalRun True dir log 1 [bigEntry 1, bigEntry 2] 2 0 ∧
      dir.keys = [2] ∧ ∃ n ≤ 1, Wal.openWal.run dir .closed =
        (.ok ([bigEntry 1, bigEntry 2].drop n), dir, log') := by
  obtain ⟨log, hrun⟩ : ∃ log, WalRun True (apart [bigEntry 2]) log 1 [bigEntry 1, bigEntry 2] 2 0 :=
    rotated_run rfl rfl (length_bigEntry (by decide)).2 (length_bigEntry (by decide)).2
      (bigEntry_fills (by decide))
  obtain ⟨_, n, log', hopen, hn, _⟩ := wal_round_trip hrun .closed
  refine ⟨_, log, log', hrun, rfl, n, ?_, hopen⟩
  exact Nat.le_of_lt_succ (hn.resolve_left (List.cons_ne_nil _ _))

end

/-! ## a floor below an earlier one -/

section
variable [Ext] {e₁ e₂ e₃ : Proto.WalEntry}

theorem apart_rep (h₁ : e₁.seq = 1) (h₃ : e₃.seq = 3)
    (hs₁ : (Ext.walEntry.encode e₁).length < 2 ^ 32)
    (hs₃ : (Ext.walEntry.encode e₃).length < 2 ^ 32) :
    DirRep (apart [e₁, e₃])
      [⟨1, [Ext.walEntry.encode e₁]⟩, ⟨3, [Ext.walEntry.encode e₃]⟩] := by
  refine ⟨?_, fun s hs p hp => ?_⟩
  · rw [apart, OrdMap.toList_ofList (by simp [h₁, h₃])]
    simp [h₁, h₃, Seg.bytes, frames_singleton]
  · rcases List.mem_pair.mp hs with rfl | rfl
    · rwa [List.mem_singleton.mp hp]
    · rwa [List.mem_singleton.mp hp]

/-- Three entries that fill a segment each.  After a trim of the first, a lower floor
forgets its segment, and the next trim removes the second: the first comes back, and
behind it there is a hole. -/
theorem lowered_floor_run (h₁ : e₁.seq = 1) (h₂ : e₂.seq = 2) (h₃ : e₃.seq = 3)
    (hs₁ : (Ext.walEntry.encode e₁).length < 2 ^ 32)
    (hs₂ : (Ext.walEntry.encode e₂).length < 2 ^ 32)
    (hs₃ : (Ext.walEntry.encode e₃).length < 2 ^ 32)
    (hb₁ : defaultSegmentMaxBytes ≤ (frame (Ext.walEntry.encode e₁)).length)
    (hb₂ : defaultSegmentMaxBytes ≤ (frame (Ext.walEntry.encode e₂)).length) :
    ∃ dir log log', WalRun False dir log 1 [e₁, e₂, e₃] 3 3 ∧
      Wal.openWal.run dir log = (.ok [e₁, e₃], dir, log') := by
  have run₁ := run_append_first h₁ hs₁
  have run₂ : (Wal.trim 1).run (apart [e₁]) (apartLog [1] [e₁] e₁) =
      (.ok (), apart [e₁], apartLog [1] [] e₁) := by
    simp only [apart, apartLog, List.map_cons, List.map_nil, h₁]
    rfl
  have run₃ : (Wal.append e₂).run (apart [e₁]) (apartLog [1] [] e₁) =
      (.ok (), apart [e₁, e₂], apartLog [1, 2] [e₂] e₂) := by
    rw [run_append_rotating (apartLog_needsRotation _ _ hb₁) hs₂]
    simp only [apart, apartLog, List.map_cons, List.map_nil, h₁, h₂]
    rfl
  have run₄ : (Wal.trim 0).run (apart [e₁, e₂]) (apartLog [1, 2] [e₂] e₂) =
      (.ok (), apart [e₁, e₂], apartLog [2] [e₂] e₂) := by
    simp only [apart, apartLog, List.map_cons, List.map_nil, h₁, h₂]
    rfl
  have run₅ : (Wal.append e₃).run (apart [e₁, e₂]) (apartLog [2] [e₂] e₂) =
      (.ok (), apart [e₁, e₂, e₃], apartLog [2, 3] [e₂, e₃] e₃) := by
    rw [run_append_rotating (apartLog_needsRotation _ _ hb₂) hs₃]
    simp only [apart, apartLog, List.map_cons, List.map_nil, h₁, h₂, h₃]
    rfl
  have run₆ : (Wal.trim 2).run (apart [e₁, e₂, e₃]) (apartLog [2, 3] [e₂, e₃] e₃) =
      (.ok (), apart [e₁, e₃], apartLog [3] [e₃] e₃) := by
    simp only [apart, apartLog, List.map_cons, List.map_nil, h₁, h₂, h₃]
    rfl
  have hw : wp Wal.openWal (fun out dir' _ => out = [e₁, e₃] ∧ dir' = apart [e₁, e₃])
      (fun _ _ _ => False) (fun _ => True) (apart [e₁, e₃]) (apartLog [3] [e₃] e₃) :=
    Wal.wp_openWal (apart_rep h₁ h₃ hs₁ hs₃) (by simp [Ordered, Seg.stop]) rfl
      fun _ _ _ _ => ⟨rfl, rfl⟩
  obtain ⟨_, _, log', run₇, rfl, rfl⟩ := run_ok_of_wp hw
  refine ⟨_, _, log', ?_, run₇⟩
  have run₀ : Wal.openWal.run ∅ .closed = (.ok [], ∅, ⟨defaultSegmentMaxBytes, [], ∅, none⟩) := rfl
  exact .trim 2 (.append e₃ (.trim 0 (.append e₂ (.trim 1 (.append e₁ (.opened 1 run₀)
    h₁ run₁) (by simp) False.elim run₂) h₂ run₃) (by simp) False.elim run₄) h₃ run₅) (by simp)
    False.elim run₆

end

section
open Reference

/-- Floors 1, 0 and 2: the log opens to the entries 1 and 3. -/
theorem wal_hole_after_lowered_floor :
    ∃ dir log log', WalRun False dir log 1 [bigEntry 1, bigEntry 2, bigEntry 3] 3 3 ∧
      Wal.openWal.run dir log = (.ok [bigEntry 1, bigEntry 3], dir, log') :=
  lowered_floor_run rfl rfl rfl (length_bigEntry (by decide)).2 (length_bigEntry (by decide)).2
    (length_bigEntry (by decide)).2 (bigEntry_fills (by decide)) (bigEntry_fills (by decide))

end

end Lumen
