import Lumen.Catalog
import Lumen.Log.Contents

/-!
# Lumen.Log.Carries

A log directory in which every file is a row of frames around payloads of one
kind.  Appending such a payload keeps it, and so does a purge, whatever the log
in memory says and whatever numbers the records have; opening reads nothing
else back.
-/

namespace Lumen

open Lib Prog

variable [Ext]

/-- Every file is a row of frames around payloads with `P`. -/
def LogDir.Carries (P : Bytes → Prop) (dir : LogDir) : Prop :=
  ∀ start bytes, dir.find? start = some bytes →
    ∃ ps, bytes = frames ps ∧ ∀ p ∈ ps, p.length < 2 ^ 32 ∧ P p

namespace LogDir.Carries

variable {P : Bytes → Prop} {dir : LogDir} {log : SegmentedLog}

theorem empty : LogDir.Carries P ∅ := by simp [LogDir.Carries]

theorem erase (h : LogDir.Carries P dir) (start : Nat) : LogDir.Carries P (dir.erase start) := by
  intro s bytes hf
  rw [OrdMap.find?_erase] at hf
  split at hf
  · contradiction
  · exact h s bytes hf

theorem created (h : LogDir.Carries P dir) (start : Nat) :
    LogDir.Carries P (LogDir.created dir start) := by
  unfold LogDir.created
  split
  · exact h
  · intro s bytes hf
    rw [OrdMap.find?_insert] at hf
    split at hf
    · exact ⟨[], by simpa [frames_nil] using hf.symm, by simp⟩
    · exact h s bytes hf

theorem written (h : LogDir.Carries P dir) {p : Bytes} (hp : P p) (hlen : p.length < 2 ^ 32)
    (start : Nat) : LogDir.Carries P (dir.modify start (· ++ frame p)) := by
  intro s bytes hf
  rw [OrdMap.find?_modify] at hf
  split at hf
  · obtain ⟨old, hold, rfl⟩ := Option.map_eq_some_iff.mp hf
    obtain ⟨ps, rfl, hps⟩ := h _ old hold
    refine ⟨ps ++ [p], by rw [frames_append, frames_singleton], fun q hq => ?_⟩
    rcases List.mem_append.mp hq with hq | hq
    · exact hps q hq
    · rw [List.mem_singleton.mp hq]
      exact ⟨hlen, hp⟩
  · exact h s bytes hf

/-- The files, as a list of segments. -/
theorem exists_segs (h : LogDir.Carries P dir) :
    ∃ segs, DirRep dir segs ∧ ∀ s ∈ segs, ∀ p ∈ s.payloads, P p := by
  have hall : ∀ l : List (Nat × Bytes), (∀ q ∈ l, dir.find? q.1 = some q.2) →
      ∃ segs : List Seg, l = segs.map (fun s => (s.start, s.bytes)) ∧
        ∀ s ∈ segs, ∀ p ∈ s.payloads, p.length < 2 ^ 32 ∧ P p := by
    intro l
    induction l with
    | nil => exact fun _ => ⟨[], rfl, by simp⟩
    | cons q l ih =>
      intro hl
      obtain ⟨segs, rfl, hsegs⟩ := ih fun x hx => hl x (List.mem_cons_of_mem q hx)
      obtain ⟨ps, hbytes, hps⟩ := h q.1 q.2 (hl q List.mem_cons_self)
      refine ⟨⟨q.1, ps⟩ :: segs, ?_, List.forall_mem_cons.mpr ⟨hps, hsegs⟩⟩
      rw [List.map_cons, Seg.bytes, ← hbytes]
  obtain ⟨segs, hfiles, hsegs⟩ := hall dir.toList fun q hq => OrdMap.find?_eq_some_iff.mpr hq
  exact ⟨segs, ⟨hfiles, fun s hs p hp => (hsegs s hs p hp).1⟩, fun s hs p hp => (hsegs s hs p hp).2⟩

variable {Q : Unit → LogDir → SegmentedLog → Prop}

/-- An append writes into the active segment or into one it creates. -/
theorem wp_append (h : LogDir.Carries P dir) {p : Bytes} (hp : P p) (index : Nat)
    (hQ : ∀ dir' log', LogDir.Carries P dir' → Q () dir' log') :
    wp (SegmentedLog.append index p) Q (fun _ _ _ => True) (fun _ => True) dir log := by
  by_cases hlen : p.length < 2 ^ 32
  · cases hrot : log.needsRotation with
    | true =>
      exact (wp_append_rotating hrot hlen).mpr
        ⟨trivial, trivial, hQ _ _ ((h.created index).written hp hlen index)⟩
    | false =>
      obtain ⟨a, ha⟩ : ∃ a, log.active = some a := by
        cases hact : log.active with
        | none => simp [SegmentedLog.needsRotation, hact] at hrot
        | some a => exact ⟨a, rfl⟩
      exact (wp_append_active ha hrot hlen).mpr ⟨trivial, hQ _ _ (h.written hp hlen a.start)⟩
  · rw [SegmentedLog.append, if_pos (by omega)]
    trivial

theorem wp_purgeThrough (h : LogDir.Carries P dir) (index : Nat)
    (hQ : ∀ dir' log', LogDir.Carries P dir' → Q () dir' log') :
    wp (SegmentedLog.purgeThrough index) Q (fun _ _ _ => True) (fun _ => True) dir log := by
  rw [SegmentedLog.purgeThrough, wp_bind, wp_modifyMem, wp_bind, wp_getMem, wp_bind]
  refine wp_mono _ (wp_purgeFiles_erase (fun _ start hd => hd.erase start) h index _ _)
    (fun _ dir' _ hd => ?_) (fun _ _ _ _ => trivial) fun _ _ => trivial
  exact hQ dir' _ hd.1

end LogDir.Carries

/-! ## the write-ahead log -/

/-- The encoding of an entry with `good`. -/
def EncodesEntry (good : Proto.WalEntry → Prop) (p : Bytes) : Prop :=
  ∃ e, p = Ext.walEntry.encode e ∧ good e

theorem Wal.decodeAll_good {good : Proto.WalEntry → Prop} {l : List (Nat × Bytes)}
    (h : ∀ r ∈ l, EncodesEntry good r.2) :
    ∃ es, Wal.decodeAll l = .ok es ∧ ∀ e ∈ es, good e := by
  induction l with
  | nil => exact ⟨[], rfl, by simp⟩
  | cons r l ih =>
    obtain ⟨i, bytes⟩ := r
    obtain ⟨⟨e, rfl, he⟩, hl⟩ := List.forall_mem_cons.mp h
    obtain ⟨es, hdec, hes⟩ := ih hl
    refine ⟨e :: es, ?_, List.forall_mem_cons.mpr ⟨he, hes⟩⟩
    simp only [Wal.decodeAll, Codec.decode_encode, hdec]

/-- **Opening the write-ahead log** changes no file, and every entry it reads
is one of those that were written. -/
theorem LogDir.Carries.wp_openWal {good : Proto.WalEntry → Prop} {dir : LogDir}
    {log : SegmentedLog} {Q : List Proto.WalEntry → LogDir → SegmentedLog → Prop}
    {E : Error → LogDir → SegmentedLog → Prop} {C : LogDir → Prop}
    (h : LogDir.Carries (EncodesEntry good) dir)
    (hQ : ∀ es log', (∀ e ∈ es, good e) → Q es dir log') : wp Wal.openWal Q E C dir log := by
  obtain ⟨segs, hrep, hsegs⟩ := h.exists_segs
  rw [Wal.openWal, wp_bind, SegmentedLog.openLog]
  refine wp_open_contents hrep _ fun log' _ hlive _ => ?_
  rw [wp_bind]
  refine hlive.wp_readAll hrep ?_
  have hgood : ∀ r ∈ (contents segs).toList, EncodesEntry good r.2 := by
    intro r hr
    obtain ⟨x, hx, hitem⟩ := mem_of_contents (OrdMap.find?_eq_some_iff.mpr hr)
    obtain ⟨s, hs, hxs⟩ := List.mem_flatMap.mp hx
    have hmem := List.mem_map_of_mem (f := Rec.item) hxs
    rw [hitem, Seg.map_item_recs] at hmem
    have hp := List.mem_map_of_mem (f := Prod.snd) hmem
    rw [map_snd_numbered] at hp
    exact hsegs s hs r.2 hp
  obtain ⟨es, hdec, hes⟩ := Wal.decodeAll_good hgood
  rw [hdec]
  exact hQ es log' hes

end Lumen
