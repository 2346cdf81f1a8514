import Lumen.Log.Ops
import Lumen.Reference
import Mathlib.Data.List.Chain

/-!
# Lumen.Log.Map

The log of one process as a map from index to payload.

`MapInv dir log rs floor` says that the index holds exactly the records `rs`,
each readable where its location points, and that nothing above `floor` was
purged.  The numbers of the records need not be positions: a purge beyond the
end leaves the active segment in place, and the next record goes into it.  What
the invariant keeps instead is that a record lies in the last segment that
starts at or below it, and behind the records before it; and that the record
before a segment's start lies in the segment before, unless it was purged.

* `segmentedLog_refines_map` — in every state of a run the reads return what
  the map holds, and every operation the discipline allows succeeds.
-/

namespace Lumen

open Lib Prog

/-! ## records and files -/

/-- At or below the purge bound. -/
def Covered (floor : Option Nat) (k : Nat) : Prop := ∃ p, floor = some p ∧ k ≤ p

/-- The index and the directory hold the records `rs`. -/
structure MapInv (dir : LogDir) (log : SegmentedLog) (rs : List Rec) (floor : Option Nat) :
    Prop where
  records : log.records.toList = rs.map Rec.key
  readable : ∀ r ∈ rs, Readable dir r
  segment : ∀ r ∈ rs, r.loc.segmentStart ∈ log.starts ∧ r.loc.segmentStart ≤ r.index ∧
    ∀ s ∈ log.starts, s ≤ r.index → s ≤ r.loc.segmentStart
  apart : rs.Pairwise fun a b => a.loc.segmentStart = b.loc.segmentStart →
    a.loc.payloadOffset + a.loc.len + headerBytes ≤ b.loc.payloadOffset
  framed : ∀ r ∈ rs, headerBytes ≤ r.loc.payloadOffset
  above : ∀ r ∈ rs, ¬ Covered floor r.index
  sorted : log.starts.Pairwise (· < ·)
  files : ∀ s ∈ log.starts, ∃ bytes, dir.find? s = some bytes
  active : log.active = log.starts.getLast?.bind fun s =>
    (dir.find? s).map fun bytes => ⟨s, bytes.length⟩
  starts : ∀ s ∈ log.starts, (∃ r ∈ rs, r.index = s) ∨ Covered floor s
  dense : log.starts.IsChain fun s next =>
    (∃ r ∈ rs, r.index + 1 = next ∧ r.loc.segmentStart = s) ∨ Covered floor (next - 1)
  listed : ∀ k bytes, dir.find? k = some bytes → k ∈ log.starts

section
variable {dir dir' : LogDir} {log : SegmentedLog} {rs : List Rec} {floor : Option Nat} {index : Nat}

theorem MapInv.indexes (h : MapInv dir log rs floor) :
    rs.Pairwise fun a b => a.index < b.index := by
  have hs := log.records.sorted
  rw [h.records, List.pairwise_map] at hs
  exact hs

theorem MapInv.index_inj (h : MapInv dir log rs floor) {r r' : Rec} (hr : r ∈ rs) (hr' : r' ∈ rs)
    (he : r.index = r'.index) : r = r' := by
  have hnd : (rs.map Rec.index).Nodup := by
    rw [List.Nodup, List.pairwise_map]
    exact h.indexes.imp Nat.ne_of_lt
  exact List.inj_on_of_nodup_map hnd hr hr' he

theorem MapInv.find? (h : MapInv dir log rs floor) {loc : RecordLoc} :
    log.records.find? index = some loc ↔ ∃ r ∈ rs, r.index = index ∧ r.loc = loc := by
  rw [OrdMap.find?_eq_some_iff, h.records, List.mem_map]
  simp only [Rec.key, Prod.mk.injEq]

theorem MapInv.forall_find?_iff (h : MapInv dir log rs floor) {P : Nat → RecordLoc → Prop} :
    (∀ i loc, log.records.find? i = some loc → P i loc) ↔ ∀ r ∈ rs, P r.index r.loc := by
  constructor
  · exact fun hall r hr => hall r.index r.loc (h.find?.mpr ⟨r, hr, rfl, rfl⟩)
  · intro hall i loc hfind
    obtain ⟨r, hr, rfl, rfl⟩ := h.find?.mp hfind
    exact hall r hr

/-- Of two records of a segment, the later one lies behind the other. -/
theorem MapInv.behind (h : MapInv dir log rs floor) {r x : Rec} (hr : r ∈ rs) (hx : x ∈ rs)
    (hlt : r.index < x.index) (hseg : r.loc.segmentStart = x.loc.segmentStart) :
    r.loc.payloadOffset + r.loc.len + headerBytes ≤ x.loc.payloadOffset := by
  obtain ⟨i, hi, rfl⟩ := List.getElem_of_mem hr
  obtain ⟨j, hj, rfl⟩ := List.getElem_of_mem hx
  have hij : i < j := by
    by_contra hge
    rcases Nat.lt_or_eq_of_le (Nat.le_of_not_lt hge) with hji | rfl
    · have := List.pairwise_iff_getElem.mp h.indexes j i hj hi hji
      omega
    · omega
  exact List.pairwise_iff_getElem.mp h.apart i j hi hj hij hseg

/-- A file that only grew still holds its records. -/
theorem Readable.grow {r : Rec} (h : Readable dir r) (ext : Bytes)
    (hf : ∀ bytes, dir.find? r.loc.segmentStart = some bytes →
      dir'.find? r.loc.segmentStart = some (bytes ++ ext)) : Readable dir' r := by
  obtain ⟨bytes, hb, hlen, hslice⟩ := h
  refine ⟨bytes ++ ext, hf bytes hb, ?_, ?_⟩
  · rw [List.length_append]
    omega
  · rw [← hslice, slice, slice, List.drop_append_of_le_length (by omega),
      List.take_append_of_le_length (by rw [List.length_drop]; omega)]

/-- A file cut behind a record still holds it. -/
theorem Readable.cut {r : Rec} (h : Readable dir r) {n : Nat}
    (hn : r.loc.payloadOffset + r.loc.len ≤ n)
    (hf : ∀ bytes, dir.find? r.loc.segmentStart = some bytes →
      dir'.find? r.loc.segmentStart = some (setLen n bytes)) : Readable dir' r := by
  obtain ⟨bytes, hb, hlen, hslice⟩ := h
  refine ⟨setLen n bytes, hf bytes hb, by rw [length_setLen]; exact hn, ?_⟩
  rw [← hslice, slice, slice, setLen]
  rcases Nat.lt_or_ge bytes.length n with hlt | hge
  · rw [List.take_of_length_le (Nat.le_of_lt hlt), List.drop_append_of_le_length (by omega),
      List.take_append_of_le_length (by rw [List.length_drop]; omega)]
  · rw [Nat.sub_eq_zero_of_le hge, List.replicate_zero, List.append_nil, List.drop_take,
      List.take_take, Nat.min_eq_left (by omega)]

theorem Readable.congr {r : Rec} (h : Readable dir r)
    (hf : dir'.find? r.loc.segmentStart = dir.find? r.loc.segmentStart) : Readable dir' r := by
  obtain ⟨bytes, hb, hrest⟩ := h
  exact ⟨bytes, hf.trans hb, hrest⟩

/-- The last of a sorted list is the largest. -/
theorem le_of_getLast? {l : List Nat} {k s : Nat} (hl : l.Pairwise (· < ·))
    (hs : l.getLast? = some s) (hk : k ∈ l) : k ≤ s := by
  obtain ⟨pre, rfl⟩ := List.getLast?_eq_some_iff.mp hs
  rcases List.mem_append.mp hk with hk | hk
  · exact Nat.le_of_lt ((List.pairwise_append.mp hl).2.2 k hk s (List.mem_singleton_self s))
  · exact Nat.le_of_eq (List.mem_singleton.mp hk)

/-! ## the discipline -/

/-- The index an append takes: one more than the last, or than the purge bound
when the log is empty. -/
def NextIndex (map : OrdMap Nat Bytes) (floor : Option Nat) (index : Nat) : Prop :=
  match map.lastKey? with
  | some last => index = last + 1
  | none => ∀ p, floor = some p → index = p + 1

theorem NextIndex.lt {map : OrdMap Nat Bytes} (hn : NextIndex map floor index)
    (h : MapInv dir log rs floor) (hm : map.toList = rs.map Rec.item) :
    (∀ r ∈ rs, r.index < index) ∧ ∀ k, Covered floor k → k < index := by
  rcases List.eq_nil_or_concat' rs with rfl | ⟨pre, last, rfl⟩
  · have hlast : map.lastKey? = none := by rw [OrdMap.lastKey?, hm]; rfl
    rw [NextIndex, hlast] at hn
    refine ⟨by simp, ?_⟩
    rintro k ⟨p, hp, hk⟩
    have := hn p hp
    omega
  · have hlast : map.lastKey? = some last.index := by
      rw [OrdMap.lastKey?, hm, List.map_append, List.map_singleton, List.getLast?_append]
      rfl
    rw [NextIndex, hlast] at hn
    have hle : ∀ r ∈ pre ++ [last], r.index ≤ last.index := by
      intro r hr
      rcases List.mem_append.mp hr with hr | hr
      · exact Nat.le_of_lt ((List.pairwise_append.mp h.indexes).2.2 r hr last
          (List.mem_singleton_self last))
      · rw [List.mem_singleton.mp hr]
    refine ⟨fun r hr => by have := hle r hr; omega, ?_⟩
    rintro k ⟨p, hp, hk⟩
    have hab : p < last.index := by
      by_contra hge
      exact h.above last (by simp) ⟨p, hp, by omega⟩
    omega

/-- The record before the next one lies in the last segment, unless it was
purged. -/
theorem NextIndex.dense {map : OrdMap Nat Bytes} (hn : NextIndex map floor index)
    (h : MapInv dir log rs floor) (hm : map.toList = rs.map Rec.item) {s : Nat}
    (hs : log.starts.getLast? = some s) :
    (∃ r ∈ rs, r.index + 1 = index ∧ r.loc.segmentStart = s) ∨ Covered floor (index - 1) := by
  have hmem := List.mem_of_getLast? hs
  rcases List.eq_nil_or_concat' rs with rfl | ⟨pre, last, rfl⟩
  · have hlast : map.lastKey? = none := by rw [OrdMap.lastKey?, hm]; rfl
    rw [NextIndex, hlast] at hn
    rcases h.starts s hmem with ⟨r, hr, _⟩ | ⟨p, hp, _⟩
    · contradiction
    · exact .inr ⟨p, hp, by rw [hn p hp]; omega⟩
  · have hlast : map.lastKey? = some last.index := by
      rw [OrdMap.lastKey?, hm, List.map_append, List.map_singleton, List.getLast?_append]
      rfl
    obtain ⟨hrs, hfloor⟩ := hn.lt h hm
    rw [NextIndex, hlast] at hn
    have hl : last ∈ pre ++ [last] := by simp
    obtain ⟨h1, _, h3⟩ := h.segment last hl
    have hsle : s ≤ last.index := by
      rcases h.starts s hmem with ⟨r, hr, rfl⟩ | hc
      · have := hrs r hr
        omega
      · have := hfloor s hc
        omega
    refine .inl ⟨last, hl, hn.symm, Nat.le_antisymm ?_ (h3 s hmem hsle)⟩
    exact le_of_getLast? h.sorted hs h1

/-- Every segment, and every file, is older than the next record. -/
theorem MapInv.starts_lt (h : MapInv dir log rs floor) (hrs : ∀ r ∈ rs, r.index < index)
    (hfloor : ∀ k, Covered floor k → k < index) : ∀ s ∈ log.starts, s < index := by
  intro s hs
  rcases h.starts s hs with ⟨r, hr, rfl⟩ | hc
  · exact hrs r hr
  · exact hfloor s hc

end

/-! ## append -/

section
variable [Ext] {dir : LogDir} {log : SegmentedLog} {rs : List Rec} {floor : Option Nat} {index : Nat}
  {Q : Unit → LogDir → SegmentedLog → Prop} {E : Error → LogDir → SegmentedLog → Prop}
  {C : LogDir → Prop}

/-- The payload behind a new frame's header. -/
theorem slice_frame (bytes p : Bytes) :
    bytes.length + headerBytes + p.length ≤ (bytes ++ frame p).length ∧
      slice (bytes ++ frame p) (bytes.length + headerBytes) p.length = p := by
  refine ⟨by rw [List.length_append, length_frame]; omega, ?_⟩
  have hsplit : bytes ++ frame p =
      (bytes ++ (u32ToLe p.length ++ u32ToLe (crc32c p).toNat)) ++ (p ++ []) := by
    simp [frame]
  rw [hsplit]
  exact slice_append _ _ _ (by simp [length_u32ToLe, headerBytes]) rfl

/-- The invariant after a frame was added to the segment `s`, the last. -/
theorem MapInv.appended {dir' : LogDir} {log' : SegmentedLog} (s : Nat) (bytes : Bytes) {p : Bytes}
    (h : MapInv dir log rs floor) (hrs : ∀ r ∈ rs, r.index < index)
    (hfloor : ∀ k, Covered floor k → k < index)
    (hdense : ∀ s, log.starts.getLast? = some s →
      (∃ r ∈ rs, r.index + 1 = index ∧ r.loc.segmentStart = s) ∨ Covered floor (index - 1))
    (hstarts : log'.starts = log.starts ∧ log.starts.getLast? = some s ∨
      log'.starts = log.starts ++ [index] ∧ s = index ∧ bytes = [])
    (hold : ∀ k, k ≠ s → dir'.find? k = dir.find? k)
    (hs : log.starts.getLast? = some s → dir.find? s = some bytes)
    (hnew : dir'.find? s = some (bytes ++ frame p))
    (hrec : log'.records = log.records.insert index ⟨s, bytes.length + headerBytes, p.length⟩)
    (hact : log'.active = some ⟨s, (bytes ++ frame p).length⟩) :
    MapInv dir' log' (rs ++ [⟨index, ⟨s, bytes.length + headerBytes, p.length⟩, p⟩]) floor := by
  have hlt := h.starts_lt hrs hfloor
  have hmem : ∀ k, k ∈ log.starts → k ∈ log'.starts := by
    intro k hk
    rcases hstarts with ⟨he, _⟩ | ⟨he, _⟩
    · rw [he]; exact hk
    · rw [he]; exact List.mem_append_left _ hk
  have hmem' : ∀ k, k ∈ log'.starts → k ∈ log.starts ∨ k = index := by
    intro k hk
    rcases hstarts with ⟨he, _⟩ | ⟨he, _⟩
    · rw [he] at hk; exact .inl hk
    · rw [he] at hk; simpa using hk
  have hlast : log'.starts.getLast? = some s := by
    rcases hstarts with ⟨he, hl⟩ | ⟨he, rfl, _⟩
    · rw [he, hl]
    · rw [he]; simp
  have hsmem : s ∈ log'.starts := List.mem_of_getLast? hlast
  -- a record of the same segment lies in the bytes that were there
  have hbefore : ∀ r ∈ rs, r.loc.segmentStart = s → dir.find? s = some bytes := by
    intro r hr he
    rcases hstarts with ⟨_, hl⟩ | ⟨_, rfl, _⟩
    · exact hs hl
    · have := hlt s (he ▸ (h.segment r hr).1)
      omega
  constructor
  · have hkeys : ∀ q ∈ log.records.toList, q.1 < index := by
      intro q hq
      rw [h.records, List.mem_map] at hq
      obtain ⟨r, hr, rfl⟩ := hq
      exact hrs r hr
    rw [hrec, OrdMap.toList_insert_of_lt hkeys, h.records, List.map_append]
    rfl
  · intro r hr
    rcases List.mem_append.mp hr with hr | hr
    · by_cases he : r.loc.segmentStart = s
      · refine (h.readable r hr).grow (frame p) fun b hb => ?_
        rw [he] at hb ⊢
        rw [hbefore r hr he, Option.some.injEq] at hb
        rw [hnew, hb]
      · exact (h.readable r hr).congr (hold _ he)
    · rw [List.mem_singleton.mp hr]
      exact ⟨_, hnew, slice_frame bytes p⟩
  · intro r hr
    rcases List.mem_append.mp hr with hr | hr
    · obtain ⟨h1, h2, h3⟩ := h.segment r hr
      have hbelow := hrs r hr
      refine ⟨hmem _ h1, h2, fun k hk hle => ?_⟩
      rcases hmem' k hk with hk | he
      · exact h3 k hk hle
      · omega
    · rw [List.mem_singleton.mp hr]
      refine ⟨hsmem, ?_, fun k hk _ => ?_⟩
      · rcases hmem' s hsmem with hk | he
        · exact Nat.le_of_lt (hlt s hk)
        · exact Nat.le_of_eq he
      · rcases hstarts with ⟨he, hl⟩ | ⟨_, rfl, _⟩
        · rw [he] at hk
          exact le_of_getLast? h.sorted hl hk
        · rcases hmem' k hk with hk | rfl
          · exact Nat.le_of_lt (hlt k hk)
          · exact Nat.le_refl _
  · refine List.pairwise_append.mpr ⟨h.apart, List.pairwise_singleton _ _, fun r hr x hx he => ?_⟩
    rw [List.mem_singleton.mp hx] at he ⊢
    obtain ⟨b, hb, hlen, _⟩ := h.readable r hr
    rw [he, hbefore r hr he, Option.some.injEq] at hb
    show _ ≤ bytes.length + headerBytes
    rw [hb]
    omega
  · intro r hr
    rcases List.mem_append.mp hr with hr | hr
    · exact h.framed r hr
    · rw [List.mem_singleton.mp hr]
      exact Nat.le_add_left _ _
  · intro r hr
    rcases List.mem_append.mp hr with hr | hr
    · exact h.above r hr
    · rw [List.mem_singleton.mp hr]
      intro hc
      exact Nat.lt_irrefl index (hfloor index hc)
  · rcases hstarts with ⟨he, _⟩ | ⟨he, _⟩
    · rw [he]; exact h.sorted
    · rw [he]
      refine List.pairwise_append.mpr ⟨h.sorted, List.pairwise_singleton _ _, fun a ha b hb => ?_⟩
      rw [List.mem_singleton.mp hb]
      exact hlt a ha
  · intro k hk
    by_cases he : k = s
    · exact ⟨_, he ▸ hnew⟩
    · rw [hold k he]
      rcases hmem' k hk with hk | rfl
      · exact h.files k hk
      · rcases hstarts with ⟨heq, _⟩ | ⟨_, rfl, _⟩
        · rw [heq] at hk
          exact h.files k hk
        · exact absurd rfl he
  · rw [hlast, Option.bind_some, hnew, hact]
    rfl
  · intro k hk
    rcases hmem' k hk with hk | rfl
    · refine (h.starts k hk).imp_left ?_
      rintro ⟨r, hr, he⟩
      exact ⟨r, List.mem_append_left _ hr, he⟩
    · exact .inl ⟨_, List.mem_append_right _ (List.mem_singleton_self _), rfl⟩
  · refine List.IsChain.imp (fun _ _ => Or.imp_left fun ⟨r, hr, he⟩ =>
      ⟨r, List.mem_append_left _ hr, he⟩) ?_ (R := fun k next =>
        (∃ r ∈ rs, r.index + 1 = next ∧ r.loc.segmentStart = k) ∨ Covered floor (next - 1))
    rcases hstarts with ⟨he, _⟩ | ⟨he, _⟩
    · rw [he]
      exact h.dense
    · rw [he]
      refine h.dense.append (List.isChain_singleton _) fun k hk next hnext => ?_
      rw [List.head?_cons, Option.mem_some_iff] at hnext
      exact hnext ▸ hdense k hk
  · intro k b hb
    by_cases he : k = s
    · exact he ▸ hsmem
    · rw [hold k he] at hb
      exact hmem k (h.listed k b hb)

/-- **Append** adds one record. -/
theorem MapInv.wp_append {p : Bytes} (h : MapInv dir log rs floor)
    (hrs : ∀ r ∈ rs, r.index < index) (hfloor : ∀ k, Covered floor k → k < index)
    (hdense : ∀ s, log.starts.getLast? = some s →
      (∃ r ∈ rs, r.index + 1 = index ∧ r.loc.segmentStart = s) ∨ Covered floor (index - 1))
    (hp : p.length < 2 ^ 32) (hC : ∀ d, C d)
    (hQ : ∀ dir' log' loc, MapInv dir' log' (rs ++ [⟨index, loc, p⟩]) floor → Q () dir' log') :
    wp (SegmentedLog.append index p) Q E C dir log := by
  have hlt := h.starts_lt hrs hfloor
  cases hrot : log.needsRotation with
  | true =>
    have hno : dir.contains index = false := by
      rw [OrdMap.contains_eq_false_iff]
      cases hf : dir.find? index with
      | none => rfl
      | some b => exact absurd (hlt index (h.listed index b hf)) (Nat.lt_irrefl _)
    have hnm : index ∉ log.starts := fun hs => Nat.lt_irrefl _ (hlt index hs)
    have hsort := insertionSort_cons_of_lt h.sorted hlt
    rw [wp_append_rotating hrot hp, LogDir.created, if_neg (by simp [hno]),
      SegmentedLog.rotated, if_neg hnm, hsort]
    refine ⟨hC _, hC _, hQ _ _ _ (h.appended index [] hrs hfloor hdense
      (.inr ⟨rfl, rfl, rfl⟩) (fun k hk => ?_) (fun hl => ?_) ?_ rfl ?_)⟩
    · rw [OrdMap.find?_modify, if_neg hk, OrdMap.find?_insert, if_neg hk]
    · exact absurd (List.mem_of_getLast? hl) hnm
    · rw [OrdMap.find?_modify, if_pos rfl, OrdMap.find?_insert, if_pos rfl]
      rfl
    · simp [SegmentedLog.extended]
  | false =>
    have hactive := h.active
    cases hlast : log.starts.getLast? with
    | none =>
      rw [hlast] at hactive
      rw [SegmentedLog.needsRotation, hactive] at hrot
      contradiction
    | some s =>
      obtain ⟨bytes, hb⟩ := h.files s (List.mem_of_getLast? hlast)
      rw [hlast, Option.bind_some, hb, Option.map_some] at hactive
      rw [wp_append_active hactive hrot hp]
      refine ⟨hC _, hQ _ _ _ (h.appended s bytes hrs hfloor hdense (.inl ⟨rfl, hlast⟩)
        (fun k hk => ?_) (fun _ => hb) ?_ rfl ?_)⟩
      · rw [OrdMap.find?_modify, if_neg hk]
      · rw [OrdMap.find?_modify, if_pos rfl, hb]
        rfl
      · simp [SegmentedLog.extended]

end

/-! ## truncate -/

section
variable {dir : LogDir} {log : SegmentedLog} {rs : List Rec} {floor : Option Nat} {index : Nat}
  {Q : Unit → LogDir → SegmentedLog → Prop} {E : Error → LogDir → SegmentedLog → Prop}
  {C : LogDir → Prop}

/-- Unlinking files one by one. -/
theorem wp_removeEach {l : List Nat} (hnd : l.Nodup) (hl : ∀ s ∈ l, ∃ bytes, dir.find? s = some bytes)
    (hC : ∀ d, C d)
    (hQ : ∀ dir', (∀ k, dir'.find? k = if k ∈ l then none else dir.find? k) → Q () dir' log) :
    wp (forEach l SegmentedLog.removeFile) Q E C dir log := by
  induction l generalizing dir with
  | nil => exact hQ dir fun k => by simp
  | cons s l ih =>
    obtain ⟨hs, hnd⟩ := List.nodup_cons.mp hnd
    obtain ⟨bytes, hb⟩ := hl s List.mem_cons_self
    have hc : dir.contains s = true := by rw [OrdMap.contains, hb]; rfl
    rw [forEach, wp_bind', SegmentedLog.removeFile, wp_bind, wp_getDisk, if_pos hc, wp_step]
    refine ⟨hC _, ih hnd (fun t ht => ?_) fun dir' hdir' => hQ dir' fun k => ?_⟩
    · obtain ⟨b, hb'⟩ := hl t (List.mem_cons_of_mem s ht)
      have hne : t ≠ s := fun he => hs (he ▸ ht)
      exact ⟨b, by rw [OrdMap.find?_erase, if_neg hne, hb']⟩
    · rw [hdir', OrdMap.find?_erase]
      by_cases hk : k = s <;> simp [hk]

/-- In a sorted list, the numbers below a bound come first. -/
theorem exists_take_of_filter_lt {l : List Nat} (hl : l.Pairwise (· < ·)) (index : Nat) :
    ∃ n, l.filter (· < index) = l.take n := by
  induction l with
  | nil => exact ⟨0, rfl⟩
  | cons s l ih =>
    obtain ⟨hs, hl⟩ := List.pairwise_cons.mp hl
    obtain ⟨n, hn⟩ := ih hl
    rcases Nat.lt_or_ge s index with hlt | hge
    · exact ⟨n + 1, by rw [List.filter_cons_of_pos (by simpa using hlt), hn, List.take_succ_cons]⟩
    · refine ⟨0, List.filter_eq_nil_iff.mpr fun t ht => ?_⟩
      rcases List.mem_cons.mp ht with rfl | ht
      · simpa using hge
      · have := hs t ht
        simp
        omega

/-- The invariant after the records from `index` on are gone. -/
theorem MapInv.truncated {dir' : LogDir} {log' : SegmentedLog} (h : MapInv dir log rs floor)
    (hold : ∀ k, k < index → (∀ r ∈ rs, r.index = index → r.loc.segmentStart ≠ k) →
      dir'.find? k = dir.find? k)
    (hcut : ∀ r ∈ rs, r.index = index → r.loc.segmentStart < index → ∀ bytes,
      dir.find? r.loc.segmentStart = some bytes →
      dir'.find? r.loc.segmentStart = some (setLen (r.loc.payloadOffset - headerBytes) bytes))
    (hgone : ∀ k, index ≤ k → dir'.find? k = none)
    (hrec : log'.records = log.records.filter fun k _ => k < index)
    (hstarts : log'.starts = log.starts.filter (· < index))
    (hact : log'.active = log'.starts.getLast?.bind fun s =>
      (dir'.find? s).map fun bytes => ⟨s, bytes.length⟩) :
    MapInv dir' log' (rs.filter fun r => r.index < index) floor := by
  have hmem : ∀ {r}, r ∈ rs.filter (fun r => decide (r.index < index)) → r ∈ rs ∧ r.index < index :=
    fun hr => by simpa using hr
  have hin : ∀ {s}, s ∈ log'.starts ↔ s ∈ log.starts ∧ s < index := fun {s} => by
    rw [hstarts]; simp
  constructor
  · rw [hrec, OrdMap.toList_filter, h.records, List.filter_map]
    rfl
  · intro r hr
    obtain ⟨hr, hlt⟩ := hmem hr
    have hseg := (h.segment r hr).2.1
    by_cases hx : ∃ x ∈ rs, x.index = index ∧ x.loc.segmentStart = r.loc.segmentStart
    · obtain ⟨x, hx, hxi, hxs⟩ := hx
      have hbehind := h.behind hr hx (by omega) hxs.symm
      refine (h.readable r hr).cut (n := x.loc.payloadOffset - headerBytes) (by omega)
        fun bytes hb => ?_
      rw [← hxs] at hb ⊢
      exact hcut x hx hxi (by omega) bytes hb
    · refine (h.readable r hr).congr (hold _ (by omega) fun x hxr hxi hxs => hx ⟨x, hxr, hxi, hxs⟩)
  · intro r hr
    obtain ⟨hr, hlt⟩ := hmem hr
    obtain ⟨h1, h2, h3⟩ := h.segment r hr
    exact ⟨hin.mpr ⟨h1, by omega⟩, h2, fun s hs => h3 s (hin.mp hs).1⟩
  · exact h.apart.filter _
  · exact fun r hr => h.framed r (hmem hr).1
  · exact fun r hr => h.above r (hmem hr).1
  · rw [hstarts]
    exact h.sorted.filter _
  · intro s hs
    obtain ⟨hs, hlt⟩ := hin.mp hs
    obtain ⟨bytes, hb⟩ := h.files s hs
    by_cases hx : ∃ x ∈ rs, x.index = index ∧ x.loc.segmentStart = s
    · obtain ⟨x, hx, hxi, rfl⟩ := hx
      exact ⟨_, hcut x hx hxi hlt bytes hb⟩
    · exact ⟨bytes, by rw [hold s hlt fun x hxr hxi hxs => hx ⟨x, hxr, hxi, hxs⟩, hb]⟩
  · exact hact
  · intro s hs
    obtain ⟨hs, hlt⟩ := hin.mp hs
    refine (h.starts s hs).imp_left ?_
    rintro ⟨r, hr, rfl⟩
    exact ⟨r, by simpa using ⟨hr, hlt⟩, rfl⟩
  · -- the starts that are kept are the first ones
    obtain ⟨n, hn⟩ := exists_take_of_filter_lt h.sorted index
    rw [hstarts, hn]
    refine (h.dense.take n).imp_of_mem_imp fun s next _ hnext hR => hR.imp_left ?_
    rintro ⟨r, hr, rfl, he⟩
    have hlt : r.index + 1 < index := by
      rw [← hn] at hnext
      simpa using (List.mem_filter.mp hnext).2
    exact ⟨r, by simpa using ⟨hr, by omega⟩, rfl, he⟩
  · intro k bytes hb
    rcases Nat.lt_or_ge k index with hlt | hge
    · have hfind : ∃ b, dir.find? k = some b := by
        by_cases hx : ∃ x ∈ rs, x.index = index ∧ x.loc.segmentStart = k
        · obtain ⟨x, hx, _, rfl⟩ := hx
          exact h.files _ (h.segment x hx).1
        · rw [hold k hlt fun x hxr hxi hxs => hx ⟨x, hxr, hxi, hxs⟩] at hb
          exact ⟨bytes, hb⟩
      obtain ⟨b, hb⟩ := hfind
      exact hin.mpr ⟨h.listed k b hb, hlt⟩
    · rw [hgone k hge] at hb
      contradiction

/-- The cut of the segment that holds the first dropped record. -/
theorem MapInv.wp_cutSegment (h : MapInv dir log rs floor) (hC : ∀ d, C d) {log' : SegmentedLog}
    (hQ : ∀ dir', (∀ k, (∀ r ∈ rs, r.index = index → r.loc.segmentStart < index →
        r.loc.segmentStart ≠ k) → dir'.find? k = dir.find? k) →
      (∀ r ∈ rs, r.index = index → r.loc.segmentStart < index → ∀ bytes,
        dir.find? r.loc.segmentStart = some bytes →
        dir'.find? r.loc.segmentStart = some (setLen (r.loc.payloadOffset - headerBytes) bytes)) →
      Q () dir' log') :
    wp (SegmentedLog.cutSegment index ((log.records.find? index).map
      fun loc => (loc.segmentStart, loc.payloadOffset - headerBytes))) Q E C dir log' := by
  cases hfind : log.records.find? index with
  | none =>
    have hno : ∀ r ∈ rs, r.index ≠ index := fun r hr he => by
      have := h.find?.mpr ⟨r, hr, he, rfl⟩
      rw [hfind] at this
      contradiction
    exact hQ dir (fun _ _ => rfl) fun r hr he => absurd he (hno r hr)
  | some loc =>
    obtain ⟨r, hr, hri, rfl⟩ := h.find?.mp hfind
    have honly : ∀ x ∈ rs, x.index = index → x = r := fun x hx hxi =>
      h.index_inj hx hr (hxi.trans hri.symm)
    rw [Option.map_some, SegmentedLog.cutSegment]
    split
    · rename_i hlt
      obtain ⟨bytes, hb⟩ := h.files _ (h.segment r hr).1
      have hc : dir.contains r.loc.segmentStart = true := by rw [OrdMap.contains, hb]; rfl
      rw [wp_bind, wp_getDisk, if_pos hc, wp_step]
      refine ⟨hC _, hQ _ (fun k hk => ?_) fun x hx hxi _ bytes hb => ?_⟩
      · rw [OrdMap.find?_modify, if_neg (Ne.symm (hk r hr hri hlt))]
      · rw [honly x hx hxi] at hb ⊢
        rw [OrdMap.find?_modify, if_pos rfl, hb]
        rfl
    · rename_i hge
      exact hQ dir (fun _ _ => rfl) fun x hx hxi hlt => absurd (honly x hx hxi ▸ hlt) hge

/-- **Truncate** keeps the records below `index`. -/
theorem MapInv.wp_truncateFrom (h : MapInv dir log rs floor) (hC : ∀ d, C d)
    (hQ : ∀ dir' log', MapInv dir' log' (rs.filter fun r => r.index < index) floor →
      Q () dir' log') :
    wp (SegmentedLog.truncateFrom index) Q E C dir log := by
  have hdel : ∀ k, k ∈ log.starts.filter (fun s => decide (index ≤ s)) ↔ k ∈ log.starts ∧ index ≤ k :=
    fun k => by simp
  have hkeep : log.starts.filter (fun s => decide (s ∉ log.starts.filter fun s =>
      decide (index ≤ s))) = log.starts.filter (· < index) := by
    refine List.filter_congr fun s hs => ?_
    rw [decide_eq_decide, hdel]
    constructor
    · intro hno
      by_contra hge
      exact hno ⟨hs, by omega⟩
    · rintro hlt ⟨_, hge⟩
      omega
  rw [SegmentedLog.truncateFrom]
  simp only [wp_bind, wp_getMem, wp_modifyMem]
  refine h.wp_cutSegment hC fun dir₁ hsame hcut => ?_
  -- the cut changes no segment that is to be deleted
  have hfiles : ∀ s ∈ log.starts, ∃ bytes, dir₁.find? s = some bytes := by
    intro s hs
    obtain ⟨bytes, hb⟩ := h.files s hs
    by_cases hx : ∃ x ∈ rs, x.index = index ∧ x.loc.segmentStart < index ∧ x.loc.segmentStart = s
    · obtain ⟨x, hx, hxi, hlt, rfl⟩ := hx
      exact ⟨_, hcut x hx hxi hlt bytes hb⟩
    · exact ⟨bytes, by rw [hsame s fun x hxr hxi hlt hxs => hx ⟨x, hxr, hxi, hlt, hxs⟩, hb]⟩
  refine wp_removeEach ((h.sorted.imp Nat.ne_of_lt).filter _)
    (fun s hs => hfiles s ((hdel s).mp hs).1) hC fun dir₂ hdir₂ => ?_
  have hlow : ∀ k, k < index → dir₂.find? k = dir₁.find? k := by
    intro k hk
    rw [hdir₂, if_neg fun hd => Nat.not_lt.mpr ((hdel k).mp hd).2 hk]
  have hgone : ∀ k, index ≤ k → dir₂.find? k = none := by
    intro k hk
    rw [hdir₂]
    split
    · rfl
    · rename_i hno
      cases hf : dir₁.find? k with
      | none => rfl
      | some b =>
        rw [hsame k fun x _ _ hlt hxs => by omega] at hf
        exact absurd ((hdel k).mpr ⟨h.listed k b hf, hk⟩) hno
  have hinv : ∀ log' : SegmentedLog, log'.records = log.records.filter (fun k _ => k < index) →
      log'.starts = log.starts.filter (· < index) →
      (log'.active = log'.starts.getLast?.bind fun s =>
        (dir₂.find? s).map fun bytes => ⟨s, bytes.length⟩) → Q () dir₂ log' := by
    intro log' hrec hstarts hact
    refine hQ dir₂ log' (h.truncated (fun k hk hne => ?_) (fun r hr hri hlt bytes hb => ?_) hgone
      hrec hstarts hact)
    · rw [hlow k hk, hsame k fun x hx hxi _ => hne x hx hxi]
    · rw [hlow _ hlt]
      exact hcut r hr hri hlt bytes hb
  simp only [SegmentedLog.reopenActive, wp_bind, wp_getMem, hkeep]
  cases hlast : (log.starts.filter (· < index)).getLast? with
  | none => exact hinv _ rfl rfl (by rw [hlast]; rfl)
  | some s =>
    have hs := List.mem_of_getLast? hlast
    obtain ⟨hs, hlt⟩ : s ∈ log.starts ∧ s < index := by simpa using hs
    obtain ⟨bytes, hb⟩ := hfiles s hs
    rw [← hlow s hlt] at hb
    simp only [wp_bind, wp_getDisk, hb]
    exact hinv _ rfl rfl (by rw [hlast, Option.bind_some, hb]; rfl)

/-! ## purge -/

/-- The segments a purge unlinks: the inactive ones whose successor shows them to
be covered. -/
def unlinked (index : Nat) (active : Option Nat) : List Nat → List Nat
  | [] => []
  | start :: rest =>
    if some start = active then unlinked index active rest
    else
      match rest.head? with
      | none => unlinked index active rest
      | some next =>
        if next - 1 ≤ index then start :: unlinked index active rest
        else unlinked index active rest

theorem unlinked_sublist (index : Nat) (active : Option Nat) (l : List Nat) :
    (unlinked index active l).Sublist l := by
  induction l with
  | nil => exact List.Sublist.refl _
  | cons s l ih =>
    rw [unlinked]
    repeat' split
    all_goals first
      | exact ih.cons s
      | exact ih.cons_cons s

/-- A purge goes over the segments and removes those. -/
theorem purgeFiles_eq_forEach (index : Nat) (active : Option Nat) (l : List Nat) :
    SegmentedLog.purgeFiles index active l =
      forEach (unlinked index active l) SegmentedLog.removeFile := by
  induction l with
  | nil => rfl
  | cons s l ih =>
    rw [SegmentedLog.purgeFiles, ih, SegmentedLog.purgeFile.eq_def, unlinked]
    split
    · rfl
    · cases l.head? with
      | none => rfl
      | some next =>
        by_cases hle : next - 1 ≤ index
        · simp only [if_pos hle]
          rfl
        · simp only [if_neg hle]
          rfl

theorem wp_purgeFiles_unlinked {active : Option Nat} {l : List Nat} (hl : l.Nodup)
    (hfiles : ∀ s ∈ l, ∃ bytes, dir.find? s = some bytes) (hC : ∀ d, C d)
    (hQ : ∀ dir', (∀ k, dir'.find? k = if k ∈ unlinked index active l then none else dir.find? k) →
      Q () dir' log) :
    wp (SegmentedLog.purgeFiles index active l) Q E C dir log := by
  rw [purgeFiles_eq_forEach]
  exact wp_removeEach ((unlinked_sublist index active l).nodup hl)
    (fun s hs => hfiles s ((unlinked_sublist index active l).subset hs)) hC hQ

/-- An inactive segment all of whose records are at or below the bound. -/
def DeadSegment (log : SegmentedLog) (index k : Nat) : Prop :=
  k ∈ log.starts ∧ some k ≠ log.active.map Active.start ∧
    ∀ i loc, log.records.find? i = some loc → loc.segmentStart = k → i ≤ index

/-- The successor of a segment shows it to be covered if and only if its records
are. -/
theorem mem_unlinked_iff {l : List Nat} (hsorted : l.Pairwise (· < ·))
    (hdense : l.IsChain fun s next =>
      (∃ r ∈ rs, r.index + 1 = next ∧ r.loc.segmentStart = s) ∨ Covered floor (next - 1))
    (hseg : ∀ r ∈ rs, ∀ s ∈ l, s ≤ r.index → s ≤ r.loc.segmentStart)
    (hfloor : ∀ p, floor = some p → p ≤ index) {k : Nat} :
    k ∈ unlinked index l.getLast? l ↔
      k ∈ l ∧ some k ≠ l.getLast? ∧ ∀ r ∈ rs, r.loc.segmentStart = k → r.index ≤ index := by
  induction l with
  | nil => simp [unlinked]
  | cons s l ih =>
    cases l with
    | nil =>
      rw [unlinked, if_pos List.getLast?_singleton.symm, unlinked]
      simp only [List.not_mem_nil, List.mem_singleton, List.getLast?_singleton, ne_eq,
        Option.some.injEq, false_iff, not_and]
      exact fun hk hne => absurd hk hne
    | cons next l =>
      obtain ⟨hs, hsorted⟩ := List.pairwise_cons.mp hsorted
      obtain ⟨hlink, hdense⟩ := List.isChain_cons_cons.mp hdense
      have ih := ih hsorted hdense fun r hr t ht => hseg r hr t (List.mem_cons_of_mem s ht)
      have hna : some s ≠ (next :: l).getLast? := fun he => by
        have := hs s (List.mem_of_getLast? he.symm)
        omega
      have hlt := hs next List.mem_cons_self
      -- the records of the first segment lie before the next one
      have hdead : (∀ r ∈ rs, r.loc.segmentStart = s → r.index ≤ index) ↔ next - 1 ≤ index := by
        constructor
        · intro hr
          rcases hlink with ⟨r, hmem, rfl, he⟩ | ⟨p, hp, hle⟩
          · exact hr r hmem he
          · have := hfloor p hp
            omega
        · intro hle r hr he
          by_contra hgt
          have := hseg r hr next (by simp) (by omega)
          omega
      rw [unlinked, List.getLast?_cons_cons, if_neg hna, List.head?_cons]
      by_cases hk : k = s
      · subst hk
        simp only [hdead]
        split
        · simp_all
        · simp_all
      · simp only [List.mem_cons, hk, false_or] at ih ⊢
        rw [← ih]
        split <;> simp [hk]

theorem MapInv.active_start (h : MapInv dir log rs floor) :
    log.active.map Active.start = log.starts.getLast? := by
  rw [h.active]
  cases hl : log.starts.getLast? with
  | none => rfl
  | some s =>
    obtain ⟨bytes, hb⟩ := h.files s (List.mem_of_getLast? hl)
    rw [Option.bind_some, hb]
    rfl

theorem MapInv.mem_unlinked_iff (h : MapInv dir log rs floor)
    (hfloor : ∀ p, floor = some p → p ≤ index) {k : Nat} :
    k ∈ unlinked index log.starts.getLast? log.starts ↔ DeadSegment log index k := by
  rw [Lumen.mem_unlinked_iff h.sorted h.dense (fun r hr s hs => (h.segment r hr).2.2 s hs) hfloor,
    DeadSegment, h.active_start, h.forall_find?_iff]

/-- The last element of a list survives a filter that keeps it. -/
theorem getLast?_filter_of_last {α : Type} {l : List α} {a : α} {p : α → Bool}
    (h : l.getLast? = some a) (hp : p a = true) : (l.filter p).getLast? = some a := by
  obtain ⟨pre, rfl⟩ := List.getLast?_eq_some_iff.mp h
  rw [List.filter_append, List.filter_singleton, hp]
  simp

/-- A filter that keeps what follows anything it keeps. -/
theorem exists_drop_of_filter {α : Type} {l : List α} {p : α → Bool}
    (h : l.Pairwise fun a b => p a = true → p b = true) : ∃ n, l.filter p = l.drop n := by
  induction l with
  | nil => exact ⟨0, rfl⟩
  | cons a l ih =>
    obtain ⟨ha, hl⟩ := List.pairwise_cons.mp h
    by_cases hp : p a = true
    · have hall : ∀ b ∈ a :: l, p b = true :=
        List.forall_mem_cons.mpr ⟨hp, fun b hb => ha b hb hp⟩
      exact ⟨0, by rw [List.filter_eq_self.mpr hall, List.drop_zero]⟩
    · obtain ⟨n, hn⟩ := ih hl
      exact ⟨n + 1, by rw [List.filter_cons_of_neg hp, hn, List.drop_succ_cons]⟩

theorem MapInv.not_dead_iff (h : MapInv dir log rs floor) {k : Nat} (hk : k ∈ log.starts) :
    ¬ DeadSegment log index k ↔
      some k = log.starts.getLast? ∨ ∃ r ∈ rs, index < r.index ∧ r.loc.segmentStart = k := by
  rw [DeadSegment, h.active_start, h.forall_find?_iff]
  simp only [hk, true_and, not_and_or, not_not, not_forall, not_le]
  grind

/-- A segment that starts above the bound has its first record. -/
theorem MapInv.not_dead_of_lt (h : MapInv dir log rs floor)
    (hfloor : ∀ p, floor = some p → p ≤ index) {k : Nat} (hk : k ∈ log.starts) (hlt : index < k) :
    ¬ DeadSegment log index k := by
  refine (h.not_dead_iff hk).mpr (.inr ?_)
  rcases h.starts k hk with ⟨r, hr, rfl⟩ | ⟨p, hp, hle⟩
  · obtain ⟨_, h2, h3⟩ := h.segment r hr
    exact ⟨r, hr, hlt, Nat.le_antisymm h2 (h3 _ hk (Nat.le_refl _))⟩
  · have := hfloor p hp
    omega

/-- Segments behind one that is kept are kept. -/
theorem MapInv.not_dead_of_not_dead (h : MapInv dir log rs floor)
    (hfloor : ∀ p, floor = some p → p ≤ index) {s t : Nat} (hs : s ∈ log.starts)
    (ht : t ∈ log.starts) (hlt : s < t) (hkept : ¬ DeadSegment log index s) :
    ¬ DeadSegment log index t := by
  rcases (h.not_dead_iff hs).mp hkept with hlast | ⟨r, hr, hri, rfl⟩
  · have := le_of_getLast? h.sorted hlast.symm ht
    omega
  · refine h.not_dead_of_lt hfloor ht ?_
    by_contra hle
    have := (h.segment r hr).2.2 t ht (by omega)
    omega

/-- The invariant after the records up to `index` and the dead segments are gone. -/
theorem MapInv.purged {dir' : LogDir} {log' : SegmentedLog} (h : MapInv dir log rs floor)
    (hfloor : ∀ p, floor = some p → p ≤ index)
    (hgone : ∀ k, DeadSegment log index k → dir'.find? k = none)
    (hold : ∀ k, ¬ DeadSegment log index k → dir'.find? k = dir.find? k)
    (hrec : log'.records = log.records.filter fun k _ => index < k)
    {keep : Nat → Bool} (hstarts : log'.starts = log.starts.filter keep)
    (hkeep : ∀ k ∈ log.starts, keep k = true ↔ ¬ DeadSegment log index k)
    (hact : log'.active = log.active) :
    MapInv dir' log' (rs.filter fun r => index < r.index) (some index) := by
  have hcov : ∀ k, Covered floor k → Covered (some index) k := by
    rintro k ⟨p, hp, hk⟩
    exact ⟨index, rfl, hk.trans (hfloor p hp)⟩
  have hmem : ∀ {r}, r ∈ rs.filter (fun r => decide (index < r.index)) ↔ r ∈ rs ∧ index < r.index :=
    fun {r} => by simp
  have hin : ∀ {k}, k ∈ log'.starts ↔ k ∈ log.starts ∧ ¬ DeadSegment log index k := by
    intro k
    rw [hstarts, List.mem_filter]
    exact and_congr_right fun hk => hkeep k hk
  -- a record above the bound keeps its segment
  have halive : ∀ r ∈ rs, index < r.index → ¬ DeadSegment log index r.loc.segmentStart :=
    fun r hr hlt => (h.not_dead_iff (h.segment r hr).1).mpr (.inr ⟨r, hr, hlt, rfl⟩)
  constructor
  · rw [hrec, OrdMap.toList_filter, h.records, List.filter_map]
    rfl
  · intro r hr
    obtain ⟨hr, hlt⟩ := hmem.mp hr
    exact (h.readable r hr).congr (hold _ (halive r hr hlt))
  · intro r hr
    obtain ⟨hr, hlt⟩ := hmem.mp hr
    obtain ⟨h1, h2, h3⟩ := h.segment r hr
    exact ⟨hin.mpr ⟨h1, halive r hr hlt⟩, h2, fun s hs => h3 s (hin.mp hs).1⟩
  · exact h.apart.filter _
  · exact fun r hr => h.framed r (hmem.mp hr).1
  · rintro r hr ⟨p, hp, hle⟩
    rw [Option.some.injEq] at hp
    have := (hmem.mp hr).2
    omega
  · rw [hstarts]
    exact h.sorted.filter _
  · intro s hs
    obtain ⟨hs, hkept⟩ := hin.mp hs
    rw [hold s hkept]
    exact h.files s hs
  · rw [hact, h.active, hstarts]
    cases hl : log.starts.getLast? with
    | none =>
      rw [List.getLast?_eq_none_iff] at hl
      simp [hl]
    | some s =>
      have hs := List.mem_of_getLast? hl
      have hkept : ¬ DeadSegment log index s := (h.not_dead_iff hs).mpr (.inl hl.symm)
      rw [getLast?_filter_of_last hl ((hkeep s hs).mpr hkept), Option.bind_some, Option.bind_some,
        hold s hkept]
  · intro s hs
    rcases h.starts s (hin.mp hs).1 with ⟨r, hr, rfl⟩ | hc
    · rcases Nat.lt_or_ge index r.index with hlt | hge
      · exact .inl ⟨r, hmem.mpr ⟨hr, hlt⟩, rfl⟩
      · exact .inr ⟨index, rfl, hge⟩
    · exact .inr (hcov s hc)
  · obtain ⟨n, hn⟩ := exists_drop_of_filter (p := keep) (l := log.starts) <|
      h.sorted.imp_of_mem fun hs ht hlt hk => (hkeep _ ht).mpr
        (h.not_dead_of_not_dead hfloor hs ht hlt ((hkeep _ hs).mp hk))
    rw [hstarts, hn]
    refine List.IsChain.imp (fun s next hR => ?_) (h.dense.drop n)
    rcases hR with ⟨r, hr, rfl, he⟩ | hc
    · rcases Nat.lt_or_ge index r.index with hlt | hge
      · exact .inl ⟨r, hmem.mpr ⟨hr, hlt⟩, rfl, he⟩
      · exact .inr ⟨index, rfl, hge⟩
    · exact .inr (hcov _ hc)
  · intro k bytes hb
    by_cases hd : DeadSegment log index k
    · rw [hgone k hd] at hb
      contradiction
    · rw [hold k hd] at hb
      exact hin.mpr ⟨h.listed k bytes hb, hd⟩

/-- **Purge** keeps the records above `index`, and unlinks the dead segments. -/
theorem MapInv.wp_purgeThrough (h : MapInv dir log rs floor)
    (hfloor : ∀ p, floor = some p → p ≤ index) (hC : ∀ d, C d)
    (hQ : ∀ dir' log', MapInv dir' log' (rs.filter fun r => index < r.index) (some index) →
      (∀ k, DeadSegment log index k → dir'.find? k = none) →
      (∀ k, ¬ DeadSegment log index k → dir'.find? k = dir.find? k) → log'.active = log.active →
      Q () dir' log') :
    wp (SegmentedLog.purgeThrough index) Q E C dir log := by
  have hact : log.active.map (·.start) = log.starts.getLast? := h.active_start
  rw [SegmentedLog.purgeThrough]
  simp only [wp_bind, wp_modifyMem, wp_getMem, hact]
  refine wp_purgeFiles_unlinked (h.sorted.imp Nat.ne_of_lt) h.files hC fun dir' hdir' => ?_
  have hgone : ∀ k, DeadSegment log index k → dir'.find? k = none := fun k hk => by
    rw [hdir', if_pos ((h.mem_unlinked_iff hfloor).mpr hk)]
  have hold : ∀ k, ¬ DeadSegment log index k → dir'.find? k = dir.find? k := fun k hk => by
    rw [hdir', if_neg fun hm => hk ((h.mem_unlinked_iff hfloor).mp hm)]
  refine hQ _ _ (h.purged hfloor hgone hold rfl rfl (fun k hk => ?_) rfl) hgone hold rfl
  -- a segment stays when it is active or has a record left
  rw [h.not_dead_iff hk, decide_eq_true_iff, List.any_eq_true]
  refine or_congr_right ?_
  simp only [OrdMap.toList_filter, h.records, List.mem_filter, List.mem_map, decide_eq_true_iff]
  constructor
  · rintro ⟨_, ⟨⟨r, hr, rfl⟩, hlt⟩, he⟩
    exact ⟨r, hr, hlt, he⟩
  · rintro ⟨r, hr, hlt, he⟩
    exact ⟨r.key, ⟨⟨r, hr, rfl⟩, hlt⟩, he⟩

end

/-! ## runs -/

section
variable [Ext]

/-- The states of a log that is used as its callers must, from an empty
directory on: what was appended and not removed since, and the highest purge
bound so far. -/
inductive MapRun (segmentMax : Nat) :
    LogDir → SegmentedLog → OrdMap Nat Bytes → Option Nat → Prop where
  | opened {dir : LogDir} {log' : SegmentedLog} (log : SegmentedLog)
      (h : (SegmentedLog.openWithSegmentMax segmentMax).run ∅ log = (.ok (), dir, log')) :
      MapRun segmentMax dir log' ∅ none
  | append {dir dir' : LogDir} {log log' : SegmentedLog} {map : OrdMap Nat Bytes}
      {floor : Option Nat} (index : Nat) (payload : Bytes)
      (prev : MapRun segmentMax dir log map floor) (hnext : NextIndex map floor index)
      (h : (SegmentedLog.append index payload).run dir log = (.ok (), dir', log')) :
      MapRun segmentMax dir' log' (map.insert index payload) floor
  | refused {dir dir' : LogDir} {log log' : SegmentedLog} {map : OrdMap Nat Bytes}
      {floor : Option Nat} {err : Error} (index : Nat) (payload : Bytes)
      (prev : MapRun segmentMax dir log map floor) (hnext : NextIndex map floor index)
      (h : (SegmentedLog.append index payload).run dir log = (.error err, dir', log')) :
      MapRun segmentMax dir' log' map floor
  | sync {dir dir' : LogDir} {log log' : SegmentedLog} {map : OrdMap Nat Bytes}
      {floor : Option Nat} (prev : MapRun segmentMax dir log map floor)
      (h : SegmentedLog.sync.run dir log = (.ok (), dir', log')) :
      MapRun segmentMax dir' log' map floor
  | truncate {dir dir' : LogDir} {log log' : SegmentedLog} {map : OrdMap Nat Bytes}
      {floor : Option Nat} (index : Nat) (prev : MapRun segmentMax dir log map floor)
      (habove : ∀ p, floor = some p → p < index)
      (h : (SegmentedLog.truncateFrom index).run dir log = (.ok (), dir', log')) :
      MapRun segmentMax dir' log' (map.filter fun k _ => k < index) floor
  | purge {dir dir' : LogDir} {log log' : SegmentedLog} {map : OrdMap Nat Bytes}
      {floor : Option Nat} (index : Nat) (prev : MapRun segmentMax dir log map floor)
      (hmono : ∀ p, floor = some p → p ≤ index)
      (h : (SegmentedLog.purgeThrough index).run dir log = (.ok (), dir', log')) :
      MapRun segmentMax dir' log' (map.filter fun k _ => index < k) (some index)

/-- The log stands for the map. -/
def Stands (dir : LogDir) (log : SegmentedLog) (map : OrdMap Nat Bytes) (floor : Option Nat) :
    Prop := ∃ rs, MapInv dir log rs floor ∧ map.toList = rs.map Rec.item

variable {dir : LogDir} {log : SegmentedLog} {map : OrdMap Nat Bytes} {floor : Option Nat}
  {index : Nat} {payload : Bytes}

omit [Ext] in
theorem Stands.empty (segmentMax : Nat) : Stands ∅ ⟨segmentMax, [], ∅, none⟩ ∅ none :=
  ⟨[], ⟨rfl, by simp, by simp, List.Pairwise.nil, by simp, by simp, List.Pairwise.nil, by simp, rfl,
    by simp, List.isChain_nil, by simp⟩, rfl⟩

theorem Stands.wp_append (h : Stands dir log map floor) (hnext : NextIndex map floor index)
    (hlen : payload.length < 2 ^ 32) :
    wp (SegmentedLog.append index payload)
      (fun _ dir' log' => Stands dir' log' (map.insert index payload) floor) (fun _ _ _ => False)
      (fun _ => True) dir log := by
  obtain ⟨rs, hinv, hm⟩ := h
  obtain ⟨hrs, hfloor⟩ := hnext.lt hinv hm
  refine hinv.wp_append hrs hfloor (fun s hs => hnext.dense hinv hm hs) hlen (fun _ => trivial)
    fun dir' log' loc hinv' => ?_
  refine ⟨_, hinv', ?_⟩
  have hkeys : ∀ q ∈ map.toList, q.1 < index := by
    intro q hq
    rw [hm, List.mem_map] at hq
    obtain ⟨r, hr, rfl⟩ := hq
    exact hrs r hr
  rw [OrdMap.toList_insert_of_lt hkeys, hm, List.map_append]
  rfl

/-- A record that is too long is refused before anything is done. -/
theorem append_refused (hlen : 2 ^ 32 ≤ payload.length) :
    (SegmentedLog.append index payload).run dir log =
      (.error (.recovery "log record exceeds u32 length"), dir, log) := by
  rw [SegmentedLog.append, if_pos hlen]
  rfl

omit [Ext] in
theorem Stands.wp_truncateFrom (h : Stands dir log map floor) (index : Nat) :
    wp (SegmentedLog.truncateFrom index)
      (fun _ dir' log' => Stands dir' log' (map.filter fun k _ => k < index) floor)
      (fun _ _ _ => False) (fun _ => True) dir log := by
  obtain ⟨rs, hinv, hm⟩ := h
  refine hinv.wp_truncateFrom (fun _ => trivial) fun dir' log' hinv' => ⟨_, hinv', ?_⟩
  rw [OrdMap.toList_filter, hm, List.filter_map]
  rfl

omit [Ext] in
theorem Stands.wp_purgeThrough (h : Stands dir log map floor)
    (hmono : ∀ p, floor = some p → p ≤ index) :
    wp (SegmentedLog.purgeThrough index)
      (fun _ dir' log' => Stands dir' log' (map.filter fun k _ => index < k) (some index))
      (fun _ _ _ => False) (fun _ => True) dir log := by
  obtain ⟨rs, hinv, hm⟩ := h
  refine hinv.wp_purgeThrough hmono (fun _ => trivial) fun dir' log' hinv' _ _ _ => ⟨_, hinv', ?_⟩
  rw [OrdMap.toList_filter, hm, List.filter_map]
  rfl

/-- Every state of a run stands for its map. -/
theorem MapRun.stands {segmentMax : Nat} (h : MapRun segmentMax dir log map floor) :
    Stands dir log map floor := by
  induction h with
  | opened log h =>
    injection h with _ h
    injection h with hdir hlog
    subst hdir hlog
    exact Stands.empty segmentMax
  | append index payload prev hnext h ih =>
    rcases Nat.lt_or_ge payload.length (2 ^ 32) with hlen | hlen
    · exact post_of_wp (ih.wp_append hnext hlen) h
    · rw [append_refused hlen] at h
      injection h with h _
      contradiction
  | refused index payload prev hnext h ih =>
    rcases Nat.lt_or_ge payload.length (2 ^ 32) with hlen | hlen
    · exact (error_of_wp (ih.wp_append hnext hlen) h).elim
    · rw [append_refused hlen] at h
      injection h with _ h
      injection h with hdir hlog
      subst hdir hlog
      exact ih
  | sync prev h ih =>
    injection h with _ h
    injection h with hdir hlog
    subst hdir hlog
    exact ih
  | truncate index prev habove h ih => exact post_of_wp (ih.wp_truncateFrom index) h
  | purge index prev hmono h ih => exact post_of_wp (ih.wp_purgeThrough hmono) h

omit [Ext] in
theorem Stands.readRange (h : Stands dir log map floor) {lo hi : Nat} (hle : lo ≤ hi) :
    (SegmentedLog.readRange lo hi).run dir log =
      (.ok (map.filter fun k _ => lo ≤ k ∧ k < hi).toList, dir, log) := by
  obtain ⟨rs, hinv, hm⟩ := h
  have hkeys : (log.records.filter fun k _ => lo ≤ k ∧ k < hi).toList =
      (rs.filter fun r => lo ≤ r.index ∧ r.index < hi).map Rec.key := by
    rw [OrdMap.toList_filter, hinv.records, List.filter_map]
    rfl
  have hitems : (map.filter fun k _ => lo ≤ k ∧ k < hi).toList =
      (rs.filter fun r => lo ≤ r.index ∧ r.index < hi).map Rec.item := by
    rw [OrdMap.toList_filter, hm, List.filter_map]
    rfl
  have hread : SegmentedLog.readLocs dir
      ((rs.filter fun r => lo ≤ r.index ∧ r.index < hi).map Rec.key) = _ :=
    readLocs_recs fun r hr => hinv.readable r (List.mem_of_mem_filter hr)
  have hw : wp (SegmentedLog.readRange lo hi) (fun out dir' log' =>
      out = (map.filter fun k _ => lo ≤ k ∧ k < hi).toList ∧ dir' = dir ∧ log' = log)
      (fun _ _ _ => False) (fun _ => True) dir log := by
    rw [SegmentedLog.readRange, wp_bind, wp_getDisk, wp_bind, wp_getMem, if_neg (by omega), hkeys,
      hread, hitems]
    exact ⟨rfl, rfl, rfl⟩
  obtain ⟨_, _, _, hrun, rfl, rfl, rfl⟩ := run_ok_of_wp hw
  exact hrun

omit [Ext] in
theorem Stands.readAll (h : Stands dir log map floor) :
    SegmentedLog.readAll.run dir log = (.ok map.toList, dir, log) := by
  obtain ⟨rs, hinv, hm⟩ := h
  have hw : wp SegmentedLog.readAll (fun out dir' log' =>
      out = map.toList ∧ dir' = dir ∧ log' = log) (fun _ _ _ => False) (fun _ => True) dir log := by
    rw [SegmentedLog.readAll, wp_bind, wp_getDisk, wp_bind, wp_getMem, hinv.records,
      readLocs_recs hinv.readable, hm]
    exact ⟨rfl, rfl, rfl⟩
  obtain ⟨_, _, _, hrun, rfl, rfl, rfl⟩ := run_ok_of_wp hw
  exact hrun

omit [Ext] in
theorem Stands.lastIndex (h : Stands dir log map floor) : log.lastIndex = map.lastKey? := by
  obtain ⟨rs, hinv, hm⟩ := h
  rw [SegmentedLog.lastIndex, OrdMap.lastKey?, OrdMap.lastKey?, hinv.records, hm,
    List.getLast?_map, List.getLast?_map, Option.map_map, Option.map_map]
  rfl

/-- **The log is a map** within one process: in every state of every run, at
every segment size, reads return what was appended and not truncated or purged
since, and no allowed operation fails. -/
theorem segmentedLog_refines_map {segmentMax : Nat} (h : MapRun segmentMax dir log map floor) :
    (∀ lo hi, lo ≤ hi → (SegmentedLog.readRange lo hi).run dir log =
        (.ok (map.filter fun k _ => lo ≤ k ∧ k < hi).toList, dir, log)) ∧
      SegmentedLog.readAll.run dir log = (.ok map.toList, dir, log) ∧
      log.lastIndex = map.lastKey? ∧
      (∀ index payload, NextIndex map floor index → payload.length < 2 ^ 32 → ∃ dir' log',
        (SegmentedLog.append index payload).run dir log = (.ok (), dir', log')) ∧
      (∃ dir' log', SegmentedLog.sync.run dir log = (.ok (), dir', log')) ∧
      (∀ index, (∀ p, floor = some p → p < index) → ∃ dir' log',
        (SegmentedLog.truncateFrom index).run dir log = (.ok (), dir', log')) ∧
      ∀ index, (∀ p, floor = some p → p ≤ index) → ∃ dir' log',
        (SegmentedLog.purgeThrough index).run dir log = (.ok (), dir', log') := by
  have hs := h.stands
  refine ⟨fun lo hi hle => hs.readRange hle, hs.readAll, hs.lastIndex, fun index payload hnext hlen =>
    ?_, ⟨dir, log, rfl⟩, fun index _ => ?_, fun index hmono => ?_⟩
  · obtain ⟨_, dir', log', hrun, _⟩ := run_ok_of_wp (hs.wp_append hnext hlen)
    exact ⟨dir', log', hrun⟩
  · obtain ⟨_, dir', log', hrun, _⟩ := run_ok_of_wp (hs.wp_truncateFrom index)
    exact ⟨dir', log', hrun⟩
  · obtain ⟨_, dir', log', hrun, _⟩ := run_ok_of_wp (hs.wp_purgeThrough hmono)
    exact ⟨dir', log', hrun⟩

end

/-! ## a run with a purge beyond the end -/

section
open Reference

/-- Two records in one segment. -/
def twoRecords : LogDir × SegmentedLog :=
  after (SegmentedLog.append 1 [20]) <|
    after (SegmentedLog.append 0 [10]) <|
      after (SegmentedLog.openWithSegmentMax 64) (∅, .closed)

/-- The log after a purge beyond its end and one more record, which goes into
the segment of the purged ones. -/
def purgedBeyond : LogDir × SegmentedLog :=
  after (SegmentedLog.append 6 [60]) (after (SegmentedLog.purgeThrough 5) twoRecords)

theorem purgedBeyond_run : ∃ map, map.toList = [(6, [60])] ∧
    MapRun 64 purgedBeyond.1 purgedBeyond.2 map (some 5) := by
  refine ⟨_, ?_, .append 6 [60] (.purge 5 (.append 1 [20] (.append 0 [10]
      (.opened .closed (Prod.ext (by decide +kernel) rfl)) ?_
      (Prod.ext (by decide +kernel) rfl)) ?_ (Prod.ext (by decide +kernel) rfl)) ?_
    (Prod.ext (by decide +kernel) rfl)) ?_ (Prod.ext (by decide +kernel) rfl)⟩
  · decide +kernel
  · exact fun _ h => nomatch h
  · rfl
  · exact fun _ h => nomatch h
  · rintro p ⟨⟩
    rfl

/-- The record is read back, and the next one can be appended. -/
theorem segmentedLog_refines_map_purgedBeyond :
    (SegmentedLog.readRange 0 10).run purgedBeyond.1 purgedBeyond.2 =
        (.ok [(6, [60])], purgedBeyond.1, purgedBeyond.2) ∧
      ∃ dir' log', (SegmentedLog.append 7 [70]).run purgedBeyond.1 purgedBeyond.2 =
        (.ok (), dir', log') := by
  obtain ⟨map, hmap, hrun⟩ := purgedBeyond_run
  obtain ⟨hread, _, hlast, happend, _⟩ := segmentedLog_refines_map hrun
  have hnext : NextIndex map (some 5) 7 := by
    rw [NextIndex, OrdMap.lastKey?, hmap]
    rfl
  refine ⟨?_, happend 7 [70] hnext (by decide)⟩
  rw [hread 0 10 (by decide), OrdMap.toList_filter, hmap]
  rfl

end

end Lumen
