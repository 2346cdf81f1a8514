import Lumen.Log.Rep
import Lumen.Reference

/-!
# Lumen.Log.Salvage

What the scan makes of arbitrary bytes.

A file is cut in one way into frames and a residue that the scan rejects
(`split_accepted`): the frames the scan accepts are frames `append` could have
written, because header words and their bytes determine each other.  Frames in
front of anything are accepted, whatever follows them (`accepted_append`).
`scanSegment_longest` says the same of what `scan_segment` returns.

`wp_open_torn` opens a directory with a torn segment: the file is cut to what is
accepted, and the segments behind it are left alone and forgotten.
-/

namespace Lumen

open Lib Prog

/-! ## header words -/

theorem u32ToLe_u32OfLe {w : Bytes} (h : w.length = 4) : u32ToLe (u32OfLe w) = w := by
  match w, h with
  | [a, b, c, d], _ =>
    have ha := a.toNat_lt
    have hb := b.toNat_lt
    have hc := c.toNat_lt
    have hd := d.toNat_lt
    simp only [u32OfLe, u32ToLe, List.cons.injEq, and_true, ← UInt8.toNat_inj, UInt8.toNat_ofNat']
    omega

theorem u32OfLe_lt (w : Bytes) : u32OfLe w < 2 ^ 32 := by
  unfold u32OfLe
  split
  · rename_i a b c d
    have ha := a.toNat_lt
    have hb := b.toNat_lt
    have hc := c.toNat_lt
    have hd := d.toNat_lt
    omega
  · decide

theorem length_slice {b : Bytes} {i n : Nat} (h : i + n ≤ b.length) : (slice b i n).length = n := by
  rw [slice, List.length_take, List.length_drop]
  omega

/-- A buffer is its front, a slice and what follows the slice. -/
theorem take_slice_drop (b : Bytes) (i n : Nat) :
    b.take i ++ (slice b i n ++ b.drop (i + n)) = b := by
  rw [slice, ← List.drop_drop, List.take_append_drop, List.take_append_drop]

theorem u32OfLe_replicate (n : Nat) : u32OfLe (List.replicate n 0) = 0 := by
  unfold u32OfLe
  split
  · rename_i a b c d h
    have hall : ∀ x ∈ [a, b, c, d], x = 0 := h ▸ fun x hx => List.eq_of_mem_replicate hx
    simp [hall a, hall b, hall c, hall d]
  · rfl

section
variable [Ext]

/-! ## one frame -/

/-- The scan stops in front of these bytes: they have no whole header, or their
length runs over the end, or their checksum differs. -/
def rejects (b : Bytes) : Bool :=
  b.length < headerBytes || b.length < headerBytes + u32OfLe (slice b 0 4) ||
    (crc32c (slice b headerBytes (u32OfLe (slice b 0 4)))).toNat != u32OfLe (slice b 4 4)

theorem rejects_nil : rejects [] = true := rfl

/-- Bytes that are not rejected start with a frame. -/
theorem exists_frame {b : Bytes} (h : rejects b = false) :
    ∃ q rest, b = frame q ++ rest ∧ q.length < 2 ^ 32 := by
  simp only [rejects, Bool.or_eq_false_iff, decide_eq_false_iff_not, bne_eq_false_iff_eq,
    Nat.not_lt] at h
  obtain ⟨⟨h8, hlen⟩, hcrc⟩ := h
  have hq := length_slice hlen
  rw [headerBytes] at *
  refine ⟨slice b 8 (u32OfLe (slice b 0 4)), b.drop (8 + u32OfLe (slice b 0 4)), ?_, ?_⟩
  · have hw₁ : u32ToLe (u32OfLe (slice b 0 4)) = slice b 0 4 :=
      u32ToLe_u32OfLe (length_slice (by omega))
    have hw₂ : u32ToLe (u32OfLe (slice b 4 4)) = slice b 4 4 :=
      u32ToLe_u32OfLe (length_slice (by omega))
    rw [frame, hq, hcrc, hw₁, hw₂]
    have h₁ := take_slice_drop b 8 (u32OfLe (slice b 0 4))
    have h₂ : b.take 8 = slice b 0 4 ++ slice b 4 4 := by
      rw [slice, slice, List.drop_zero, ← List.take_add]
    rw [h₂] at h₁
    conv_lhs => rw [← h₁]
    simp only [List.append_assoc]
  · rw [hq]
    exact u32OfLe_lt _

theorem slice_frame_header {q rest : Bytes} :
    slice (frame q ++ rest) 0 4 = u32ToLe q.length ∧
      slice (frame q ++ rest) 4 4 = u32ToLe (crc32c q).toNat ∧
      slice (frame q ++ rest) headerBytes q.length = q := by
  refine ⟨?_, ?_, ?_⟩
  · rw [frame_eq, List.append_assoc]
    exact slice_append [] _ _ rfl (length_u32ToLe _)
  · rw [frame_eq, List.append_assoc, List.append_assoc]
    exact slice_append _ _ _ (length_u32ToLe _) (length_u32ToLe _)
  · rw [frame, List.append_assoc]
    exact slice_append _ _ _ (by rw [List.length_append, length_u32ToLe, length_u32ToLe]; rfl) rfl

theorem not_rejects_frame {q : Bytes} (h : q.length < 2 ^ 32) (rest : Bytes) :
    rejects (frame q ++ rest) = false := by
  obtain ⟨h₁, h₂, h₃⟩ := @slice_frame_header _ q rest
  have hcrc : (crc32c q).toNat < 2 ^ 32 := (crc32c q).toNat_lt
  simp only [rejects, h₁, h₂, u32OfLe_u32ToLe h, u32OfLe_u32ToLe hcrc, h₃, List.length_append,
    length_frame]
  simp
  omega

/-- A frame that was not written to its end is rejected. -/
theorem rejects_take_frame {q : Bytes} {n : Nat} (h : q.length < 2 ^ 32)
    (hn : n < (frame q).length) : rejects ((frame q).take n) = true := by
  have hlen : ((frame q).take n).length = n := by
    rw [List.length_take]
    omega
  rw [length_frame] at hn
  simp only [rejects, Bool.or_eq_true, decide_eq_true_eq, hlen]
  rcases Nat.lt_or_ge n headerBytes with h8 | h8
  · exact Or.inl (Or.inl h8)
  · have hw : slice ((frame q).take n) 0 4 = u32ToLe q.length := by
      have h₁ := (@slice_frame_header _ q []).1
      rw [slice, List.drop_zero, List.take_take, Nat.min_eq_left (by rw [headerBytes] at h8; omega)]
      exact h₁
    rw [hw, u32OfLe_u32ToLe h]
    exact Or.inl (Or.inr hn)

/-- Zero bytes are taken for an empty record as soon as there is a header of
them. -/
theorem rejects_zeros (n : Nat) : rejects (List.replicate n 0) = true ↔ n < headerBytes := by
  have h₁ : slice (List.replicate n (0 : UInt8)) 0 4 = List.replicate (min 4 n) 0 := by
    simp [slice, List.take_replicate]
  have h₂ : slice (List.replicate n (0 : UInt8)) 4 4 = List.replicate (min 4 (n - 4)) 0 := by
    simp [slice, List.take_replicate, List.drop_replicate]
  have h₃ : slice (List.replicate n (0 : UInt8)) headerBytes 0 = [] := List.take_zero
  rw [rejects, h₁, h₂, u32OfLe_replicate, u32OfLe_replicate, h₃, Ext.crc32c_nil]
  simp

/-! ## all frames -/

/-- Bytes that are rejected end the scan. -/
theorem scanFrom_rejects {rest : Bytes} (h : rejects rest = true) (pre : Bytes)
    (fuel index : Nat) : scanFrom (pre ++ rest) fuel pre.length index = ([], pre.length) := by
  cases fuel with
  | zero => rfl
  | succ fuel =>
    have hslice : ∀ i n, slice (pre ++ rest) (pre.length + i) n = slice rest i n := by
      intro i n
      rw [slice, slice, List.drop_append, List.drop_of_length_le (by omega), List.nil_append,
        Nat.add_sub_cancel_left]
    have h₀ := hslice 0 4
    rw [Nat.add_zero] at h₀
    simp only [rejects, Bool.or_eq_true, decide_eq_true_eq, bne_iff_ne] at h
    rw [scanFrom, List.length_append]
    simp only [h₀, hslice]
    by_cases h8 : pre.length + headerBytes ≤ pre.length + rest.length
    · rw [if_pos h8]
      by_cases hlen : pre.length + rest.length < pre.length + headerBytes + u32OfLe (slice rest 0 4)
      · rw [if_pos hlen]
      · rw [if_neg hlen, if_pos (h.resolve_left (by omega))]
    · rw [if_neg h8]

/-- Every file is frames and a residue that is rejected. -/
theorem exists_split (b : Bytes) :
    ∃ ps rest, b = frames ps ++ rest ∧ (∀ p ∈ ps, p.length < 2 ^ 32) ∧ rejects rest = true := by
  induction hn : b.length using Nat.strongRecOn generalizing b with
  | _ n ih =>
    cases hrej : rejects b with
    | true => exact ⟨[], b, rfl, by simp, hrej⟩
    | false =>
      obtain ⟨q, rest, rfl, hq⟩ := exists_frame hrej
      have hlt : rest.length < n := by
        rw [← hn, List.length_append, length_frame, headerBytes]
        omega
      obtain ⟨ps, rest', rfl, hps, hrej'⟩ := ih _ hlt rest rfl
      refine ⟨q :: ps, rest', ?_, List.forall_mem_cons.mpr ⟨hq, hps⟩, hrej'⟩
      rw [frames_cons, List.append_assoc]

variable {ps : List Bytes} {rest : Bytes}

/-- The scan of frames and a residue finds the frames. -/
theorem scanSegment_split (h : ∀ p ∈ ps, p.length < 2 ^ 32) (hrej : rejects rest = true)
    (start : Nat) :
    scanSegment start (frames ps ++ rest) = (locsFrom start 0 ps, (frames ps).length) := by
  have hle := length_le_length_frames ps
  have hfuel : (frames ps ++ rest).length =
      ((frames ps ++ rest).length - ps.length) + ps.length := by
    rw [List.length_append]
    omega
  have hscan := scanFrom_frames h [] rest ((frames ps ++ rest).length - ps.length) start
  simp only [List.nil_append, List.length_nil, Nat.zero_add] at hscan
  rw [← hfuel, scanFrom_rejects hrej] at hscan
  rw [scanSegment, hscan, List.append_nil]

/-- The records the scan accepts. -/
def accepted (b : Bytes) : List Bytes :=
  (scanSegment 0 b).1.map fun l => slice b l.2.1 l.2.2

/-- What the scan leaves behind them. -/
def residue (b : Bytes) : Bytes := b.drop (scanSegment 0 b).2

theorem map_slice_locsFrom (pre : Bytes) (index : Nat) (ps : List Bytes) (rest : Bytes) :
    (locsFrom index pre.length ps).map (fun l => slice (pre ++ (frames ps ++ rest)) l.2.1 l.2.2) =
      ps := by
  induction ps generalizing pre index with
  | nil => rfl
  | cons p ps ih =>
    have hbuf : pre ++ (frames (p :: ps) ++ rest) = (pre ++ frame p) ++ (frames ps ++ rest) := by
      simp [frames_cons]
    have hoff : (pre ++ frame p).length = pre.length + headerBytes + p.length := by
      rw [List.length_append, length_frame]
      omega
    have hp : slice (pre ++ (frames (p :: ps) ++ rest)) (pre.length + headerBytes) p.length = p := by
      have hsplit : pre ++ (frames (p :: ps) ++ rest) =
          (pre ++ (u32ToLe p.length ++ u32ToLe (crc32c p).toNat)) ++ (p ++ (frames ps ++ rest)) := by
        simp [frames_cons, frame]
      rw [hsplit]
      exact slice_append _ _ _ (by simp [length_u32ToLe, headerBytes]) rfl
    rw [locsFrom, List.map_cons, hp, ← hoff, hbuf, ih]

theorem accepted_split (h : ∀ p ∈ ps, p.length < 2 ^ 32) (hrej : rejects rest = true) :
    accepted (frames ps ++ rest) = ps := by
  rw [accepted, scanSegment_split h hrej]
  exact map_slice_locsFrom [] 0 ps rest

theorem residue_split (h : ∀ p ∈ ps, p.length < 2 ^ 32) (hrej : rejects rest = true) :
    residue (frames ps ++ rest) = rest := by
  rw [residue, scanSegment_split h hrej, List.drop_left]

/-- **The split of a file**: the accepted frames, and a residue that is
rejected. -/
theorem split_accepted (b : Bytes) :
    b = frames (accepted b) ++ residue b ∧ (∀ p ∈ accepted b, p.length < 2 ^ 32) ∧
      rejects (residue b) = true := by
  obtain ⟨ps, rest, rfl, hps, hrej⟩ := exists_split b
  rw [accepted_split hps hrej, residue_split hps hrej]
  exact ⟨rfl, hps, hrej⟩

theorem accepted_frames (h : ∀ p ∈ ps, p.length < 2 ^ 32) : accepted (frames ps) = ps := by
  have hs := accepted_split h rejects_nil
  rwa [List.append_nil] at hs

/-- Frames are accepted whatever follows them. -/
theorem accepted_append (h : ∀ p ∈ ps, p.length < 2 ^ 32) (b : Bytes) :
    accepted (frames ps ++ b) = ps ++ accepted b ∧ residue (frames ps ++ b) = residue b := by
  obtain ⟨hb, hsmall, hrej⟩ := split_accepted b
  have hall : ∀ p ∈ ps ++ accepted b, p.length < 2 ^ 32 := fun p hp =>
    (List.mem_append.mp hp).elim (h p) (hsmall p)
  have hsplit : frames ps ++ b = frames (ps ++ accepted b) ++ residue b := by
    rw [frames_append, List.append_assoc, ← hb]
  rw [hsplit, accepted_split hall hrej, residue_split hall hrej]
  exact ⟨rfl, rfl⟩

theorem accepted_eq_nil {b : Bytes} : accepted b = [] ↔ rejects b = true := by
  obtain ⟨hb, _, hrej⟩ := split_accepted b
  refine ⟨fun hnil => ?_, fun h => ?_⟩
  · rw [hnil, frames_nil, List.nil_append] at hb
    rwa [hb]
  · have hs := accepted_split (by simp : ∀ p ∈ ([] : List Bytes), p.length < 2 ^ 32) h
    rwa [frames_nil, List.nil_append] at hs

/-- The scan in terms of the split. -/
theorem scanSegment_eq (start : Nat) (b : Bytes) :
    scanSegment start b = (locsFrom start 0 (accepted b), (frames (accepted b)).length) := by
  obtain ⟨hb, hsmall, hrej⟩ := split_accepted b
  conv_lhs => rw [hb]
  exact scanSegment_split hsmall hrej start

/-- The valid prefix of a file. -/
theorem take_scanSegment (start : Nat) (b : Bytes) :
    b.take (scanSegment start b).2 = frames (accepted b) := by
  have hl : (frames (accepted b) ++ residue b).take (frames (accepted b)).length =
      frames (accepted b) := List.take_left
  rw [scanSegment_eq]
  rwa [← (split_accepted b).1] at hl

/-- A file is torn when something is left behind the accepted frames. -/
theorem torn_iff (start : Nat) (b : Bytes) :
    (scanSegment start b).2 < b.length ↔ residue b ≠ [] := by
  have hlen := congrArg List.length (split_accepted b).1
  rw [List.length_append] at hlen
  rw [scanSegment_eq, ← List.length_pos_iff]
  omega

/-! ## the longest valid front -/

/-- The frames of the located payloads lie one behind the other and fill the
bytes from `lo` to `hi`. -/
def Tiles (lo hi : Nat) : List (Nat × Nat × Nat) → Prop
  | [] => lo = hi
  | (_, offset, len) :: locs => offset = lo + headerBytes ∧ Tiles (offset + len) hi locs

/-- `locs` are the records of the longest front of `b` that is made of frames,
and `n` is where it ends. -/
structure LongestFront (start : Nat) (b : Bytes) (locs : List (Nat × Nat × Nat)) (n : Nat) :
    Prop where
  inBuffer : n ≤ b.length
  written : b.take n = frames (locs.map fun l => slice b l.2.1 l.2.2)
  indexes : locs.map Prod.fst = List.range' start locs.length
  small : ∀ l ∈ locs, l.2.2 < 2 ^ 32
  inBounds : ∀ l ∈ locs, l.2.1 + l.2.2 ≤ n
  apart : locs.Pairwise fun l l' => l.2.1 + l.2.2 ≤ l'.2.1
  tiles : Tiles 0 n locs
  stops : ∀ p rest, p.length < 2 ^ 32 → b.drop n ≠ frame p ++ rest

theorem tiles_locsFrom (index offset : Nat) (ps : List Bytes) :
    Tiles offset (offset + (frames ps).length) (locsFrom index offset ps) := by
  induction ps generalizing index offset with
  | nil => rfl
  | cons p ps ih =>
    have hend : offset + (frames (p :: ps)).length =
        offset + headerBytes + p.length + (frames ps).length := by
      rw [frames_cons, List.length_append, length_frame]
      omega
    rw [locsFrom, hend]
    exact ⟨rfl, ih _ _⟩

omit [Ext] in
theorem map_fst_locsFrom (index offset : Nat) (ps : List Bytes) :
    (locsFrom index offset ps).map Prod.fst = List.range' index ps.length := by
  induction ps generalizing index offset with
  | nil => rfl
  | cons p ps ih => rw [locsFrom, List.map_cons, ih, List.length_cons, List.range'_succ]

omit [Ext] in
theorem length_locsFrom (index offset : Nat) (ps : List Bytes) :
    (locsFrom index offset ps).length = ps.length := by
  have h := congrArg List.length (map_fst_locsFrom index offset ps)
  rwa [List.length_map, List.length_range'] at h

omit [Ext] in
theorem exists_length_of_mem_locsFrom {index offset : Nat} {ps : List Bytes} {l : Nat × Nat × Nat}
    (h : l ∈ locsFrom index offset ps) : ∃ p ∈ ps, l.2.2 = p.length := by
  induction ps generalizing index offset with
  | nil => contradiction
  | cons p ps ih =>
    rcases List.mem_cons.mp h with rfl | h
    · exact ⟨p, List.mem_cons_self, rfl⟩
    · obtain ⟨q, hq, hl⟩ := ih h
      exact ⟨q, List.mem_cons_of_mem p hq, hl⟩

namespace Tiles

variable {lo hi : Nat} {locs : List (Nat × Nat × Nat)}

omit [Ext] in
theorem le (h : Tiles lo hi locs) : lo ≤ hi := by
  induction locs generalizing lo with
  | nil => exact Nat.le_of_eq h
  | cons l locs ih =>
    obtain ⟨hoff, hrest⟩ := h
    have hle := ih hrest
    omega

omit [Ext] in
theorem bounds (h : Tiles lo hi locs) {l : Nat × Nat × Nat} (hl : l ∈ locs) :
    lo ≤ l.2.1 ∧ l.2.1 + l.2.2 ≤ hi := by
  induction locs generalizing lo with
  | nil => contradiction
  | cons l' locs ih =>
    obtain ⟨hoff, hrest⟩ := h
    rcases List.mem_cons.mp hl with rfl | hl
    · exact ⟨hoff ▸ Nat.le_add_right lo headerBytes, hrest.le⟩
    · have hb := ih hrest hl
      omega

omit [Ext] in
theorem apart (h : Tiles lo hi locs) : locs.Pairwise fun l l' => l.2.1 + l.2.2 ≤ l'.2.1 := by
  induction locs generalizing lo with
  | nil => exact List.Pairwise.nil
  | cons l locs ih =>
    obtain ⟨_, hrest⟩ := h
    exact List.pairwise_cons.mpr ⟨fun l' hl' => (hrest.bounds hl').1, ih hrest⟩

end Tiles

theorem map_slice_scanSegment (start : Nat) (b : Bytes) :
    (scanSegment start b).1.map (fun l => slice b l.2.1 l.2.2) = accepted b := by
  have h := map_slice_locsFrom [] start (accepted b) (residue b)
  rw [List.nil_append, ← (split_accepted b).1] at h
  rw [scanSegment_eq]
  exact h

theorem longestFront_scanSegment (start : Nat) (b : Bytes) :
    LongestFront start b (scanSegment start b).1 (scanSegment start b).2 := by
  obtain ⟨hb, hsmall, hrej⟩ := split_accepted b
  have hlocs : (scanSegment start b).1 = locsFrom start 0 (accepted b) := by rw [scanSegment_eq]
  have hend : (scanSegment start b).2 = (frames (accepted b)).length := by rw [scanSegment_eq]
  have htiles : Tiles 0 (scanSegment start b).2 (scanSegment start b).1 := by
    have h := tiles_locsFrom start 0 (accepted b)
    rwa [Nat.zero_add, ← hlocs, ← hend] at h
  refine ⟨?_, ?_, ?_, fun l hl => ?_, fun l hl => (htiles.bounds hl).2, htiles.apart, htiles,
    fun p rest hp hfront => ?_⟩
  · have hlen := congrArg List.length hb
    rw [List.length_append] at hlen
    omega
  · rw [map_slice_scanSegment, take_scanSegment]
  · rw [hlocs, map_fst_locsFrom, length_locsFrom]
  · rw [hlocs] at hl
    obtain ⟨p, hp, hlen⟩ := exists_length_of_mem_locsFrom hl
    exact hlen ▸ hsmall p hp
  · have hres : residue b = b.drop (scanSegment start b).2 := by
      rw [residue, scanSegment_eq, scanSegment_eq]
    rw [hres, hfront, not_rejects_frame hp] at hrej
    contradiction

/-- **The scan finds the longest valid front**, of any bytes; frames followed by
the front of another frame are found as they were written. -/
theorem scanSegment_longest (start : Nat) :
    (∀ b, LongestFront start b (scanSegment start b).1 (scanSegment start b).2) ∧
      ∀ (ps : List Bytes) (q torn : Bytes), (∀ p ∈ ps, p.length < 2 ^ 32) → q.length < 2 ^ 32 →
        torn <+: frame q → torn ≠ frame q →
        (scanSegment start (frames ps ++ torn)).1.map
            (fun l => slice (frames ps ++ torn) l.2.1 l.2.2) = ps ∧
          (scanSegment start (frames ps ++ torn)).2 = (frames ps).length := by
  refine ⟨longestFront_scanSegment start, fun ps q torn hps hq htorn hne => ?_⟩
  have hlt : torn.length < (frame q).length :=
    Nat.lt_of_le_of_ne htorn.length_le fun hlen => hne (htorn.eq_of_length hlen)
  have hrej : rejects torn = true := by
    rw [List.prefix_iff_eq_take.mp htorn]
    exact rejects_take_frame hq hlt
  rw [map_slice_scanSegment, accepted_split hps hrej, scanSegment_split hps hrej]
  exact ⟨rfl, rfl⟩

end

section
open Reference

/-- Two records, and a third one whose header was cut. -/
theorem scanSegment_longest_tornHeader :
    LongestFront 7 (frames [[1], [2, 3]] ++ (frame [4]).take 5)
        (scanSegment 7 (frames [[1], [2, 3]] ++ (frame [4]).take 5)).1 19 ∧
      (scanSegment 7 (frames [[1], [2, 3]] ++ (frame [4]).take 5)).1.map
        (fun l => slice (frames [[1], [2, 3]] ++ (frame [4]).take 5) l.2.1 l.2.2) =
          [[1], [2, 3]] := by
  obtain ⟨hfront, htorn⟩ := scanSegment_longest 7
  obtain ⟨hrecords, hend⟩ := htorn [[1], [2, 3]] [4] ((frame [4]).take 5) (by decide) (by decide)
    ⟨(frame [4]).drop 5, List.take_append_drop 5 _⟩ (by decide +kernel)
  have hlen : (frames [[1], [2, 3]]).length = 19 := rfl
  have h := hfront (frames [[1], [2, 3]] ++ (frame [4]).take 5)
  rw [hend, hlen] at h
  exact ⟨h, hrecords⟩

end

/-! ## opening a torn directory -/

section
variable [Ext] {dir : LogDir} {log : SegmentedLog}
  {Q : List Nat × OrdMap Nat RecordLoc × Option Active → LogDir → SegmentedLog → Prop}
  {E : Error → LogDir → SegmentedLog → Prop} {C : LogDir → Prop}

/-- **Opening a directory with a torn segment** cuts its file to the accepted
records.  What is behind it is not indexed, and its files stay. -/
theorem wp_open_torn {Q : Unit → LogDir → SegmentedLog → Prop} {pre : List Seg} {start : Nat}
    {b : Bytes} {post : List (Nat × Bytes)}
    (hfiles : dir.toList = (pre.map fun s => (s.start, s.bytes)) ++ (start, b) :: post)
    (hsmall : ∀ s ∈ pre, ∀ p ∈ s.payloads, p.length < 2 ^ 32) (htorn : residue b ≠ [])
    (segmentMax : Nat)
    (hC : ∀ dir', dir'.toList = (pre.map fun s => (s.start, s.bytes)) ++
      (start, frames (accepted b)) :: post → C dir')
    (hQ : ∀ dir' log', dir'.toList = (pre.map fun s => (s.start, s.bytes)) ++
        (start, frames (accepted b)) :: post →
      MemRep log' (pre ++ [⟨start, accepted b⟩]) →
      log'.records = insertRecs (recsOf (pre ++ [⟨start, accepted b⟩])) ∅ →
      log'.segmentMaxBytes = segmentMax → Q () dir' log') :
    wp (SegmentedLog.openWithSegmentMax segmentMax) Q E C dir log := by
  have hkeys : dir.keys = pre.map Seg.start ++ (start :: post.map Prod.fst) := by
    simp [OrdMap.keys, hfiles, Function.comp_def]
  have hfind : ∀ k v, (k, v) ∈ dir.toList → dir.find? k = some v := fun k v hm =>
    OrdMap.find?_eq_some_iff.mpr hm
  have hb : dir.find? start = some b := hfind _ _ (by simp [hfiles])
  have hpre : ∀ s ∈ pre, dir.find? s.start = some s.bytes := fun s hs =>
    hfind _ _ (by rw [hfiles]; exact List.mem_append_left _ (List.mem_map_of_mem hs))
  have hcut := setLen_append (residue b) (rfl : (frames (accepted b)).length = _)
  rw [← (split_accepted b).1] at hcut
  have hdir := OrdMap.toList_modify_of_split hfiles (setLen (frames (accepted b)).length)
  rw [hcut] at hdir
  have hins : insertRecs (recsOf (pre ++ [⟨start, accepted b⟩])) ∅ =
      insertRecs (recsFrom start start 0 (accepted b)) (insertRecs (recsOf pre) ∅) := by
    rw [recsOf_append, recsOf_singleton, insertRecs, List.foldl_append]
    rfl
  rw [SegmentedLog.openWithSegmentMax, wp_bind, wp_getDisk, wp_bind, hkeys]
  refine wp_openSegments_append (List.cons_ne_nil _ _) hpre hsmall _ ?_
  have htorn := (torn_iff start b).mpr htorn
  rw [scanSegment_eq] at htorn
  rw [SegmentedLog.openSegments, wp_bind, wp_getDisk, hb]
  simp only [scanSegment_eq, insertLocs_locsFrom]
  rw [if_pos htorn]
  refine ⟨hC _ hdir, hQ _ _ hdir ⟨?_, ?_⟩ hins.symm rfl⟩
  · simp
  · simp [Seg.active, Seg.bytes]

end

end Lumen
