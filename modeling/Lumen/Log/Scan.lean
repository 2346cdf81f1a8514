import Lumen.Log

/-!
# Lumen.Log.Scan

What `scanSegment` reads back: the frames `append` wrote, located where they
were written.  `scanFrom_frames` is the general form, with anything before
and after the frames; `scanSegment_frames` is the intact segment.
-/

namespace Lumen

open Lib

/-! ## little-endian words -/

theorem length_u32ToLe (n : Nat) : (u32ToLe n).length = 4 := rfl

theorem u32OfLe_u32ToLe {n : Nat} (h : n < 2 ^ 32) : u32OfLe (u32ToLe n) = n := by
  simp only [u32ToLe, u32OfLe, UInt8.toNat_ofNat']
  omega

/-! ## slices of appended buffers -/

/-- The middle of an append is found at the length of what precedes it. -/
theorem slice_append (a b c : Bytes) {i n : Nat} (hi : a.length = i) (hn : b.length = n) :
    slice (a ++ (b ++ c)) i n = b := by
  subst hi hn
  simp [slice]

theorem length_setLen (n : Nat) (b : Bytes) : (setLen n b).length = n := by
  simp only [setLen, List.length_append, List.length_take, List.length_replicate]
  omega

/-- Cutting at the length of a prefix leaves the prefix. -/
theorem setLen_append {a : Bytes} (b : Bytes) {n : Nat} (h : a.length = n) :
    setLen n (a ++ b) = a := by
  subst h
  simp [setLen]

section
variable [Ext]

/-! ## frames -/

theorem length_frame (p : Bytes) : (frame p).length = headerBytes + p.length := by
  simp only [frame, List.length_append, length_u32ToLe, headerBytes]

theorem frame_eq (p : Bytes) :
    frame p = u32ToLe p.length ++ (u32ToLe (crc32c p).toNat ++ p) := by
  simp [frame]

theorem frames_nil : frames [] = [] := rfl

theorem frames_cons (p : Bytes) (ps : List Bytes) : frames (p :: ps) = frame p ++ frames ps := by
  simp [frames]

theorem frames_append (ps qs : List Bytes) : frames (ps ++ qs) = frames ps ++ frames qs := by
  simp [frames]

theorem frames_singleton (p : Bytes) : frames [p] = frame p := by
  simp [frames]

/-- Every frame takes at least its header. -/
theorem length_le_length_frames (ps : List Bytes) : ps.length ≤ (frames ps).length := by
  induction ps with
  | nil => simp
  | cons p ps ih =>
    rw [frames_cons, List.length_append, length_frame, List.length_cons, headerBytes]
    omega

/-- Where the payloads of consecutive frames lie, the first frame starting at
`offset` and numbered `index`. -/
def locsFrom (index offset : Nat) : List Bytes → List (Nat × Nat × Nat)
  | [] => []
  | p :: ps =>
    (index, offset + headerBytes, p.length) ::
      locsFrom (index + 1) (offset + headerBytes + p.length) ps

/-! ## scanning -/

/-- One round of the scan over an intact frame. -/
theorem scanFrom_frame (pre rest : Bytes) {p : Bytes} (h : p.length < 2 ^ 32)
    (fuel index : Nat) :
    scanFrom (pre ++ (frame p ++ rest)) (fuel + 1) pre.length index =
      let r := scanFrom (pre ++ (frame p ++ rest)) fuel (pre.length + headerBytes + p.length)
        (index + 1)
      ((index, pre.length + headerBytes, p.length) :: r.1, r.2) := by
  have hlen : (pre ++ (frame p ++ rest)).length =
      pre.length + (headerBytes + p.length + rest.length) := by
    simp only [List.length_append, length_frame]
  have hbuf : pre ++ (frame p ++ rest) =
      pre ++ (u32ToLe p.length ++ (u32ToLe (crc32c p).toNat ++ (p ++ rest))) := by
    simp [frame]
  have hl : slice (pre ++ (frame p ++ rest)) pre.length 4 = u32ToLe p.length := by
    exact slice_append pre _ _ rfl (length_u32ToLe _)
  have hc : slice (pre ++ (frame p ++ rest)) (pre.length + 4) 4 =
      u32ToLe (crc32c p).toNat := by
    rw [hbuf, ← List.append_assoc]
    exact slice_append (pre ++ u32ToLe p.length) _ _
      (by rw [List.length_append, length_u32ToLe]) (length_u32ToLe _)
  have hp : slice (pre ++ (frame p ++ rest)) (pre.length + headerBytes) p.length = p := by
    rw [hbuf, ← List.append_assoc, ← List.append_assoc]
    exact slice_append (pre ++ u32ToLe p.length ++ u32ToLe (crc32c p).toNat) _ _
      (by rw [List.length_append, List.length_append, length_u32ToLe, length_u32ToLe, headerBytes])
      rfl
  have hcrc : (crc32c p).toNat < 2 ^ 32 := (crc32c p).toNat_lt
  rw [scanFrom, hlen, if_pos (by omega)]
  simp only [hl, hc, u32OfLe_u32ToLe h, u32OfLe_u32ToLe hcrc, hp]
  rw [if_neg (by omega), if_neg (by simp)]

/-- **Scanning frames**: intact frames are located one after the other, and
the scan goes on behind them. -/
theorem scanFrom_frames {ps : List Bytes} (h : ∀ p ∈ ps, p.length < 2 ^ 32) (pre rest : Bytes)
    (fuel index : Nat) :
    scanFrom (pre ++ (frames ps ++ rest)) (fuel + ps.length) pre.length index =
      let r := scanFrom (pre ++ (frames ps ++ rest)) fuel (pre.length + (frames ps).length)
        (index + ps.length)
      (locsFrom index pre.length ps ++ r.1, r.2) := by
  induction ps generalizing pre index with
  | nil => simp [frames_nil, locsFrom]
  | cons p ps ih =>
    have hp := h p List.mem_cons_self
    have hps : ∀ q ∈ ps, q.length < 2 ^ 32 := fun q hq => h q (List.mem_cons_of_mem p hq)
    have hbuf : pre ++ (frames (p :: ps) ++ rest) =
        (pre ++ frame p) ++ (frames ps ++ rest) := by
      simp [frames_cons]
    have hoff : (pre ++ frame p).length = pre.length + headerBytes + p.length := by
      rw [List.length_append, length_frame]
      omega
    have hround := scanFrom_frame pre (frames ps ++ rest) hp (fuel + ps.length) index
    have hrest := ih hps (pre ++ frame p) (index + 1)
    rw [hbuf, List.length_cons, ← Nat.add_assoc]
    rw [← List.append_assoc] at hround
    rw [hround, ← hoff, hrest]
    have ho : (pre ++ frame p).length + (frames ps).length =
        pre.length + (frames (p :: ps)).length := by
      rw [frames_cons, List.length_append, List.length_append]
      omega
    have hi : index + 1 + ps.length = index + (ps.length + 1) := by omega
    simp only [ho, hi, locsFrom, ← hoff, List.cons_append]

/-- Nothing is left to scan at the end of the buffer. -/
theorem scanFrom_end (bytes : Bytes) (fuel index : Nat) :
    scanFrom bytes fuel bytes.length index = ([], bytes.length) := by
  cases fuel with
  | zero => rfl
  | succ n => rw [scanFrom, if_neg (by rw [headerBytes]; omega)]

/-- An intact segment scans to exactly its records. -/
theorem scanSegment_frames {ps : List Bytes} (h : ∀ p ∈ ps, p.length < 2 ^ 32) (start : Nat) :
    scanSegment start (frames ps) = (locsFrom start 0 ps, (frames ps).length) := by
  have hle := length_le_length_frames ps
  have hfuel : (frames ps).length = ((frames ps).length - ps.length) + ps.length := by omega
  have hscan := scanFrom_frames h [] [] ((frames ps).length - ps.length) start
  simp only [List.nil_append, List.append_nil, List.length_nil, Nat.zero_add] at hscan
  rw [← hfuel, scanFrom_end] at hscan
  rw [scanSegment, hscan, List.append_nil]

end

end Lumen
