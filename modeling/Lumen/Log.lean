import Lumen.Basic
import Lumen.Lib.OrdMap
import Lumen.Lib.Prog
import Mathlib.Data.List.Sort
import Mathlib.Order.Nat

/-!
# Lumen.Log

The segmented log (`log.rs`): byte records keyed by a `u64` index, stored as
`[len: u32][crc32c: u32][payload]` frames in files `seg-<start>.log`.

The directory is a map from segment start to file bytes; the open handles and
the in-memory index are the `SegmentedLog`.  Record indexes are not on disk:
`openWithSegmentMax` numbers the frames of a segment from the segment's start.

`fsync` has no counterpart here: a process crash keeps what was written.  The
assertion in `append` is compiled out of release builds and is left out.
-/

namespace Lumen

open Lib

def headerBytes : Nat := 8
def defaultSegmentMaxBytes : Nat := 64 * 1024 * 1024

/-! ## frames -/

/-- `u32::to_le_bytes`. -/
def u32ToLe (n : Nat) : Bytes :=
  [UInt8.ofNat n, UInt8.ofNat (n / 2 ^ 8), UInt8.ofNat (n / 2 ^ 16), UInt8.ofNat (n / 2 ^ 24)]

/-- `u32::from_le_bytes`. -/
def u32OfLe : Bytes → Nat
  | [a, b, c, d] => a.toNat + 2 ^ 8 * b.toNat + 2 ^ 16 * c.toNat + 2 ^ 24 * d.toNat
  | _ => 0

/-- `b[i..i + n]`. -/
def slice (b : Bytes) (i n : Nat) : Bytes := (b.drop i).take n

/-- `File::set_len`. -/
def setLen (n : Nat) (b : Bytes) : Bytes := b.take n ++ List.replicate (n - b.length) 0

section
variable [Ext]

/-- The bytes `append` writes for one record. -/
def frame (payload : Bytes) : Bytes :=
  u32ToLe payload.length ++ u32ToLe (crc32c payload).toNat ++ payload

def frames (ps : List Bytes) : Bytes := (ps.map frame).flatten

/-- The loop of `scan_segment` from `offset`; every round consumes at least a
header, so the length of the buffer bounds the rounds. -/
def scanFrom (bytes : Bytes) : (fuel offset index : Nat) → List (Nat × Nat × Nat) × Nat
  | 0, offset, _ => ([], offset)
  | fuel + 1, offset, index =>
    if offset + headerBytes ≤ bytes.length then
      let len := u32OfLe (slice bytes offset 4)
      let crc := u32OfLe (slice bytes (offset + 4) 4)
      let body := offset + headerBytes
      if bytes.length < body + len then
        ([], offset)
      else if (crc32c (slice bytes body len)).toNat ≠ crc then
        ([], offset)
      else
        let r := scanFrom bytes fuel (body + len) (index + 1)
        ((index, body, len) :: r.1, r.2)
    else
      ([], offset)

/-- The records of a segment as `(index, payload offset, length)`, and the
length of the valid prefix. -/
def scanSegment (start : Nat) (bytes : Bytes) : List (Nat × Nat × Nat) × Nat :=
  scanFrom bytes bytes.length 0 start

end

/-! ## the log -/

structure RecordLoc where
  segmentStart : Nat
  payloadOffset : Nat
  len : Nat
  deriving DecidableEq, Repr

structure Active where
  start : Nat
  bytes : Nat
  deriving DecidableEq, Repr

/-- The in-memory side of the log. -/
structure SegmentedLog where
  segmentMaxBytes : Nat
  starts : List Nat
  records : OrdMap Nat RecordLoc
  active : Option Active

/-- The log directory: segment start to file bytes. -/
abbrev LogDir := OrdMap Nat Bytes

abbrev LogM := Prog LogDir SegmentedLog Error

namespace SegmentedLog

open Prog

/-- A log before anything was opened. -/
def closed : SegmentedLog := ⟨0, [], ∅, none⟩

instance : Inhabited SegmentedLog := ⟨closed⟩

def lastIndex (log : SegmentedLog) : Option Nat := log.records.lastKey?

def needsRotation (log : SegmentedLog) : Bool :=
  match log.active with
  | none => true
  | some active => log.segmentMaxBytes ≤ active.bytes

/-- `fs::remove_file` of a segment. -/
def removeFile (start : Nat) : LogM Unit := do
  let dir ← getDisk
  if dir.contains start then step (fun dir => dir.erase start)
  else Prog.throw (.io .notFound)

/-- Open the segment that takes the next record, creating its file. -/
def rotate (start : Nat) : LogM Unit := do
  step (fun dir => if dir.contains start then dir else dir.insert start [])
  modifyMem fun log =>
    { log with
      active := some ⟨start, 0⟩
      starts := if start ∈ log.starts then log.starts else (start :: log.starts).insertionSort (· ≤ ·) }

/-- Reopen the last segment for appending. -/
def reopenActive : LogM Unit := do
  let log ← getMem
  match log.starts.getLast? with
  | none => modifyMem fun log => { log with active := none }
  | some start =>
    let dir ← getDisk
    match dir.find? start with
    | none => Prog.throw (.io .notFound)
    | some bytes => modifyMem fun log => { log with active := some ⟨start, bytes.length⟩ }

/-- Read the payloads the locations point at, in order. -/
def readLocs (dir : LogDir) : List (Nat × RecordLoc) → Except Error (List (Nat × Bytes))
  | [] => .ok []
  | (index, loc) :: rest =>
    match dir.find? loc.segmentStart with
    | none => .error (.io .notFound)
    | some bytes =>
      if bytes.length < loc.payloadOffset + loc.len then .error (.io .unexpectedEof)
      else
        match readLocs dir rest with
        | .error e => .error e
        | .ok out => .ok ((index, slice bytes loc.payloadOffset loc.len) :: out)

/-- `sync`: the bytes are in the file already. -/
def sync : LogM Unit := pure ()

def readAll : LogM (List (Nat × Bytes)) := do
  let dir ← getDisk
  let log ← getMem
  ofExcept (readLocs dir log.records.toList)

/-- Records with indexes in `[from, to)`, in index order. -/
def readRange (lo hi : Nat) : LogM (List (Nat × Bytes)) := do
  let dir ← getDisk
  let log ← getMem
  -- `BTreeMap::range` panics on a reversed range
  if hi < lo then Prog.throw (.panicked "range start is greater than range end in BTreeMap")
  else ofExcept (readLocs dir (log.records.filter fun k _ => lo ≤ k ∧ k < hi).toList)

/-- Cut the segment that holds the first dropped record, when that record is
not its first. -/
def cutSegment (index : Nat) : Option (Nat × Nat) → LogM Unit
  | none => pure ()
  | some (segmentStart, frameStart) =>
    if segmentStart < index then do
      let dir ← getDisk
      if dir.contains segmentStart then
        step (fun dir => dir.modify segmentStart (setLen frameStart))
      else Prog.throw (.io .notFound)
    else pure ()

/-- Drop every record with index `≥ index`. -/
def truncateFrom (index : Nat) : LogM Unit := do
  let log ← getMem
  let cut := (log.records.find? index).map
    fun loc => (loc.segmentStart, loc.payloadOffset - headerBytes)
  let toDelete := log.starts.filter (index ≤ ·)
  modifyMem fun log => { log with records := log.records.filter fun k _ => k < index }
  cutSegment index cut
  forEach toDelete removeFile
  modifyMem fun log => { log with starts := log.starts.filter (· ∉ toDelete) }
  reopenActive

/-- Unlink an inactive segment that the next one's start shows to be
covered. -/
def purgeFile (index : Nat) (activeStart : Option Nat) (start : Nat) (next : Option Nat) :
    LogM Unit :=
  if some start = activeStart then pure ()
  else
    match next with
    | none => pure ()
    | some next => if next - 1 ≤ index then removeFile start else pure ()

/-- Go over the segments from the first to the last. -/
def purgeFiles (index : Nat) (activeStart : Option Nat) : List Nat → LogM Unit
  | [] => pure ()
  | start :: rest => do
    purgeFile index activeStart start rest.head?
    purgeFiles index activeStart rest

/-- Drop every record with index `≤ index`. -/
def purgeThrough (index : Nat) : LogM Unit := do
  modifyMem fun log => { log with records := log.records.filter fun k _ => index < k }
  let log ← getMem
  let activeStart := log.active.map (·.start)
  purgeFiles index activeStart log.starts
  modifyMem fun log =>
    { log with
      starts := log.starts.filter fun s =>
        some s = activeStart ∨ log.records.toList.any fun p => p.2.segmentStart = s }

section
variable [Ext]

/-- Enter the scanned records of one segment. -/
def insertLocs (start : Nat) (locs : List (Nat × Nat × Nat)) (records : OrdMap Nat RecordLoc) :
    OrdMap Nat RecordLoc :=
  locs.foldl (fun records l => records.insert l.1 ⟨start, l.2.1, l.2.2⟩) records

/-- Scan the segments in order.  A torn segment is cut to its valid prefix,
becomes the active one, and ends the scan. -/
def openSegments : List Nat → OrdMap Nat RecordLoc →
    LogM (List Nat × OrdMap Nat RecordLoc × Option Active)
  | [], records => pure ([], records, none)
  | start :: rest, records => do
    let dir ← getDisk
    match dir.find? start with
    | none => Prog.throw (.io .notFound)
    | some bytes =>
      let scan := scanSegment start bytes
      let records := insertLocs start scan.1 records
      if scan.2 < bytes.length then
        step (fun dir => dir.modify start (setLen scan.2))
        pure ([start], records, some ⟨start, scan.2⟩)
      else if rest = [] then
        pure ([start], records, some ⟨start, bytes.length⟩)
      else do
        let r ← openSegments rest records
        pure (start :: r.1, r.2.1, r.2.2)

def openWithSegmentMax (segmentMaxBytes : Nat) : LogM Unit := do
  let dir ← getDisk
  let r ← openSegments dir.keys ∅
  modifyMem fun _ => ⟨segmentMaxBytes, r.1, r.2.1, r.2.2⟩

def openLog : LogM Unit := openWithSegmentMax defaultSegmentMaxBytes

/-- Write `payload` at `index`. -/
def append (index : Nat) (payload : Bytes) : LogM Unit := do
  if 2 ^ 32 ≤ payload.length then
    Prog.throw (.recovery "log record exceeds u32 length")
  else do
    let log ← getMem
    if log.needsRotation then rotate index else pure ()
    let log ← getMem
    match log.active with
    | none => Prog.throw (.panicked "active present after rotation")
    | some active =>
      step (fun dir => dir.modify active.start (· ++ frame payload))
      modifyMem fun log =>
        { log with
          active := some { active with bytes := active.bytes + (frame payload).length }
          records := log.records.insert index
            ⟨active.start, active.bytes + headerBytes, payload.length⟩ }

end

end SegmentedLog

end Lumen
