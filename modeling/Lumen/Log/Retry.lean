import Lumen.Log.Inv
import Lumen.Log.Map

/-!
# Lumen.Log.Retry

Purge and truncation on a filesystem that fails once.

Both calls drop the records from the index first, touch the files next, and
bring `starts` and the active segment up to date last.  A call that stops in
between leaves the index ahead of the files, and the same call made again works
from what it left: a record that is gone from the index no longer says where to
cut, and a file that is gone from the directory cannot be removed.

* `failed_call_retries_iff` — after a failure a second, healthy call ends as one
  uninterrupted call would if and only if the call that failed was the fsync or
  the first unlink.  Appends in the meantime reach a file of the directory.
-/

namespace Lumen

open Lib Prog

/-- A filesystem call of a purge or a truncation. -/
inductive FsCall where
  | setLen
  | fsync
  | unlink (start : Nat)
  deriving DecidableEq, Repr

/-- The filesystem on which `c` fails with `e`, and nothing else does. -/
def failing (c : FsCall) (e : Error) : FsCall → Option Error :=
  fun c' => if c' = c then some e else none

/-- The filesystem on which nothing fails. -/
def healthy : FsCall → Option Error := fun _ => none

namespace SegmentedLog

/-- Stop where the call `c` fails. -/
def attempt (fault : FsCall → Option Error) (c : FsCall) : LogM Unit :=
  match fault c with
  | some e => Prog.throw e
  | none => pure ()

def removeFileUnder (fault : FsCall → Option Error) (start : Nat) : LogM Unit := do
  attempt fault (.unlink start)
  removeFile start

/-- `cutSegment`, call by call: the file is shortened, then synced. -/
def cutSegmentUnder (fault : FsCall → Option Error) (index : Nat) : Option (Nat × Nat) → LogM Unit
  | none => pure ()
  | some (segmentStart, frameStart) =>
    if segmentStart < index then do
      let dir ← getDisk
      if dir.contains segmentStart then do
        attempt fault .setLen
        step (fun dir => dir.modify segmentStart (setLen frameStart))
        attempt fault .fsync
      else Prog.throw (.io .notFound)
    else pure ()

def truncateFromUnder (fault : FsCall → Option Error) (index : Nat) : LogM Unit := do
  let log ← getMem
  let cut := (log.records.find? index).map
    fun loc => (loc.segmentStart, loc.payloadOffset - headerBytes)
  let toDelete := log.starts.filter (index ≤ ·)
  modifyMem fun log => { log with records := log.records.filter fun k _ => k < index }
  cutSegmentUnder fault index cut
  forEach toDelete (removeFileUnder fault)
  modifyMem fun log => { log with starts := log.starts.filter (· ∉ toDelete) }
  reopenActive

def purgeThroughUnder (fault : FsCall → Option Error) (index : Nat) : LogM Unit := do
  modifyMem fun log => { log with records := log.records.filter fun k _ => index < k }
  let log ← getMem
  let activeStart := log.active.map (·.start)
  forEach (unlinked index activeStart log.starts) (removeFileUnder fault)
  modifyMem fun log =>
    { log with
      starts := log.starts.filter fun s =>
        some s = activeStart ∨ log.records.toList.any fun p => p.2.segmentStart = s }

theorem removeFileUnder_healthy : removeFileUnder healthy = removeFile := rfl

theorem cutSegmentUnder_healthy (index : Nat) (cut : Option (Nat × Nat)) :
    cutSegmentUnder healthy index cut = cutSegment index cut := by
  cases cut <;> rfl

theorem truncateFromUnder_healthy (index : Nat) :
    truncateFromUnder healthy index = truncateFrom index := by
  simp only [truncateFromUnder, truncateFrom, cutSegmentUnder_healthy, removeFileUnder_healthy]

theorem purgeThroughUnder_healthy (index : Nat) :
    purgeThroughUnder healthy index = purgeThrough index := by
  simp only [purgeThroughUnder, purgeThrough, purgeFiles_eq_forEach, removeFileUnder_healthy]

end SegmentedLog

/-! ## the two calls as one -/

/-- A call that drops records. -/
inductive LogCall where
  | purgeThrough (index : Nat)
  | truncateFrom (index : Nat)
  deriving DecidableEq, Repr

namespace LogCall

/-- The call on a healthy filesystem. -/
def exec : LogCall → LogM Unit
  | .purgeThrough index => SegmentedLog.purgeThrough index
  | .truncateFrom index => SegmentedLog.truncateFrom index

/-- The call on a filesystem with faults. -/
def execUnder (fault : FsCall → Option Error) : LogCall → LogM Unit
  | .purgeThrough index => SegmentedLog.purgeThroughUnder fault index
  | .truncateFrom index => SegmentedLog.truncateFromUnder fault index

theorem execUnder_healthy (call : LogCall) : call.execUnder healthy = call.exec := by
  cases call with
  | purgeThrough index => exact SegmentedLog.purgeThroughUnder_healthy index
  | truncateFrom index => exact SegmentedLog.truncateFromUnder_healthy index

def index : LogCall → Nat
  | .purgeThrough index => index
  | .truncateFrom index => index

/-- The index keeps these records. -/
def retain : LogCall → SegmentedLog → SegmentedLog
  | .purgeThrough index, log => { log with records := log.records.filter fun k _ => index < k }
  | .truncateFrom index, log => { log with records := log.records.filter fun k _ => k < index }

/-- Where a segment is cut. -/
def cut : LogCall → SegmentedLog → Option (Nat × Nat)
  | .purgeThrough _, _ => none
  | .truncateFrom index, log => (log.records.find? index).map
      fun loc => (loc.segmentStart, loc.payloadOffset - headerBytes)

/-- The files the call unlinks, in order. -/
def unlinks : LogCall → SegmentedLog → List Nat
  | .purgeThrough index, log => unlinked index (log.active.map (·.start)) log.starts
  | .truncateFrom index, log => log.starts.filter (index ≤ ·)

/-- What comes behind the unlinks. -/
def finish : LogCall → SegmentedLog → LogM Unit
  | .purgeThrough _, log =>
    modifyMem fun log' =>
      { log' with
        starts := log'.starts.filter fun s =>
          some s = log.active.map (·.start) ∨
            log'.records.toList.any fun p => p.2.segmentStart = s }
  | .truncateFrom index, log => do
    modifyMem fun log' =>
      { log' with starts := log'.starts.filter (· ∉ log.starts.filter (index ≤ ·)) }
    SegmentedLog.reopenActive

/-- The unlinks and what comes behind them. -/
def rest (fault : FsCall → Option Error) (call : LogCall) (log : SegmentedLog) : LogM Unit := do
  forEach (call.unlinks log) (SegmentedLog.removeFileUnder fault)
  call.finish log

theorem run_execUnder (fault : FsCall → Option Error) (call : LogCall) (dir : LogDir)
    (log : SegmentedLog) :
    (call.execUnder fault).run dir log =
      (do SegmentedLog.cutSegmentUnder fault call.index (call.cut log)
          call.rest fault log).run dir (call.retain log) := by
  cases call <;> rfl

/-- A second call starts from the same lists, and finds nothing to cut. -/
theorem retain_retain (call : LogCall) (log : SegmentedLog) :
    call.retain (call.retain log) = call.retain log := by
  cases call <;> simp only [retain, OrdMap.filter_filter_self]

theorem cut_retain (call : LogCall) (log : SegmentedLog) : call.cut (call.retain log) = none := by
  cases call with
  | purgeThrough index => rfl
  | truncateFrom index => simp [cut, retain, OrdMap.find?_filter]

theorem rest_retain (fault : FsCall → Option Error) (call : LogCall) (log : SegmentedLog) :
    call.rest fault (call.retain log) = call.rest fault log := by
  cases call <;> rfl

end LogCall

/-! ## logs in step with their directory -/

/-- The memory of a log agrees with its directory: every listed segment has a file,
the active one is the last, and every record lies inside a file. -/
structure InStep (dir : LogDir) (log : SegmentedLog) : Prop where
  sorted : log.starts.Pairwise (· < ·)
  files : ∀ s ∈ log.starts, ∃ bytes, dir.find? s = some bytes
  active : log.active.map Active.start = log.starts.getLast?
  framed : ∀ i loc, log.records.find? i = some loc → ∃ bytes,
    dir.find? loc.segmentStart = some bytes ∧ headerBytes ≤ loc.payloadOffset ∧
      loc.payloadOffset ≤ bytes.length

section
variable {dir : LogDir} {log : SegmentedLog}

theorem MapInv.inStep {rs : List Rec} {floor : Option Nat} (h : MapInv dir log rs floor) :
    InStep dir log := by
  refine ⟨h.sorted, h.files, h.active_start, h.forall_find?_iff.mpr fun r hr => ?_⟩
  obtain ⟨bytes, hb, hlen, _⟩ := h.readable r hr
  exact ⟨bytes, hb, h.framed r hr, by omega⟩

/-- Every log of a run is in step. -/
theorem MapRun.inStep [Ext] {segmentMax : Nat} {map : OrdMap Nat Bytes} {floor : Option Nat}
    (h : MapRun segmentMax dir log map floor) : InStep dir log := by
  obtain ⟨rs, hinv, _⟩ := h.stands
  exact hinv.inStep

end

/-! ## where a call stops -/

section
variable {dir : LogDir} {log : SegmentedLog} {call : LogCall}

/-- The directory once the segment is cut. -/
def LogCall.cutDir (call : LogCall) (dir : LogDir) (log : SegmentedLog) : LogDir :=
  match call.cut log with
  | none => dir
  | some (segmentStart, frameStart) =>
    if segmentStart < call.index then dir.modify segmentStart (setLen frameStart) else dir

/-- The directory a call leaves when `c` fails. -/
inductive LogCall.Stopped (call : LogCall) (dir : LogDir) (log : SegmentedLog) :
    FsCall → LogDir → Prop where
  | setLen {segmentStart frameStart : Nat} (hcut : call.cut log = some (segmentStart, frameStart))
      (hlt : segmentStart < call.index) : Stopped call dir log .setLen dir
  | fsync : Stopped call dir log .fsync (call.cutDir dir log)
  | unlink {pre post : List Nat} {s : Nat} {dir' : LogDir}
      (hsplit : call.unlinks log = pre ++ s :: post)
      (hdir : ∀ k, dir'.find? k = if k ∈ pre then none else (call.cutDir dir log).find? k) :
      Stopped call dir log (.unlink s) dir'

theorem LogCall.unlinks_sublist (call : LogCall) (log : SegmentedLog) :
    (call.unlinks log).Sublist log.starts := by
  cases call with
  | purgeThrough index => exact unlinked_sublist _ _ _
  | truncateFrom index => exact List.filter_sublist

theorem InStep.cut (h : InStep dir log) {segmentStart frameStart : Nat}
    (hcut : call.cut log = some (segmentStart, frameStart)) :
    ∃ bytes, dir.find? segmentStart = some bytes ∧ frameStart < bytes.length := by
  cases call with
  | purgeThrough index => cases hcut
  | truncateFrom index =>
    obtain ⟨loc, hfind, heq⟩ := Option.map_eq_some_iff.mp hcut
    cases heq
    obtain ⟨bytes, hb, hlo, hhi⟩ := h.framed _ loc hfind
    refine ⟨bytes, hb, ?_⟩
    have : 0 < headerBytes := by decide
    omega

/-- A cut removes no file. -/
theorem InStep.files_cutDir (h : InStep dir log) (call : LogCall) :
    ∀ s ∈ log.starts, ∃ bytes, (call.cutDir dir log).find? s = some bytes := by
  intro s hs
  obtain ⟨bytes, hb⟩ := h.files s hs
  rw [LogCall.cutDir]
  split
  · exact ⟨bytes, hb⟩
  · split
    · rw [OrdMap.find?_modify]
      split
      · rename_i hk
        exact ⟨_, by rw [← hk, hb]; rfl⟩
      · exact ⟨bytes, hb⟩
    · exact ⟨bytes, hb⟩

variable {fault : FsCall → Option Error} {c : FsCall} {e : Error}
  {Q : Unit → LogDir → SegmentedLog → Prop} {E : Error → LogDir → SegmentedLog → Prop}
  {C : LogDir → Prop}

theorem wp_attempt_failing (c' : FsCall) {m : SegmentedLog} (hE : c' = c → E e dir m)
    (hQ : c' ≠ c → Q () dir m) : wp (SegmentedLog.attempt (failing c e) c') Q E C dir m := by
  rw [SegmentedLog.attempt, failing]
  by_cases hc : c' = c
  · rw [if_pos hc]
    exact hE hc
  · rw [if_neg hc]
    exact hQ hc

theorem InStep.wp_cutSegmentUnder (h : InStep dir log) {m : SegmentedLog} :
    wp (SegmentedLog.cutSegmentUnder (failing c e) call.index (call.cut log))
      (fun _ dir' m' => dir' = call.cutDir dir log ∧ m' = m)
      (fun _ dir' m' => call.Stopped dir log c dir' ∧ m' = m) (fun _ => True) dir m := by
  cases hcut : call.cut log with
  | none => exact ⟨by rw [LogCall.cutDir, hcut], rfl⟩
  | some p =>
    obtain ⟨segmentStart, frameStart⟩ := p
    rw [SegmentedLog.cutSegmentUnder]
    by_cases hlt : segmentStart < call.index
    · obtain ⟨bytes, hb, _⟩ := h.cut hcut
      have hdir : call.cutDir dir log = dir.modify segmentStart (setLen frameStart) := by
        rw [LogCall.cutDir, hcut]
        exact if_pos hlt
      have hc : dir.contains segmentStart = true := by rw [OrdMap.contains, hb]; rfl
      rw [if_pos hlt, wp_bind, wp_getDisk, if_pos hc, wp_bind]
      refine wp_attempt_failing _ (fun he => ⟨he ▸ .setLen hcut hlt, rfl⟩) fun _ => ?_
      rw [wp_bind, wp_step, ← hdir]
      exact ⟨trivial, wp_attempt_failing _ (fun he => ⟨he ▸ .fsync, rfl⟩) fun _ => ⟨rfl, rfl⟩⟩
    · rw [if_neg hlt]
      exact ⟨by rw [LogCall.cutDir, hcut]; exact (if_neg hlt).symm, rfl⟩

/-- The files go one by one, up to the one whose unlink fails. -/
theorem InStep.wp_removeFilesUnder (h : InStep dir log) {m : SegmentedLog} :
    wp (forEach (call.unlinks log) (SegmentedLog.removeFileUnder (failing c e)))
      (fun _ dir' m' => (∀ k, dir'.find? k = if k ∈ call.unlinks log then none
        else (call.cutDir dir log).find? k) ∧ m' = m)
      (fun _ dir' m' => call.Stopped dir log c dir' ∧ m' = m) (fun _ => True)
      (call.cutDir dir log) m := by
  have hnd : (call.unlinks log).Nodup :=
    (call.unlinks_sublist log).nodup (h.sorted.imp Nat.ne_of_lt)
  refine wp_imp (wp_forEach (fun l dir' m' => ∃ pre, call.unlinks log = pre ++ l ∧
    (∀ k, dir'.find? k = if k ∈ pre then none else (call.cutDir dir log).find? k) ∧ m' = m)
    ?_ (call.unlinks log) ⟨[], rfl, fun k => by simp, rfl⟩) ?_
  · rintro s l dir' m' ⟨pre, hsplit, hdir, rfl⟩
    rw [SegmentedLog.removeFileUnder, wp_bind]
    refine wp_attempt_failing _ (fun he => ⟨he ▸ .unlink hsplit hdir, rfl⟩) fun _ => ?_
    have hs : s ∉ pre := fun hs => by
      rw [hsplit] at hnd
      exact (List.nodup_append.mp hnd).2.2 s hs s List.mem_cons_self rfl
    obtain ⟨bytes, hb⟩ := h.files_cutDir call s
      ((call.unlinks_sublist log).subset (hsplit ▸ by simp))
    have hc : dir'.contains s = true := by
      rw [OrdMap.contains, hdir, if_neg hs, hb]
      rfl
    rw [SegmentedLog.removeFile, wp_bind, wp_getDisk, if_pos hc, wp_step]
    refine ⟨trivial, pre ++ [s], by rw [hsplit, List.append_assoc]; rfl, fun k => ?_, rfl⟩
    rw [OrdMap.find?_erase, hdir]
    by_cases hk : k = s <;> simp [hk]
  · rintro _ dir' m' ⟨pre, hsplit, hdir, hm⟩
    rw [List.append_nil] at hsplit
    exact ⟨hsplit ▸ hdir, hm⟩

/-- Behind the unlinks nothing fails, and the files stay. -/
theorem LogCall.wp_finish {dir' : LogDir}
    (hdir : ∀ s ∈ log.starts, s ∉ call.unlinks log → ∃ bytes, dir'.find? s = some bytes) :
    wp (call.finish log) (fun _ d _ => d = dir') (fun _ _ _ => False) (fun _ => True) dir'
      (call.retain log) := by
  cases call with
  | purgeThrough index => rfl
  | truncateFrom index =>
    rw [LogCall.finish, wp_bind, wp_modifyMem]
    simp only [SegmentedLog.reopenActive, wp_bind, wp_getMem]
    split
    · rfl
    · rename_i start hlast
      have hmem := List.mem_of_getLast? hlast
      obtain ⟨hs, hno⟩ := List.mem_filter.mp hmem
      obtain ⟨bytes, hb⟩ := hdir start hs (of_decide_eq_true hno)
      simp only [wp_bind, wp_getDisk, hb]
      rfl

/-- What a failed call leaves. -/
theorem InStep.stopped (h : InStep dir log) {dir₁ : LogDir} {log₁ : SegmentedLog} {e' : Error}
    (hrun : (call.execUnder (failing c e)).run dir log = (.error e', dir₁, log₁)) :
    call.Stopped dir log c dir₁ ∧ log₁ = call.retain log := by
  rw [LogCall.run_execUnder] at hrun
  refine error_of_wp (Q := fun _ _ _ => True) (C := fun _ => True)
    (E := fun _ dir' m' => call.Stopped dir log c dir' ∧ m' = call.retain log) ?_ hrun
  rw [wp_bind]
  refine wp_imp h.wp_cutSegmentUnder ?_
  rintro _ _ _ ⟨rfl, rfl⟩
  rw [LogCall.rest, wp_bind]
  refine wp_imp h.wp_removeFilesUnder ?_
  rintro _ dir' _ ⟨hdir, rfl⟩
  refine wp_mono _ (LogCall.wp_finish fun s hs hno => ?_) (fun _ _ _ _ => trivial)
    (fun _ _ _ he => he.elim) fun _ hc => hc
  rw [hdir, if_neg hno]
  exact h.files_cutDir call s hs

/-! ## the second call -/

theorem InStep.run_exec (h : InStep dir log) (call : LogCall) :
    call.exec.run dir log = (call.rest healthy log).run (call.cutDir dir log) (call.retain log) := by
  have hcut : (SegmentedLog.cutSegmentUnder healthy call.index (call.cut log)).run dir
      (call.retain log) = (.ok (), call.cutDir dir log, call.retain log) := by
    rw [LogCall.cutDir]
    cases hcut : call.cut log with
    | none => rfl
    | some p =>
      obtain ⟨bytes, hb, _⟩ := h.cut hcut
      have hc : dir.contains p.1 = true := by rw [OrdMap.contains, hb]; rfl
      dsimp only [SegmentedLog.cutSegmentUnder]
      split
      · show Prog.run (if dir.contains p.1 then _ else _) dir _ = _
        rw [if_pos hc]
        rfl
      · rfl
  rw [← call.execUnder_healthy, LogCall.run_execUnder, run_bind_ok hcut]

/-- The call made again, from whatever files the first one left. -/
theorem LogCall.run_exec_retain (call : LogCall) (dir : LogDir) (log : SegmentedLog) :
    call.exec.run dir (call.retain log) = (call.rest healthy log).run dir (call.retain log) := by
  rw [← call.execUnder_healthy, LogCall.run_execUnder, call.cut_retain, call.retain_retain,
    call.rest_retain]
  rfl

/-- With every file in place the rest of the call returns. -/
theorem InStep.run_rest (h : InStep dir log) (call : LogCall) {dir' : LogDir}
    (hfiles : ∀ s ∈ log.starts, ∃ bytes, dir'.find? s = some bytes) :
    ∃ dir₂ log₂, (call.rest healthy log).run dir' (call.retain log) = (.ok (), dir₂, log₂) ∧
      ∀ k, dir₂.find? k = if k ∈ call.unlinks log then none else dir'.find? k := by
  have hsub := call.unlinks_sublist log
  have hw : wp (call.rest healthy log)
      (fun _ d _ => ∀ k, d.find? k = if k ∈ call.unlinks log then none else dir'.find? k)
      (fun _ _ _ => False) (fun _ => True) dir' (call.retain log) := by
    rw [LogCall.rest, wp_bind, SegmentedLog.removeFileUnder_healthy]
    refine wp_removeEach (hsub.nodup (h.sorted.imp Nat.ne_of_lt))
      (fun s hs => hfiles s (hsub.subset hs)) (fun _ => trivial) fun dir₂ hdir₂ => ?_
    refine wp_imp (LogCall.wp_finish fun s hs hno => ?_) fun _ _ _ hd => hd ▸ hdir₂
    rw [hdir₂, if_neg hno]
    exact hfiles s hs
  obtain ⟨_, dir₂, log₂, hrun, hpost⟩ := run_ok_of_wp hw
  exact ⟨dir₂, log₂, hrun, hpost⟩

/-- Without the first file to unlink the rest of the call fails. -/
theorem LogCall.run_rest_missing {p : Nat} {l : List Nat} (hl : call.unlinks log = p :: l)
    {dir' : LogDir} (hp : dir'.find? p = none) (m : SegmentedLog) :
    (call.rest healthy log).run dir' m = (.error (.io .notFound), dir', m) := by
  have hc : ¬ dir'.contains p = true := by
    rw [OrdMap.contains, hp]
    exact Bool.false_ne_true
  rw [LogCall.rest, hl]
  refine run_bind_error (run_eq_error_of_wp (C := fun _ => True) ?_)
  rw [forEach, wp_bind', SegmentedLog.removeFileUnder_healthy, SegmentedLog.removeFile, wp_bind,
    wp_getDisk, if_neg hc]
  exact ⟨rfl, rfl, rfl⟩

/-- A second, healthy call ends as one uninterrupted call would have. -/
def LogCall.Retries (call : LogCall) (dir : LogDir) (log : SegmentedLog) (dir₁ : LogDir)
    (log₁ : SegmentedLog) : Prop :=
  ∃ dir' log', call.exec.run dir log = (.ok (), dir', log') ∧
    call.exec.run dir₁ log₁ = (.ok (), dir', log')

theorem InStep.retries_of_cut (h : InStep dir log) (call : LogCall) :
    call.Retries dir log (call.cutDir dir log) (call.retain log) := by
  obtain ⟨dir', log', hrun, _⟩ := h.run_rest call (h.files_cutDir call)
  exact ⟨dir', log', by rw [h.run_exec, hrun], by rw [call.run_exec_retain, hrun]⟩

/-- The record that said where to cut is gone: the file keeps its bytes. -/
theorem InStep.not_retries_of_setLen (h : InStep dir log) {segmentStart frameStart : Nat}
    (hcut : call.cut log = some (segmentStart, frameStart)) (hlt : segmentStart < call.index) :
    ¬ call.Retries dir log dir (call.retain log) := by
  rintro ⟨dir', log', hrun, hrun'⟩
  obtain ⟨bytes, hb, hlen⟩ := h.cut hcut
  obtain ⟨d₁, l₁, hrun₁, hd₁⟩ := h.run_rest call (h.files_cutDir call)
  obtain ⟨d₂, l₂, hrun₂, hd₂⟩ := h.run_rest call h.files
  rw [h.run_exec, hrun₁] at hrun
  rw [call.run_exec_retain, hrun₂] at hrun'
  cases hrun
  cases hrun'
  have hkept : segmentStart ∉ call.unlinks log := by
    cases call with
    | purgeThrough index => cases hcut
    | truncateFrom index =>
      intro hmem
      have hge := of_decide_eq_true (List.mem_filter.mp hmem).2
      exact absurd hlt (Nat.not_lt.mpr hge)
  have hdir : call.cutDir dir log = dir.modify segmentStart (setLen frameStart) := by
    rw [LogCall.cutDir, hcut]
    exact if_pos hlt
  have heq := (hd₁ segmentStart).symm.trans (hd₂ segmentStart)
  rw [if_neg hkept, if_neg hkept, hdir, OrdMap.find?_modify, if_pos rfl, hb, Option.map_some,
    Option.some.injEq] at heq
  have := congrArg List.length heq
  rw [length_setLen] at this
  omega

/-- After a failure the call can be made again if and only if the cut was done and no
file was gone. -/
theorem InStep.retries_iff (h : InStep dir log) {dir₁ : LogDir}
    (hstop : call.Stopped dir log c dir₁) :
    call.Retries dir log dir₁ (call.retain log) ↔
      c = .fsync ∨ ∃ s, c = .unlink s ∧ (call.unlinks log).head? = some s := by
  cases hstop with
  | setLen hcut hlt =>
    refine iff_of_false (h.not_retries_of_setLen hcut hlt) ?_
    rintro (hc | ⟨s, hc, _⟩) <;> cases hc
  | fsync => exact iff_of_true (h.retries_of_cut call) (.inl rfl)
  | @unlink pre post s _ hsplit hdir =>
    cases pre with
    | nil =>
      have he : dir₁ = call.cutDir dir log := OrdMap.ext_find? fun k => by simpa using hdir k
      refine iff_of_true (he ▸ h.retries_of_cut call) (.inr ⟨s, rfl, ?_⟩)
      rw [hsplit]
      rfl
    | cons p pre =>
      refine iff_of_false ?_ ?_
      · rintro ⟨dir', log', _, hrun⟩
        rw [call.run_exec_retain,
          LogCall.run_rest_missing hsplit (by rw [hdir, if_pos List.mem_cons_self])] at hrun
        cases hrun
      · rintro (hc | ⟨t, hc, hhead⟩)
        · cases hc
        · cases hc
          rw [hsplit] at hhead
          cases hhead
          have hnd : (call.unlinks log).Nodup :=
            (call.unlinks_sublist log).nodup (h.sorted.imp Nat.ne_of_lt)
          rw [hsplit, List.cons_append] at hnd
          exact (List.nodup_cons.mp hnd).1 (by simp)

/-! ## appends in the meantime -/

/-- The active segment has its file. -/
def ActiveOnDisk (dir : LogDir) (log : SegmentedLog) : Prop :=
  ∀ a, log.active = some a → dir.contains a.start = true

/-- A call that failed did not come to the active segment: it is the last one, and
the unlinks go in order. -/
theorem InStep.activeOnDisk (h : InStep dir log) {dir₁ : LogDir}
    (hstop : call.Stopped dir log c dir₁) : ActiveOnDisk dir₁ (call.retain log) := by
  intro a ha
  have hact : log.active = some a := by cases call <;> exact ha
  have hlast : log.starts.getLast? = some a.start := by rw [← h.active, hact]; rfl
  have hmem := List.mem_of_getLast? hlast
  cases hstop with
  | setLen hcut hlt => exact OrdMap.contains_eq_true_iff.mpr (h.files a.start hmem)
  | fsync => exact OrdMap.contains_eq_true_iff.mpr (h.files_cutDir call a.start hmem)
  | @unlink pre post s _ hsplit hdir =>
    have hno : a.start ∉ pre := fun hpre => by
      have hsub := call.unlinks_sublist log
      have hsorted := h.sorted.sublist hsub
      rw [hsplit] at hsorted hsub
      have hlt := (List.pairwise_append.mp hsorted).2.2 _ hpre s List.mem_cons_self
      have hle := le_of_getLast? h.sorted hlast (hsub.subset (by simp) : s ∈ log.starts)
      omega
    rw [OrdMap.contains_eq_true_iff, hdir, if_neg hno]
    exact h.files_cutDir call a.start hmem

end

section
variable [Ext]

/-- Appends that returned, one after the other. -/
inductive Appends : LogDir → SegmentedLog → LogDir → SegmentedLog → Prop where
  | refl (dir : LogDir) (log : SegmentedLog) : Appends dir log dir log
  | append {dir dir' dir'' : LogDir} {log log' log'' : SegmentedLog} {index : Nat} {payload : Bytes}
      (h : Appends dir log dir' log')
      (hrun : (SegmentedLog.append index payload).run dir' log' = (.ok (), dir'', log'')) :
      Appends dir log dir'' log''

/-- The record `index` is the last frame of a file of the directory. -/
def WrittenTo (dir : LogDir) (log : SegmentedLog) (index : Nat) (payload : Bytes) : Prop :=
  ∃ loc bytes, log.records.find? index = some loc ∧
    dir.find? loc.segmentStart = some (bytes ++ frame payload)

variable {dir dir' : LogDir} {log log' : SegmentedLog} {index : Nat} {payload : Bytes}

theorem ActiveOnDisk.append (h : ActiveOnDisk dir log)
    (hrun : (SegmentedLog.append index payload).run dir log = (.ok (), dir', log')) :
    ActiveOnDisk dir' log' ∧ WrittenTo dir' log' index payload := by
  have hp := append_ok_small hrun
  -- both paths end with a write to a file that is there
  have hwrite : ∀ (d : LogDir) (l : SegmentedLog) (a : Active), d.contains a.start = true →
      ActiveOnDisk (d.modify a.start (· ++ frame payload)) (l.extended a index payload) ∧
        WrittenTo (d.modify a.start (· ++ frame payload)) (l.extended a index payload) index
          payload := by
    intro d l a hc
    obtain ⟨bytes, hb⟩ := OrdMap.contains_eq_true_iff.mp hc
    have hfile : (d.modify a.start (· ++ frame payload)).find? a.start =
        some (bytes ++ frame payload) := by
      rw [OrdMap.find?_modify, if_pos rfl, hb]
      rfl
    refine ⟨fun b hb => ?_, ⟨_, bytes, OrdMap.find?_insert_self _ _ _, hfile⟩⟩
    rw [← Option.some.inj hb]
    exact OrdMap.contains_eq_true_iff.mpr ⟨_, hfile⟩
  have hw : wp (SegmentedLog.append index payload)
      (fun _ d l => ActiveOnDisk d l ∧ WrittenTo d l index payload) (fun _ _ _ => True)
      (fun _ => True) dir log := by
    cases hrot : log.needsRotation with
    | true =>
      refine (wp_append_rotating hrot hp).mpr ⟨trivial, trivial, hwrite _ _ ⟨index, 0⟩ ?_⟩
      rw [LogDir.created]
      split
      · assumption
      · rw [OrdMap.contains, OrdMap.find?_insert_self]
        rfl
    | false =>
      cases ha : log.active with
      | none => simp [SegmentedLog.needsRotation, ha] at hrot
      | some a => exact (wp_append_active ha hrot hp).mpr ⟨trivial, hwrite dir log a (h a ha)⟩
  exact post_of_wp hw hrun

theorem ActiveOnDisk.appends (h : ActiveOnDisk dir log) (hrun : Appends dir log dir' log') :
    ActiveOnDisk dir' log' := by
  induction hrun with
  | refl => exact h
  | append _ hrun ih => exact ((ih h).append hrun).1

/-- **A failed purge or truncation can be made again** if and only if the call that
failed was the fsync or the first unlink.  Until then every append that returns
reaches a file of the directory. -/
theorem failed_call_retries_iff {dir₁ : LogDir} {log₁ : SegmentedLog} {e' : Error}
    (h : InStep dir log) (call : LogCall) (c : FsCall) (e : Error)
    (hrun : (call.execUnder (failing c e)).run dir log = (.error e', dir₁, log₁)) :
    (∀ dir₂ log₂ dir₃ log₃ index payload, Appends dir₁ log₁ dir₂ log₂ →
      (SegmentedLog.append index payload).run dir₂ log₂ = (.ok (), dir₃, log₃) →
      WrittenTo dir₃ log₃ index payload) ∧
    (call.Retries dir log dir₁ log₁ ↔
      c = .fsync ∨ ∃ s, c = .unlink s ∧ (call.unlinks log).head? = some s) := by
  obtain ⟨hstop, rfl⟩ := h.stopped hrun
  refine ⟨fun dir₂ log₂ dir₃ log₃ index payload happ hrun => ?_, h.retries_iff hstop⟩
  exact (((h.activeOnDisk hstop).appends happ).append hrun).2

end

/-! ## a log of three segments -/

section
open Reference

/-- Five records in the segments 0, 2 and 4. -/
def fiveRecords : LogDir × SegmentedLog :=
  after (SegmentedLog.append 4 [50]) <|
    after (SegmentedLog.append 3 [40]) <|
      after (SegmentedLog.append 2 [30]) <|
        after (SegmentedLog.append 1 [20]) <|
          after (SegmentedLog.append 0 [10]) <|
            after (SegmentedLog.openWithSegmentMax 12) (∅, .closed)

theorem fiveRecords_run : ∃ map, MapRun 12 fiveRecords.1 fiveRecords.2 map none := by
  refine ⟨_, .append 4 [50] (.append 3 [40] (.append 2 [30] (.append 1 [20] (.append 0 [10]
      (.opened .closed (Prod.ext (by decide +kernel) rfl)) ?_
      (Prod.ext (by decide +kernel) rfl)) ?_ (Prod.ext (by decide +kernel) rfl)) ?_
      (Prod.ext (by decide +kernel) rfl)) ?_ (Prod.ext (by decide +kernel) rfl)) ?_
    (Prod.ext (by decide +kernel) rfl)⟩
  · exact fun _ h => nomatch h
  all_goals rfl

theorem fiveRecords_inStep : InStep fiveRecords.1 fiveRecords.2 := by
  obtain ⟨_, hrun⟩ := fiveRecords_run
  exact hrun.inStep

/-- What a call leaves when `c` fails. -/
def failedAt (call : LogCall) (c : FsCall) : LogDir × SegmentedLog :=
  after (call.execUnder (failing c (.io .other))) fiveRecords

/-- A purge through 3 whose first unlink fails is made again. -/
theorem failed_call_retries_first_unlink :
    (LogCall.purgeThrough 3).Retries fiveRecords.1 fiveRecords.2
      (failedAt (.purgeThrough 3) (.unlink 0)).1 (failedAt (.purgeThrough 3) (.unlink 0)).2 :=
  (failed_call_retries_iff fiveRecords_inStep (.purgeThrough 3) (.unlink 0) (.io .other)
    (Prod.ext (by decide +kernel) rfl)).2.mpr (.inr ⟨0, rfl, by decide +kernel⟩)

/-- When the second unlink fails, the same purge fails from then on: the first file is
gone.  When the cut of a truncation fails, the second truncation returns and leaves the
records it dropped in their file. -/
theorem failed_call_stays_failed :
    InStep fiveRecords.1 fiveRecords.2 ∧
      (((LogCall.purgeThrough 3).execUnder (failing (.unlink 2) (.io .other))).run fiveRecords.1
        fiveRecords.2).1 = .error (.io .other) ∧
      ((LogCall.purgeThrough 3).exec.run (failedAt (.purgeThrough 3) (.unlink 2)).1
        (failedAt (.purgeThrough 3) (.unlink 2)).2).1 = .error (.io .notFound) ∧
      (((LogCall.truncateFrom 1).execUnder (failing .setLen (.io .other))).run fiveRecords.1
        fiveRecords.2).1 = .error (.io .other) ∧
      ((LogCall.truncateFrom 1).exec.run (failedAt (.truncateFrom 1) .setLen).1
        (failedAt (.truncateFrom 1) .setLen).2).1 = .ok () ∧
      ((after (LogCall.truncateFrom 1).exec (failedAt (.truncateFrom 1) .setLen)).1.find? 0).map
        List.length = some 18 ∧
      ((after (LogCall.truncateFrom 1).exec fiveRecords).1.find? 0).map List.length = some 9 :=
  ⟨fiveRecords_inStep, by decide +kernel, by decide +kernel, by decide +kernel, by decide +kernel,
    by decide +kernel, by decide +kernel⟩

end

end Lumen
