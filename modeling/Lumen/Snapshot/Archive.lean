import Lumen.Basic
import Lumen.Lib.OrdMap
import Lumen.Lib.System
import Mathlib.Data.List.Dedup
import Mathlib.Data.String.Basic

/-!
# Lumen.Snapshot.Archive

`Collection::archive_into` at the level of files, next to the commits of the
same collection.

Of Tantivy the model has what the archive depends on.  A commit is `meta.json`
with the segments it names; the files of a segment are written once, before
the commit that names them; `meta.json` is replaced at once; and a file may be
collected when neither `meta.json` nor a searcher names it.  A `linearizable_get`
commits without the catalog's lock, and so does a merge; the checkpoint loop
commits under it, and an archive holds it from start to end.

`written` and `commits` are what has been written and committed so far: an
archive is whole when it shows one of these commits with all files of its
segments.

* `archive_whole_iff` — an archive is whole where the copy of `meta.json` finds
  the existing files of the segments it names copied already, or still to be
  copied and held by the pin; where it does not, the archive can come out with a
  segment that has no file.
* `undisturbed_coversMeta` — it does where nothing is committed meanwhile, which
  is how `Lumen.Snapshot` takes the copy for one step.
-/

namespace Lumen.Archiving

open Lib

/-- The names of the files of a segment, which need not all exist
(`SegmentMeta::list_files`). -/
class SegmentFiles (σ : Type) where
  listFiles : σ → List String

/-! ## commits and directories -/

/-- `meta.json`: the segments of a commit and its payload. -/
structure IndexMeta (σ : Type) where
  segments : List σ
  payload : Option LogMark
  deriving DecidableEq

/-- The directory of an index. -/
structure IndexDir (σ : Type) where
  metaJson : Option (IndexMeta σ)
  managedJson : Option Bytes
  files : OrdMap String Bytes
  deriving DecidableEq

/-- The names in a directory. -/
inductive RelPath where
  | metaFile
  | managedFile
  | segmentFile (name : String)
  deriving DecidableEq

variable {σ : Type}

namespace IndexDir

def empty : IndexDir σ := ⟨none, none, ∅⟩

def hasFile (d : IndexDir σ) : RelPath → Bool
  | .metaFile => d.metaJson.isSome
  | .managedFile => d.managedJson.isSome
  | .segmentFile name => d.files.contains name

/-- `fs::copy`, where the file exists. -/
def copyFrom (dest src : IndexDir σ) : RelPath → IndexDir σ
  | .metaFile => { dest with metaJson := src.metaJson }
  | .managedFile => { dest with managedJson := src.managedJson }
  | .segmentFile name =>
    match src.files.find? name with
    | none => dest
    | some bytes => { dest with files := dest.files.insert name bytes }

theorem metaJson_copyFrom (dest src : IndexDir σ) (rel : RelPath) :
    (dest.copyFrom src rel).metaJson = if rel = .metaFile then src.metaJson else dest.metaJson := by
  cases rel with
  | metaFile => rfl
  | managedFile => rfl
  | segmentFile name =>
    rw [copyFrom]
    split <;> rfl

theorem find?_copyFrom (dest src : IndexDir σ) (rel : RelPath) (f : String) :
    (dest.copyFrom src rel).files.find? f =
      if rel = .segmentFile f then (src.files.find? f).or (dest.files.find? f)
      else dest.files.find? f := by
  cases rel with
  | metaFile => rfl
  | managedFile => rfl
  | segmentFile name =>
    rw [copyFrom]
    by_cases hf : name = f
    · subst hf
      rw [if_pos rfl]
      cases hs : src.files.find? name with
      | none => rfl
      | some b => exact OrdMap.find?_insert_self _ _ _
    · rw [if_neg (by simpa using hf)]
      split
      · rfl
      · exact OrdMap.find?_insert_ne (Ne.symm hf)

end IndexDir

section
variable [SegmentFiles σ]

/-- The files a commit names. -/
def IndexMeta.names (m : IndexMeta σ) : List String := m.segments.flatMap SegmentFiles.listFiles

/-- The files `archive_into` collects, without order. -/
def IndexMeta.archived (m : IndexMeta σ) : List RelPath :=
  (.metaFile :: .managedFile :: m.names.map .segmentFile).dedup

end

/-! ## the interleaving -/

/-- Where an `archive_into` is: `checked` is the file it has seen to exist and
is about to copy. -/
inductive Phase (σ : Type) where
  | idle
  | reloaded
  | pinned (pin : IndexMeta σ)
  | copying (pin : IndexMeta σ) (todo : List RelPath) (checked : Option RelPath)
  | done
  | failed (e : Error)
  deriving DecidableEq

namespace Phase

/-- The commit of the searcher it holds. -/
def pin? : Phase σ → Option (IndexMeta σ)
  | pinned pin => some pin
  | copying pin _ _ => some pin
  | _ => none

def locksMap : Phase σ → Bool
  | idle => false
  | done => false
  | failed _ => false
  | _ => true

end Phase

/-- Who replaces `meta.json`. -/
inductive Committer where
  | checkpoint
  | commitCollection
  | merge
  deriving DecidableEq

/-- A collection, its reader's searcher and one archive of it. -/
structure State (σ : Type) where
  dir : IndexDir σ
  searcher : IndexMeta σ
  phase : Phase σ
  dest : IndexDir σ
  written : OrdMap String Bytes
  commits : List (IndexMeta σ)
  deriving DecidableEq

/-- What can happen next. -/
inductive Action (σ : Type) where
  | write (name : String) (bytes : Bytes)
  | manage (bytes : Bytes)
  | commit (who : Committer) (info : IndexMeta σ)
  | reload
  | collect (name : String)
  | check (rel : RelPath)
  | archive

namespace State

variable [SegmentFiles σ]

/-- All files of the commit are there. -/
def Held (s : State σ) (m : IndexMeta σ) : Prop :=
  ∀ f ∈ m.names, s.dir.files.find? f = s.written.find? f

instance (s : State σ) (m : IndexMeta σ) : Decidable (s.Held m) :=
  inferInstanceAs (Decidable (∀ f ∈ m.names, s.dir.files.find? f = s.written.find? f))

/-- The commits whose files are not collected: the current one, the reader's
searcher, and the archive's. -/
def living (s : State σ) : List (IndexMeta σ) :=
  s.dir.metaJson.toList ++ s.searcher :: s.phase.pin?.toList

/-- The next step of `archive_into` outside the look at a file. -/
def archive (s : State σ) : Option (State σ) :=
  match s.phase with
  | .idle => s.dir.metaJson.map fun m => { s with searcher := m, phase := .reloaded }
  | .reloaded => some { s with phase := .pinned s.searcher }
  | .pinned pin => s.dir.metaJson.map fun m => { s with phase := .copying pin m.archived none }
  | .copying pin todo (some rel) =>
    if s.dir.hasFile rel then
      some { s with
        dest := s.dest.copyFrom s.dir rel
        phase := .copying pin (todo.erase rel) none }
    else some { s with phase := .failed (.io .notFound) }
  | .copying _ [] none => some { s with phase := .done }
  | _ => none

/-- The look at one of the files still to be copied, in any order. -/
def check (s : State σ) (rel : RelPath) : Option (State σ) :=
  match s.phase with
  | .copying pin todo none =>
    if rel ∈ todo then
      if s.dir.hasFile rel then some { s with phase := .copying pin todo (some rel) }
      else some { s with phase := .copying pin (todo.erase rel) none }
    else none
  | _ => none

def step (s : State σ) : Action σ → Option (State σ)
  | .write name bytes =>
    -- a segment's files are written before it is committed, under new names
    if s.written.contains name || s.commits.any (name ∈ ·.names) then none
    else some { s with
      dir := { s.dir with files := s.dir.files.insert name bytes }
      written := s.written.insert name bytes }
  | .manage bytes => some { s with dir := { s.dir with managedJson := some bytes } }
  | .commit who m =>
    if who = .checkpoint ∧ s.phase.locksMap then none
    else if s.Held m then
      some { s with dir := { s.dir with metaJson := some m }, commits := s.commits ++ [m] }
    else none
  | .reload => s.dir.metaJson.map fun m => { s with searcher := m }
  | .collect name =>
    if s.living.any (name ∈ ·.names) then none
    else some { s with dir := { s.dir with files := s.dir.files.erase name } }
  | .check rel => s.check rel
  | .archive => s.archive

/-- An open collection that is not being archived. -/
def Opened (s : State σ) : Prop :=
  s.dir.metaJson = some s.searcher ∧ s.phase = .idle ∧ s.dest = .empty ∧
    s.written = s.dir.files ∧ s.commits = [s.searcher]

end State

variable [SegmentFiles σ]

def system (σ : Type) [SegmentFiles σ] : System (State σ) (Action σ) where
  init := State.Opened
  step := State.step

def anyStep (_ : State σ) (_ : Action σ) : Bool := true

/-- The archive shows one commit, with all files of its segments. -/
def State.Whole (s : State σ) : Prop :=
  ∃ m ∈ s.commits, s.dest.metaJson = some m ∧
    ∀ f ∈ m.names, s.dest.files.find? f = s.written.find? f

/-- Every existing file of the segments `meta.json` names is copied, or is
still to be copied and held by the pin. -/
def State.MetaCovered (s : State σ) (pin : IndexMeta σ) (todo : List RelPath) : Prop :=
  ∀ m, s.dir.metaJson = some m → ∀ f ∈ m.names, s.written.contains f = true →
    s.dest.files.contains f = true ∨ .segmentFile f ∈ todo ∧ f ∈ pin.names

instance (s : State σ) (pin : IndexMeta σ) (todo : List RelPath) :
    Decidable (s.MetaCovered pin todo) :=
  inferInstanceAs (Decidable (∀ m, s.dir.metaJson = some m → ∀ f ∈ m.names,
    s.written.contains f = true →
      s.dest.files.contains f = true ∨ .segmentFile f ∈ todo ∧ f ∈ pin.names))

/-- The condition on the copy of `meta.json`; every other step is free. -/
def coversMeta (s : State σ) : Action σ → Bool
  | .archive =>
    match s.phase with
    | .copying pin todo (some .metaFile) => decide (s.MetaCovered pin todo)
    | _ => true
  | _ => true

/-! ## what every run keeps -/

structure State.Inv (s : State σ) : Prop where
  current : ∃ m, s.dir.metaJson = some m
  files : ∀ f b, s.dir.files.find? f = some b → s.written.find? f = some b
  copied : ∀ f b, s.dest.files.find? f = some b → s.written.find? f = some b
  living : ∀ m ∈ s.living, m ∈ s.commits ∧ s.Held m
  archived : ∀ m, s.dest.metaJson = some m → m ∈ s.commits
  todo : ∀ pin todo checked, s.phase = .copying pin todo checked →
    todo.Nodup ∧ ∀ rel, checked = some rel → rel ∈ todo

variable {s s' : State σ} {m pin : IndexMeta σ} {todo : List RelPath} {f : String}

omit [SegmentFiles σ] in
theorem State.mem_living_iff :
    m ∈ s.living ↔ s.dir.metaJson = some m ∨ m = s.searcher ∨ s.phase.pin? = some m := by
  rw [State.living, List.mem_append, List.mem_cons, Option.mem_toList, Option.mem_toList]

theorem State.Opened.inv (h : s.Opened) : s.Inv := by
  obtain ⟨hmeta, hphase, hdest, hwritten, hcommits⟩ := h
  refine ⟨⟨_, hmeta⟩, ?_, ?_, ?_, ?_, ?_⟩
  · rw [hwritten]
    exact fun _ _ hf => hf
  · rw [hdest]
    intro f b hf
    contradiction
  · intro m hm
    have he : m = s.searcher := by
      rw [State.mem_living_iff, hmeta, hphase] at hm
      rcases hm with hm | hm | hm
      · exact (Option.some.inj hm).symm
      · exact hm
      · contradiction
    refine ⟨by rw [hcommits, he]; exact List.mem_singleton_self _, fun f _ => by rw [hwritten]⟩
  · rw [hdest]
    intro m hm
    contradiction
  · rw [hphase]
    intro _ _ _ hp
    contradiction

/-- A new file is not one a commit names. -/
theorem State.Inv.write (h : s.Inv) {name : String} {bytes : Bytes}
    (hstep : s.step (.write name bytes) = some s') : s'.Inv := by
  rw [State.step] at hstep
  split at hstep
  · contradiction
  rename_i hnew
  injection hstep with hstep
  subst hstep
  rw [Bool.or_eq_true, not_or, Bool.not_eq_true, OrdMap.contains_eq_false_iff] at hnew
  obtain ⟨hfresh, hunnamed⟩ := hnew
  have hne : ∀ f b, s.written.find? f = some b → f ≠ name := by
    rintro f b hf rfl
    rw [hfresh] at hf
    contradiction
  refine ⟨h.current, fun f b hf => ?_, fun f b hf => ?_, fun m hm => ?_, h.archived, h.todo⟩
  · show (s.written.insert name bytes).find? f = some b
    rw [OrdMap.find?_insert] at hf ⊢
    split at hf <;> rename_i hfn
    · rw [if_pos hfn]
      exact hf
    · rw [if_neg hfn]
      exact h.files f b hf
  · show (s.written.insert name bytes).find? f = some b
    have hf := h.copied f b hf
    rw [OrdMap.find?_insert_ne (hne f b hf)]
    exact hf
  · obtain ⟨hc, hheld⟩ := h.living m hm
    refine ⟨hc, fun f hf => ?_⟩
    have hfn : f ≠ name := by
      rintro rfl
      exact hunnamed (List.any_eq_true.mpr ⟨m, hc, decide_eq_true hf⟩)
    rw [OrdMap.find?_insert_ne hfn, OrdMap.find?_insert_ne hfn]
    exact hheld f hf

/-- The invariant reads the directory's files, the archive's, the history and
the phase. -/
theorem State.Inv.of_living (h : s.Inv) (hcur : ∃ m, s'.dir.metaJson = some m)
    (hfiles : s'.dir.files = s.dir.files)
    (hdest : s'.dest = s.dest) (hwritten : s'.written = s.written)
    (hcommits : s.commits ⊆ s'.commits)
    (hliving : ∀ m ∈ s'.living, m ∈ s.living ∨ m ∈ s'.commits ∧ s.Held m)
    (htodo : ∀ pin todo checked, s'.phase = .copying pin todo checked →
      todo.Nodup ∧ ∀ rel, checked = some rel → rel ∈ todo) : s'.Inv := by
  have hheld : ∀ m, s.Held m → s'.Held m := by
    intro m hm f hf
    rw [hfiles, hwritten]
    exact hm f hf
  refine ⟨hcur, ?_, ?_, fun m hm => ?_, ?_, htodo⟩
  · rw [hfiles, hwritten]
    exact h.files
  · rw [hdest, hwritten]
    exact h.copied
  · rcases hliving m hm with hm | ⟨hc, hm⟩
    · exact ⟨hcommits (h.living m hm).1, hheld m (h.living m hm).2⟩
    · exact ⟨hc, hheld m hm⟩
  · rw [hdest]
    exact fun m hm => hcommits (h.archived m hm)

/-- What is collected belongs to no living commit. -/
theorem State.Inv.collect (h : s.Inv) {name : String}
    (hstep : s.step (.collect name) = some s') : s'.Inv := by
  rw [State.step] at hstep
  split at hstep
  · contradiction
  rename_i hfree
  injection hstep with hstep
  subst hstep
  refine ⟨h.current, fun f b hf => ?_, h.copied, fun m hm => ?_, h.archived, h.todo⟩
  · rw [OrdMap.find?_erase] at hf
    split at hf
    · contradiction
    · exact h.files f b hf
  · obtain ⟨hc, hheld⟩ := h.living m hm
    refine ⟨hc, fun f hf => ?_⟩
    have hfn : f ≠ name := by
      rintro rfl
      exact hfree (List.any_eq_true.mpr ⟨m, hm, decide_eq_true hf⟩)
    rw [OrdMap.find?_erase, if_neg hfn]
    exact hheld f hf

/-- A step of `archive_into`. -/
inductive State.Archives (s : State σ) : State σ → Prop where
  | reload {m : IndexMeta σ} (hphase : s.phase = .idle) (hmeta : s.dir.metaJson = some m) :
      Archives s { s with searcher := m, phase := .reloaded }
  | pin (hphase : s.phase = .reloaded) : Archives s { s with phase := .pinned s.searcher }
  | load {pin m : IndexMeta σ} (hphase : s.phase = .pinned pin) (hmeta : s.dir.metaJson = some m) :
      Archives s { s with phase := .copying pin m.archived none }
  | found {pin : IndexMeta σ} {todo : List RelPath} {rel : RelPath}
      (hphase : s.phase = .copying pin todo none) (hrel : rel ∈ todo)
      (hfile : s.dir.hasFile rel = true) :
      Archives s { s with phase := .copying pin todo (some rel) }
  | missing {pin : IndexMeta σ} {todo : List RelPath} {rel : RelPath}
      (hphase : s.phase = .copying pin todo none) (hfile : s.dir.hasFile rel = false) :
      Archives s { s with phase := .copying pin (todo.erase rel) none }
  | copy {pin : IndexMeta σ} {todo : List RelPath} {rel : RelPath}
      (hphase : s.phase = .copying pin todo (some rel)) (hfile : s.dir.hasFile rel = true) :
      Archives s { s with
        dest := s.dest.copyFrom s.dir rel
        phase := .copying pin (todo.erase rel) none }
  | vanished {pin : IndexMeta σ} {todo : List RelPath} {rel : RelPath}
      (hphase : s.phase = .copying pin todo (some rel)) :
      Archives s { s with phase := .failed (.io .notFound) }
  | finish {pin : IndexMeta σ} (hphase : s.phase = .copying pin [] none) :
      Archives s { s with phase := .done }

theorem State.archives_of_archive (h : s.archive = some s') : s.Archives s' := by
  rw [State.archive.eq_def] at h
  split at h
  · rename_i hphase
    obtain ⟨m, hmeta, rfl⟩ := Option.map_eq_some_iff.mp h
    exact .reload hphase hmeta
  · rename_i hphase
    injection h with h
    exact h ▸ .pin hphase
  · rename_i pin hphase
    obtain ⟨m, hmeta, rfl⟩ := Option.map_eq_some_iff.mp h
    exact .load hphase hmeta
  · rename_i pin todo rel hphase
    split at h
    · rename_i hfile
      injection h with h
      exact h ▸ .copy hphase hfile
    · injection h with h
      exact h ▸ .vanished hphase
  · rename_i pin hphase
    injection h with h
    exact h ▸ .finish hphase
  · contradiction

theorem State.archives_of_check {rel : RelPath} (h : s.check rel = some s') :
    s.Archives s' := by
  rw [State.check.eq_def] at h
  split at h
  · rename_i pin todo hphase
    split at h
    · rename_i hrel
      split at h
      · rename_i hfile
        injection h with h
        exact h ▸ .found hphase hrel hfile
      · rename_i hfile
        injection h with h
        exact h ▸ .missing hphase (Bool.eq_false_iff.mpr hfile)
    · contradiction
  · contradiction

theorem State.Inv.archives (h : s.Inv) (hstep : s.Archives s') : s'.Inv := by
  -- a phase change alone
  have hmove : ∀ phase : Phase σ,
      (∀ m, phase.pin? = some m → s.phase.pin? = some m ∨ m = s.searcher) →
      (∀ pin todo checked, phase = .copying pin todo checked →
        todo.Nodup ∧ ∀ rel, checked = some rel → rel ∈ todo) →
      State.Inv { s with phase := phase } := by
    intro phase hpin htodo
    refine h.of_living h.current rfl rfl rfl (List.Subset.refl _) (fun m hm => .inl ?_) htodo
    rw [State.mem_living_iff] at hm ⊢
    rcases hm with hm | hm | hm
    · exact .inl hm
    · exact .inr (.inl hm)
    · rcases hpin m hm with hm | hm
      · exact .inr (.inr hm)
      · exact .inr (.inl hm)
  cases hstep with
  | @reload m hphase hmeta =>
    refine h.of_living h.current rfl rfl rfl (List.Subset.refl _) (fun x hx => .inl ?_) (by simp)
    rw [State.mem_living_iff] at hx ⊢
    rcases hx with hx | hx | hx
    · exact .inl hx
    · exact .inl (hx ▸ hmeta)
    · contradiction
  | pin hphase => exact hmove _ (by rintro _ ⟨⟩; exact .inr rfl) (by simp)
  | load hphase hmeta =>
    refine hmove _ (by rintro _ ⟨⟩; exact .inl (by rw [hphase]; rfl)) ?_
    rintro _ _ _ ⟨⟩
    exact ⟨List.nodup_dedup _, by simp⟩
  | found hphase hrel hfile =>
    refine hmove _ (by rintro _ ⟨⟩; exact .inl (by rw [hphase]; rfl)) ?_
    rintro _ _ _ ⟨⟩
    exact ⟨(h.todo _ _ _ hphase).1, by rintro _ ⟨⟩; exact hrel⟩
  | missing hphase hfile =>
    refine hmove _ (by rintro _ ⟨⟩; exact .inl (by rw [hphase]; rfl)) ?_
    rintro _ _ _ ⟨⟩
    exact ⟨(h.todo _ _ _ hphase).1.erase _, by simp⟩
  | @copy pin todo rel hphase hfile =>
    have hi : State.Inv { s with phase := .copying pin (todo.erase rel) none } := by
      refine hmove _ (by rintro _ ⟨⟩; exact .inl (by rw [hphase]; rfl)) ?_
      rintro _ _ _ ⟨⟩
      exact ⟨(h.todo _ _ _ hphase).1.erase _, by simp⟩
    refine ⟨hi.current, hi.files, fun f b hf => ?_, hi.living, fun m hm => ?_, hi.todo⟩
    · rw [IndexDir.find?_copyFrom] at hf
      split at hf
      · rcases Option.or_eq_some_iff.mp hf with hf | ⟨_, hf⟩
        · exact h.files f b hf
        · exact h.copied f b hf
      · exact h.copied f b hf
    · rw [IndexDir.metaJson_copyFrom] at hm
      split at hm
      · exact (h.living m (State.mem_living_iff.mpr (.inl hm))).1
      · exact h.archived m hm
  | vanished hphase => exact hmove _ (by simp [Phase.pin?]) (by simp)
  | finish hphase => exact hmove _ (by simp [Phase.pin?]) (by simp)

theorem State.Inv.step (h : s.Inv) (a : Action σ) (hstep : s.step a = some s') : s'.Inv := by
  cases a with
  | write name bytes => exact h.write hstep
  | manage bytes =>
    injection hstep with hstep
    subst hstep
    exact h.of_living h.current rfl rfl rfl (List.Subset.refl _) (fun _ hm => .inl hm) h.todo
  | commit who m =>
    rw [State.step] at hstep
    split at hstep
    · contradiction
    split at hstep
    · rename_i hheld
      injection hstep with hstep
      subst hstep
      refine h.of_living ⟨m, rfl⟩ rfl rfl rfl (List.subset_append_left _ _) (fun x hx => ?_) h.todo
      rw [State.mem_living_iff] at hx
      rcases hx with hx | hx
      · injection hx with hx
        exact .inr (hx ▸ ⟨List.mem_append_right _ (List.mem_singleton_self m), hheld⟩)
      · exact .inl (State.mem_living_iff.mpr (.inr hx))
    · contradiction
  | reload =>
    obtain ⟨m, hmeta, rfl⟩ := Option.map_eq_some_iff.mp hstep
    refine h.of_living h.current rfl rfl rfl (List.Subset.refl _) (fun x hx => .inl ?_) h.todo
    rw [State.mem_living_iff] at hx ⊢
    rcases hx with hx | hx | hx
    · exact .inl hx
    · exact .inl (hx ▸ hmeta)
    · exact .inr (.inr hx)
  | collect name => exact h.collect hstep
  | check rel => exact h.archives (State.archives_of_check hstep)
  | archive => exact h.archives (State.archives_of_archive hstep)

theorem State.Inv.of_reach (h : (system σ).Reach anyStep s) : s.Inv :=
  h.invariant (fun _ hs => hs.inv) fun _ a _ hi _ hstep => hi.step a hstep

/-! ## behind the copy of meta.json -/

namespace Phase

/-- The archive will still copy a file of the pin, or has failed. -/
def Due (f : String) : Phase σ → Prop
  | copying pin todo _ => .segmentFile f ∈ todo ∧ f ∈ pin.names
  | failed _ => True
  | _ => False

def PastMeta : Phase σ → Prop
  | copying _ todo _ => .metaFile ∉ todo
  | done => True
  | failed _ => True
  | _ => False

end Phase

/-- The archive has the commit `m`, and its files or a claim on them. -/
structure State.Past (s : State σ) (m : IndexMeta σ) : Prop where
  metaJson : s.dest.metaJson = some m
  committed : m ∈ s.commits
  files : ∀ f ∈ m.names, s.dest.files.find? f = s.written.find? f ∨ s.phase.Due f
  phase : s.phase.PastMeta

/-- A file that was never written is not copied either. -/
theorem State.Inv.dest_eq_none (h : s.Inv) (hf : s.written.find? f = none) :
    s.dest.files.find? f = none := by
  cases hd : s.dest.files.find? f with
  | none => rfl
  | some b =>
    rw [h.copied f b hd] at hf
    contradiction

theorem State.Past.archives (h : s.Past m) (hi : s.Inv) (hstep : s.Archives s') : s'.Past m := by
  have hpast := h.phase
  cases hstep with
  | reload hphase _ => rw [hphase] at hpast; exact hpast.elim
  | pin hphase => rw [hphase] at hpast; exact hpast.elim
  | load hphase _ => rw [hphase] at hpast; exact hpast.elim
  | found hphase _ _ =>
    refine ⟨h.metaJson, h.committed, fun f hf => ?_, ?_⟩
    · have := h.files f hf
      rwa [hphase] at this
    · rwa [hphase] at hpast
  | @missing pin todo rel hphase hfile =>
    rw [hphase] at hpast
    refine ⟨h.metaJson, h.committed, fun f hf => ?_, fun hm => hpast (List.mem_of_mem_erase hm)⟩
    have hcov := h.files f hf
    rw [hphase] at hcov
    rcases hcov with hcov | ⟨hmem, hpin⟩
    · exact .inl hcov
    by_cases hrel : .segmentFile f = rel
    · -- the pin holds the file, so it was never written
      subst hrel
      have hheld := (hi.living pin (State.mem_living_iff.mpr
        (.inr (.inr (by rw [hphase]; rfl))))).2 f hpin
      have hnone : s.written.find? f = none :=
        hheld ▸ OrdMap.contains_eq_false_iff.mp hfile
      exact .inl ((hi.dest_eq_none hnone).trans hnone.symm)
    · exact .inr ⟨(List.mem_erase_of_ne hrel).mpr hmem, hpin⟩
  | @copy pin todo rel hphase hfile =>
    rw [hphase] at hpast
    have hrel : rel ∈ todo := (hi.todo _ _ _ hphase).2 rel rfl
    have hne : rel ≠ .metaFile := fun he => hpast (he ▸ hrel)
    refine ⟨?_, h.committed, fun f hf => ?_, fun hm => hpast (List.mem_of_mem_erase hm)⟩
    · rw [IndexDir.metaJson_copyFrom, if_neg hne]
      exact h.metaJson
    · rw [IndexDir.find?_copyFrom]
      by_cases hf' : rel = .segmentFile f
      · subst hf'
        obtain ⟨b, hb⟩ := OrdMap.contains_eq_true_iff.mp hfile
        rw [if_pos rfl, hb]
        exact .inl (hi.files f b hb).symm
      · rw [if_neg hf']
        have hcov := h.files f hf
        rw [hphase] at hcov
        rcases hcov with hcov | ⟨hmem, hpin⟩
        · exact .inl hcov
        · exact .inr ⟨(List.mem_erase_of_ne (Ne.symm hf')).mpr hmem, hpin⟩
  | vanished hphase => exact ⟨h.metaJson, h.committed, fun f _ => .inr trivial, trivial⟩
  | finish hphase =>
    refine ⟨h.metaJson, h.committed, fun f hf => ?_, trivial⟩
    have hcov := h.files f hf
    rw [hphase] at hcov
    rcases hcov with hcov | ⟨hmem, _⟩
    · exact .inl hcov
    · contradiction

/-- The other threads leave the phase alone. -/
theorem State.phase_eq_of_step {a : Action σ} (hcheck : ∀ rel, a ≠ .check rel)
    (harchive : a ≠ .archive) (hstep : s.step a = some s') : s'.phase = s.phase := by
  cases a with
  | write name bytes =>
    rw [State.step] at hstep
    split at hstep
    · contradiction
    · injection hstep with hstep
      exact hstep ▸ rfl
  | manage bytes =>
    injection hstep with hstep
    exact hstep ▸ rfl
  | commit who m =>
    rw [State.step] at hstep
    split at hstep
    · contradiction
    split at hstep
    · injection hstep with hstep
      exact hstep ▸ rfl
    · contradiction
  | reload =>
    obtain ⟨_, _, rfl⟩ := Option.map_eq_some_iff.mp hstep
    rfl
  | collect name =>
    rw [State.step] at hstep
    split at hstep
    · contradiction
    · injection hstep with hstep
      exact hstep ▸ rfl
  | check rel => exact (hcheck rel rfl).elim
  | archive => exact (harchive rfl).elim

/-- The other threads keep what the archive has. -/
theorem State.Past.step (h : s.Past m) (hi : s.Inv) (a : Action σ) (hstep : s.step a = some s') :
    s'.Past m := by
  cases a with
  | write name bytes =>
    rw [State.step] at hstep
    split at hstep
    · contradiction
    rename_i hnew
    injection hstep with hstep
    subst hstep
    refine ⟨h.metaJson, h.committed, fun f hf => ?_, h.phase⟩
    have hfn : f ≠ name := by
      rintro rfl
      rw [Bool.or_eq_true, not_or] at hnew
      exact hnew.2 (List.any_eq_true.mpr ⟨m, h.committed, decide_eq_true hf⟩)
    rw [OrdMap.find?_insert_ne hfn]
    exact h.files f hf
  | manage bytes =>
    injection hstep with hstep
    subst hstep
    exact ⟨h.metaJson, h.committed, h.files, h.phase⟩
  | commit who m' =>
    rw [State.step] at hstep
    split at hstep
    · contradiction
    split at hstep
    · injection hstep with hstep
      subst hstep
      exact ⟨h.metaJson, List.mem_append_left _ h.committed, h.files, h.phase⟩
    · contradiction
  | reload =>
    obtain ⟨m', _, rfl⟩ := Option.map_eq_some_iff.mp hstep
    exact ⟨h.metaJson, h.committed, h.files, h.phase⟩
  | collect name =>
    rw [State.step] at hstep
    split at hstep
    · contradiction
    injection hstep with hstep
    subst hstep
    exact ⟨h.metaJson, h.committed, h.files, h.phase⟩
  | check rel => exact h.archives hi (State.archives_of_check hstep)
  | archive => exact h.archives hi (State.archives_of_archive hstep)

theorem State.Past.whole (h : s.Past m) (hdone : s.phase = .done) : s.Whole := by
  refine ⟨m, h.committed, h.metaJson, fun f hf => ?_⟩
  have hcov := h.files f hf
  rw [hdone] at hcov
  exact hcov.resolve_right id

/-! ## the copy of meta.json -/

/-- The states one may go on to. -/
def State.Leads (s s' : State σ) : Prop := ((system σ).startingAt s).Reach anyStep s'

theorem State.Leads.one {a : Action σ} (h : s.step a = some s') : s.Leads s' :=
  .step (.start rfl) a rfl h

theorem State.Leads.trans {s'' : State σ} (h : s.Leads s') (h' : s'.Leads s'') : s.Leads s'' :=
  System.Reach.trans h h'

/-- The copy of `meta.json`, where it is in place. -/
theorem State.step_copyMeta (hphase : s.phase = .copying pin todo (some .metaFile))
    (hmeta : s.dir.metaJson = some m) :
    s.step .archive = some { s with
      dest := { s.dest with metaJson := some m }
      phase := .copying pin (todo.erase .metaFile) none } := by
  have hfile : s.dir.hasFile .metaFile = true := by rw [IndexDir.hasFile, hmeta]; rfl
  rw [State.step, State.archive, hphase]
  dsimp only
  rw [if_pos hfile, IndexDir.copyFrom, hmeta]

/-- An archive that is left alone comes to its end, and copies no file that is
not on its list or not there. -/
theorem State.finishes (s : State σ) (hphase : s.phase = .copying pin todo none)
    (hmeta : .metaFile ∉ todo)
    (hf : .segmentFile f ∉ todo ∨ s.dir.files.find? f = none) :
    ∃ s', s.Leads s' ∧ s'.phase = .done ∧
      s'.dest.metaJson = s.dest.metaJson ∧ s'.dest.files.find? f = s.dest.files.find? f ∧
      s'.written = s.written := by
  induction todo generalizing s with
  | nil =>
    refine ⟨{ s with phase := .done }, .one (a := .archive) ?_, rfl, rfl, rfl, rfl⟩
    show s.archive = _
    rw [State.archive, hphase]
  | cons rel todo ih =>
    have hcheck : s.step (.check rel) =
        if s.dir.hasFile rel then some { s with phase := .copying pin (rel :: todo) (some rel) }
        else some { s with phase := .copying pin todo none } := by
      show s.check rel = _
      rw [State.check, hphase]
      dsimp only
      rw [if_pos List.mem_cons_self, List.erase_cons_head]
    have hmeta' : .metaFile ∉ todo := fun hm => hmeta (List.mem_cons_of_mem rel hm)
    have hf' : .segmentFile f ∉ todo ∨ s.dir.files.find? f = none :=
      hf.imp_left fun hn hm => hn (List.mem_cons_of_mem rel hm)
    by_cases hfile : s.dir.hasFile rel = true
    · rw [if_pos hfile] at hcheck
      have hcopy : State.step { s with phase := .copying pin (rel :: todo) (some rel) } .archive =
          some { s with
            dest := s.dest.copyFrom s.dir rel
            phase := .copying pin todo none } := by
        rw [State.step, State.archive]
        dsimp only
        rw [if_pos hfile, List.erase_cons_head]
      obtain ⟨s', hreach, hdone, hm, hd, hw⟩ := ih
        { s with dest := s.dest.copyFrom s.dir rel, phase := .copying pin todo none } rfl hmeta' hf'
      refine ⟨s', ?_, hdone, hm.trans ?_, hd.trans ?_, hw⟩
      · exact (State.Leads.one hcheck).trans ((State.Leads.one hcopy).trans hreach)
      · have hne : rel ≠ .metaFile := fun he => hmeta (he ▸ List.mem_cons_self)
        exact (IndexDir.metaJson_copyFrom _ _ _).trans (if_neg hne)
      · refine (IndexDir.find?_copyFrom _ _ _ _).trans ?_
        split
        · rename_i hrel
          rcases hf with hf | hf
          · exact (hf (hrel ▸ List.mem_cons_self)).elim
          · rw [hf]
            rfl
        · rfl
    · rw [if_neg hfile] at hcheck
      obtain ⟨s', hreach, hrest⟩ :=
        ih { s with phase := .copying pin todo none } rfl hmeta' hf'
      exact ⟨s', (State.Leads.one hcheck).trans hreach, hrest⟩

/-- A commit and a collection may take away a file that the pin does not
hold. -/
theorem State.loses (s : State σ) (hphase : s.phase = .copying pin todo none)
    (hf : f ∉ pin.names) :
    ∃ s', s.Leads s' ∧ s'.phase = s.phase ∧ s'.dest = s.dest ∧
      s'.written = s.written ∧ s'.dir.files.find? f = none := by
  let blank : IndexMeta σ := ⟨[], none⟩
  let s₁ : State σ := { s with
    dir := { s.dir with metaJson := some blank }
    commits := s.commits ++ [blank] }
  let s₂ : State σ := { s₁ with searcher := blank }
  let s₃ : State σ := { s₂ with dir := { s₂.dir with files := s₂.dir.files.erase f } }
  have h₁ : s.step (.commit .commitCollection blank) = some s₁ := by
    rw [State.step, if_neg (by simp), if_pos (by intro f hf; simp [blank, IndexMeta.names] at hf)]
  have h₂ : s₁.step .reload = some s₂ := rfl
  have h₃ : s₂.step (.collect f) = some s₃ := by
    have hfree : ¬ s₂.living.any (f ∈ ·.names) = true := by
      rw [List.any_eq_true]
      rintro ⟨m, hm, hfm⟩
      have hfm := of_decide_eq_true hfm
      rcases State.mem_living_iff.mp hm with hm | hm | hm
      · cases hm
        simp [blank, IndexMeta.names] at hfm
      · cases hm
        simp [s₂, blank, IndexMeta.names] at hfm
      · rw [hphase] at hm
        cases hm
        exact hf hfm
    rw [State.step, if_neg hfree]
  refine ⟨s₃, (State.Leads.one h₁).trans ((State.Leads.one h₂).trans (State.Leads.one h₃)),
    rfl, rfl, rfl, ?_⟩
  rw [OrdMap.find?_erase, if_pos rfl]

/-- Before the copy of `meta.json`, and behind one that was covered. -/
inductive State.Ahead (s : State σ) : Prop where
  | before (h : s.phase = .idle ∨ s.phase = .reloaded ∨ ∃ pin, s.phase = .pinned pin)
  | listed {pin : IndexMeta σ} {todo : List RelPath} {checked : Option RelPath}
      (h : s.phase = .copying pin todo checked) (hmeta : .metaFile ∈ todo)
  | failed {e : Error} (h : s.phase = .failed e)
  | past {m : IndexMeta σ} (h : s.Past m)

/-- A covered copy of `meta.json` gives the archive its commit. -/
theorem State.Inv.past (hi : s.Inv) (hphase : s.phase = .copying pin todo (some .metaFile))
    (hcov : s.MetaCovered pin todo) (hmeta : s.dir.metaJson = some m) :
    State.Past { s with
      dest := { s.dest with metaJson := some m }
      phase := .copying pin (todo.erase .metaFile) none } m := by
  obtain ⟨hcommitted, _⟩ := hi.living m (State.mem_living_iff.mpr (.inl hmeta))
  refine ⟨rfl, hcommitted, fun f hf => ?_, (hi.todo _ _ _ hphase).1.not_mem_erase⟩
  by_cases hw : s.written.contains f = true
  · rcases hcov m hmeta f hf hw with hc | ⟨ht, hp⟩
    · obtain ⟨b, hb⟩ := OrdMap.contains_eq_true_iff.mp hc
      exact .inl (hb.trans (hi.copied f b hb).symm)
    · exact .inr ⟨(List.mem_erase_of_ne (by simp)).mpr ht, hp⟩
  · have hw := OrdMap.contains_eq_false_iff.mp (Bool.eq_false_iff.mpr hw)
    exact .inl ((hi.dest_eq_none hw).trans hw.symm)

theorem State.Past.of_leads (h : s.Past m) (hi : s.Inv) (hleads : s.Leads s') : s'.Past m := by
  have hboth : s'.Inv ∧ s'.Past m := by
    refine System.Reach.invariant (I := fun x => x.Inv ∧ x.Past m) hleads ?_ ?_
    · rintro _ rfl
      exact ⟨hi, h⟩
    · intro _ a _ hI _ hs
      exact ⟨hI.1.step a hs, hI.2.step hI.1 a hs⟩
  exact hboth.2

/-- A file of the commit that is neither copied nor held may be missing in the
end. -/
theorem State.Inv.not_whole (hi : s.Inv)
    (hphase : s.phase = .copying pin todo (some .metaFile)) (hmeta : s.dir.metaJson = some m)
    (hf : f ∈ m.names) (hw : s.written.contains f = true)
    (hcopied : s.dest.files.find? f = none)
    (hclaim : ¬ (.segmentFile f ∈ todo ∧ f ∈ pin.names)) {s₁ : State σ}
    (hstep : s.step .archive = some s₁) :
    ∃ s', s₁.Leads s' ∧ s'.phase = .done ∧ ¬ s'.Whole := by
  obtain ⟨b, hb⟩ := OrdMap.contains_eq_true_iff.mp hw
  have hpast : .metaFile ∉ todo.erase .metaFile := (hi.todo _ _ _ hphase).1.not_mem_erase
  rw [State.step_copyMeta hphase hmeta] at hstep
  injection hstep with hstep
  have hphase₁ : s₁.phase = .copying pin (todo.erase .metaFile) none := hstep ▸ rfl
  have hdest₁ : s₁.dest = { s.dest with metaJson := some m } := hstep ▸ rfl
  have hwritten₁ : s₁.written = s.written := hstep ▸ rfl
  -- the archive ends with this meta.json and without the file
  have hend : ∀ s' : State σ, s'.dest.metaJson = s₁.dest.metaJson →
      s'.dest.files.find? f = s₁.dest.files.find? f → s'.written = s₁.written → ¬ s'.Whole := by
    rintro s' hm hd hwritten ⟨m', _, hm', hall⟩
    rw [hm, hdest₁] at hm'
    obtain rfl : m = m' := Option.some.inj hm'
    have hall := hall f hf
    rw [hd, hdest₁, hwritten, hwritten₁, hb] at hall
    rw [hcopied] at hall
    contradiction
  by_cases htodo : .segmentFile f ∈ todo
  · obtain ⟨s₂, hleads₂, hphase₂, hdest₂, hwritten₂, hfile₂⟩ :=
      State.loses s₁ hphase₁ fun hp => hclaim ⟨htodo, hp⟩
    obtain ⟨s₃, hleads₃, hdone, hm₃, hd₃, hw₃⟩ :=
      State.finishes s₂ (hphase₂.trans hphase₁) hpast (.inr hfile₂)
    refine ⟨s₃, hleads₂.trans hleads₃, hdone, hend s₃ ?_ ?_ (hw₃.trans hwritten₂)⟩
    · rw [hm₃, hdest₂]
    · rw [hd₃, hdest₂]
  · obtain ⟨s₃, hleads₃, hdone, hm₃, hd₃, hw₃⟩ :=
      State.finishes s₁ hphase₁ hpast (.inl fun hm => htodo (List.mem_of_mem_erase hm))
    exact ⟨s₃, hleads₃, hdone, hend s₃ hm₃ hd₃ hw₃⟩

/-- The phases of the archive go through the copy of `meta.json`. -/
theorem State.Ahead.archives (h : s.Ahead) (hi : s.Inv)
    (hcov : ∀ pin todo, s.phase = .copying pin todo (some .metaFile) → s.MetaCovered pin todo)
    (hstep : s.Archives s') : s'.Ahead := by
  obtain ⟨m, hmeta⟩ := hi.current
  cases h with
  | past h => exact .past (h.archives hi hstep)
  | failed h => cases hstep <;> simp_all
  | before h =>
    cases hstep with
    | reload => exact .before (.inr (.inl rfl))
    | pin => exact .before (.inr (.inr ⟨_, rfl⟩))
    | load => exact .listed rfl (by simp [IndexMeta.archived])
    | _ => simp_all
  | @listed pin todo checked h hmem =>
    cases hstep with
    | found hphase hrel hfile =>
      rw [h] at hphase
      cases hphase
      exact .listed rfl hmem
    | @missing _ _ rel hphase hfile =>
      rw [h] at hphase
      cases hphase
      have hne : .metaFile ≠ rel := by
        rintro rfl
        rw [IndexDir.hasFile, hmeta] at hfile
        contradiction
      exact .listed rfl ((List.mem_erase_of_ne hne).mpr hmem)
    | @copy _ _ rel hphase hfile =>
      rw [h] at hphase
      cases hphase
      by_cases hne : .metaFile = rel
      · subst hne
        have hpast := hi.past h (hcov _ _ h) hmeta
        refine .past (m := m) ?_
        rw [IndexDir.copyFrom, hmeta]
        exact hpast
      · exact .listed rfl ((List.mem_erase_of_ne hne).mpr hmem)
    | vanished => exact .failed rfl
    | finish hphase =>
      rw [h] at hphase
      cases hphase
      contradiction
    | _ => simp_all

theorem State.Ahead.step (h : s.Ahead) (hi : s.Inv) (a : Action σ) (hok : coversMeta s a = true)
    (hstep : s.step a = some s') : s'.Ahead := by
  -- the other threads leave the phase alone
  have hother : s'.phase = s.phase → s'.Ahead := by
    intro hphase
    cases h with
    | before h => exact .before (by rwa [hphase])
    | listed h hmeta => exact .listed (hphase.trans h) hmeta
    | failed h => exact .failed (hphase.trans h)
    | past h => exact .past (h.step hi a hstep)
  cases a with
  | check rel =>
    refine h.archives hi (fun pin todo hphase => ?_) (State.archives_of_check hstep)
    rw [State.step, State.check, hphase] at hstep
    contradiction
  | archive =>
    refine h.archives hi (fun pin todo hphase => ?_) (State.archives_of_archive hstep)
    rw [coversMeta, hphase] at hok
    exact of_decide_eq_true hok
  | write name bytes => exact hother (State.phase_eq_of_step (by simp) (by simp) hstep)
  | manage bytes => exact hother (State.phase_eq_of_step (by simp) (by simp) hstep)
  | commit who info => exact hother (State.phase_eq_of_step (by simp) (by simp) hstep)
  | reload => exact hother (State.phase_eq_of_step (by simp) (by simp) hstep)
  | collect name => exact hother (State.phase_eq_of_step (by simp) (by simp) hstep)

theorem State.Ahead.whole (h : s.Ahead) (hdone : s.phase = .done) : s.Whole := by
  cases h with
  | before h => simp [hdone] at h
  | listed h => simp [hdone] at h
  | failed h => simp [hdone] at h
  | past h => exact h.whole hdone

/-- **When an archive is self-consistent.**  In every interleaving whose copy
of `meta.json` is covered, the archive that comes out shows one whole commit:
the existing files of the segments this `meta.json` names are copied already,
or are still on the list and held by the pin.  And where the copy is not
covered, the interleaving can go on to an archive that is not whole. -/
theorem archive_whole_iff :
    (∀ s : State σ, (system σ).Reach coversMeta s → s.phase = .done → s.Whole) ∧
      ∀ (s s₁ : State σ) (pin : IndexMeta σ) (todo : List RelPath), (system σ).Reach anyStep s →
        s.phase = .copying pin todo (some .metaFile) → s.step .archive = some s₁ →
        ((∀ s', s₁.Leads s' → s'.phase = .done → s'.Whole) ↔ s.MetaCovered pin todo) := by
  constructor
  · intro s h hdone
    have hboth : s.Inv ∧ s.Ahead := by
      refine System.Reach.invariant (I := fun x => x.Inv ∧ x.Ahead) h ?_ ?_
      · exact fun x hx => ⟨hx.inv, .before (.inl hx.2.1)⟩
      · exact fun _ a _ hI hok hs => ⟨hI.1.step a hs, hI.2.step hI.1 a hok hs⟩
    exact hboth.2.whole hdone
  · intro s s₁ pin todo h hphase hstep
    have hi := State.Inv.of_reach h
    obtain ⟨m, hmeta⟩ := hi.current
    constructor
    · intro hall m' hm' f hf hw
      by_contra hcov
      rw [not_or, Bool.not_eq_true, OrdMap.contains_eq_false_iff] at hcov
      obtain ⟨s', hleads, hdone, hnot⟩ :=
        hi.not_whole hphase hm' hf hw hcov.1 hcov.2 hstep
      exact hnot (hall s' hleads hdone)
    · intro hcov s' hleads hdone
      have hi₁ := hi.step _ hstep
      rw [State.step_copyMeta hphase hmeta] at hstep
      injection hstep with hstep
      have hpast : s₁.Past m := hstep ▸ hi.past hphase hcov hmeta
      exact (hpast.of_leads hi₁ hleads).whole hdone

/-! ## undisturbed archives -/

/-- No commit while an archive is under way. -/
def undisturbed (s : State σ) : Action σ → Bool
  | .commit _ _ => !s.phase.locksMap
  | _ => true

/-- The archive works on the current commit: what it has not copied is still on
its list. -/
def State.OnCurrent (s : State σ) : Prop :=
  match s.phase with
  | .reloaded => s.dir.metaJson = some s.searcher
  | .pinned pin => s.dir.metaJson = some pin
  | .copying pin todo _ => s.dir.metaJson = some pin ∧ ∀ f ∈ pin.names,
      s.written.contains f = true → s.dest.files.contains f = true ∨ .segmentFile f ∈ todo
  | _ => True

theorem State.onCurrent_of_unlocked (h : s.phase.locksMap = false) :
    s.OnCurrent := by
  rw [State.OnCurrent]
  cases hphase : s.phase with
  | idle => trivial
  | done => trivial
  | failed e => trivial
  | _ => rw [hphase] at h; contradiction

theorem State.OnCurrent.covered (h : s.OnCurrent)
    (hphase : s.phase = .copying pin todo (some .metaFile)) : s.MetaCovered pin todo := by
  rw [State.OnCurrent, hphase] at h
  intro m hm f hf hw
  rw [h.1, Option.some.injEq] at hm
  subst hm
  exact (h.2 f hf hw).imp_right fun ht => ⟨ht, hf⟩

theorem State.OnCurrent.archives (h : s.OnCurrent) (hi : s.Inv) (hstep : s.Archives s') :
    s'.OnCurrent := by
  rw [State.OnCurrent] at h
  cases hstep with
  | reload hphase hmeta => exact hmeta
  | pin hphase =>
    rw [hphase] at h
    exact h
  | load hphase hmeta =>
    rw [hphase] at h
    obtain rfl := Option.some.inj (h.symm.trans hmeta)
    exact ⟨hmeta, fun f hf _ => .inr (by simp [IndexMeta.archived, hf])⟩
  | found hphase hrel hfile =>
    rw [hphase] at h
    exact h
  | @missing pin todo rel hphase hfile =>
    rw [hphase] at h
    refine ⟨h.1, fun f hf hw => (h.2 f hf hw).imp_right fun ht => ?_⟩
    refine (List.mem_erase_of_ne fun hrel => ?_).mpr ht
    -- the current commit's files are all there
    subst hrel
    have hheld := (hi.living pin (State.mem_living_iff.mpr (.inl h.1))).2 f hf
    rw [IndexDir.hasFile, OrdMap.contains_eq_false_iff, hheld,
      ← OrdMap.contains_eq_false_iff] at hfile
    rw [hfile] at hw
    contradiction
  | @copy pin todo rel hphase hfile =>
    rw [hphase] at h
    refine ⟨h.1, fun f hf hw => ?_⟩
    rw [OrdMap.contains_eq_true_iff, IndexDir.find?_copyFrom]
    by_cases hrel : rel = .segmentFile f
    · subst hrel
      obtain ⟨b, hb⟩ := OrdMap.contains_eq_true_iff.mp hfile
      exact .inl ⟨b, by rw [if_pos rfl, hb]; rfl⟩
    · rw [if_neg hrel, ← OrdMap.contains_eq_true_iff]
      exact (h.2 f hf hw).imp_right fun ht => (List.mem_erase_of_ne (Ne.symm hrel)).mpr ht
  | vanished hphase => trivial
  | finish hphase => trivial

theorem State.OnCurrent.step (h : s.OnCurrent) (hi : s.Inv) (a : Action σ)
    (hok : undisturbed s a = true) (hstep : s.step a = some s') : s'.OnCurrent := by
  cases a with
  | write name bytes =>
    rw [State.step] at hstep
    split at hstep
    · contradiction
    rename_i hnew
    injection hstep with hstep
    subst hstep
    rw [Bool.or_eq_true, not_or] at hnew
    rw [State.OnCurrent] at h ⊢
    dsimp only
    split
    · rename_i hphase
      rwa [hphase] at h
    · rename_i hphase
      rwa [hphase] at h
    · rename_i hphase
      rw [hphase] at h
      refine ⟨h.1, fun f hf hw => h.2 f hf ?_⟩
      have hc := (hi.living _ (State.mem_living_iff.mpr (.inl h.1))).1
      have hfn : f ≠ name := by
        rintro rfl
        exact hnew.2 (List.any_eq_true.mpr ⟨_, hc, decide_eq_true hf⟩)
      rw [OrdMap.contains_eq_true_iff, OrdMap.find?_insert_ne hfn] at hw
      exact OrdMap.contains_eq_true_iff.mpr hw
    · trivial
  | manage bytes =>
    injection hstep with hstep
    subst hstep
    exact h
  | commit who m =>
    rw [undisturbed, Bool.not_eq_true'] at hok
    have hphase := State.phase_eq_of_step (by simp) (by simp) hstep
    exact State.onCurrent_of_unlocked (by rw [hphase]; exact hok)
  | reload =>
    obtain ⟨m, hmeta, rfl⟩ := Option.map_eq_some_iff.mp hstep
    rw [State.OnCurrent] at h ⊢
    dsimp only
    split
    · exact hmeta
    · rename_i hphase
      rwa [hphase] at h
    · rename_i hphase
      rwa [hphase] at h
    · trivial
  | collect name =>
    rw [State.step] at hstep
    split at hstep
    · contradiction
    injection hstep with hstep
    subst hstep
    exact h
  | check rel => exact h.archives hi (State.archives_of_check hstep)
  | archive => exact h.archives hi (State.archives_of_archive hstep)

/-- An archive that no commit disturbs copies a `meta.json` that is covered. -/
theorem undisturbed_coversMeta (h : (system σ).Reach undisturbed s) :
    (system σ).Reach coversMeta s := by
  suffices hboth : (system σ).Reach coversMeta s ∧ s.Inv ∧ s.OnCurrent from hboth.1
  induction h with
  | start h =>
    refine ⟨.start h, State.Opened.inv h, ?_⟩
    rw [State.OnCurrent, h.2.1]
    trivial
  | step prev a hok hstep ih =>
    obtain ⟨hreach, hi, hcur⟩ := ih
    refine ⟨hreach.step a ?_ hstep, hi.step a hstep, hcur.step hi a hok hstep⟩
    cases a with
    | archive =>
      rw [coversMeta]
      split
      · rename_i hphase
        exact decide_eq_true (hcur.covered hphase)
      · rfl
    | _ => rfl

/-! ## a commit between the list and the copy -/

section

/-- Segments by number, each with its document store. -/
instance storeOnly : SegmentFiles Nat where
  listFiles n := [toString n ++ ".store"]

/-- An index with one segment. -/
def oneSegment : State Nat :=
  let files : OrdMap String Bytes := (∅ : OrdMap String Bytes).insert "1.store" [1]
  ⟨⟨some ⟨[1], none⟩, none, files⟩, ⟨[1], none⟩, .idle, .empty, files, [⟨[1], none⟩]⟩

/-- A read's commit of a second segment. -/
def secondSegment : List (Action Nat) :=
  [.write "2.store" [2], .commit .commitCollection ⟨[1, 2], some ⟨1, 1, 7⟩⟩]

/-- Reload, pin and list. -/
def listing : List (Action Nat) := [.archive, .archive, .archive]

/-- The copies, `meta.json` first. -/
def copying : List (Action Nat) :=
  [.check .metaFile, .archive, .check .managedFile, .check (.segmentFile "1.store"), .archive,
    .archive]

instance [DecidableEq σ] (s : State σ) : Decidable s.Whole :=
  inferInstanceAs (Decidable (∃ m ∈ s.commits, s.dest.metaJson = some m ∧
    ∀ f ∈ m.names, s.dest.files.find? f = s.written.find? f))

theorem oneSegment_opened : oneSegment.Opened := ⟨rfl, rfl, rfl, rfl, rfl⟩

/-- An archive that nothing disturbs, and one whose index was committed to just
before: from the copy of its `meta.json` on, nothing can break it. -/
theorem archive_whole_iff_secondSegment :
    (∃ s, (system Nat).Reach coversMeta s ∧ s.phase = .done ∧ s.Whole) ∧
      ∃ s s₁ pin todo, (system Nat).Reach anyStep s ∧
        s.phase = .copying pin todo (some .metaFile) ∧ s.step .archive = some s₁ ∧
        ∀ s', s₁.Leads s' → s'.phase = .done → s'.Whole := by
  constructor
  · obtain ⟨s, hs, hdone⟩ : ∃ s,
        (system Nat).exec coversMeta oneSegment (listing ++ copying) = some s ∧ s.phase = .done :=
      ⟨_, rfl, rfl⟩
    have hreach := System.Reach.exec (.start oneSegment_opened) hs
    exact ⟨s, hreach, hdone, archive_whole_iff.1 s hreach hdone⟩
  · obtain ⟨s, s₁, hs, hphase, hstep⟩ : ∃ s s₁,
        (system Nat).exec anyStep oneSegment (secondSegment ++ listing ++ [.check .metaFile]) =
          some s ∧
        s.phase = .copying ⟨[1, 2], some ⟨1, 1, 7⟩⟩ (IndexMeta.archived ⟨[1, 2], none⟩)
          (some .metaFile) ∧ s.step .archive = some s₁ :=
      ⟨_, _, rfl, rfl, rfl⟩
    have hreach := System.Reach.exec (.start oneSegment_opened) hs
    have hcov : s.MetaCovered ⟨[1, 2], some ⟨1, 1, 7⟩⟩ (IndexMeta.archived ⟨[1, 2], none⟩) := by
      cases hs
      decide +kernel
    exact ⟨s, s₁, _, _, hreach, hphase, hstep,
      (archive_whole_iff.2 s s₁ _ _ hreach hphase hstep).mpr hcov⟩

/-- A read commits a new segment between `load_metas` and the copy of
`meta.json`: the archive names a segment it has no file of. -/
theorem archive_misses_segment :
    ∃ s, (system Nat).Reach anyStep s ∧ s.phase = .done ∧
      s.dest.metaJson = some ⟨[1, 2], some ⟨1, 1, 7⟩⟩ ∧
      s.dir.files.contains "2.store" = true ∧ s.dest.files.contains "2.store" = false ∧
      ¬ s.Whole := by
  obtain ⟨s, hs, hp⟩ : ∃ s,
      (system Nat).exec anyStep oneSegment (listing ++ secondSegment ++ copying) = some s ∧
      s.phase = .done ∧ s.dest.metaJson = some ⟨[1, 2], some ⟨1, 1, 7⟩⟩ ∧
      s.dir.files.contains "2.store" = true ∧ s.dest.files.contains "2.store" = false ∧
      ¬ s.Whole :=
    ⟨_, rfl, by decide +kernel⟩
  exact ⟨s, System.Reach.exec (.start oneSegment_opened) hs, hp⟩

end

end Lumen.Archiving
