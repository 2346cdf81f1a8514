import Lumen.StateMachine

/-!
# Lumen.Raft.Rpc

The requests and responses of the Raft service and their protobuf forms, the
rest of `conversions.rs`.  Every conversion returns the value it was given after
the way to protobuf and back, and refuses a message exactly when a sub-message it
requires is absent, at any depth (`Lossless`).

`missing` lists the required sub-messages a message lacks, in the order the
conversion reads them.  The rules `lacking_*` compose with the code: one for each
way a conversion reads a field.
-/

namespace Lumen

open Raft

namespace Raft

structure VoteRequest where
  vote : Vote
  lastLogId : Option LogId
  deriving DecidableEq, Repr

structure VoteResponse where
  vote : Vote
  voteGranted : Bool
  lastLogId : Option LogId
  deriving DecidableEq, Repr

structure AppendEntriesRequest where
  vote : Vote
  prevLogId : Option LogId
  entries : List Entry
  leaderCommit : Option LogId
  deriving DecidableEq

inductive AppendEntriesResponse where
  | success
  | partialSuccess (matching : Option LogId)
  | conflict
  | higherVote (vote : Vote)
  deriving DecidableEq, Repr

structure SnapshotResponse where
  vote : Vote
  deriving DecidableEq, Repr

end Raft

/-! ## conversions -/

namespace SnapshotMeta

def toProto (m : SnapshotMeta) : Proto.SnapshotMeta :=
  ⟨m.lastLogId.map LogId.toProto, some m.lastMembership.toProto, m.snapshotId⟩

def tryFrom (m : Proto.SnapshotMeta) : Except ConversionError SnapshotMeta := do
  let lastLogId ← tryOption LogId.tryFrom m.lastLogId
  let lastMembership ← require m.lastMembership "SnapshotMeta.last_membership"
  let lastMembership ← StoredMembership.tryFrom lastMembership
  .ok ⟨lastLogId, lastMembership, m.snapshotId⟩

@[simp] theorem tryFrom_toProto (m : SnapshotMeta) : tryFrom m.toProto = .ok m := by
  simp only [tryFrom, toProto, tryOption_map LogId.tryFrom_toProto, require, bind, Except.bind,
    StoredMembership.tryFrom_toProto]

end SnapshotMeta

namespace Raft

namespace VoteRequest

def toProto (r : VoteRequest) : Proto.VoteRequest :=
  ⟨some r.vote.toProto, r.lastLogId.map LogId.toProto⟩

def tryFrom (r : Proto.VoteRequest) : Except ConversionError VoteRequest := do
  let vote ← require r.vote "VoteRequest.vote"
  let vote ← Vote.tryFrom vote
  let lastLogId ← tryOption LogId.tryFrom r.lastLogId
  .ok ⟨vote, lastLogId⟩

@[simp] theorem tryFrom_toProto (r : VoteRequest) : tryFrom r.toProto = .ok r := by
  simp only [tryFrom, toProto, tryOption_map LogId.tryFrom_toProto, require, bind, Except.bind,
    Vote.tryFrom_toProto]

end VoteRequest

namespace VoteResponse

def toProto (r : VoteResponse) : Proto.VoteResponse :=
  ⟨some r.vote.toProto, r.voteGranted, r.lastLogId.map LogId.toProto⟩

def tryFrom (r : Proto.VoteResponse) : Except ConversionError VoteResponse := do
  let vote ← require r.vote "VoteResponse.vote"
  let vote ← Vote.tryFrom vote
  let lastLogId ← tryOption LogId.tryFrom r.lastLogId
  .ok ⟨vote, r.voteGranted, lastLogId⟩

@[simp] theorem tryFrom_toProto (r : VoteResponse) : tryFrom r.toProto = .ok r := by
  simp only [tryFrom, toProto, tryOption_map LogId.tryFrom_toProto, require, bind, Except.bind,
    Vote.tryFrom_toProto]

end VoteResponse

theorem mapM_map_eq_ok {f : β → Except ε α} {g : α → β} (h : ∀ a, f (g a) = .ok a)
    (xs : List α) : (xs.map g).mapM f = .ok xs := by
  induction xs with
  | nil => rfl
  | cons x xs ih => rw [List.map_cons, List.mapM_cons, h, ih]; rfl

namespace AppendEntriesRequest

def toProto (r : AppendEntriesRequest) : Proto.AppendEntriesRequest :=
  ⟨some r.vote.toProto, r.prevLogId.map LogId.toProto, r.entries.map Entry.toProto,
    r.leaderCommit.map LogId.toProto⟩

/-- The entries are converted before the vote is required. -/
def tryFrom (r : Proto.AppendEntriesRequest) : Except ConversionError AppendEntriesRequest := do
  let entries ← r.entries.mapM Entry.tryFrom
  let vote ← require r.vote "AppendEntriesRequest.vote"
  let vote ← Vote.tryFrom vote
  let prevLogId ← tryOption LogId.tryFrom r.prevLogId
  let leaderCommit ← tryOption LogId.tryFrom r.leaderCommit
  .ok ⟨vote, prevLogId, entries, leaderCommit⟩

@[simp] theorem tryFrom_toProto (r : AppendEntriesRequest) : tryFrom r.toProto = .ok r := by
  simp only [tryFrom, toProto, mapM_map_eq_ok Entry.tryFrom_toProto,
    tryOption_map LogId.tryFrom_toProto, require, bind, Except.bind, Vote.tryFrom_toProto]

end AppendEntriesRequest

namespace AppendEntriesResponse

def toProto (r : AppendEntriesResponse) : Proto.AppendEntriesResponse :=
  ⟨some (match r with
    | success => .success
    | partialSuccess matching => .partialSuccess ⟨matching.map LogId.toProto⟩
    | conflict => .conflict
    | higherVote vote => .higherVote vote.toProto)⟩

def tryFrom (r : Proto.AppendEntriesResponse) : Except ConversionError AppendEntriesResponse := do
  let result ← require r.result "AppendEntriesResponse.result"
  match result with
  | .success => .ok success
  | .partialSuccess part => do
    let matching ← tryOption LogId.tryFrom part.matching
    .ok (partialSuccess matching)
  | .conflict => .ok conflict
  | .higherVote vote => do
    let vote ← Vote.tryFrom vote
    .ok (higherVote vote)

@[simp] theorem tryFrom_toProto (r : AppendEntriesResponse) : tryFrom r.toProto = .ok r := by
  cases r <;>
    simp only [tryFrom, toProto, tryOption_map LogId.tryFrom_toProto, require, bind, Except.bind,
      Vote.tryFrom_toProto]

end AppendEntriesResponse

namespace SnapshotResponse

def toProto (r : SnapshotResponse) : Proto.SnapshotResponse := ⟨some r.vote.toProto⟩

def tryFrom (r : Proto.SnapshotResponse) : Except ConversionError SnapshotResponse := do
  let vote ← require r.vote "SnapshotResponse.vote"
  let vote ← Vote.tryFrom vote
  .ok ⟨vote⟩

@[simp] theorem tryFrom_toProto (r : SnapshotResponse) : tryFrom r.toProto = .ok r := rfl

end SnapshotResponse

end Raft

/-! ## required sub-messages -/

namespace Proto

/-- What a required sub-message lacks: itself if it is absent. -/
def required (field : String) (within : α → List String) : Option α → List String
  | none => [field]
  | some a => within a

/-- What an optional sub-message lacks: nothing if it is absent. -/
def whenPresent (within : α → List String) : Option α → List String
  | none => []
  | some a => within a

/-- A sub-message that requires nothing itself. -/
def plain (_ : α) : List String := []

def Vote.missing (v : Vote) : List String := required "Vote.leader_id" plain v.leaderId

def LogId.missing (l : LogId) : List String := required "LogId.leader_id" plain l.leaderId

def StoredMembership.missing (s : StoredMembership) : List String :=
  whenPresent LogId.missing s.logId ++ required "StoredMembership.membership" plain s.membership

def SnapshotMeta.missing (m : SnapshotMeta) : List String :=
  whenPresent LogId.missing m.lastLogId ++
    required "SnapshotMeta.last_membership" StoredMembership.missing m.lastMembership

def Entry.missing (e : Entry) : List String :=
  required "Entry.log_id" LogId.missing e.logId ++ required "Entry.payload" plain e.payload

def VoteRequest.missing (r : VoteRequest) : List String :=
  required "VoteRequest.vote" Vote.missing r.vote ++ whenPresent LogId.missing r.lastLogId

def VoteResponse.missing (r : VoteResponse) : List String :=
  required "VoteResponse.vote" Vote.missing r.vote ++ whenPresent LogId.missing r.lastLogId

def AppendEntriesRequest.missing (r : AppendEntriesRequest) : List String :=
  r.entries.flatMap Entry.missing ++
    (required "AppendEntriesRequest.vote" Vote.missing r.vote ++
      (whenPresent LogId.missing r.prevLogId ++ whenPresent LogId.missing r.leaderCommit))

def AppendResult.missing : AppendResult → List String
  | success => []
  | partialSuccess part => whenPresent LogId.missing part.matching
  | conflict => []
  | higherVote vote => vote.missing

def AppendEntriesResponse.missing (r : AppendEntriesResponse) : List String :=
  required "AppendEntriesResponse.result" AppendResult.missing r.result

def SnapshotResponse.missing (r : SnapshotResponse) : List String :=
  required "SnapshotResponse.vote" Vote.missing r.vote

end Proto

namespace Raft

open Proto (required whenPresent plain)

/-- The field a failed conversion names. -/
def lacking : Except ConversionError α → Option String
  | .ok _ => none
  | .error e => some e.field

/-- `f` names the first of the required sub-messages that are missing. -/
def Names (f : β → Except ConversionError α) (missing : β → List String) : Prop :=
  ∀ p, lacking (f p) = (missing p).head?

@[simp] theorem lacking_map (g : α → β) (x : Except ConversionError α) :
    lacking (x >>= fun a => .ok (g a)) = lacking x := by
  cases x <;> rfl

/-- One step after the other: the second is reached when nothing is missing
from what the first reads. -/
theorem lacking_bind {x : Except ConversionError α} {f : α → Except ConversionError β}
    {xs ys : List String} (hx : lacking x = xs.head?) (hf : ∀ a, lacking (f a) = ys.head?) :
    lacking (x >>= f) = (xs ++ ys).head? := by
  cases x with
  | ok a =>
    have hnil : xs = [] := List.head?_eq_none_iff.mp hx.symm
    rw [hnil, List.nil_append]
    exact hf a
  | error e => rw [List.head?_append, ← hx]; rfl

theorem lacking_require (o : Option α) (field : String) :
    lacking (require o field) = (required field plain o).head? := by
  cases o <;> rfl

/-- A required sub-message, converted by `f`. -/
theorem lacking_required {f : α → Except ConversionError β} {within : α → List String}
    (hf : Names f within) (o : Option α) (field : String) :
    lacking (require o field >>= f) = (required field within o).head? := by
  cases o with
  | none => rfl
  | some a => exact hf a

/-- An optional sub-message, converted by `f`. -/
theorem lacking_optional {f : α → Except ConversionError β} {within : α → List String}
    (hf : Names f within) (o : Option α) :
    lacking (tryOption f o) = (whenPresent within o).head? := by
  cases o with
  | none => rfl
  | some a =>
    have h := hf a
    rw [tryOption, whenPresent, ← h]
    cases f a <;> rfl

/-- A repeated sub-message, converted by `f`. -/
theorem lacking_mapM {f : α → Except ConversionError β} {within : α → List String}
    (hf : Names f within) (xs : List α) :
    lacking (xs.mapM f) = (xs.flatMap within).head? := by
  induction xs with
  | nil => rfl
  | cons x xs ih =>
    rw [List.mapM_cons, List.flatMap_cons]
    exact lacking_bind (hf x) fun b => (lacking_map (b :: ·) (xs.mapM f)).trans ih

theorem Vote.names : Names Vote.tryFrom Proto.Vote.missing := fun v =>
  (lacking_map _ _).trans (lacking_require v.leaderId _)

theorem LogId.names : Names LogId.tryFrom Proto.LogId.missing := fun l =>
  (lacking_map _ _).trans (lacking_require l.leaderId _)

theorem StoredMembership.names :
    Names StoredMembership.tryFrom Proto.StoredMembership.missing := fun s =>
  lacking_bind (lacking_optional LogId.names s.logId) fun _ =>
    (lacking_map _ _).trans (lacking_require s.membership _)

theorem Entry.names : Names Entry.tryFrom Proto.Entry.missing := fun e => by
  rw [Entry.tryFrom, ← bind_assoc]
  exact lacking_bind (lacking_required LogId.names e.logId _) fun _ =>
    (lacking_map _ _).trans (lacking_require e.payload _)

theorem VoteRequest.names : Names VoteRequest.tryFrom Proto.VoteRequest.missing := fun r => by
  rw [VoteRequest.tryFrom, ← bind_assoc]
  exact lacking_bind (lacking_required Vote.names r.vote _) fun _ =>
    (lacking_map _ _).trans (lacking_optional LogId.names r.lastLogId)

theorem VoteResponse.names : Names VoteResponse.tryFrom Proto.VoteResponse.missing := fun r => by
  rw [VoteResponse.tryFrom, ← bind_assoc]
  exact lacking_bind (lacking_required Vote.names r.vote _) fun _ =>
    (lacking_map _ _).trans (lacking_optional LogId.names r.lastLogId)

theorem AppendEntriesRequest.names :
    Names AppendEntriesRequest.tryFrom Proto.AppendEntriesRequest.missing := fun r =>
  lacking_bind (lacking_mapM Entry.names r.entries) fun _ => by
    rw [← bind_assoc]
    exact lacking_bind (lacking_required Vote.names r.vote _) fun _ =>
      lacking_bind (lacking_optional LogId.names r.prevLogId) fun _ =>
        (lacking_map _ _).trans (lacking_optional LogId.names r.leaderCommit)

theorem AppendEntriesResponse.names :
    Names AppendEntriesResponse.tryFrom Proto.AppendEntriesResponse.missing := fun r =>
  lacking_required (fun result => by
    cases result with
    | success => rfl
    | partialSuccess part =>
      exact (lacking_map _ _).trans (lacking_optional LogId.names part.matching)
    | conflict => rfl
    | higherVote vote => exact (lacking_map _ _).trans (Vote.names vote)) r.result _

theorem SnapshotResponse.names :
    Names SnapshotResponse.tryFrom Proto.SnapshotResponse.missing := fun r => by
  rw [SnapshotResponse.tryFrom, ← bind_assoc]
  exact (lacking_map _ _).trans (lacking_required Vote.names r.vote _)

end Raft

theorem SnapshotMeta.names : Names SnapshotMeta.tryFrom Proto.SnapshotMeta.missing := fun m =>
  lacking_bind (lacking_optional LogId.names m.lastLogId) fun _ => by
    rw [← bind_assoc]
    exact (lacking_map _ _).trans (lacking_required StoredMembership.names m.lastMembership _)

/-! ## the two directions together -/

/-- Nothing is lost on the way to protobuf and back, and what comes back is
refused exactly when a required sub-message is missing; the error names the first
of them. -/
structure Lossless (toProto : α → β) (tryFrom : β → Except ConversionError α)
    (missing : β → List String) : Prop where
  roundTrip : ∀ a, tryFrom (toProto a) = .ok a
  fails_iff : ∀ p, (∃ e, tryFrom p = .error e) ↔ missing p ≠ []
  named : ∀ p e, tryFrom p = .error e → (missing p).head? = some e.field

theorem Raft.Names.lossless {toProto : α → β} {tryFrom : β → Except ConversionError α}
    {missing : β → List String} (h : Names tryFrom missing)
    (hround : ∀ a, tryFrom (toProto a) = .ok a) : Lossless toProto tryFrom missing where
  roundTrip := hround
  fails_iff p := by
    have hp := h p
    cases hf : tryFrom p with
    | ok a =>
      have hnil : missing p = [] := List.head?_eq_none_iff.mp (by rw [← hp, hf]; rfl)
      simp [hnil]
    | error e =>
      have hne : missing p ≠ [] := by
        rw [hf] at hp
        intro hnil
        simp [hnil, lacking] at hp
      simp [hne]
  named p e hf := by rw [← h p, hf]; rfl

/-- **Wire conversions lose nothing.**  A membership requires no sub-message, and
its conversion always succeeds. -/
theorem wire_conversions_lossless :
    Lossless Vote.toProto Vote.tryFrom Proto.Vote.missing ∧
    Lossless LogId.toProto LogId.tryFrom Proto.LogId.missing ∧
    Lossless Membership.toProto (fun m => .ok (Membership.tryFrom m)) (fun _ => []) ∧
    Lossless StoredMembership.toProto StoredMembership.tryFrom Proto.StoredMembership.missing ∧
    Lossless SnapshotMeta.toProto SnapshotMeta.tryFrom Proto.SnapshotMeta.missing ∧
    Lossless Entry.toProto Entry.tryFrom Proto.Entry.missing ∧
    Lossless VoteRequest.toProto VoteRequest.tryFrom Proto.VoteRequest.missing ∧
    Lossless VoteResponse.toProto VoteResponse.tryFrom Proto.VoteResponse.missing ∧
    Lossless AppendEntriesRequest.toProto AppendEntriesRequest.tryFrom
      Proto.AppendEntriesRequest.missing ∧
    Lossless AppendEntriesResponse.toProto AppendEntriesResponse.tryFrom
      Proto.AppendEntriesResponse.missing ∧
    Lossless SnapshotResponse.toProto SnapshotResponse.tryFrom Proto.SnapshotResponse.missing :=
  ⟨Vote.names.lossless Vote.tryFrom_toProto,
    LogId.names.lossless LogId.tryFrom_toProto,
    Names.lossless (fun _ => rfl) fun m => congrArg Except.ok (Membership.tryFrom_toProto m),
    StoredMembership.names.lossless StoredMembership.tryFrom_toProto,
    SnapshotMeta.names.lossless SnapshotMeta.tryFrom_toProto,
    Entry.names.lossless Entry.tryFrom_toProto,
    VoteRequest.names.lossless VoteRequest.tryFrom_toProto,
    VoteResponse.names.lossless VoteResponse.tryFrom_toProto,
    AppendEntriesRequest.names.lossless AppendEntriesRequest.tryFrom_toProto,
    AppendEntriesResponse.names.lossless AppendEntriesResponse.tryFrom_toProto,
    SnapshotResponse.names.lossless SnapshotResponse.tryFrom_toProto⟩

end Lumen
