import Lumen.Lib.System
import Lumen.Raft.Rpc

/-!
# Lumen.Network

Sending a snapshot (`network.rs`): the stream of chunks that `full_snapshot`
makes of the archive, and the handler that collects them and calls
`install_full_snapshot`.  The two run at the same time, with the chunks on the
way between them, so a transfer is a transition system (`Session`).

Of tonic it is assumed that chunks arrive in order, and that the handler sees
the end of the stream only when the stream of the sender has ended and all its
chunks have arrived; a request that breaks off shows as an error.
-/

namespace Lumen.Network

open Lib Raft

/-! ## statuses -/

/-- The codes of `tonic::Status` that the code tells apart. -/
inductive Code where
  | invalidArgument
  | internal
  | unavailable
  | deadlineExceeded
  | other
  deriving DecidableEq, Repr

structure Status where
  code : Code
  message : String
  deriving DecidableEq, Repr

def isTransport (status : Status) : Bool :=
  status.code = .unavailable || status.code = .deadlineExceeded

def missingField (field : String) : String := "missing required field `" ++ field ++ "`"

def require (o : Option α) (field : String) : Except Status α :=
  match o with
  | some a => .ok a
  | none => .error ⟨.invalidArgument, missingField field⟩

def invalidArg (x : Except ConversionError α) : Except Status α :=
  match x with
  | .ok a => .ok a
  | .error e => .error ⟨.invalidArgument, missingField e.field⟩

inductive StreamingError where
  | closed
  | storageError (kind : IoKind)
  | unreachable (message : String)
  | network (message : String)
  deriving DecidableEq, Repr

/-! ## the sender -/

/-- What `full_snapshot` is given. -/
structure Transfer where
  vote : Vote
  info : SnapshotMeta
  file : Bytes
  snapshotChunkSize : Option Nat

def defaultChunkSize : Nat := 1024 * 1024

def Transfer.chunkSize (t : Transfer) : Nat := max (t.snapshotChunkSize.getD defaultChunkSize) 1

/-- What a read of the archive file returns: how many bytes, or an error. -/
inductive Read where
  | ok (n : Nat)
  | error (kind : IoKind)
  deriving DecidableEq, Repr

/-- The reads that can happen at a position.  They may be short, but only the
end of the file reads as nothing. -/
def Transfer.reads (t : Transfer) (pos : Nat) : Read → Bool
  | .ok n => n ≤ t.chunkSize && pos + n ≤ t.file.length && (n != 0 || pos = t.file.length)
  | .error _ => true

/-- The sender: how far the file is read, whether its stream has ended, the
error slot, and what `full_snapshot` has returned. -/
structure Sender where
  pos : Nat
  ended : Bool
  readErr : Option IoKind
  result : Option (Except StreamingError SnapshotResponse)

/-- One step of `chunk_stream`. -/
def Transfer.chunkStream (t : Transfer) (s : Sender) : Read → Option Proto.SnapshotRequest × Sender
  | .ok 0 => (none, { s with ended := true })
  | .ok n =>
    (some ⟨some t.vote.toProto, some t.info.toProto, (t.file.drop s.pos).take n⟩,
      { s with pos := s.pos + n })
  | .error e => (none, { s with ended := true, readErr := some e })

/-- What `full_snapshot` makes of the outcome of the call. -/
def Sender.outcome (s : Sender) (o : Except Status Proto.SnapshotResponse) :
    Except StreamingError SnapshotResponse :=
  match s.readErr, o with
  | some e, _ => .error (.storageError e)
  | none, .ok response =>
    match SnapshotResponse.tryFrom response with
    | .ok r => .ok r
    | .error e => .error (.network (missingField e.field))
  | none, .error status =>
    .error (if isTransport status then .unreachable status.message else .network status.message)

/-! ## the receiver -/

/-- What the handler has collected. -/
structure Receiving where
  vote : Option Vote
  info : Option SnapshotMeta
  data : Bytes

/-- The arguments of a call of `install_full_snapshot`. -/
structure Install where
  vote : Vote
  info : SnapshotMeta
  data : Bytes
  deriving DecidableEq

namespace Receiving

def empty : Receiving := ⟨none, none, []⟩

/-- Vote and metadata are taken from the first chunk. -/
def receive (r : Receiving) (chunk : Proto.SnapshotRequest) : Except Status Receiving := do
  let r ← if r.vote.isNone then do
      let vote ← require chunk.vote "SnapshotRequest.vote"
      let vote ← invalidArg (Vote.tryFrom vote)
      let info ← require chunk.info "SnapshotRequest.meta"
      let info ← invalidArg (SnapshotMeta.tryFrom info)
      .ok { r with vote := some vote, info := some info }
    else .ok r
  .ok { r with data := r.data ++ chunk.data }

/-- The end of the stream. -/
def finish (r : Receiving) : Except Status Install :=
  match r.vote, r.info with
  | some vote, some info => .ok ⟨vote, info, r.data⟩
  | _, _ => .error ⟨.invalidArgument, "empty snapshot stream"⟩

end Receiving

/-- Where the handler of a request is: not called yet, in its loop, waiting for
`install_full_snapshot`, or done. -/
inductive Handler where
  | idle
  | receiving (r : Receiving)
  | installing
  | answered (result : Except Status Proto.SnapshotResponse)

/-- What the handler has collected, while it still collects. -/
def Handler.buffer : Handler → Option Receiving
  | idle => some .empty
  | receiving r => some r
  | _ => none

/-! ## the transfer -/

/-- Both ends, the chunks on the way, and the calls of `install_full_snapshot`. -/
structure Session where
  sender : Sender
  wire : List Proto.SnapshotRequest
  handler : Handler
  calls : List Install

/-- What can happen next.  `unopened` is a channel or a seek that fails, `refuse`
an error of the stream or of the temporary file, `disconnect` a call that breaks
off for the sender. -/
inductive Action where
  | unopened (e : StreamingError)
  | poll (r : Read)
  | cancel
  | accept
  | refuse (status : Status)
  | receive
  | finish
  | answer (result : Except String SnapshotResponse)
  | respond
  | disconnect (status : Status)

namespace Session

/-- The file is at its start and nothing has been read. -/
def start : Session := ⟨⟨0, false, none, none⟩, [], .idle, []⟩

def returned (s : Session) (result : Except StreamingError SnapshotResponse) : Session :=
  { s with sender := { s.sender with result := some result } }

def step (t : Transfer) (s : Session) : Action → Option Session
  | .unopened e =>
    if s.sender.pos = 0 ∧ s.sender.ended = false ∧ s.sender.result.isNone then
      some (s.returned (.error e))
    else none
  | .poll r =>
    if s.sender.ended = false ∧ s.sender.result.isNone ∧ t.reads s.sender.pos r then
      let (chunk, sender) := t.chunkStream s.sender r
      some { s with sender := sender, wire := s.wire ++ chunk.toList }
    else none
  | .cancel => if s.sender.result.isNone then some (s.returned (.error .closed)) else none
  | .accept =>
    match s.handler with
    | .idle => some { s with handler := .receiving .empty }
    | _ => none
  | .refuse status =>
    match s.handler.buffer with
    | some _ => some { s with handler := .answered (.error status) }
    | none => none
  | .receive =>
    match s.handler, s.wire with
    | .receiving r, chunk :: rest =>
      match r.receive chunk with
      | .ok r' => some { s with handler := .receiving r', wire := rest }
      | .error status => some { s with handler := .answered (.error status), wire := rest }
    | _, _ => none
  | .finish =>
    match s.handler, s.wire, s.sender.ended with
    | .receiving r, [], true =>
      match r.finish with
      | .ok call => some { s with handler := .installing, calls := s.calls ++ [call] }
      | .error status => some { s with handler := .answered (.error status) }
    | _, _, _ => none
  | .answer result =>
    match s.handler with
    | .installing =>
      let answer := match result with
        | .ok response => .ok response.toProto
        | .error message => .error ⟨.internal, message⟩
      some { s with handler := .answered answer }
    | _ => none
  | .respond =>
    match s.handler, s.sender.result with
    | .answered result, none => some (s.returned (s.sender.outcome result))
    | _, _ => none
  | .disconnect status =>
    if s.sender.result.isNone then some (s.returned (s.sender.outcome (.error status))) else none

end Session

/-- The runs of a transfer. -/
def Transfer.system (t : Transfer) : System Session Action where
  init s := s = .start
  step := Session.step t

/-- No read fails midway: between the first chunk and the end of the file. -/
def Transfer.wholeReads (t : Transfer) (s : Session) : Action → Bool
  | .poll (.error _) => s.sender.pos = 0 || s.sender.pos = t.file.length
  | _ => true

/-- Whatever happens. -/
def anyStep (_ : Session) (_ : Action) : Bool := true

/-! ## what is on the way -/

/-- The bytes in a list of chunks. -/
def wireData (wire : List Proto.SnapshotRequest) : Bytes := wire.flatMap Proto.SnapshotRequest.data

/-- A chunk of the transfer. -/
structure Transfer.Chunk (t : Transfer) (c : Proto.SnapshotRequest) : Prop where
  vote : c.vote = some t.vote.toProto
  info : c.info = some t.info.toProto
  data : c.data ≠ []

/-- What the handler has collected is nothing, or begins with a chunk of the
transfer. -/
inductive Transfer.Collected (t : Transfer) : Receiving → Prop where
  | empty : Collected t .empty
  | chunks (data : Bytes) (h : data ≠ []) : Collected t ⟨some t.vote, some t.info, data⟩

theorem Transfer.Collected.receive {t : Transfer} {r : Receiving} {c : Proto.SnapshotRequest}
    (h : t.Collected r) (hc : t.Chunk c) :
    r.receive c = .ok ⟨some t.vote, some t.info, r.data ++ c.data⟩ := by
  cases h with
  | empty =>
    simp only [Receiving.receive, Receiving.empty, Option.isNone_none, if_true, hc.vote, hc.info,
      require, bind, Except.bind, invalidArg, Vote.tryFrom_toProto, SnapshotMeta.tryFrom_toProto]
  | chunks data hne => rfl

/-- Nothing is lost or reordered: what is collected and what is on the way are
together what has been read, and every call had all of that. -/
structure Session.Inv (t : Transfer) (s : Session) : Prop where
  pos_le : s.sender.pos ≤ t.file.length
  ended : s.sender.ended = true → s.sender.pos = t.file.length ∨ s.sender.readErr ≠ none
  readErr : s.sender.readErr ≠ none → s.sender.ended = true
  wire : ∀ c ∈ s.wire, t.Chunk c
  collected : ∀ r, s.handler.buffer = some r → t.Collected r
  delivered : ∀ r, s.handler.buffer = some r →
    r.data ++ wireData s.wire = t.file.take s.sender.pos
  calls : ∀ c ∈ s.calls, s.sender.ended = true ∧ 0 < s.sender.pos ∧
    c = ⟨t.vote, t.info, t.file.take s.sender.pos⟩

namespace Session

variable {t : Transfer} {s s' : Session}

theorem inv_start : Inv t .start where
  pos_le := Nat.zero_le _
  ended h := by cases h
  readErr h := (h rfl).elim
  wire c hc := by simp [start] at hc
  collected r hr := by cases hr; exact .empty
  delivered r hr := by cases hr; rfl
  calls c hc := by simp [start] at hc

theorem Inv.returned (h : Inv t s) (result : Except StreamingError SnapshotResponse) :
    Inv t (s.returned result) :=
  { h with }

/-- A handler that has stopped collecting. -/
theorem Inv.answered (h : Inv t s) {handler : Handler} (hb : handler.buffer = none)
    {wire : List Proto.SnapshotRequest} (hw : ∀ c ∈ wire, c ∈ s.wire) :
    Inv t { s with handler := handler, wire := wire } where
  pos_le := h.pos_le
  ended := h.ended
  readErr := h.readErr
  wire c hc := h.wire c (hw c hc)
  collected r hr := by simp [hb] at hr
  delivered r hr := by simp [hb] at hr
  calls := h.calls

theorem Inv.not_called (h : Inv t s) (he : s.sender.ended = false) : s.calls = [] := by
  refine List.eq_nil_iff_forall_not_mem.mpr fun c hc => ?_
  have := (h.calls c hc).1
  simp [he] at this

theorem Inv.poll (h : Inv t s) (he : s.sender.ended = false) {r : Read}
    (hr : t.reads s.sender.pos r = true) :
    Inv t { s with
      sender := (t.chunkStream s.sender r).2
      wire := s.wire ++ (t.chunkStream s.sender r).1.toList } := by
  have hno : s.sender.readErr = none := by
    by_contra hne
    simp [h.readErr hne] at he
  have hcalls := h.not_called he
  cases r with
  | error e =>
    exact { h with
      ended := fun _ => Or.inr (by simp [Transfer.chunkStream])
      readErr := fun _ => rfl
      wire := by simpa [Transfer.chunkStream] using h.wire
      delivered := by simpa [Transfer.chunkStream] using h.delivered
      calls := by simp [hcalls] }
  | ok n =>
    simp only [Transfer.reads, Bool.and_eq_true, Bool.or_eq_true, decide_eq_true_eq,
      bne_iff_ne] at hr
    cases n with
    | zero =>
      exact { h with
        ended := fun _ => Or.inl (hr.2.resolve_left (by simp))
        readErr := fun _ => rfl
        wire := by simpa [Transfer.chunkStream] using h.wire
        delivered := by simpa [Transfer.chunkStream] using h.delivered
        calls := by simp [hcalls] }
    | succ n =>
      have hdata : (t.file.drop s.sender.pos).take (n + 1) ≠ [] := by
        have hlen : s.sender.pos < t.file.length := by omega
        simp [List.take_eq_nil_iff, List.drop_eq_nil_iff, hlen]
      have htake : t.file.take (s.sender.pos + (n + 1)) =
          t.file.take s.sender.pos ++ (t.file.drop s.sender.pos).take (n + 1) :=
        List.take_add
      refine ⟨hr.1.2, fun h' => ?_, fun h' => ?_, fun c hc => ?_, h.collected,
        fun b hb => ?_, by simp [hcalls]⟩
      · simp [Transfer.chunkStream, he] at h'
      · simp [Transfer.chunkStream, hno] at h'
      · simp only [Transfer.chunkStream, Option.toList_some, List.mem_append,
          List.mem_singleton] at hc
        rcases hc with hc | rfl
        · exact h.wire c hc
        · exact ⟨rfl, rfl, hdata⟩
      · simp only [Transfer.chunkStream, Option.toList_some, wireData, List.flatMap_append,
          List.flatMap_singleton, htake]
        rw [← List.append_assoc, ← h.delivered b hb]
        rfl

theorem Inv.receive (h : Inv t s) {r : Receiving} {c : Proto.SnapshotRequest}
    {rest : List Proto.SnapshotRequest} (hh : s.handler = .receiving r) (hw : s.wire = c :: rest) :
    ∃ r', r.receive c = .ok r' ∧ Inv t { s with handler := .receiving r', wire := rest } := by
  have hbuf : s.handler.buffer = some r := by rw [hh]; rfl
  have hc : t.Chunk c := h.wire c (by simp [hw])
  refine ⟨_, (h.collected r hbuf).receive hc, ?_⟩
  refine { h with wire := fun x hx => h.wire x (by simp [hw, hx]), collected := ?_, delivered := ?_ }
  · intro r' hr'
    cases hr'
    exact .chunks _ (by simp [hc.data])
  · intro r' hr'
    cases hr'
    have hall := h.delivered r hbuf
    simpa [hw, wireData] using hall

/-- The end of the stream: no call without a chunk, and a call has everything
that was read. -/
theorem Inv.finish (h : Inv t s) {r : Receiving} (hh : s.handler = .receiving r)
    (hw : s.wire = []) (he : s.sender.ended = true) :
    match r.finish with
    | .ok call => Inv t { s with handler := .installing, calls := s.calls ++ [call] }
    | .error status => Inv t { s with handler := .answered (.error status) } := by
  have hbuf : s.handler.buffer = some r := by rw [hh]; rfl
  have hall : r.data = t.file.take s.sender.pos := by
    simpa [hw, wireData] using h.delivered r hbuf
  cases h.collected r hbuf with
  | empty => exact h.answered rfl fun c hc => hc
  | chunks data hne =>
    refine { h with collected := ?_, delivered := ?_, calls := ?_ }
    · simp [Handler.buffer]
    · simp [Handler.buffer]
    · intro c hc
      rcases List.mem_append.mp hc with hc | hc
      · exact h.calls c hc
      · rw [List.mem_singleton.mp hc]
        refine ⟨he, Nat.pos_of_ne_zero fun h0 => hne ?_, by rw [← hall]⟩
        exact hall.trans (by rw [h0, List.take_zero])

theorem Inv.step (h : Inv t s) {a : Action} (hs : s.step t a = some s') : Inv t s' := by
  cases a with
  | unopened e =>
    simp only [Session.step, Option.ite_none_right_eq_some, Option.some.injEq] at hs
    exact hs.2 ▸ h.returned _
  | poll r =>
    simp only [Session.step, Option.ite_none_right_eq_some, Option.some.injEq] at hs
    exact hs.2 ▸ h.poll hs.1.1 hs.1.2.2
  | cancel =>
    simp only [Session.step, Option.ite_none_right_eq_some, Option.some.injEq] at hs
    exact hs.2 ▸ h.returned _
  | accept =>
    cases hh : s.handler <;> simp only [Session.step, hh, Option.some.injEq] at hs <;>
      try contradiction
    subst hs
    have hbuf : s.handler.buffer = some .empty := by rw [hh]; rfl
    exact { h with
      collected := fun r hr => h.collected r (hbuf.trans hr)
      delivered := fun r hr => h.delivered r (hbuf.trans hr) }
  | refuse status =>
    cases hb : s.handler.buffer <;> simp only [Session.step, hb, Option.some.injEq] at hs
    · contradiction
    · exact hs ▸ h.answered rfl fun c hc => hc
  | receive =>
    cases hh : s.handler <;> cases hw : s.wire <;>
      simp only [Session.step, hh, hw] at hs <;> try contradiction
    obtain ⟨r', hr', hinv⟩ := h.receive hh hw
    simp only [hr', Option.some.injEq] at hs
    exact hs ▸ hinv
  | finish =>
    cases hh : s.handler <;> cases hw : s.wire <;> cases he : s.sender.ended <;>
      simp only [Session.step, hh, hw, he] at hs <;> try contradiction
    rename_i r
    have hfin := h.finish hh hw he
    cases hf : r.finish <;> simp only [hf, hw, Option.some.injEq] at hs hfin <;> exact hs ▸ hfin
  | answer result =>
    cases hh : s.handler <;> simp only [Session.step, hh, Option.some.injEq] at hs <;>
      try contradiction
    exact hs ▸ h.answered rfl fun c hc => hc
  | respond =>
    cases hh : s.handler <;> cases hr : s.sender.result <;>
      simp only [Session.step, hh, hr, Option.some.injEq] at hs <;> try contradiction
    exact hs ▸ h.returned _
  | disconnect status =>
    simp only [Session.step, Option.ite_none_right_eq_some, Option.some.injEq] at hs
    exact hs.2 ▸ h.returned _

theorem Inv.exec {ok : Session → Action → Bool} {actions : List Action} (h : Inv t s)
    (hs : t.system.exec ok s actions = some s') : Inv t s' := by
  induction actions generalizing s with
  | nil => exact Option.some.inj hs ▸ h
  | cons a rest ih =>
    simp only [System.exec] at hs
    split at hs
    · split at hs
      · contradiction
      · exact ih (h.step ‹_›) hs
    · contradiction

/-! ## reads that fail midway -/

/-- A read has failed between the first chunk and the end of the file. -/
def Torn (t : Transfer) (s : Session) : Prop :=
  s.sender.readErr ≠ none ∧ s.sender.pos ≠ 0 ∧ s.sender.pos ≠ t.file.length

/-- Only a read changes how far the sender is. -/
theorem step_sender (h : Inv t s) {a : Action} (hs : s.step t a = some s') :
    (s'.sender.pos = s.sender.pos ∧ s'.sender.readErr = s.sender.readErr ∧
      t.wholeReads s a = true) ∨
    ∃ r, a = .poll r ∧ s.sender.readErr = none ∧ s'.sender = (t.chunkStream s.sender r).2 := by
  cases a with
  | poll r =>
    simp only [step, Option.ite_none_right_eq_some, Option.some.injEq] at hs
    refine Or.inr ⟨r, rfl, ?_, by rw [← hs.2]⟩
    by_contra hne
    simp [h.readErr hne] at hs
  | _ =>
    simp only [step] at hs
    grind [Session.returned, Transfer.wholeReads]

/-- After a step a read has failed midway if one had before, or the step was one
that did. -/
theorem torn_step (h : Inv t s) {a : Action} (hs : s.step t a = some s') :
    Torn t s' ↔ Torn t s ∨ t.wholeReads s a = false := by
  rcases step_sender h hs with ⟨hpos, herr, hok⟩ | ⟨r, rfl, hno, hsender⟩
  · simp [Torn, hpos, herr, hok]
  · cases r with
    | error e => simp [Torn, hsender, Transfer.chunkStream, Transfer.wholeReads, hno]
    | ok n => cases n <;> simp [Torn, hsender, Transfer.chunkStream, Transfer.wholeReads, hno]

theorem not_torn_of_fails (h : Inv t s) {a : Action} (hs : s.step t a = some s')
    (hbad : t.wholeReads s a = false) : ¬ Torn t s := by
  rcases step_sender h hs with ⟨_, _, hok⟩ | ⟨r, _, hno, _⟩
  · simp [hbad] at hok
  · exact fun ht => ht.1 hno

/-- The steps of a run all meet the condition exactly when no read has failed
midway at its end that had not at its start. -/
theorem exec_wholeReads {actions : List Action} (h : Inv t s)
    (hs : t.system.exec anyStep s actions = some s') :
    (Torn t s → Torn t s') ∧
      ((t.system.exec t.wholeReads s actions).isSome ↔ (Torn t s' → Torn t s)) := by
  induction actions generalizing s with
  | nil =>
    rw [← Option.some.inj hs]
    simp [System.exec]
  | cons a rest ih =>
    simp only [System.exec, anyStep, if_true] at hs ⊢
    split at hs
    · contradiction
    · rename_i s₁ hstep
      obtain ⟨hkeep, hiff⟩ := ih (h.step hstep) hs
      have htorn := torn_step h hstep
      refine ⟨fun ht => hkeep (htorn.mpr (Or.inl ht)), ?_⟩
      by_cases hok : t.wholeReads s a = true
      · simp only [hok, if_true]
        rw [hiff, htorn]
        simp [hok]
      · have hbad : t.wholeReads s a = false := by simpa using hok
        have hs' : Torn t s' := hkeep (htorn.mpr (Or.inr hbad))
        simp [hok, hs', not_torn_of_fails h hstep hbad]

/-- A call has the whole file unless a read had failed midway. -/
theorem Inv.call_iff (h : Inv t s) {c : Install} (hc : c ∈ s.calls) :
    c = ⟨t.vote, t.info, t.file⟩ ↔ ¬ Torn t s := by
  obtain ⟨hended, hpos, rfl⟩ := h.calls c hc
  have hwhole : t.file.take s.sender.pos = t.file ↔ s.sender.pos = t.file.length := by
    refine ⟨fun heq => ?_, fun heq => by rw [heq, List.take_length]⟩
    have hlen := congrArg List.length heq
    have := h.pos_le
    simp at hlen
    omega
  simp only [Install.mk.injEq, true_and, hwhole, Torn, not_and, not_not]
  refine ⟨fun heq _ _ => heq, fun hall => ?_⟩
  rcases h.ended hended with heq | herr
  · exact heq
  · exact hall herr (by omega)

end Session

/-- **All or nothing, unless a read fails midway.**  In every run of a transfer
that calls `install_full_snapshot`, the calls have the vote and the metadata of
the sender, and they have the whole archive exactly when no read of the file
failed after the first chunk and before its end. -/
theorem install_whole_iff (t : Transfer) (actions : List Action) (s : Session)
    (hrun : t.system.exec anyStep .start actions = some s) (hcalls : s.calls ≠ []) :
    (∀ c ∈ s.calls, c.vote = t.vote ∧ c.info = t.info) ∧
    ((∀ c ∈ s.calls, c = ⟨t.vote, t.info, t.file⟩) ↔
      (t.system.exec t.wholeReads .start actions).isSome) := by
  have hinv := Session.inv_start.exec hrun
  have hwhole := (Session.exec_wholeReads Session.inv_start hrun).2
  have hfresh : ¬ Session.Torn t .start := fun ht => ht.1 rfl
  obtain ⟨c, hc⟩ := List.exists_mem_of_ne_nil _ hcalls
  refine ⟨fun c hc => ?_, ?_⟩
  · rw [(hinv.calls c hc).2.2]
    exact ⟨rfl, rfl⟩
  · rw [hwhole]
    refine ⟨fun hall ht => ((hinv.call_iff hc).mp (hall c hc) ht).elim, fun himp c hc => ?_⟩
    exact (hinv.call_iff hc).mpr fun ht => hfresh (himp ht)

/-- A transfer of two bytes, one at a time. -/
def twoBytes : Transfer := ⟨⟨⟨1, 1⟩, true⟩, ⟨none, default, "0-0"⟩, [1, 2], some 1⟩

/-- A transfer that goes through. -/
def wholeRun : List Action :=
  [.poll (.ok 1), .accept, .poll (.ok 1), .receive, .receive, .poll (.ok 0), .finish]

theorem install_whole_two_bytes :
    ∃ s, twoBytes.system.exec anyStep .start wholeRun = some s ∧
      ∀ c ∈ s.calls, c = ⟨twoBytes.vote, twoBytes.info, [1, 2]⟩ := by
  refine ⟨_, rfl, ?_⟩
  exact (install_whole_iff twoBytes wholeRun _ rfl (List.cons_ne_nil _ _)).2.mpr rfl

/-- The second read fails.  That ends the stream like the end of the file does,
and the receiver installs the first byte. -/
theorem install_of_torn_archive :
    (twoBytes.system.exec anyStep .start
      [.poll (.ok 1), .accept, .receive, .poll (.error .unexpectedEof), .finish]).map
        Session.calls = some [⟨twoBytes.vote, twoBytes.info, [1]⟩] := rfl

end Lumen.Network
