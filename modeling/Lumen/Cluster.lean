import Lumen.Cluster.Run

/-!
# Lumen.Cluster

The write path of the cluster (`cluster.rs`).  A request is checked against
the catalog of the leader, which has applied some prefix of the committed log;
the command it becomes is committed at some later position, or never; and the
client is answered when the node it asked has applied it.

Of Raft the model keeps what the write path relies on: one committed log that
every node applies in order, at its own pace.  Any node can become the leader
at any time, with committed entries it has not applied.  A client can go away,
or be told that its write failed, while its entry is still in flight.

The `ddl` mutex of a node is held by a create or drop from the check to the
answer, or until the client goes away.
-/

namespace Lumen

open Lib Prog Raft

/-! ## requests -/

/-- A client's write request. -/
inductive Request where
  | createCollection (name : String) (mapping : Mapping)
  | dropCollection (name : String)
  | index (collection : String) (id : Option String) (source : Bytes)
  | delete (collection id : String)
  deriving DecidableEq

/-- What a client is answered: a `CreateOutcome`, a `WriteOutcome`, or that the
write is done. -/
inductive Outcome where
  | create (mapping : Mapping) (created : Bool)
  | write (id : String) (created : Bool)
  | done
  deriving DecidableEq

namespace Request

/-- Whether the request takes the `ddl` mutex. -/
def isDdl : Request → Bool
  | createCollection _ _ => true
  | dropCollection _ => true
  | index _ _ _ => false
  | delete _ _ => false

/-- The answer to the client once its command is applied. -/
def outcome (response : Response) : Request → Outcome
  | createCollection _ mapping => .create mapping true
  | dropCollection _ => .done
  | index _ _ _ => .write response.id response.created
  | delete _ _ => .done

/-- The check of a request against the leader's catalog, and its command;
`none` when there is nothing to write. -/
def build [Ext] (minted : Uuid) : Request → CatalogM (Option Proto.Command)
  | createCollection name mapping => Catalog.buildCreateCommand name mapping minted
  | dropCollection name => do
    let command ← Catalog.buildDropCommand name
    pure (some command)
  | index collection id source => do
    let command ← Catalog.buildIndexCommand collection id source minted
    pure (some command)
  | delete collection id => do
    let command ← Catalog.buildDeleteCommand collection id
    pure (some command)

end Request

/-- How far an accepted request has come. -/
inductive Phase where
  | proposed
  | committed (index : Nat)
  | answered (index : Nat) (outcome : Outcome)
  deriving DecidableEq

/-- A request that passed its check: the node it was sent to, the command it
became, the last index that node had applied then, and whether the client is
still waiting. -/
structure Call where
  node : Nat
  request : Request
  minted : Uuid
  command : Proto.Command
  admitted : Nat
  waiting : Bool
  phase : Phase

namespace Call

def holdsDdl (c : Call) : Bool :=
  c.waiting && c.request.isDdl &&
    match c.phase with
    | .answered _ _ => false
    | _ => true

/-- The client goes away, or is told that its write failed. -/
def abandon (c : Call) : Call := { c with waiting := false }

def commit (index : Nat) (c : Call) : Call := { c with phase := .committed index }

/-- The answer of a node that has applied the entry at `index`. -/
def deliver (node index : Nat) (response : Response) (c : Call) : Call :=
  if c.waiting ∧ c.node = node ∧ c.phase = .committed index then
    { c with phase := .answered index (c.request.outcome response) }
  else c

end Call

/-! ## the cluster -/

/-- A node: its directories, its state machine, the first index it has not
applied, and the error that stopped it. -/
structure Replica where
  disk : NodeDisk
  sm : StateMachine
  next : Nat
  fault : Option StorageError

structure Cluster where
  log : List Raft.Entry
  replica : Nat → Replica
  leader : Option Nat
  calls : List Call

/-- What can happen next. -/
inductive Action where
  | elect (leader : Option Nat)
  | accept (node : Nat) (request : Request) (minted : Uuid)
  | abandon (call : Nat)
  | commit (call : Nat) (leaderId : LeaderId)
  | blank (leaderId : LeaderId)
  | membership (leaderId : LeaderId) (membership : Membership)
  | apply (node : Nat) (ord : IterOrder)
  | checkpoint (node : Nat) (ord : IterOrder) (mark : LogMark)
  | commitCollection (node : Nat) (name : String) (mark : LogMark)

namespace Cluster

/-- Append an entry to the committed log. -/
def append (s : Cluster) (leaderId : LeaderId) (payload : EntryPayload) : Cluster :=
  { s with log := s.log ++ [⟨⟨leaderId, s.log.length⟩, payload⟩] }

def setReplica (s : Cluster) (node : Nat) (r : Replica) : Cluster :=
  { s with replica := Function.update s.replica node r }

/-- Whether the node's `ddl` mutex is free. -/
def ddlFree (s : Cluster) (node : Nat) : Bool :=
  s.calls.all fun c => !(c.node = node && c.holdsDdl)

section
variable [Ext]

/-- Nodes on empty directories, and the log with the entry that made them a
cluster. -/
def start (membership : Membership) : Cluster where
  log := [⟨⟨⟨0, 0⟩, 0⟩, .membership membership⟩]
  replica _ :=
    let x := (StateMachine.restart .stored).after (.empty, default)
    ⟨x.1, x.2, 0, none⟩
  leader := none
  calls := []

/-- The check of a request on the leader. -/
def accept (s : Cluster) (node : Nat) (request : Request) (minted : Uuid) : Option Cluster :=
  let r := s.replica node
  if s.leader = some node ∧ r.fault = none ∧ (request.isDdl → s.ddlFree node) then
    match ((request.build minted).run r.disk.data r.sm.catalog).1 with
    | .ok (some command) =>
      some { s with
        calls := s.calls ++ [⟨node, request, minted, command, r.next - 1, true, .proposed⟩] }
    | _ => none
  else none

/-- The command of a request enters the committed log. -/
def commit (s : Cluster) (call : Nat) (leaderId : LeaderId) : Option Cluster :=
  match s.calls[call]? with
  | none => none
  | some c =>
    if c.phase = .proposed then
      some { s.append leaderId (.normal c.command) with
        calls := s.calls.modify call (Call.commit s.log.length) }
    else none

/-- A node applies the next committed entry.  An error or a panic stops it. -/
def apply (s : Cluster) (node : Nat) (ord : IterOrder) : Option Cluster :=
  let r := s.replica node
  match r.fault, s.log[r.next]? with
  | none, some entry =>
    match (StateMachine.applyEntryWith ord entry).run r.disk r.sm with
    | (.ok response, d, m) =>
      some { s.setReplica node ⟨d, m, r.next + 1, none⟩ with
        calls := s.calls.map (Call.deliver node r.next response) }
    | (.error e, d, m) => some (s.setReplica node ⟨d, m, r.next, some e⟩)
  | _, _ => none

/-- A call of the catalog between two entries, under a mark that is not ahead
of the last one. -/
def call (s : Cluster) (node : Nat) (mark : LogMark) (p : CatalogM Unit) : Option Cluster :=
  let r := s.replica node
  if r.fault = none ∧ mark.index < r.next then
    let x := (StateMachine.onCatalog StateMachine.writeSm p).after (r.disk, r.sm)
    some (s.setReplica node ⟨x.1, x.2, r.next, none⟩)
  else none

def step (s : Cluster) : Action → Option Cluster
  | .elect leader => some { s with leader := leader }
  | .accept node request minted => s.accept node request minted
  | .abandon call => some { s with calls := s.calls.modify call Call.abandon }
  | .commit call leaderId => s.commit call leaderId
  | .blank leaderId => some (s.append leaderId .blank)
  | .membership leaderId membership => some (s.append leaderId (.membership membership))
  | .apply node ord => s.apply node ord
  | .checkpoint node ord mark => s.call node mark (Catalog.checkpointApplied ord mark)
  | .commitCollection node name mark => s.call node mark (Catalog.commitCollection name mark)

/-- The states of a cluster. -/
inductive Reachable (membership : Membership) : Cluster → Prop where
  | start : Reachable membership (start membership)
  | step {s s' : Cluster} (prev : Reachable membership s) (a : Action) (h : s.step a = some s') :
      Reachable membership s'

/-- Do one action after the other. -/
def exec (s : Cluster) : List Action → Option Cluster
  | [] => some s
  | a :: rest =>
    match s.step a with
    | none => none
    | some s' => s'.exec rest

theorem Reachable.exec {membership : Membership} {s s' : Cluster} {actions : List Action}
    (h : Reachable membership s) (hs : s.exec actions = some s') : Reachable membership s' := by
  induction actions generalizing s with
  | nil =>
    injection hs with hs
    exact hs ▸ h
  | cons a rest ih =>
    rw [Cluster.exec] at hs
    cases ha : s.step a with
    | none => rw [ha] at hs; contradiction
    | some s₁ =>
      rw [ha] at hs
      exact ih (h.step a ha) hs

end

end Cluster

end Lumen
