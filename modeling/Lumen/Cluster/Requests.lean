import Lumen.Cluster
import Lumen.Cluster.Apply

/-!
# Lumen.Cluster.Requests

What holds in every state of a cluster: each node that runs holds what the
committed log says up to where it has applied it, and each accepted request
carries what was checked when it was admitted, where it was committed and what
its client was told (`Cluster.Reachable.inv`).
-/

namespace Lumen

open Lib Prog Raft Replay

section
variable [Ext]

/-! ## the committed log -/

/-- The command at an index of a log. -/
def commandAt (log : List Raft.Entry) (i : Nat) : Proto.Command :=
  match log[i]? with
  | some entry => entry.command
  | none => ⟨none⟩

/-- What a log up to index `i` binds a name to. -/
def bound (log : List Raft.Entry) (i : Nat) : Contents := fun name =>
  (logOf (commandAt log) name).stateAt i

variable {log log' : List Raft.Entry} {s s' : Cluster}

omit [Ext] in
theorem commandAt_of_isPrefix (h : log <+: log') {i : Nat} (hi : i < log.length) :
    commandAt log' i = commandAt log i := by
  obtain ⟨rest, hlog⟩ := h
  rw [commandAt, commandAt, ← hlog, List.getElem?_append_left hi]

theorem bound_of_isPrefix (h : log <+: log') {i : Nat} (hi : i < log.length) :
    bound log' i = bound log i := by
  funext name
  refine Log.stateAt_congr fun j hj => ?_
  rw [logOf, logOf, commandAt_of_isPrefix h (by omega)]

omit [Ext] in
theorem commandAt_append (log : List Raft.Entry) (entry : Raft.Entry) (i : Nat) :
    commandAt (log ++ [entry]) i = if i = log.length then entry.command else commandAt log i := by
  by_cases hi : i = log.length
  · rw [if_pos hi, hi, commandAt, List.getElem?_concat_length]
  · rw [if_neg hi]
    rcases Nat.lt_or_gt_of_ne hi with hlt | hgt
    · exact commandAt_of_isPrefix (List.prefix_append _ _) hlt
    · have hlen : (log ++ [entry]).length ≤ i := by simp; omega
      rw [commandAt, commandAt, List.getElem?_eq_none hlen, List.getElem?_eq_none hgt.le]

/-- The contents take the command of each index. -/
theorem bound_apply (hfirst : commandAt log 0 = ⟨none⟩) (i : Nat) :
    (bound log (i - 1)).apply (commandAt log i) = bound log i := by
  funext name
  rw [Contents.apply_eq]
  cases i with
  | zero => rw [hfirst]; rfl
  | succ i => rfl

/-! ## admission -/

/-- A mapping accepts the source of a document. -/
def Accepts (mapping : Mapping) (source : Bytes) : Prop :=
  ∃ parsed, Catalog.parseDocument mapping source = .ok parsed

/-- What the check of a request has seen in the contents, and the command it
has built. -/
def Request.Admits (st : Contents) (minted : Uuid) (command : Proto.Command) : Request → Prop
  | .createCollection name mapping => st name = none ∧
      command = ⟨some (.createCollection ⟨name, fmtUuid minted, some mapping.toProto⟩)⟩
  | .dropCollection name => (st name).isSome ∧ command = ⟨some (.dropCollection ⟨name⟩)⟩
  | .index collection id source =>
    (∃ g, st collection = some g ∧ Accepts g.info source) ∧
      command = ⟨some (.indexDocument ⟨collection, Catalog.orNewId id minted, source⟩)⟩
  | .delete collection id =>
    (st collection).isSome ∧ command = ⟨some (.deleteDocument ⟨collection, id⟩)⟩

variable {st : Contents} {d : Disk} {m : Catalog}

omit [Ext] in
theorem Catalog.wp_get {Q : Collection → Disk → Catalog → Prop} {E : Error → Disk → Catalog → Prop}
    {C : Disk → Prop} {name : String} (hE : ∀ err, E err d m)
    (hQ : ∀ e, m.collections.find? name = some e → Q e.collection d m) :
    wp (Catalog.get name) Q E C d m := by
  rw [Catalog.get, wp_bind, wp_getMem]
  cases hf : m.collections.find? name with
  | none => exact hE _
  | some e => exact hQ e hf

omit [Ext] in
theorem Holds.eq_some (h : Holds st d m) {name : String} {e : Catalog.Entry}
    (hf : m.collections.find? name = some e) : st name = some (e.toGen d) := by
  rw [← h.live, slotOf_live, hf]
  rfl

omit [Ext] in
theorem Holds.eq_none (h : Holds st d m) {name : String} (hf : m.collections.find? name = none) :
    st name = none := by
  rw [← h.live, slotOf_live, hf]
  rfl

/-- A command that was built was checked. -/
theorem Holds.wp_build (h : Holds st d m) (minted : Uuid) (request : Request) :
    wp (request.build minted)
      (fun command _ _ => ∀ c, command = some c → request.Admits st minted c)
      (fun _ _ _ => True) (fun _ => True) d m := by
  cases request with
  | createCollection name mapping =>
    rw [Request.build, Catalog.buildCreateCommand, wp_bind]
    cases Catalog.validateName name with
    | error e => trivial
    | ok _ =>
      rw [wp_ofExcept_ok, wp_bind, Catalog.wp_lookup]
      cases hf : m.collections.find? name with
      | some e =>
        show wp (if e.collection.mapping = mapping then _ else _) _ _ _ d m
        split
        · exact fun c hc => by contradiction
        · trivial
      | none =>
        rintro c ⟨⟩
        exact ⟨h.eq_none hf, rfl⟩
  | dropCollection name =>
    rw [Request.build, wp_bind, Catalog.buildDropCommand, wp_bind]
    refine Catalog.wp_get (fun _ => trivial) fun e hf => ?_
    rintro c ⟨⟩
    exact ⟨by rw [h.eq_some hf]; rfl, rfl⟩
  | index collection id source =>
    rw [Request.build, wp_bind, Catalog.buildIndexCommand, wp_bind]
    refine Catalog.wp_get (fun _ => trivial) fun e hf => ?_
    cases hp : Catalog.parseDocument e.collection.mapping source with
    | error err => trivial
    | ok parsed =>
      rintro c ⟨⟩
      exact ⟨⟨_, h.eq_some hf, parsed, hp⟩, rfl⟩
  | delete collection id =>
    rw [Request.build, wp_bind, Catalog.buildDeleteCommand, wp_bind]
    refine Catalog.wp_get (fun _ => trivial) fun e hf => ?_
    rintro c ⟨⟩
    exact ⟨by rw [h.eq_some hf]; rfl, rfl⟩

/-- The create commands of a log can be decoded. -/
def WellFormed (command : Proto.Command) : Prop :=
  ∀ c, command.op = some (.createCollection c) →
    ∃ u x, Catalog.createUuid c = .ok u ∧ Catalog.createMapping c = .ok x

theorem createUuid_fmtUuid (name : String) (minted : Uuid) (mapping : Mapping) :
    Catalog.createUuid ⟨name, fmtUuid minted, some mapping.toProto⟩ = .ok minted := by
  simp only [Catalog.createUuid, Ext.parseUuid_fmtUuid]

theorem createMapping_toProto (name : String) (minted : Uuid) (mapping : Mapping) :
    Catalog.createMapping ⟨name, fmtUuid minted, some mapping.toProto⟩ = .ok mapping :=
  Mapping.tryFrom_toProto mapping

theorem Request.Admits.wellFormed {minted : Uuid} {command : Proto.Command} {request : Request}
    (h : request.Admits st minted command) : WellFormed command := by
  intro c hop
  cases request with
  | createCollection name mapping =>
    rw [h.2, Option.some.injEq, Proto.Op.createCollection.injEq] at hop
    subst hop
    exact ⟨minted, mapping, createUuid_fmtUuid name minted mapping,
      createMapping_toProto name minted mapping⟩
  | _ =>
    rw [h.2] at hop
    simp at hop

/-! ## the answer -/

/-- The id an index command is answered with. -/
theorem wp_applyIndex_id {mark : LogMark} {index : Proto.IndexDocument} :
    wp (Catalog.applyIndex mark index)
      (fun a _ _ => a.id = if (m.collections.find? index.collection).isSome then index.id else "")
      (fun _ _ _ => True) (fun _ => True) d m := by
  rw [Catalog.applyIndex, wp_bind, Catalog.wp_lookup]
  cases hf : m.collections.find? index.collection with
  | none => rfl
  | some e =>
    rw [Option.map_some]
    simp only [Option.isSome_some, if_true, wp_bind, Catalog.committedMark, wp_getDisk]
    cases d.index e.collection.uuid with
    | none => trivial
    | some ix =>
      simp only [wp_pure]
      split
      · rfl
      · rw [Catalog.applyIndexBehind]
        cases fromSlice index.source with
        | error err => trivial
        | ok parsed =>
          simp only [Catalog.applyUpsert, wp_bind, wp_getMem]
          cases Collection.applyUpsert (m.deref index.collection e.collection) index.id
              index.source parsed with
          | error err => trivial
          | ok r => rfl

theorem wp_applyEntry_id {ord : IterOrder} {entry : Raft.Entry} {index : Proto.IndexDocument}
    {d : NodeDisk} {m : StateMachine} (hop : entry.command.op = some (.indexDocument index)) :
    wp (StateMachine.applyEntry ord entry)
      (fun a _ _ => a.id =
        if (m.catalog.collections.find? index.collection).isSome then index.id else "")
      (fun _ _ _ => True) (fun _ => True) d m := by
  obtain ⟨logId, payload⟩ := entry
  rw [StateMachine.applyEntry, wp_bind, wp_modifyMem]
  cases payload with
  | blank => contradiction
  | membership membership => contradiction
  | normal command =>
    have hop : command.op = some (.indexDocument index) := hop
    rw [StateMachine.applyPayload, wp_bind]
    refine wp_onCatalog _ _ ?_
    rw [Catalog.applyCommand]
    simp only [hop]
    exact wp_applyIndex_id

/-! ## the invariant -/

/-- A request's command is at index `i`, behind what its check has seen. -/
structure CommittedAt (log : List Raft.Entry) (c : Call) (i : Nat) : Prop where
  admitted_lt : c.admitted < i
  lt_length : i < log.length
  command : commandAt log i = c.command

/-- What the client was told of an index request: its id if the collection was
there when the command was applied, and no id otherwise. -/
def Answer (log : List Raft.Entry) (c : Call) (i : Nat) (outcome : Outcome) : Prop :=
  ∃ response, outcome = c.request.outcome response ∧
    ∀ collection id source, c.request = .index collection id source → response.id =
      if (bound log (i - 1) collection).isSome then Catalog.orNewId id c.minted else ""

def PhaseOk (log : List Raft.Entry) (c : Call) : Phase → Prop
  | .proposed => True
  | .committed i => CommittedAt log c i
  | .answered i outcome => CommittedAt log c i ∧ Answer log c i outcome

/-- What holds of an accepted request. -/
structure CallOk (log : List Raft.Entry) (c : Call) : Prop where
  admitted : c.admitted < log.length
  admits : c.request.Admits (bound log c.admitted) c.minted c.command
  phase : PhaseOk log c c.phase

/-- What holds of a node: unless it has stopped, it holds what the log says up
to where it has applied it. -/
structure ReplicaOk (log : List Raft.Entry) (r : Replica) : Prop where
  next_le : r.next ≤ log.length
  tidy : r.fault = none → Tidy (bound log (r.next - 1)) r.next r.disk.data r.sm.catalog

/-- What holds of the committed log; its first entry is not a command. -/
structure LogOk (log : List Raft.Entry) : Prop where
  length : 0 < log.length
  first : commandAt log 0 = ⟨none⟩
  index : ∀ (i : Nat) e, log[i]? = some e → e.logId.index = i
  formed : ∀ i, WellFormed (commandAt log i)

/-- What holds of a cluster. -/
structure Cluster.Inv (s : Cluster) : Prop where
  log : LogOk s.log
  replica : ∀ n, ReplicaOk s.log (s.replica n)
  calls : ∀ c ∈ s.calls, CallOk s.log c

theorem PhaseOk.mono {c : Call} {phase : Phase} (h : PhaseOk log c phase)
    (hlog : log <+: log') : PhaseOk log' c phase := by
  have hat : ∀ i, CommittedAt log c i → CommittedAt log' c i := fun i h =>
    ⟨h.admitted_lt, h.lt_length.trans_le hlog.length_le,
      (commandAt_of_isPrefix hlog h.lt_length).trans h.command⟩
  cases phase with
  | proposed => trivial
  | committed i => exact hat i h
  | answered i outcome =>
    refine ⟨hat i h.1, ?_⟩
    rw [Answer, bound_of_isPrefix hlog ((Nat.sub_le i 1).trans_lt h.1.lt_length)]
    exact h.2

theorem CallOk.mono {c : Call} (h : CallOk log c) (hlog : log <+: log') : CallOk log' c where
  admitted := h.admitted.trans_le hlog.length_le
  admits := by
    rw [bound_of_isPrefix hlog h.admitted]
    exact h.admits
  phase := h.phase.mono hlog

theorem ReplicaOk.mono {r : Replica} (h : ReplicaOk log r) (hlog : log <+: log')
    (hpos : 0 < log.length) : ReplicaOk log' r where
  next_le := h.next_le.trans hlog.length_le
  tidy hf := by
    have hlt : r.next - 1 < log.length := by
      have := h.next_le
      omega
    rw [bound_of_isPrefix hlog hlt]
    exact h.tidy hf

/-- An entry at the end of the log. -/
theorem LogOk.append (h : LogOk log) {entry : Raft.Entry} (hi : entry.logId.index = log.length)
    (hf : WellFormed entry.command) : LogOk (log ++ [entry]) where
  length := by simp
  first := by
    rw [commandAt_append, if_neg (by have := h.length; omega)]
    exact h.first
  index i e he := by
    rw [List.getElem?_append] at he
    split at he
    · exact h.index i e he
    · obtain ⟨hlt, he⟩ := List.getElem?_eq_some_iff.mp he
      have hlt : i - log.length < 1 := hlt
      rw [List.getElem_singleton] at he
      rw [← he, hi]
      omega
  formed i := by
    rw [commandAt_append]
    split
    · exact hf
    · exact h.formed i

theorem LogOk.bound_apply (h : LogOk log) (i : Nat) :
    (bound log (i - 1)).apply (commandAt log i) = bound log i := Lumen.bound_apply h.first i

omit [Ext] in
/-- The items of a list with one of them changed. -/
theorem mem_modify {α : Type} {l : List α} {k : Nat} {f : α → α} {a : α} (h : a ∈ l.modify k f) :
    a ∈ l ∨ ∃ b ∈ l, l[k]? = some b ∧ a = f b := by
  obtain ⟨j, hj⟩ := List.mem_iff_getElem?.mp h
  rw [List.getElem?_modify, Option.map_eq_map, Option.map_eq_some_iff] at hj
  obtain ⟨b, hb, rfl⟩ := hj
  split
  · rename_i hkj
    subst hkj
    exact .inr ⟨b, List.mem_of_getElem? hb, hb, rfl⟩
  · exact .inl (List.mem_of_getElem? hb)

/-! ## steps -/

theorem Cluster.Inv.start (membership : Membership) : (Cluster.start membership).Inv where
  log :=
    { length := Nat.zero_lt_one
      first := rfl
      index := fun i e he => by
        match i, he with
        | 0, he =>
          injection he with he
          rw [← he]
        | i + 1, he => contradiction
      formed := fun i => by
        match i with
        | 0 => exact fun c hc => by contradiction
        | i + 1 => exact fun c hc => by contradiction }
  replica n := by
    have hb : Base (fun _ => ⟨none⟩) 0 NodeDisk.empty.data Catalog.closed :=
      Base.empty _ fun _ => rfl
    have hw : wp (StateMachine.restart .stored)
        (fun _ d m => d = NodeDisk.empty ∧ ∀ n, m.catalog.collections.find? n = none)
        (fun _ _ _ => False) (fun _ => True) NodeDisk.empty default :=
      hb.wp_restart .stored (fun e m he => by contradiction) fun _ _ hre =>
        ⟨rfl, fun n => by rw [hre n]; rfl⟩
    obtain ⟨_, d, m, hrun, rfl, hm⟩ := run_ok_of_wp hw
    refine ⟨Nat.zero_le _, fun _ => ?_⟩
    have hafter : (StateMachine.restart .stored).after (NodeDisk.empty, default) =
        (NodeDisk.empty, m) := by
      rw [Prog.after, hrun]
    simp only [Cluster.start, hafter]
    exact Tidy.empty m.catalog hm
  calls c hc := by contradiction

theorem Cluster.Inv.accept {node : Nat} {request : Request} {minted : Uuid} (h : s.Inv)
    (hs : s.accept node request minted = some s') : s'.Inv := by
  rw [Cluster.accept] at hs
  split at hs
  · rename_i hcond
    obtain ⟨_, hfault, _⟩ := hcond
    split at hs
    · rename_i command hbuild
      injection hs with hs
      subst hs
      have hr := h.replica node
      have hpos := h.log.length
      have hw := (hr.tidy hfault).toHolds.wp_build minted request
      obtain ⟨_, _, hadmits⟩ := value_of_wp hw hbuild
      refine ⟨h.log, h.replica, fun c hc => ?_⟩
      rcases List.mem_append.mp hc with hc | hc
      · exact h.calls c hc
      · rw [List.mem_singleton] at hc
        subst hc
        refine ⟨?_, ?_, trivial⟩
        · have := hr.next_le
          show (s.replica node).next - 1 < s.log.length
          omega
        · exact hadmits command rfl
    · contradiction
  · contradiction

theorem CallOk.abandon {c : Call} (h : CallOk log c) : CallOk log c.abandon := by
  refine ⟨h.admitted, h.admits, ?_⟩
  have hphase := h.phase
  rw [Call.abandon]
  revert hphase
  cases c.phase with
  | proposed => exact fun h => h
  | committed i => exact fun h => ⟨h.admitted_lt, h.lt_length, h.command⟩
  | answered i outcome => exact fun h => ⟨⟨h.1.admitted_lt, h.1.lt_length, h.1.command⟩, h.2⟩

theorem Cluster.Inv.commit {call : Nat} {leaderId : LeaderId} (h : s.Inv)
    (hs : s.commit call leaderId = some s') : s'.Inv := by
  rw [Cluster.commit] at hs
  split at hs
  · contradiction
  · rename_i c hc
    split at hs
    · injection hs with hs
      subst hs
      have hok := h.calls c (List.mem_of_getElem? hc)
      have hlog : s.log <+: s.log ++ [⟨⟨leaderId, s.log.length⟩, .normal c.command⟩] :=
        List.prefix_append _ _
      refine ⟨h.log.append rfl hok.admits.wellFormed,
        fun n => (h.replica n).mono hlog h.log.length, fun c' hc' => ?_⟩
      rcases mem_modify hc' with hc' | ⟨b, _, hbk, rfl⟩
      · exact (h.calls c' hc').mono hlog
      · rw [hc, Option.some.injEq] at hbk
        subst hbk
        have hok' := hok.mono hlog
        refine ⟨hok'.admitted, hok'.admits, ⟨hok.admitted, ?_, ?_⟩⟩
        · show s.log.length < (s.log ++ [_]).length
          simp
        · show commandAt (s.log ++ [_]) s.log.length = c.command
          rw [commandAt_append, if_pos rfl]
          rfl
    · contradiction

/-- Only one node changes, and the log and the requests do not. -/
theorem Cluster.Inv.setReplica (h : s.Inv) {node : Nat} {r : Replica} (hr : ReplicaOk s.log r) :
    (s.setReplica node r).Inv := by
  refine ⟨h.log, fun n => ?_, h.calls⟩
  show ReplicaOk s.log (Function.update s.replica node r n)
  rw [Function.update_apply]
  split
  · exact hr
  · exact h.replica n

theorem CallOk.deliver {c : Call} {node i : Nat} {response : Response} (h : CallOk log c)
    (hans : ∀ collection id source, c.request = .index collection id source →
      commandAt log i = c.command → response.id =
        if (bound log (i - 1) collection).isSome then Catalog.orNewId id c.minted else "") :
    CallOk log (c.deliver node i response) := by
  rw [Call.deliver]
  split
  · rename_i hcond
    have hphase := h.phase
    rw [hcond.2.2] at hphase
    have hat : CommittedAt log c i := hphase
    exact ⟨h.admitted, h.admits, ⟨hat.admitted_lt, hat.lt_length, hat.command⟩, response, rfl,
      fun collection id source hreq => hans collection id source hreq hat.command⟩
  · exact h

theorem Cluster.Inv.apply {node : Nat} {ord : IterOrder} (h : s.Inv)
    (hs : s.apply node ord = some s') : s'.Inv := by
  rw [Cluster.apply] at hs
  split at hs
  · rename_i entry hfault hentry
    have hr := h.replica node
    have ht := hr.tidy hfault
    have hindex := h.log.index _ entry hentry
    have hcmd : commandAt s.log (s.replica node).next = entry.command := by
      rw [commandAt, hentry]
    split at hs
    · rename_i response d m hrun
      have hrun := applyEntry_of_applyEntryWith hrun
      injection hs with hs
      subst hs
      have hw := wp_applyEntry (C := fun _ => True) (E := fun _ _ _ => True)
        (Q := fun _ d m => Tidy (bound s.log (s.replica node).next) ((s.replica node).next + 1)
          d.data m.catalog) ord entry ht.sound.based (fun _ => trivial) (fun _ _ _ _ => trivial)
        fun a d' m' he => by
          rw [hindex] at he
          rw [← h.log.bound_apply, hcmd]
          exact ht.effect le_rfl he
      have ht' := post_of_wp hw hrun
      have hlt := (List.getElem?_eq_some_iff.mp hentry).1
      have hr' : ReplicaOk s.log ⟨d, m, (s.replica node).next + 1, none⟩ := ⟨hlt, fun _ => ht'⟩
      have h' : (s.setReplica node ⟨d, m, (s.replica node).next + 1, none⟩).Inv := h.setReplica hr'
      refine ⟨h'.log, h'.replica, fun c' hc' => ?_⟩
      obtain ⟨c, hc, rfl⟩ := List.mem_map.mp hc'
      refine (h.calls c hc).deliver fun collection id source hreq hcommand => ?_
      -- the command applied is the one the request was turned into
      have hadm := (h.calls c hc).admits
      rw [hreq] at hadm
      have hop : entry.command.op =
          some (.indexDocument ⟨collection, Catalog.orNewId id c.minted, source⟩) := by
        rw [← hcmd, hcommand, hadm.2]
      have hid := post_of_wp (wp_applyEntry_id hop) hrun
      rw [hid, ← ht.live, slotOf_live, Option.isSome_map]
    · injection hs with hs
      subst hs
      exact h.setReplica ⟨hr.next_le, fun hf => by contradiction⟩
  · contradiction

theorem Cluster.Inv.call {node : Nat} {mark : LogMark} {p : CatalogM Unit} (h : s.Inv)
    (hp : ∀ (st : Contents) next d m, mark.index < next → Tidy st next d m →
      wp p (fun _ => Tidy st next) (fun _ => Tidy st next) (fun _ => True) d m)
    (hs : s.call node mark p = some s') : s'.Inv := by
  rw [Cluster.call] at hs
  split at hs
  · rename_i hcond
    injection hs with hs
    subst hs
    have hr := h.replica node
    refine h.setReplica ⟨hr.next_le, fun _ => ?_⟩
    have hw : wp (StateMachine.onCatalog StateMachine.writeSm p)
        (fun _ d m => Tidy (bound s.log ((s.replica node).next - 1)) (s.replica node).next d.data
          m.catalog)
        (fun _ d m => Tidy (bound s.log ((s.replica node).next - 1)) (s.replica node).next d.data
          m.catalog) (fun _ => True) (s.replica node).disk (s.replica node).sm :=
      wp_onCatalog _ _ (hp _ _ _ _ hcond.2 (hr.tidy hcond.1))
    exact final_of_wp hw rfl
  · contradiction

/-- The committed log only grows. -/
theorem Cluster.step_log {a : Action} (hs : s.step a = some s') : s.log <+: s'.log := by
  cases a with
  | elect leader => injection hs with hs; subst hs; exact List.prefix_rfl
  | accept node request minted =>
    simp only [Cluster.step, Cluster.accept] at hs
    split at hs
    · split at hs
      · injection hs with hs
        subst hs
        exact List.prefix_rfl
      · contradiction
    · contradiction
  | abandon call => injection hs with hs; subst hs; exact List.prefix_rfl
  | commit call leaderId =>
    simp only [Cluster.step, Cluster.commit] at hs
    split at hs
    · contradiction
    · split at hs
      · injection hs with hs
        subst hs
        exact List.prefix_append _ _
      · contradiction
  | blank leaderId => injection hs with hs; subst hs; exact List.prefix_append _ _
  | membership leaderId membership => injection hs with hs; subst hs; exact List.prefix_append _ _
  | apply node ord =>
    simp only [Cluster.step, Cluster.apply] at hs
    split at hs
    · split at hs
      · injection hs with hs
        subst hs
        exact List.prefix_rfl
      · injection hs with hs
        subst hs
        exact List.prefix_rfl
    · contradiction
  | checkpoint node ord mark =>
    simp only [Cluster.step, Cluster.call] at hs
    split at hs
    · injection hs with hs
      subst hs
      exact List.prefix_rfl
    · contradiction
  | commitCollection node name mark =>
    simp only [Cluster.step, Cluster.call] at hs
    split at hs
    · injection hs with hs
      subst hs
      exact List.prefix_rfl
    · contradiction

/-- **Every step keeps the invariant.** -/
theorem Cluster.Inv.step {a : Action} (h : s.Inv) (hs : s.step a = some s') : s'.Inv := by
  have happend : ∀ entry : Raft.Entry, entry.logId.index = s.log.length →
      entry.command = ⟨none⟩ → Cluster.Inv { s with log := s.log ++ [entry] } := by
    intro entry hi hc
    refine ⟨h.log.append hi fun c hop => ?_,
      fun n => (h.replica n).mono (List.prefix_append _ _) h.log.length,
      fun c hc => (h.calls c hc).mono (List.prefix_append _ _)⟩
    rw [hc] at hop
    contradiction
  cases a with
  | elect leader =>
    injection hs with hs
    subst hs
    exact ⟨h.log, h.replica, h.calls⟩
  | accept node request minted => exact h.accept hs
  | abandon call =>
    injection hs with hs
    subst hs
    refine ⟨h.log, h.replica, fun c hc => ?_⟩
    rcases mem_modify hc with hc | ⟨b, hb, _, rfl⟩
    · exact h.calls c hc
    · exact (h.calls b hb).abandon
  | commit call leaderId => exact h.commit hs
  | blank leaderId =>
    injection hs with hs
    subst hs
    exact happend _ rfl rfl
  | membership leaderId membership =>
    injection hs with hs
    subst hs
    exact happend _ rfl rfl
  | apply node ord => exact h.apply hs
  | checkpoint node ord mark =>
    exact h.call (fun st next d m hmark ht => (Tidy.stable hmark).wp_checkpointApplied ht
      (fun _ _ _ => trivial) (fun _ _ h' _ => h') ord) hs
  | commitCollection node name mark =>
    exact h.call (fun st next d m hmark ht => (Tidy.stable hmark).wp_commitCollection ht
      (fun _ _ _ => trivial) (fun _ _ h' => h') fun _ _ => ht) hs

/-- **Every state of a cluster** satisfies the invariant. -/
theorem Cluster.Reachable.inv {membership : Membership} (h : Cluster.Reachable membership s) :
    s.Inv := by
  induction h with
  | start => exact .start membership
  | step prev a hs ih => exact ih.step hs

end

end Lumen
