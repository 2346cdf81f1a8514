import Lumen.Basic

/-!
# Lumen.Raft

The openraft values the cluster stores, and their protobuf forms
(`conversions.rs`).  Converting to protobuf and back gives the value again;
`Entry.tryFrom_toProto` is what the log store relies on.
-/

namespace Lumen.Raft

open Lib

structure LeaderId where
  term : Nat
  nodeId : Nat
  deriving DecidableEq, Repr

structure LogId where
  leaderId : LeaderId
  index : Nat
  deriving DecidableEq, Repr

structure Vote where
  leaderId : LeaderId
  committed : Bool
  deriving DecidableEq, Repr

/-- A `BTreeSet` of node ids. -/
abbrev NodeSet := OrdMap Nat Unit

def NodeSet.ofList (ids : List Nat) : NodeSet := OrdMap.ofList (ids.map fun id => (id, ()))

@[simp] theorem NodeSet.ofList_keys (s : NodeSet) : NodeSet.ofList s.keys = s := by
  rw [NodeSet.ofList, OrdMap.keys, List.map_map]
  have hid : (s.toList.map ((fun id => (id, ())) ∘ Prod.fst)) = s.toList := List.map_id s.toList
  rw [hid, OrdMap.ofList_toList]

/-- A membership: joint voter configurations, and a node for every member.
`Membership::new` adds a default node for a voter that has none, so every
value has one for each voter. -/
structure Membership where
  configs : List NodeSet
  nodes : OrdMap Nat Proto.Node
  covered : ∀ c ∈ configs, ∀ id ∈ c.keys, nodes.contains id = true

namespace Membership

instance : DecidableEq Membership := fun a b =>
  decidable_of_iff (a.configs = b.configs ∧ a.nodes = b.nodes)
    ⟨fun h => by cases a; cases b; simpa using h, fun h => by rw [h]; exact ⟨rfl, rfl⟩⟩

/-- Add a default node for a voter without one. -/
def addNode (nodes : OrdMap Nat Proto.Node) (id : Nat) : OrdMap Nat Proto.Node :=
  if nodes.contains id then nodes else nodes.insert id ⟨0, ""⟩

def extendNodes (nodes : OrdMap Nat Proto.Node) (ids : List Nat) : OrdMap Nat Proto.Node :=
  ids.foldl addNode nodes

theorem contains_addNode (nodes : OrdMap Nat Proto.Node) (id id' : Nat)
    (h : id' = id ∨ nodes.contains id' = true) : (addNode nodes id).contains id' = true := by
  rw [addNode]
  split
  · rcases h with rfl | h
    · assumption
    · exact h
  · rw [OrdMap.contains, OrdMap.find?_insert]
    by_cases he : id' = id
    · rw [if_pos he]; rfl
    · rw [if_neg he]
      exact h.resolve_left he

theorem contains_extendNodes (ids : List Nat) (nodes : OrdMap Nat Proto.Node) (id : Nat)
    (h : id ∈ ids ∨ nodes.contains id = true) : (extendNodes nodes ids).contains id = true := by
  induction ids generalizing nodes with
  | nil => exact h.resolve_left (by simp)
  | cons x ids ih =>
    refine ih (addNode nodes x) ?_
    rcases h with h | h
    · rcases List.mem_cons.mp h with rfl | h
      · exact Or.inr (contains_addNode nodes id id (Or.inl rfl))
      · exact Or.inl h
    · exact Or.inr (contains_addNode nodes x id (Or.inr h))

theorem extendNodes_of_contains (ids : List Nat) (nodes : OrdMap Nat Proto.Node)
    (h : ∀ id ∈ ids, nodes.contains id = true) : extendNodes nodes ids = nodes := by
  induction ids with
  | nil => rfl
  | cons x ids ih =>
    have hx : addNode nodes x = nodes := if_pos (h x List.mem_cons_self)
    rw [extendNodes, List.foldl_cons, hx]
    exact ih fun id hid => h id (List.mem_cons_of_mem x hid)

/-- `Membership::new`. -/
def new (configs : List NodeSet) (nodes : OrdMap Nat Proto.Node) : Membership :=
  ⟨configs, extendNodes nodes (configs.flatMap OrdMap.keys), fun c hc _ hid =>
    contains_extendNodes _ _ _ (Or.inl (List.mem_flatMap.mpr ⟨c, hc, hid⟩))⟩

theorem new_self (m : Membership) : new m.configs m.nodes = m := by
  have hext : extendNodes m.nodes (m.configs.flatMap OrdMap.keys) = m.nodes := by
    refine extendNodes_of_contains _ _ fun id hid => ?_
    obtain ⟨c, hc, hk⟩ := List.mem_flatMap.mp hid
    exact m.covered c hc id hk
  cases m
  simp only [new, hext]

def toProto (m : Membership) : Proto.Membership := ⟨m.configs.map fun c => ⟨c.keys⟩, m.nodes⟩

def tryFrom (m : Proto.Membership) : Membership :=
  new (m.configs.map fun s => NodeSet.ofList s.nodeIds) m.nodes

@[simp] theorem tryFrom_toProto (m : Membership) : tryFrom m.toProto = m := by
  have hconf : (m.configs.map fun c => (⟨c.keys⟩ : Proto.NodeIdSet)).map
      (fun s => NodeSet.ofList s.nodeIds) = m.configs := by
    rw [List.map_map]
    conv_rhs => rw [← List.map_id m.configs]
    exact List.map_congr_left fun c _ => NodeSet.ofList_keys c
  rw [tryFrom, toProto, hconf, new_self]

end Membership

/-- The membership in force and the log id that put it there. -/
structure StoredMembership where
  logId : Option LogId
  membership : Membership
  deriving DecidableEq

instance : Inhabited StoredMembership := ⟨⟨none, ⟨[], ∅, by simp⟩⟩⟩

inductive EntryPayload where
  | blank
  | normal (command : Proto.Command)
  | membership (membership : Membership)
  deriving DecidableEq

structure Entry where
  logId : LogId
  payload : EntryPayload
  deriving DecidableEq

/-! ## conversions -/

/-- `ConversionError::MissingField`, by the name of the field. -/
structure ConversionError where
  field : String
  deriving DecidableEq, Repr

def require (o : Option α) (field : String) : Except ConversionError α :=
  match o with
  | some a => .ok a
  | none => .error ⟨field⟩

namespace LeaderId

def toProto (l : LeaderId) : Proto.LeaderId := ⟨l.term, l.nodeId⟩

def ofProto (l : Proto.LeaderId) : LeaderId := ⟨l.term, l.nodeId⟩

@[simp] theorem ofProto_toProto (l : LeaderId) : ofProto l.toProto = l := rfl

end LeaderId

namespace Vote

def toProto (v : Vote) : Proto.Vote := ⟨some v.leaderId.toProto, v.committed⟩

def tryFrom (v : Proto.Vote) : Except ConversionError Vote := do
  let leaderId ← require v.leaderId "Vote.leader_id"
  .ok ⟨.ofProto leaderId, v.committed⟩

@[simp] theorem tryFrom_toProto (v : Vote) : tryFrom v.toProto = .ok v := rfl

end Vote

namespace LogId

def toProto (l : LogId) : Proto.LogId := ⟨some l.leaderId.toProto, l.index⟩

def tryFrom (l : Proto.LogId) : Except ConversionError LogId := do
  let leaderId ← require l.leaderId "LogId.leader_id"
  .ok ⟨.ofProto leaderId, l.index⟩

@[simp] theorem tryFrom_toProto (l : LogId) : tryFrom l.toProto = .ok l := rfl

end LogId

/-- `Option::map(TryInto::try_into).transpose()`. -/
def tryOption (f : α → Except ε β) : Option α → Except ε (Option β)
  | none => .ok none
  | some a =>
    match f a with
    | .ok b => .ok (some b)
    | .error e => .error e

theorem tryOption_map {f : β → Except ε α} {g : α → β} (h : ∀ a, f (g a) = .ok a)
    (o : Option α) : tryOption f (o.map g) = .ok o := by
  cases o with
  | none => rfl
  | some a => simp only [Option.map_some, tryOption, h]

namespace StoredMembership

def toProto (s : StoredMembership) : Proto.StoredMembership :=
  ⟨s.logId.map LogId.toProto, some s.membership.toProto⟩

def tryFrom (s : Proto.StoredMembership) : Except ConversionError StoredMembership := do
  let logId ← tryOption LogId.tryFrom s.logId
  let membership ← require s.membership "StoredMembership.membership"
  .ok ⟨logId, .tryFrom membership⟩

@[simp] theorem tryFrom_toProto (s : StoredMembership) : tryFrom s.toProto = .ok s := by
  simp only [tryFrom, toProto, tryOption_map LogId.tryFrom_toProto, require, bind, Except.bind,
    Membership.tryFrom_toProto]

end StoredMembership

namespace EntryPayload

def toProto : EntryPayload → Proto.Payload
  | blank => .blank
  | normal command => .normal command
  | membership m => .membership m.toProto

def ofProto : Proto.Payload → EntryPayload
  | .blank => blank
  | .normal command => normal command
  | .membership m => membership (.tryFrom m)

@[simp] theorem ofProto_toProto (p : EntryPayload) : ofProto p.toProto = p := by
  cases p with
  | blank => rfl
  | normal command => rfl
  | membership m => rw [toProto, ofProto, Membership.tryFrom_toProto]

end EntryPayload

namespace Entry

def toProto (e : Entry) : Proto.Entry := ⟨some e.logId.toProto, some e.payload.toProto⟩

def tryFrom (e : Proto.Entry) : Except ConversionError Entry := do
  let logId ← require e.logId "Entry.log_id"
  let logId ← LogId.tryFrom logId
  let payload ← require e.payload "Entry.payload"
  .ok ⟨logId, .ofProto payload⟩

/-- **Entry conversion round trip.** -/
@[simp] theorem tryFrom_toProto (e : Entry) : tryFrom e.toProto = .ok e := by
  simp only [tryFrom, toProto, require, bind, Except.bind, LogId.tryFrom_toProto,
    EntryPayload.ofProto_toProto]

end Entry

end Lumen.Raft
