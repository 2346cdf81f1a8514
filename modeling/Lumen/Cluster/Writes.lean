import Lumen.Cluster.Requests

/-!
# Lumen.Cluster.Writes

What a client of the cluster can rely on once its write is answered.

* `acknowledged_create_in_force` — an acknowledged create is the one in force,
  unless a create with another mapping was committed behind its check.
* `acknowledged_index_takes_effect` — an acknowledged document is stored, if
  its collection is there when the command is applied.
* `admission_suffices` — no node stops, and every stored document passes
  validation, when each document command finds its collection absent or with a
  mapping that accepts the document and Tantivy's builder takes every mapping.

The checks are made on the leader's applied catalog and not repeated, so each
condition is about what is committed between the check and the command.
-/

namespace Lumen

open Lib Prog Raft Replay

/-! ## runs of one leader -/

section
open Reference

/-- A cluster of node 1 alone. -/
def oneVoter : Membership := .new [NodeSet.ofList [1]] ∅

/-- The leader of the fixed runs. -/
def leaderOne : LeaderId := ⟨1, 1⟩

/-- A text field `f`. -/
def textMapping : Mapping := ⟨OrdMap.ofList [("f", ⟨.text, true, false⟩)], by decide +kernel⟩

/-- A number field `f`. -/
def numberMapping : Mapping := ⟨OrdMap.ofList [("f", ⟨.i64, true, false⟩)], by decide +kernel⟩

/-- A document whose `f` is a text. -/
def textSource : Bytes := "\x7b\"f\":\"v\"\x7d".toUTF8.toList

theorem exists_of_any {α : Type} {o : Option α} {p : α → Bool} (h : o.any p = true) :
    ∃ a, o = some a ∧ p a = true := by
  cases o with
  | none => contradiction
  | some a => exact ⟨a, rfl, h⟩

/-- Whether the call at a position has been answered so. -/
def answeredAs (s : Cluster) (call : Nat) (request : Request) (i : Nat) (outcome : Outcome) : Bool :=
  s.calls[call]?.any fun c => c.request = request ∧ c.phase = .answered i outcome

theorem mem_of_answeredAs {s : Cluster} {call i : Nat} {request : Request} {outcome : Outcome}
    (h : answeredAs s call request i outcome = true) :
    ∃ c ∈ s.calls, c.request = request ∧ c.phase = .answered i outcome := by
  obtain ⟨c, hc, hp⟩ := exists_of_any h
  obtain ⟨hreq, hans⟩ := of_decide_eq_true hp
  exact ⟨c, List.mem_of_getElem? hc, hreq, hans⟩

end

/-! ## creates -/

section
variable [Ext] {membership : Membership} {s : Cluster} {c : Call} {log : List Raft.Entry} {i : Nat}

/-- A create with another mapping was committed in `(a, i)`, found the name
free, and was not dropped up to `i`. -/
def Overtaken (log : List Raft.Entry) (a i : Nat) (name : String) (mapping : Mapping) : Prop :=
  ∃ k u x, a < k ∧ k < i ∧ (logOf (commandAt log) name).Born k u x ∧ x ≠ mapping ∧
    ¬ (logOf (commandAt log) name).DropIn k i

theorem CallOk.committedAt {outcome : Outcome} (h : CallOk log c)
    (hans : c.phase = .answered i outcome) : CommittedAt log c i := by
  have hphase := h.phase
  rw [hans] at hphase
  exact hphase.1

/-- The event of an accepted create. -/
theorem CallOk.create_event {name : String} {mapping : Mapping} {outcome : Outcome}
    (h : CallOk log c) (hreq : c.request = .createCollection name mapping)
    (hans : c.phase = .answered i outcome) :
    logOf (commandAt log) name i = .create c.minted mapping := by
  have hadm := h.admits
  rw [hreq] at hadm
  rw [logOf, (h.committedAt hans).command, hadm.2,
    eventOf_create rfl (createUuid_fmtUuid ..) (createMapping_toProto ..), if_pos rfl]

/-- What a create that was not overtaken leaves in force. -/
theorem CallOk.create_iff {name : String} {mapping : Mapping} {outcome : Outcome}
    (h : CallOk log c) (hreq : c.request = .createCollection name mapping)
    (hans : c.phase = .answered i outcome) :
    (∃ g, bound log i name = some g ∧ g.info = mapping) ↔
      ¬ Overtaken log c.admitted i name mapping := by
  have hat := h.committedAt hans
  have hev := h.create_event hreq hans
  have hadm := h.admits
  rw [hreq] at hadm
  obtain ⟨r, rfl⟩ : ∃ r, i = r + 1 := ⟨i - 1, by have := hat.admitted_lt; omega⟩
  have hnot : ∀ k, ¬ (logOf (commandAt log) name).DropIn k r →
      ¬ (logOf (commandAt log) name).DropIn k (r + 1) :=
    fun k hd => Log.not_dropIn_succ hd (by rw [hev]; simp)
  have hstep : bound log (r + 1) name =
      (Event.create c.minted mapping).step (bound log r name) := by
    rw [← hev]
    rfl
  -- what was overtaken by a birth is what that birth has left
  have hborn : ∀ k u x, k < r + 1 → (logOf (commandAt log) name).Born k u x →
      ¬ (logOf (commandAt log) name).DropIn k (r + 1) →
      bound log r name = some ⟨u, x, (logOf (commandAt log) name).docsFrom k r⟩ :=
    fun k u x hk hb hd => hb.stateAt_eq (by omega) fun h' => hd (h'.mono le_rfl (Nat.le_succ r))
  rw [hstep]
  cases hprev : bound log r name with
  | none =>
    constructor
    · rintro _ ⟨k, u, x, _, hk, hb, _, hd⟩
      rw [hborn k u x hk hb hd] at hprev
      contradiction
    · exact fun _ => ⟨_, rfl, rfl⟩
  | some g =>
    constructor
    · rintro ⟨g', hg', hinfo⟩ ⟨k, u, x, _, hk, hb, hx, hd⟩
      injection hg' with hg'
      rw [hborn k u x hk hb hd, Option.some.injEq] at hprev
      rw [← hg', ← hprev] at hinfo
      exact hx hinfo
    · intro hno
      refine ⟨g, rfl, ?_⟩
      by_contra hne
      obtain ⟨j, hb, hj, hd⟩ := Log.exists_born hprev
      refine hno ⟨j, g.uuid, g.info, ?_, by omega, hb, hne, hnot j hd⟩
      -- the check found the name free, so the birth is behind it
      by_contra hle
      have hfree := hb.stateAt_eq (by omega : j ≤ c.admitted) fun h' =>
        hd (h'.mono le_rfl (by have := hat.admitted_lt; omega))
      have hnone : bound log c.admitted name = none := hadm.1
      rw [bound, hfree] at hnone
      contradiction

/-- Without a drop, a name stays bound to its mapping. -/
theorem bound_info {name : String} {g : Gen Uuid Mapping String Bytes} {i' : Nat}
    (h : bound log i name = some g) (hle : i ≤ i')
    (hd : ¬ (logOf (commandAt log) name).DropIn i i') :
    ∃ g', bound log i' name = some g' ∧ g'.info = g.info := by
  obtain ⟨j, hb, hj, hd'⟩ := Log.exists_born h
  have hnd : ¬ (logOf (commandAt log) name).DropIn j i' := fun h' => by
    rcases h'.split i with h' | h'
    · exact hd' h'
    · exact hd h'
  exact ⟨_, hb.stateAt_eq (hj.trans hle) hnd, rfl⟩

/-- **An acknowledged create is the create in force** exactly when no create
with another mapping has overtaken it; and two such creates of one name with
different mappings have a drop between them. -/
theorem acknowledged_create_in_force (h : Cluster.Reachable membership s) (hc : c ∈ s.calls)
    {name : String} {mapping : Mapping} (hreq : c.request = .createCollection name mapping)
    (hans : c.phase = .answered i (.create mapping true)) :
    ((∃ g, bound s.log i name = some g ∧ g.info = mapping) ↔
        ¬ Overtaken s.log c.admitted i name mapping) ∧
      (¬ Overtaken s.log c.admitted i name mapping →
        ∀ c' ∈ s.calls, ∀ mapping' i', c'.request = .createCollection name mapping' →
          c'.phase = .answered i' (.create mapping' true) →
          ¬ Overtaken s.log c'.admitted i' name mapping' → mapping ≠ mapping' → i < i' →
          (logOf (commandAt s.log) name).DropIn i i') := by
  have hok := h.inv.calls c hc
  refine ⟨hok.create_iff hreq hans, fun hno c' hc' mapping' i' hreq' hans' hno' hne hlt => ?_⟩
  obtain ⟨g, hg, hinfo⟩ := (hok.create_iff hreq hans).mpr hno
  obtain ⟨g', hg', hinfo'⟩ := ((h.inv.calls c' hc').create_iff hreq' hans').mpr hno'
  by_contra hd
  obtain ⟨g'', hg'', hinfo''⟩ := bound_info hg hlt.le hd
  rw [hg', Option.some.injEq] at hg''
  rw [← hinfo, ← hinfo', hg'', hinfo''] at hne
  exact hne rfl

end

section
open Reference

/-- A create whose client has gone away frees the mutex with its entry in
flight; a second create of the name passes its check, and both are
committed. -/
def abandonedCreate : List Action :=
  [.elect (some 1), .apply 1 .stored,
    .accept 1 (.createCollection "a" textMapping) (exampleUuid 1), .abandon 0,
    .accept 1 (.createCollection "a" numberMapping) (exampleUuid 2),
    .commit 0 leaderOne, .commit 1 leaderOne, .apply 1 .stored, .apply 1 .stored]

/-- The second create is acknowledged, and the first one is in force. -/
theorem acknowledged_create_not_in_force :
    ∃ s c, (Cluster.start oneVoter).exec abandonedCreate = some s ∧ c ∈ s.calls ∧
      c.request = .createCollection "a" numberMapping ∧
      c.phase = .answered 2 (.create numberMapping true) ∧
      (bound s.log 2 "a").map Gen.info = some textMapping := by
  have hrun : ((Cluster.start oneVoter).exec abandonedCreate).any (fun s =>
      answeredAs s 1 (.createCollection "a" numberMapping) 2 (.create numberMapping true) &&
        decide ((bound s.log 2 "a").map Gen.info = some textMapping)) = true := by
    decide +kernel
  obtain ⟨s, hs, hp⟩ := exists_of_any hrun
  obtain ⟨hans, hb⟩ := (Bool.and_eq_true _ _).mp hp
  obtain ⟨c, hc, hreq, hphase⟩ := mem_of_answeredAs hans
  exact ⟨s, c, hs, hc, hreq, hphase, of_decide_eq_true hb⟩

/-- A create, a drop and a create with another mapping. -/
def recreated : List Action :=
  [.elect (some 1), .apply 1 .stored,
    .accept 1 (.createCollection "a" textMapping) (exampleUuid 1), .commit 0 leaderOne,
    .apply 1 .stored, .accept 1 (.dropCollection "a") (exampleUuid 2), .commit 1 leaderOne,
    .apply 1 .stored, .accept 1 (.createCollection "a" numberMapping) (exampleUuid 3),
    .commit 2 leaderOne, .apply 1 .stored]

/-- Both creates are acknowledged, and each is in force at its index. -/
theorem acknowledged_create_in_force_recreated :
    ∃ s c c', (Cluster.start oneVoter).exec recreated = some s ∧ c ∈ s.calls ∧ c' ∈ s.calls ∧
      c.phase = .answered 1 (.create textMapping true) ∧
      c'.phase = .answered 3 (.create numberMapping true) ∧
      ¬ Overtaken s.log c.admitted 1 "a" textMapping ∧
      ¬ Overtaken s.log c'.admitted 3 "a" numberMapping ∧
      (logOf (commandAt s.log) "a").DropIn 1 3 := by
  have hrun : ((Cluster.start oneVoter).exec recreated).any (fun s =>
      (answeredAs s 0 (.createCollection "a" textMapping) 1 (.create textMapping true) &&
        answeredAs s 2 (.createCollection "a" numberMapping) 3 (.create numberMapping true)) &&
      (decide ((bound s.log 1 "a").map Gen.info = some textMapping) &&
        decide ((bound s.log 3 "a").map Gen.info = some numberMapping))) = true := by
    decide +kernel
  obtain ⟨s, hs, hp⟩ := exists_of_any hrun
  simp only [Bool.and_eq_true, decide_eq_true_eq, Option.map_eq_some_iff] at hp
  obtain ⟨⟨hans, hans'⟩, hb, hb'⟩ := hp
  obtain ⟨c, hc, hreq, hphase⟩ := mem_of_answeredAs hans
  obtain ⟨c', hc', hreq', hphase'⟩ := mem_of_answeredAs hans'
  have hreach := Cluster.Reachable.start.exec hs
  have h1 := acknowledged_create_in_force hreach hc hreq hphase
  have h3 := acknowledged_create_in_force hreach hc' hreq' hphase'
  have hno := h1.1.mp hb
  have hno' := h3.1.mp hb'
  exact ⟨s, c, c', hs, hc, hc', hphase, hphase', hno, hno',
    h1.2 hno c' hc' numberMapping 3 hreq' hphase' hno' (by decide) (by decide)⟩

end

/-! ## documents -/

section
variable [Ext] {membership : Membership} {s : Cluster} {c : Call} {log : List Raft.Entry} {i : Nat}

/-- **An acknowledged index request takes effect** exactly when its collection
is there when the command is applied. -/
theorem acknowledged_index_takes_effect (h : Cluster.Reachable membership s) (hc : c ∈ s.calls)
    {collection id' : String} {id : Option String} {source : Bytes} {created : Bool}
    (hreq : c.request = .index collection id source)
    (hans : c.phase = .answered i (.write id' created)) :
    (id' = Catalog.orNewId id c.minted ∧
        ∃ g, bound s.log i collection = some g ∧ g.docs id' = some source) ↔
      (bound s.log (i - 1) collection).isSome := by
  have hok := h.inv.calls c hc
  have hat := hok.committedAt hans
  have hadm := hok.admits
  rw [hreq] at hadm
  have hphase := hok.phase
  rw [hans] at hphase
  obtain ⟨_, response, houtcome, hid⟩ := hphase
  rw [hreq] at houtcome
  injection houtcome with houtcome _
  have hid := hid collection id source hreq
  rw [← houtcome] at hid
  obtain ⟨r, rfl⟩ : ∃ r, i = r + 1 := ⟨i - 1, by have := hat.admitted_lt; omega⟩
  rw [Nat.add_sub_cancel] at hid ⊢
  have hstep : bound s.log (r + 1) collection =
      (Event.edit (Catalog.orNewId id c.minted) (some source)).step (bound s.log r collection) := by
    have hev : logOf (commandAt s.log) collection (r + 1) =
        .edit (Catalog.orNewId id c.minted) (some source) := by
      rw [logOf, hat.command, hadm.2]
      simp only [eventOf, if_true]
    rw [← hev]
    rfl
  rw [hstep]
  cases hprev : bound s.log r collection with
  | none => simp [Event.step]
  | some g =>
    rw [hprev] at hid
    simp [Event.step, hid]

end

section
open Reference

/-- A document request passes its check, its collection is dropped, and the
document's command is committed behind the drop. -/
def indexBehindDrop : List Action :=
  [.elect (some 1), .apply 1 .stored,
    .accept 1 (.createCollection "a" textMapping) (exampleUuid 1), .commit 0 leaderOne,
    .apply 1 .stored, .accept 1 (.index "a" (some "x") textSource) (exampleUuid 2),
    .accept 1 (.dropCollection "a") (exampleUuid 3), .commit 2 leaderOne, .commit 1 leaderOne,
    .apply 1 .stored, .apply 1 .stored]

/-- The document is acknowledged under an empty id, and its collection is not
there. -/
theorem acknowledged_index_of_dropped_collection :
    ∃ s c, (Cluster.start oneVoter).exec indexBehindDrop = some s ∧ c ∈ s.calls ∧
      c.request = .index "a" (some "x") textSource ∧ c.phase = .answered 3 (.write "" false) ∧
      bound s.log 3 "a" = none := by
  have hrun : ((Cluster.start oneVoter).exec indexBehindDrop).any (fun s =>
      answeredAs s 1 (.index "a" (some "x") textSource) 3 (.write "" false) &&
        (bound s.log 3 "a").isNone) = true := by
    decide +kernel
  obtain ⟨s, hs, hp⟩ := exists_of_any hrun
  obtain ⟨hans, hb⟩ := (Bool.and_eq_true _ _).mp hp
  obtain ⟨c, hc, hreq, hphase⟩ := mem_of_answeredAs hans
  exact ⟨s, c, hs, hc, hreq, hphase, Option.isNone_iff_eq_none.mp hb⟩

/-- A create and a document, one after the other. -/
def createThenIndex : List Action :=
  [.elect (some 1), .apply 1 .stored,
    .accept 1 (.createCollection "a" textMapping) (exampleUuid 1), .commit 0 leaderOne,
    .apply 1 .stored, .accept 1 (.index "a" (some "x") textSource) (exampleUuid 2),
    .commit 1 leaderOne, .apply 1 .stored]

theorem acknowledged_index_takes_effect_created :
    ∃ s c, (Cluster.start oneVoter).exec createThenIndex = some s ∧ c ∈ s.calls ∧
      c.request = .index "a" (some "x") textSource ∧ c.phase = .answered 2 (.write "x" true) ∧
      ∃ g, bound s.log 2 "a" = some g ∧ g.docs "x" = some textSource := by
  have hrun : ((Cluster.start oneVoter).exec createThenIndex).any (fun s =>
      answeredAs s 1 (.index "a" (some "x") textSource) 2 (.write "x" true) &&
        (bound s.log 1 "a").isSome) = true := by
    decide +kernel
  obtain ⟨s, hs, hp⟩ := exists_of_any hrun
  obtain ⟨hans, hb⟩ := (Bool.and_eq_true _ _).mp hp
  obtain ⟨c, hc, hreq, hphase⟩ := mem_of_answeredAs hans
  have h := acknowledged_index_takes_effect (Cluster.Reachable.start.exec hs) hc hreq hphase
  exact ⟨s, c, hs, hc, hreq, hphase, (h.mpr hb).2⟩

end

/-! ## admission -/

section
variable [Ext] {membership : Membership} {s : Cluster} {c : Call} {log : List Raft.Entry} {i : Nat}

variable {d d' : Disk} {m m' : Catalog}

/-- A document the mapping accepts can be built. -/
theorem Accepts.buildDoc {mapping : Mapping} {source : Bytes} (h : Accepts mapping source)
    (id : String) : ∃ parsed doc, fromSlice source = .ok parsed ∧
      buildDoc mapping.toSchema mapping id source parsed = .ok doc := by
  obtain ⟨parsed, hp⟩ := h
  rw [Catalog.parseDocument] at hp
  cases hj : fromSlice source with
  | error e => rw [hj] at hp; contradiction
  | ok value =>
    rw [hj] at hp
    cases hv : mapping.validateDocument value with
    | error e => simp [hv] at hp
    | ok u =>
      obtain ⟨values, hb⟩ := buildDoc_of_validate id source hv
      exact ⟨value, _, rfl, hb⟩

/-- Every stored document of a collection, committed or buffered, is accepted
by its mapping. -/
structure EntryValid (d : Disk) (e : Catalog.Entry) : Prop where
  pending : ∀ id source, view (e.collection.pending d) id = some source →
    Accepts e.collection.mapping source
  saved : ∀ ix, d.index e.uuid = some ix → ∀ id source, view ix.docs id = some source →
    Accepts e.collection.mapping source

/-- Every stored document satisfies its collection's mapping. -/
def Valid (d : Disk) (m : Catalog) : Prop :=
  ∀ n e, m.collections.find? n = some e → EntryValid d e

theorem EntryValid.congr {e : Catalog.Entry} (h : EntryValid d e) (he : EntryOk d e)
    (hidx : d'.index e.uuid = d.index e.uuid) : EntryValid d' e where
  pending := by
    have hp : e.collection.pending d' = e.collection.pending d := by
      rw [Collection.pending, Collection.pending, he.uuid, hidx]
    rw [hp]
    exact h.pending
  saved := by
    rw [hidx]
    exact h.saved

theorem Valid.effect {ord : IterOrder} {cmd : Proto.Command} (h : Valid d m) (hs : Sound d m)
    (hno : NoOrphans d m) (he : Effect ord i cmd d m d' m')
    (hfit : ∀ n e id source, m.collections.find? n = some e →
      eventOf n cmd = .edit id (some source) → Accepts e.collection.mapping source) :
    Valid d' m' := by
  refine he.entries (P := fun d _ e => EntryValid d e) hs.based
    (fun n e d' hf hidx _ => (h n e hf).congr (hs.entry n e hf) hidx)
    (fun n u x ix d' _ hix hidx => ?_) fun n e id v ops hf hev hops => ?_
  · -- a new collection has no documents
    have hnew : ix.docs = [] := by
      rcases hix with ⟨hix, hopen⟩ | ⟨_, rfl⟩
      · rw [hno.index_eq_none hopen] at hix
        contradiction
      · rfl
    constructor
    · intro id source hsrc
      simp [Collection.pending, Collection.fromIndex, hidx, WriterOp.execAll, hnew, view_nil] at hsrc
    · intro ix' hix' id source hsrc
      rw [hidx, Option.some.injEq] at hix'
      rw [← hix', hnew] at hsrc
      contradiction
  · have hv := h n e hf
    refine ⟨fun id' source hsrc => ?_, hv.saved⟩
    have hsrc : view (WriterOp.execAll (e.collection.writer ++ ops) _) id' = some source := hsrc
    rw [WriterOp.execAll_append, hops, Function.update_apply] at hsrc
    split at hsrc
    · exact hfit n e id source hf (hsrc ▸ hev)
    · exact hv.pending id' source hsrc

theorem Valid.stable (mark : LogMark) : Stable (fun d m => Sound d m ∧ Valid d m) mark where
  sound _ _ h := h.1
  commit d m name e ix h hf hix := by
    obtain ⟨hs, hv⟩ := h
    have he := hs.entry name e hf
    refine ⟨hs.committed hf hix mark, entries_committed (P := fun d _ e => EntryValid d e) hs hf ?_
      fun n e' d' hf' hidx => (hv n e' hf').congr (hs.entry n e' hf') hidx⟩
    have hp : e.collection.pending d = WriterOp.execAll e.collection.writer ix.docs := by
      simp [Collection.pending, he.uuid, hix]
    have hpending := (hv name e hf).pending
    rw [hp] at hpending
    constructor
    · simpa [Collection.pending, Collection.committed, he.uuid, Disk.committed, Disk.index_setDir,
        Index.committed, WriterOp.execAll] using hpending
    · intro ix' hix'
      rw [Disk.committed, Disk.index_setDir, if_pos rfl, Option.some.injEq] at hix'
      rw [← hix']
      exact hpending
  persist d m ord h := by
    refine ⟨⟨fun n e hf => (h.1.entry n e hf).congr rfl, h.1.inj⟩, fun n e hf => ?_⟩
    exact (h.2 n e hf).congr (h.1.entry n e hf) rfl
  tmp d m tmp h := by
    refine ⟨⟨fun n e hf => (h.1.entry n e hf).congr rfl, h.1.inj⟩, fun n e hf => ?_⟩
    exact (h.2 n e hf).congr (h.1.entry n e hf) rfl

/-- Every document command of a log finds its collection absent, or with a
mapping that accepts the document. -/
def Fits (log : List Raft.Entry) : Prop :=
  ∀ i index g, (commandAt log i).op = some (.indexDocument index) →
    bound log (i - 1) index.collection = some g → Accepts g.info index.source

omit [Ext] in
theorem commandAt_of_le (h : log.length ≤ i) : commandAt log i = ⟨none⟩ := by
  rw [commandAt, List.getElem?_eq_none h]

theorem Fits.of_prefix {log' : List Raft.Entry} (h : Fits log') (hlog : log <+: log') :
    Fits log := by
  intro i index g hop hb
  rcases Nat.lt_or_ge i log.length with hi | hi
  · refine h i index g ?_ ?_
    · rw [commandAt_of_isPrefix hlog hi]
      exact hop
    · rw [bound_of_isPrefix hlog (by omega)]
      exact hb
  · rw [commandAt_of_le hi] at hop
    contradiction

theorem DistinctUuids.of_prefix {log' : List Raft.Entry} (h : DistinctUuids (commandAt log'))
    (hlog : log <+: log') : DistinctUuids (commandAt log) := by
  have hev : ∀ i n u x, eventOf n (commandAt log i) = .create u x →
      eventOf n (commandAt log' i) = .create u x := by
    intro i n u x hi
    rcases Nat.lt_or_ge i log.length with hlt | hge
    · rwa [commandAt_of_isPrefix hlog hlt]
    · rw [commandAt_of_le hge] at hi
      contradiction
  exact fun i j n n' u x y hi hj => h i j n n' u x y (hev i n u x hi) (hev j n' u y hj)

omit [Ext] in
theorem noDash_of_prefix {log' : List Raft.Entry} (h : ∀ i, (commandAt log' i).NoDash)
    (hlog : log <+: log') (i : Nat) : (commandAt log i).NoDash := by
  rcases Nat.lt_or_ge i log.length with hi | hi
  · rw [← commandAt_of_isPrefix hlog hi]
    exact h i
  · rw [commandAt_of_le hi]
    intro c x hop
    contradiction

/-- The next entry is applicable on a node that holds the log before it. -/
theorem LogOk.applicable (h : LogOk log) (hd : DistinctUuids (commandAt log)) (hfit : Fits log)
    (ht : Tidy (bound log (i - 1)) i d m) : Applicable d m i (commandAt log i) := by
  rw [Applicable]
  split
  · rename_i c hop
    obtain ⟨u, x, hu, hx⟩ := h.formed i c hop
    refine ⟨⟨x, hx⟩, fun hfree => ⟨u, hu, fun hcontains => ?_⟩⟩
    -- a directory of this identity would come from an earlier create
    obtain ⟨n, e, hf, he⟩ := ht.noOrphans u hcontains
    obtain ⟨j, hb, hj, _⟩ := Log.exists_born (ht.toHolds.eq_some hf)
    have hev : eventOf c.collection (commandAt log i) = .create u x := by
      rw [eventOf_create hop hu hx, if_pos rfl]
    have huuid : (e.toGen d).uuid = u := he
    rw [huuid] at hb
    have hji := (hd.eq hb.2.1 hev).1
    have hpos := hb.1
    omega
  · rename_i index hop
    intro e hf _
    rw [(ht.sound.entry _ e hf).schema]
    exact (hfit i index _ hop (ht.toHolds.eq_some hf)).buildDoc index.id
  · trivial

/-- No node has stopped, and every node's documents are valid. -/
def Healthy (r : Replica) : Prop := r.fault = none ∧ Valid r.disk.data r.sm.catalog

theorem Healthy.update {node : Nat} {r : Replica} (h : ∀ n, Healthy (s.replica n))
    (hr : Healthy r) (n : Nat) : Healthy ((s.setReplica node r).replica n) := by
  show Healthy (Function.update s.replica node r n)
  rw [Function.update_apply]
  split
  · exact hr
  · exact h n

theorem Healthy.apply {s' : Cluster} {node : Nat} {ord : IterOrder}
    (h : ∀ n, Healthy (s.replica n)) (hI : s.Inv) (hd : DistinctUuids (commandAt s.log))
    (hfit : Fits s.log) (hdash : ∀ i, (commandAt s.log i).NoDash)
    (hs : s.apply node ord = some s') : ∀ n, Healthy (s'.replica n) := by
  rw [Cluster.apply] at hs
  split at hs
  · rename_i entry hfault hentry
    have ht := (hI.replica node).tidy hfault
    have hindex := hI.log.index _ entry hentry
    have hcmd : commandAt s.log (s.replica node).next = entry.command := by
      rw [commandAt, hentry]
    have happ := hI.log.applicable hd hfit ht
    rw [hcmd, ← hindex] at happ
    have hw := wp_applyEntry (C := fun _ => True) (E := fun _ _ _ => False)
      (Q := fun _ d m => Valid d.data m.catalog) ord entry ht.sound.based (fun _ => trivial)
      (fun _ _ _ hna => hna happ) fun a d' m' he =>
        (h node).2.effect ht.sound ht.noOrphans he fun n e id source hf hev => ?_
    · have hnoDash : entry.command.NoDash := hcmd ▸ hdash _
      obtain ⟨response, d', m', hrun, hv⟩ :=
        run_ok_of_wp ((wp_applyEntryWith_iff (hnoDash.buildable _ _)).mpr hw)
      rw [hrun] at hs
      injection hs with hs
      subst hs
      exact Healthy.update h ⟨rfl, hv⟩
    · have hop := op_of_edit_some hev
      rw [← hcmd] at hop
      exact hfit _ _ _ hop (ht.toHolds.eq_some hf)
  · contradiction

theorem Healthy.call {s' : Cluster} {node : Nat} {mark : LogMark} {p : CatalogM Unit}
    (h : ∀ n, Healthy (s.replica n)) (hI : s.Inv)
    (hp : ∀ d m, Sound d m ∧ Valid d m → wp p (fun _ d m => Sound d m ∧ Valid d m)
      (fun _ d m => Sound d m ∧ Valid d m) (fun _ => True) d m)
    (hs : s.call node mark p = some s') : ∀ n, Healthy (s'.replica n) := by
  rw [Cluster.call] at hs
  split at hs
  · rename_i hcond
    injection hs with hs
    subst hs
    have hw : wp (StateMachine.onCatalog StateMachine.writeSm p)
        (fun _ d m => Sound d.data m.catalog ∧ Valid d.data m.catalog)
        (fun _ d m => Sound d.data m.catalog ∧ Valid d.data m.catalog) (fun _ => True)
        (s.replica node).disk (s.replica node).sm :=
      wp_onCatalog _ _ (hp _ _ ⟨((hI.replica node).tidy hcond.1).sound, (h node).2⟩)
    exact Healthy.update h ⟨rfl, (final_of_wp hw rfl).2⟩
  · contradiction

theorem Healthy.start (membership : Membership) (n : Nat) :
    Healthy ((Cluster.start membership).replica n) := by
  refine ⟨rfl, fun name e hf => ?_⟩
  contradiction

/-- **Admission suffices** where every committed document command finds its
collection absent or with a mapping that accepts the document, and Tantivy's
builder takes the mapping of every committed create: no node stops on a committed
command, and every stored document passes validation. -/
theorem admission_suffices (h : Cluster.Reachable membership s)
    (hd : DistinctUuids (commandAt s.log)) (hfit : Fits s.log)
    (hdash : ∀ i, (commandAt s.log i).NoDash) (n : Nat) :
    (s.replica n).fault = none ∧ Valid (s.replica n).disk.data (s.replica n).sm.catalog := by
  suffices hall : ∀ n, Healthy (s.replica n) from hall n
  induction h with
  | start => exact Healthy.start membership
  | @step s s' prev a hs ih =>
    have hlog := Cluster.step_log hs
    have hd := hd.of_prefix hlog
    have hfit := hfit.of_prefix hlog
    have hdash := noDash_of_prefix hdash hlog
    have ih := ih hd hfit hdash
    have hI := prev.inv
    cases a with
    | apply node ord => exact Healthy.apply ih hI hd hfit hdash hs
    | checkpoint node ord mark =>
      exact Healthy.call ih hI (fun d m hv => (Valid.stable mark).wp_checkpointApplied hv
        (fun _ _ _ => trivial) (fun _ _ h' _ => h') ord) hs
    | commitCollection node name mark =>
      exact Healthy.call ih hI (fun d m hv => (Valid.stable mark).wp_commitCollection hv
        (fun _ _ _ => trivial) (fun _ _ h' => h') fun _ _ => hv) hs
    | accept node request minted =>
      simp only [Cluster.step, Cluster.accept] at hs
      split at hs
      · split at hs
        · injection hs with hs
          subst hs
          exact ih
        · contradiction
      · contradiction
    | commit call leaderId =>
      simp only [Cluster.step, Cluster.commit] at hs
      split at hs
      · contradiction
      · split at hs
        · injection hs with hs
          subst hs
          exact ih
        · contradiction
    | _ =>
      injection hs with hs
      subst hs
      exact ih

end

section
open Reference

/-- A document request passes its check, and the collection is dropped and
created again with another type of the field before the command is
committed. -/
def retypedCollection : List Action :=
  [.elect (some 1), .apply 1 .stored,
    .accept 1 (.createCollection "a" textMapping) (exampleUuid 1), .commit 0 leaderOne,
    .apply 1 .stored, .accept 1 (.index "a" (some "x") textSource) (exampleUuid 2),
    .accept 1 (.dropCollection "a") (exampleUuid 3), .commit 2 leaderOne, .apply 1 .stored,
    .accept 1 (.createCollection "a" numberMapping) (exampleUuid 4), .commit 3 leaderOne,
    .apply 1 .stored, .commit 1 leaderOne, .apply 1 .stored]

/-- A create whose field the builder refuses passes its check. -/
def dashedCreate : List Action :=
  [.elect (some 1), .apply 1 .stored,
    .accept 1 (.createCollection "a" dashMapping) (exampleUuid 1), .commit 0 leaderOne,
    .apply 1 .stored]

theorem fault_of_any {acts : List Action} {e : StorageError}
    (h : ((Cluster.start oneVoter).exec acts).any
      (fun s => (s.replica 1).fault = some e) = true) :
    ∃ s, (Cluster.start oneVoter).exec acts = some s ∧ (s.replica 1).fault = some e := by
  obtain ⟨s, hs, hp⟩ := exists_of_any h
  exact ⟨s, hs, of_decide_eq_true hp⟩

/-- The node stops on the document's command, and on the create. -/
theorem admission_insufficient :
    (∃ s, (Cluster.start oneVoter).exec retypedCollection = some s ∧
      (s.replica 1).fault = some (.apply ⟨leaderOne, 4⟩
        (.core (.validation "field value does not match type I64")))) ∧
    ∃ s, (Cluster.start oneVoter).exec dashedCreate = some s ∧
      (s.replica 1).fault = some (.apply ⟨leaderOne, 1⟩
        (.core (.panicked "assertion failed: is_valid_field_name(&field_name)"))) :=
  ⟨fault_of_any (by decide +kernel), fault_of_any (by decide +kernel)⟩

/-- The log of `createThenIndex`. -/
def createThenIndexLog : List Raft.Entry :=
  [⟨⟨⟨0, 0⟩, 0⟩, .membership oneVoter⟩,
    ⟨⟨leaderOne, 1⟩, .normal ⟨some (.createCollection
      ⟨"a", fmtUuid (exampleUuid 1), some textMapping.toProto⟩)⟩⟩,
    ⟨⟨leaderOne, 2⟩, .normal ⟨some (.indexDocument ⟨"a", "x", textSource⟩)⟩⟩]

theorem createThenIndexLog_create {i : Nat} {n : String} {u : Uuid} {x : Mapping}
    (h : eventOf n (commandAt createThenIndexLog i) = .create u x) : i = 1 := by
  obtain ⟨c, hop, _⟩ := eventOf_eq_create_iff.mp h
  match i with
  | 0 => contradiction
  | 1 => rfl
  | 2 => simp [commandAt, createThenIndexLog, Raft.Entry.command] at hop
  | _ + 3 => contradiction

theorem createThenIndexLog_fits : Fits createThenIndexLog := by
  intro i index g hop hb
  match i with
  | 0 => contradiction
  | 1 => simp [commandAt, createThenIndexLog, Raft.Entry.command] at hop
  | 2 =>
    have hindex : index = ⟨"a", "x", textSource⟩ := by
      simpa [commandAt, createThenIndexLog, Raft.Entry.command] using hop.symm
    subst hindex
    have hinfo : (bound createThenIndexLog 1 "a").map Gen.info = some textMapping := by
      decide +kernel
    rw [hb, Option.map_some, Option.some.injEq] at hinfo
    have hparse : (Catalog.parseDocument textMapping textSource).toBool = true := by
      decide +kernel
    rw [hinfo]
    cases hp : Catalog.parseDocument textMapping textSource with
    | error e => rw [hp] at hparse; contradiction
    | ok parsed => exact ⟨parsed, hp⟩
  | _ + 3 => contradiction

theorem createThenIndexLog_distinct : DistinctUuids (commandAt createThenIndexLog) :=
  fun _ _ _ _ _ _ _ hi hj =>
    (createThenIndexLog_create hi).trans (createThenIndexLog_create hj).symm

theorem createThenIndexLog_noDash (i : Nat) : (commandAt createThenIndexLog i).NoDash := by
  intro c x hop hx
  match i with
  | 0 => contradiction
  | 1 =>
    obtain rfl : _ = c := by
      simpa [commandAt, createThenIndexLog, Raft.Entry.command] using hop
    have hmapping : (Catalog.createMapping ⟨"a", fmtUuid (exampleUuid 1),
        some textMapping.toProto⟩).toOption = some textMapping := by decide +kernel
    rw [hx, Except.toOption, Option.some.injEq] at hmapping
    subst hmapping
    exact Mapping.noDash_iff.mpr (by decide)
  | 2 => simp [commandAt, createThenIndexLog, Raft.Entry.command] at hop
  | _ + 3 => contradiction

/-- The node has applied both entries, and the document it holds is valid. -/
theorem admission_suffices_created :
    ∃ s, (Cluster.start oneVoter).exec createThenIndex = some s ∧ (s.replica 1).next = 3 ∧
      (s.replica 1).fault = none ∧
      Valid (s.replica 1).disk.data (s.replica 1).sm.catalog := by
  have hrun : ((Cluster.start oneVoter).exec createThenIndex).any (fun s =>
      decide (s.log = createThenIndexLog) && decide ((s.replica 1).next = 3)) = true := by
    decide +kernel
  obtain ⟨s, hs, hp⟩ := exists_of_any hrun
  obtain ⟨hlog, hnext⟩ := (Bool.and_eq_true _ _).mp hp
  have hlog := of_decide_eq_true hlog
  have h := admission_suffices (Cluster.Reachable.start.exec hs)
    (by rw [hlog]; exact createThenIndexLog_distinct)
    (by rw [hlog]; exact createThenIndexLog_fits)
    (by rw [hlog]; exact createThenIndexLog_noDash) 1
  exact ⟨s, hs, of_decide_eq_true hnext, h.1, h.2⟩

end

end Lumen
