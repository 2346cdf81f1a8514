import Lumen.Catalog.Distinct
import Lumen.Leader.Inv
import Lumen.Search

/-!
# Lumen.Leader.Searches

Searches on a node of a cluster (`Cluster::search`), between the steps of all other
tasks.

A search looks its collection up, which waits for the lock of the map, and reads
afterwards through the reader of the handle: the reader may have been reloaded in
between, and the collection may have been dropped, which leaves the reader as it is.
Tantivy's own watcher reloads a reader whenever a commit has been published.

A search makes no commit of its own, so it may miss what is applied.  It never mixes
two states, and it never goes back behind an earlier search of the same collection
(`searches_read_growing_prefixes`).
-/

namespace Lumen

open Lib Prog Raft Replay

/-! ## searches -/

/-- A search that holds its collection. -/
structure Search where
  collection : String
  target : Collection
  query : String
  limit : Nat
  offset : Nat

/-- What readers show under a name and an identity, after a step that leads to `m`; one whose
collection the map does not hold stays as it is. -/
def Catalog.readers (m : Catalog) (old : String → Uuid → List Doc) (name : String) (uuid : Uuid) :
    List Doc :=
  match m.collections.find? name with
  | some e => if e.uuid = uuid then e.collection.searcher else old name uuid
  | none => old name uuid

theorem Catalog.readers_of_find {m : Catalog} {old : String → Uuid → List Doc} {n : String}
    {e : Catalog.Entry} (hf : m.collections.find? n = some e) :
    m.readers old n e.uuid = e.collection.searcher := by
  rw [readers, hf]
  exact if_pos rfl

theorem Catalog.readers_of_not_find {m : Catalog} {old : String → Uuid → List Doc} {n : String}
    {u : Uuid} (h : ∀ e, m.collections.find? n = some e → e.uuid ≠ u) :
    m.readers old n u = old n u := by
  rw [readers]
  split
  · rename_i e hf
    exact if_neg (h e hf)
  · rfl

section
variable [Ext] [Queries]

/-- A node, its readers, the searches that hold a collection, and those that have been
answered, the last one first. -/
structure Searching where
  node : Leader
  readers : String → Uuid → List Doc
  running : List Search
  answered : List (Search × Except Error SearchResults)

namespace Searching

inductive Action where
  | node (action : Leader.Action)
  | watch (name : String)
  | lookup (collection query : String) (limit offset : Nat)
  | read (i : Nat)

def start : Searching := ⟨.start, fun _ _ => [], [], []⟩

/-- Another task has led to `node`. -/
def become (s : Searching) (node : Leader) : Searching :=
  { s with node := node, readers := node.sm.catalog.readers s.readers }

/-- The watcher of the collection under a name reloads its reader. -/
def watch (s : Searching) (name : String) : Option Searching :=
  match s.node.sm.catalog.collections.find? name with
  | none => none
  | some e =>
    match Catalog.reload name e.collection s.node.disk.data s.node.sm.catalog with
    | .error _ => none
    | .ok m => some (s.become (s.node.withCatalog s.node.disk.data m))

/-- `catalog().get(..)`; without the collection the search ends. -/
def lookup (s : Searching) (collection query : String) (limit offset : Nat) : Option Searching :=
  if s.node.mapLocked then none
  else
    match s.node.sm.catalog.collections.find? collection with
    | none => some s
    | some e => some { s with
        running := s.running ++ [⟨collection, e.collection, query, limit, offset⟩] }

/-- `Collection::search` through the handle. -/
def answer (s : Searching) (q : Search) : Except Error SearchResults :=
  { q.target with searcher := s.readers q.collection q.target.uuid }.search q.query q.limit q.offset

def read (s : Searching) (i : Nat) : Option Searching :=
  match s.running[i]? with
  | none => none
  | some q => some { s with
      running := s.running.eraseIdx i, answered := (q, s.answer q) :: s.answered }

def step (log : List Raft.Entry) (s : Searching) : Action → Option Searching
  | .node action => (s.node.step log action).map s.become
  | .watch name => s.watch name
  | .lookup collection query limit offset => s.lookup collection query limit offset
  | .read i => s.read i

/-- The runs of a node over a committed log, with searches. -/
def system (log : List Raft.Entry) : System Searching Action where
  init s := s = start
  step := step log

end Searching

/-- The answer is that of a search over the collection as the log through `k` leaves it. -/
def Search.AnsweredAt (log : List Raft.Entry) (q : Search) (answer : Except Error SearchResults)
    (k : Nat) : Prop :=
  ∃ docs, ShownAt log q.collection q.target.uuid docs k ∧ (docs.map Doc.id).Nodup ∧
    answer = execute q.target.schema docs q.query q.limit q.offset

end

/-! ## steps of other tasks -/

section
variable [Ext] {log : List Raft.Entry} {s s' : Leader}

theorem Leader.apply_run {ord : IterOrder} (hs : s.apply log ord = some s') :
    ∃ entry response, (StateMachine.applyEntry ord entry).run s.disk s.sm =
      (.ok response, s'.disk, s'.sm) := by
  rw [Leader.apply] at hs
  split at hs
  · split at hs
    · rename_i hrun
      cases hs
      exact ⟨_, _, hrun⟩
    · contradiction
  · contradiction

/-- Every step of a node moves its catalog, and only the apply task goes on in the log. -/
theorem Leader.Inv.moves {a : Leader.Action} (h : s.Inv log) (hlog : CommittedLog log)
    (hs : s.step log a = some s') :
    Moves log s.next s.disk.data s.sm.catalog s'.next s'.disk.data s'.sm.catalog ∧
      (s'.next = s.next ∨ ∃ ord entry response,
        (StateMachine.applyEntry ord entry).run s.disk s.sm = (.ok response, s'.disk, s'.sm)) := by
  cases a with
  | apply ord =>
    obtain ⟨entry, response, hrun⟩ := Leader.apply_run hs
    obtain ⟨_, d, m, rfl, he⟩ := h.apply_cases hlog hs
    exact ⟨(Move.apply ord he).moves, .inr ⟨ord, entry, response, hrun⟩⟩
  | report index =>
    rw [Leader.step, Leader.report] at hs
    split at hs
    · split at hs
      · cases hs
        exact ⟨.refl, .inl rfl⟩
      · contradiction
    · contradiction
  | call collection id readIndex =>
    cases hs
    exact ⟨.refl, .inl rfl⟩
  | get i =>
    obtain ⟨g, d, m, phase, hg, hstep, rfl⟩ := Leader.get_cases hs
    exact ⟨hstep.moves log fun mark hm => (h.gets g (List.mem_of_getElem? hg) mark hm).2,
      .inl rfl⟩
  | checkpoint ord =>
    obtain ⟨d, m, phase, rfl, hstep⟩ := Leader.stepCheckpoint_cases hs
    exact ⟨hstep.moves log h.checkpoint, .inl rfl⟩
  | build ord =>
    have hstep := Leader.stepBuild_cases hs
    have hmoves := hstep.moves log h.build
    cases hstep <;> exact ⟨hmoves, .inl rfl⟩
  | fetch =>
    obtain ⟨phase, rfl, _⟩ := Leader.stepFetch_cases hs
    exact ⟨.refl, .inl rfl⟩

/-! ## distinct ids -/

theorem Moves.distinct {next next' : Nat} {d d' : Disk} {m m' : Catalog}
    (h : Moves log next d m next' d' m') (hnext : next' = next) (hd : d.Distinct)
    (hm : m.Distinct) : d'.Distinct ∧ m'.Distinct := by
  induction h with
  | refl => exact ⟨hd, hm⟩
  | step prev h ih =>
    have hle := prev.le
    have hle' := h.le
    obtain ⟨hd, hm⟩ := ih (by omega)
    cases h with
    | apply ord he => omega
    | publish name e ix mark hf hix hmark =>
      have hc := hm name e hf
      refine ⟨hd.setDir e.uuid fun ix' heq => ?_, hm.store ⟨hc.searcher, fun _ h => h⟩⟩
      exact Option.some.inj heq ▸ hc.writer ix.docs (hd e.uuid ix hix)
    | reload name e ix hf hix => exact ⟨hd, hm.store ⟨hd e.uuid ix hix, (hm name e hf).writer⟩⟩
    | files hdirs => exact ⟨hd.of_dirs hdirs, hm⟩

theorem KeepsDistinct.applyEntry (ord : IterOrder) (entry : Raft.Entry) :
    Keeps (fun D : NodeDisk => D.data.Distinct) (fun N : StateMachine => N.catalog.Distinct)
      (fun _ => True) (StateMachine.applyEntry ord entry) := by
  have hfile : ∀ f : NodeDisk → NodeDisk, (∀ D, (f D).data = D.data) →
      Keeps (fun D => D.data.Distinct) (fun N : StateMachine => N.catalog.Distinct)
        (fun _ => True) (Prog.step f : NodeM Unit) :=
    fun f hf => Keeps.step fun D hD => by rw [hf]; exact hD
  refine Keeps.bind (Keeps.modifyMem fun _ hN => hN) fun _ _ => ?_
  rw [StateMachine.applyPayload.eq_def]
  split
  · exact Keeps.pure trivial
  · refine Keeps.bind (P := fun _ => True) ?_ fun _ _ =>
      Keeps.bind (Keeps.modifyMem fun _ hN => hN) fun _ _ => Keeps.pure trivial
    exact (hfile _ fun _ => rfl).bind fun _ _ => (hfile _ fun _ => rfl).bind fun _ _ =>
      hfile _ fun _ => rfl
  · exact Keeps.thenPure (((applyCommand ord _ _).focus NodeDisk.dataFocus
      StateMachine.catalogFocus).mapError _) _

/-- **Every step of a node keeps ids distinct.** -/
theorem Leader.Inv.distinct {a : Leader.Action} (h : s.Inv log) (hlog : CommittedLog log)
    (hs : s.step log a = some s') (hd : s.disk.data.Distinct) (hm : s.sm.catalog.Distinct) :
    s'.disk.data.Distinct ∧ s'.sm.catalog.Distinct := by
  obtain ⟨hmoves, hnext | ⟨ord, entry, response, hrun⟩⟩ := h.moves hlog hs
  · exact hmoves.distinct hnext hd hm
  · exact (KeepsDistinct.applyEntry ord entry).of_run hd hm hrun

end

/-! ## the order of reads -/

section
variable [Ext] [Queries]

/-- A search that was answered, with the position of the log it has read at. -/
structure Read where
  search : Search
  answer : Except Error SearchResults
  position : Nat

/-- All reads of a collection are at `k` or before. -/
def UpTo (reads : List Read) (n : String) (u : Uuid) (k : Nat) : Prop :=
  ∀ r ∈ reads, r.search.collection = n → r.search.target.uuid = u → r.position ≤ k

/-- A reader that shows the log at a position that no read is behind. -/
def ReaderAt (log : List Raft.Entry) (next : Nat) (reads : List Read) (n : String) (u : Uuid)
    (docs : List Doc) (k : Nat) : Prop :=
  UpTo reads n u k ∧ k ≤ next - 1 ∧ ShownAt log n u docs k ∧ (docs.map Doc.id).Nodup

/-- The reads of a run so far.  No reader of a collection that is in the map, or that a search
still holds, is behind a read. -/
structure Searching.Ordered (log : List Raft.Entry) (s : Searching) (reads : List Read) :
    Prop where
  answered : reads.map (fun r => (r.search, r.answer)) = s.answered
  each : ∀ r ∈ reads, r.position ≤ s.node.next - 1 ∧ r.search.AnsweredAt log r.answer r.position
  order : reads.Pairwise fun newer older => newer.search.collection = older.search.collection →
    newer.search.target.uuid = older.search.target.uuid → older.position ≤ newer.position
  live : ∀ n u, ∃ lo, UpTo reads n u lo ∧ lo ≤ s.node.next - 1 ∧
    ShowsFrom log s.node.next lo 0 s.node.disk.data s.node.sm.catalog n (· = u)
  running : ∀ q ∈ s.running, ∃ k, ReaderAt log s.node.next reads q.collection q.target.uuid
    (s.readers q.collection q.target.uuid) k

/-- What holds of the node and its readers. -/
structure Searching.Inv (log : List Raft.Entry) (s : Searching) : Prop where
  node : s.node.Inv log
  disk : s.node.disk.data.Distinct
  memory : s.node.sm.catalog.Distinct
  readers : ∀ n e, s.node.sm.catalog.collections.find? n = some e →
    s.readers n e.uuid = e.collection.searcher

variable {log : List Raft.Entry} {s : Searching} {reads : List Read} {n : String} {u : Uuid}
  {e : Catalog.Entry} {q : Search}

omit [Ext] in
theorem UpTo.mono {k k' : Nat} (h : UpTo reads n u k) (hle : k ≤ k') : UpTo reads n u k' :=
  fun r hr hn hu => (h r hr hn hu).trans hle

/-- The reader of a collection in the map, at a position from which on it shows the log. -/
theorem Searching.Ordered.readerAt (h : s.Ordered log reads)
    (hm : s.node.sm.catalog.Distinct) (hf : s.node.sm.catalog.collections.find? n = some e) :
    ∃ k, ReaderAt log s.node.next reads n e.uuid e.collection.searcher k ∧
      Within log s.node.next k 0 s.node.disk.data n e := by
  obtain ⟨lo, hup, _, hshows⟩ := h.live n e.uuid
  obtain ⟨ix, r, c, hix, hr, hc, hrc, hcn, h1, h2⟩ := hshows e hf rfl
  exact ⟨r, ⟨hup.mono hr, by omega, h1, (hm n e hf).searcher⟩, ix, r, c, hix, le_rfl, hc, hrc,
    hcn, h1, h2⟩

/-- The reader of a search that runs. -/
theorem Searching.Ordered.readerAt_running (h : s.Ordered log reads) (hinv : s.Inv log)
    (hq : q ∈ s.running) : ∃ k, ReaderAt log s.node.next reads q.collection q.target.uuid
        (s.readers q.collection q.target.uuid) k ∧
      ShowsFrom log s.node.next k 0 s.node.disk.data s.node.sm.catalog q.collection
        (· = q.target.uuid) := by
  by_cases hlive : ∃ e, s.node.sm.catalog.collections.find? q.collection = some e ∧
      e.uuid = q.target.uuid
  · obtain ⟨e, hf, hu⟩ := hlive
    obtain ⟨k, hat, hwithin⟩ := h.readerAt hinv.memory hf
    refine ⟨k, ?_, fun e' hf' _ => ?_⟩
    · rw [← hu, hinv.readers _ e hf]
      exact hat
    · rw [hf, Option.some.injEq] at hf'
      exact hf' ▸ hwithin
  · obtain ⟨k, hat⟩ := h.running q hq
    exact ⟨k, hat, fun e hf hu => absurd ⟨e, hf, hu⟩ hlive⟩

/-! ## steps -/

/-- Steps of other tasks lead no reader behind a read. -/
theorem Searching.Ordered.become (h : s.Ordered log reads) (hinv : s.Inv log)
    (hfirst : commandAt log 0 = ⟨none⟩) {node : Leader} (hids : node.sm.catalog.Distinct)
    (hm : Moves log s.node.next s.node.disk.data s.node.sm.catalog node.next node.disk.data
      node.sm.catalog) : (s.become node).Ordered log reads := by
  have hnext := hm.le
  have hlive : ∀ n u, ∃ lo, UpTo reads n u lo ∧ lo ≤ node.next - 1 ∧
      ShowsFrom log node.next lo 0 node.disk.data node.sm.catalog n (· = u) := by
    intro n u
    obtain ⟨lo, hup, hlo, hshows⟩ := h.live n u
    exact ⟨lo, hup, by omega, hm.showsFrom hinv.node.steady hfirst hlo (Nat.zero_le _) hshows⟩
  have hsame : (s.become node).node = node := rfl
  refine ⟨h.answered, fun r hr => ?_, h.order, hlive, fun q hq => ?_⟩
  · obtain ⟨hle, hat⟩ := h.each r hr
    exact ⟨hle.trans (by rw [hsame]; omega), hat⟩
  · show ∃ k, ReaderAt log node.next reads q.collection q.target.uuid
      (node.sm.catalog.readers s.readers q.collection q.target.uuid) k
    by_cases hf : ∃ e, node.sm.catalog.collections.find? q.collection = some e ∧
        e.uuid = q.target.uuid
    · obtain ⟨e, hf, hu⟩ := hf
      obtain ⟨lo, hup, _, hshows⟩ := hlive q.collection q.target.uuid
      obtain ⟨ix, r, c, _, hr, _, hrc, hcn, hshown, _⟩ := hshows e hf hu
      rw [← hu] at hup ⊢
      rw [Catalog.readers_of_find hf]
      exact ⟨r, hup.mono hr, by omega, hshown, (hids _ e hf).searcher⟩
    · rw [Catalog.readers_of_not_find fun e hfe hu => hf ⟨e, hfe, hu⟩]
      obtain ⟨k, hup, hk, hrest⟩ := h.running q hq
      exact ⟨k, hup, by omega, hrest⟩

/-- A search that is answered reads at a position that no earlier read is past. -/
theorem Searching.Ordered.read (h : s.Ordered log reads) (hinv : s.Inv log) {i : Nat}
    (hq : s.running[i]? = some q) :
    ∃ k, Searching.Ordered log { s with
      running := s.running.eraseIdx i, answered := (q, s.answer q) :: s.answered }
      (⟨q, s.answer q, k⟩ :: reads) := by
  obtain ⟨k, ⟨hup, hk, hshown, hids⟩, hshows⟩ :=
    h.readerAt_running hinv (List.mem_of_getElem? hq)
  -- what was not before a read stays so, unless the read is of this collection
  have hother : ∀ {n u k'}, ¬ (q.collection = n ∧ q.target.uuid = u) → UpTo reads n u k' →
      UpTo (⟨q, s.answer q, k⟩ :: reads) n u k' := by
    intro n u k' hne hup r hr hn hu
    rcases List.mem_cons.mp hr with rfl | hr
    · exact absurd ⟨hn, hu⟩ hne
    · exact hup r hr hn hu
  have hself : UpTo (⟨q, s.answer q, k⟩ :: reads) q.collection q.target.uuid k := by
    intro r hr hn hu
    rcases List.mem_cons.mp hr with rfl | hr
    · exact le_rfl
    · exact hup r hr hn hu
  refine ⟨k, ?_, fun r hr => ?_, ?_, fun n u => ?_, fun q' hq' => ?_⟩
  · rw [List.map_cons, h.answered]
  · rcases List.mem_cons.mp hr with rfl | hr
    · exact ⟨hk, _, hshown, hids, rfl⟩
    · exact h.each r hr
  · refine List.pairwise_cons.mpr ⟨fun r hr hn hu => hup r hr hn.symm hu.symm, h.order⟩
  · by_cases hkey : q.collection = n ∧ q.target.uuid = u
    · obtain ⟨rfl, rfl⟩ := hkey
      exact ⟨k, hself, hk, hshows⟩
    · obtain ⟨lo, hlo, hrest⟩ := h.live n u
      exact ⟨lo, hother hkey hlo, hrest⟩
  · by_cases hkey : q.collection = q'.collection ∧ q.target.uuid = q'.target.uuid
    · obtain ⟨hn, hu⟩ := hkey
      rw [← hn, ← hu]
      exact ⟨k, hself, hk, hshown, hids⟩
    · obtain ⟨k', hup', hrest⟩ := h.running q' (List.mem_of_mem_eraseIdx hq')
      exact ⟨k', hother hkey hup', hrest⟩

theorem Searching.inv_become {node : Leader} (hn : node.Inv log)
    (h : node.disk.data.Distinct ∧ node.sm.catalog.Distinct) : (s.become node).Inv log :=
  ⟨hn, h.1, h.2, fun _ _ hf => Catalog.readers_of_find hf⟩

theorem Searching.inv_start (log : List Raft.Entry) :
    Searching.start.Inv log ∧ Searching.start.Ordered log [] := by
  obtain ⟨cat, membership, hnone, hstart⟩ := Leader.start_eq
  have hempty : ∀ n, Searching.start.node.sm.catalog.collections.find? n = none := by
    intro n
    rw [Searching.start, hstart]
    exact hnone n
  refine ⟨⟨Leader.inv_start log, ?_, fun n e hf => ?_, fun n e hf => ?_⟩, rfl,
    fun r hr => by contradiction, .nil, fun n u => ⟨0, fun r hr => by contradiction,
      Nat.zero_le _, fun e hf => ?_⟩, fun q hq => by contradiction⟩
  · rw [Searching.start, hstart]
    exact fun u ix hix => by contradiction
  · rw [hempty n] at hf
    contradiction
  · rw [hempty n] at hf
    contradiction
  · rw [hempty n] at hf
    contradiction

omit [Ext] in
/-- The watcher's reload, as a step of the node. -/
theorem Searching.watch_cases {s' : Searching} {name : String} (h : s.watch name = some s') :
    ∃ e ix, s.node.sm.catalog.collections.find? name = some e ∧
      s.node.disk.data.index e.uuid = some ix ∧
      s' = s.become (s.node.withCatalog s.node.disk.data
        (s.node.sm.catalog.store name (e.collection.reloaded ix))) := by
  rw [Searching.watch] at h
  split at h
  · contradiction
  · split at h
    · contradiction
    · rename_i m hok
      cases h
      obtain ⟨e, ix, hf, _, hix, rfl⟩ := Catalog.reload_ok hok
      exact ⟨e, ix, hf, hix, rfl⟩

/-- **Every step keeps the reads in order**, adding one to them or none. -/
theorem Searching.Inv.step {s' : Searching} {a : Searching.Action} (hinv : s.Inv log)
    (h : s.Ordered log reads) (hlog : CommittedLog log) (hs : s.step log a = some s') :
    s'.Inv log ∧ ∃ reads', s'.Ordered log reads' := by
  cases a with
  | node action =>
    obtain ⟨node, hstep, rfl⟩ := Option.map_eq_some_iff.mp hs
    have hnode := hinv.node.step hlog hstep
    have hids := hinv.node.distinct hlog hstep hinv.disk hinv.memory
    exact ⟨Searching.inv_become hnode hids, reads,
      h.become hinv hlog.first hids.2 (hinv.node.moves hlog hstep).1⟩
  | watch name =>
    obtain ⟨e, ix, hf, hix, rfl⟩ := Searching.watch_cases hs
    have hm : Moves log s.node.next s.node.disk.data s.node.sm.catalog s.node.next
        s.node.disk.data (s.node.sm.catalog.store name (e.collection.reloaded ix)) :=
      (Move.reload name e ix hf hix).moves
    have hids := hm.distinct rfl hinv.disk hinv.memory
    refine ⟨Searching.inv_become ⟨hm.steady hinv.node.steady hlog.first, hinv.node.reported,
      hinv.node.checkpoint, hinv.node.gets, ?_⟩ hids, reads, h.become hinv hlog.first hids.2 hm⟩
    exact hinv.node.build.congr fun n e => hm.find_of_eq
  | lookup collection query limit offset =>
    rw [Searching.step, Searching.lookup] at hs
    split at hs
    · contradiction
    · split at hs
      · cases hs
        exact ⟨hinv, reads, h⟩
      · rename_i e hf
        cases hs
        refine ⟨⟨hinv.node, hinv.disk, hinv.memory, hinv.readers⟩, reads, h.answered, h.each,
          h.order, h.live, fun q hq => ?_⟩
        rcases List.mem_append.mp hq with hq | hq
        · exact h.running q hq
        · rw [List.mem_singleton.mp hq]
          have hu : e.collection.uuid = e.uuid :=
            (hinv.node.steady.based.entry collection e hf).uuid
          obtain ⟨k, hat, _⟩ := h.readerAt hinv.memory hf
          refine ⟨k, ?_⟩
          rw [hu, hinv.readers collection e hf]
          exact hat
  | read i =>
    rw [Searching.step, Searching.read] at hs
    split at hs
    · contradiction
    · rename_i q hq
      cases hs
      obtain ⟨k, hread⟩ := h.read hinv hq
      exact ⟨⟨hinv.node, hinv.disk, hinv.memory, hinv.readers⟩, _, hread⟩

/-- **Searches read growing prefixes.**  In every interleaving with writes, commits, linearizable
reads, snapshots and reloads, every answer is that of the query over one state of the
collection, the one that some position of the log leaves it in.  Of two searches of a
collection the later one reads at the same position or at a later one. -/
theorem searches_read_growing_prefixes (hlog : CommittedLog log)
    (h : (Searching.system log).Reach (fun _ _ => true) s) :
    ∃ reads : List Read, reads.map (fun r => (r.search, r.answer)) = s.answered ∧
      (∀ r ∈ reads, r.position < s.node.next ∧ r.search.AnsweredAt log r.answer r.position) ∧
      reads.Pairwise fun newer older => newer.search.collection = older.search.collection →
        newer.search.target.uuid = older.search.target.uuid →
          older.position ≤ newer.position := by
  have hall : s.Inv log ∧ ∃ reads, s.Ordered log reads := by
    refine h.invariant (I := fun s => s.Inv log ∧ ∃ reads, s.Ordered log reads) ?_
      fun s a s' hI _ hs => ?_
    · rintro s rfl
      obtain ⟨hinv, hord⟩ := Searching.inv_start log
      exact ⟨hinv, [], hord⟩
    · obtain ⟨hinv, reads, hord⟩ := hI
      exact hinv.step hord hlog hs
  obtain ⟨_, reads, hord⟩ := hall
  refine ⟨reads, hord.answered, fun r hr => ?_, hord.order⟩
  obtain ⟨hle, hat⟩ := hord.each r hr
  obtain ⟨docs, hshown, hrest⟩ := hat
  have hpos := hshown.pos
  exact ⟨by omega, docs, hshown, hrest⟩

end

section
open Reference

/-- Two searches look a collection up; the first one reads between the two halves of a commit,
the second one after it. -/
def searchAroundReload : List Searching.Action :=
  [.node (.apply .stored), .node (.apply .stored), .lookup "a" "*" 10 0, .lookup "a" "*" 10 0,
    .node (.apply .stored), .node (.report 2), .node (.checkpoint .stored),
    .node (.checkpoint .stored), .node (.checkpoint .stored), .read 0, .node (.checkpoint .stored),
    .read 0]

def Searching.ids (s : Searching) : List (List String) :=
  s.answered.map fun p =>
    match p.2 with
    | .ok results => results.hits.map SearchHit.id
    | .error _ => []

theorem searches_read_growing_prefixes_aroundReload :
    ∃ s, (Searching.system createThenIndexLog).exec (fun _ _ => true) .start
        searchAroundReload = some s ∧ s.ids = [["x"], []] ∧
      ∃ reads : List Read, reads.map (fun r => (r.search, r.answer)) = s.answered ∧
        (∀ r ∈ reads, r.position < s.node.next ∧
          r.search.AnsweredAt createThenIndexLog r.answer r.position) ∧
        reads.Pairwise fun newer older => newer.search.collection = older.search.collection →
          newer.search.target.uuid = older.search.target.uuid →
            older.position ≤ newer.position := by
  have hrun : ((Searching.system createThenIndexLog).exec (fun _ _ => true) .start
      searchAroundReload).any (fun s => decide (s.ids = [["x"], []])) = true := by
    decide +kernel
  obtain ⟨s, hs, hids⟩ := exists_of_any hrun
  exact ⟨s, hs, of_decide_eq_true hids, searches_read_growing_prefixes createThenIndexLog_committed
    (System.Reach.exec (.start rfl) hs)⟩

end

end Lumen
