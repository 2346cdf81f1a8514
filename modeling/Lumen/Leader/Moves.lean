import Lumen.Cluster.Requests
import Lumen.Leader

/-!
# Lumen.Leader.Moves

What a step of any task can do to the catalog: apply a command, publish a
commit, reload a reader, or touch files that hold no collection (`Move`).

Every reader and every commit shows a collection as it was after some prefix of
the log.  `Within` bounds those prefixes from below, with the reader's not
after the commit's; moves keep the bounds (`Move.within`), which is all the
later modules need to know about them.
-/

namespace Lumen

open Lib Prog Raft Replay

/-! ## moves -/

/-- The collection with an empty buffer. -/
def Collection.flushed (c : Collection) : Collection := { c with writer := [] }

/-- The collection with its reader on the commit of an index. -/
def Collection.reloaded (c : Collection) (ix : Index) : Collection := { c with searcher := ix.docs }

section
variable [Ext]

/-- What a step can do to the catalog of a node that has applied the entries
before `next`. -/
inductive Move (log : List Raft.Entry) (next : Nat) (d : Disk) (m : Catalog) :
    Nat → Disk → Catalog → Prop where
  | apply {d' : Disk} {m' : Catalog} (ord : IterOrder)
      (he : Effect ord next (commandAt log next) d m d' m') : Move log next d m (next + 1) d' m'
  | publish (name : String) (e : Catalog.Entry) (ix : Index) (mark : LogMark)
      (hf : m.collections.find? name = some e) (hix : d.index e.uuid = some ix)
      (hmark : mark.index ≤ next - 1) :
      Move log next d m next (d.committed e ix mark) (m.store name e.collection.flushed)
  | reload (name : String) (e : Catalog.Entry) (ix : Index)
      (hf : m.collections.find? name = some e) (hix : d.index e.uuid = some ix) :
      Move log next d m next d (m.store name (e.collection.reloaded ix))
  | files {d' : Disk} (hdirs : d'.dirs = d.dirs) : Move log next d m next d' m

end

/-! ## one collection of the map -/

section
variable {d d' : Disk} {m : Catalog} {name : String} {e : Catalog.Entry} {ix : Index}

/-- Changing the reader or the buffer of a collection keeps the map based. -/
theorem Based.store (hs : Based d m) (hf : m.collections.find? name = some e) {c : Collection}
    (hu : c.uuid = e.collection.uuid) (hm : c.mapping = e.collection.mapping)
    (hc : c.schema = e.collection.schema) : Based d (m.store name c) := by
  have he := hs.entry name e hf
  have hstore := Catalog.find?_store_self (c := c) hf (hu.trans he.uuid)
  have hold : ∀ n e', (m.store name c).collections.find? n = some e' →
      ∃ e₀, m.collections.find? n = some e₀ ∧ e₀.uuid = e'.uuid := by
    intro n e' hn
    rw [hstore] at hn
    split at hn
    · rename_i hnn
      injection hn with hn
      exact ⟨e, hnn ▸ hf, by rw [← hn]⟩
    · exact ⟨e', hn, rfl⟩
  refine ⟨fun n e' hn => ?_, fun n n' e₁ e₂ h1 h2 h => ?_⟩
  · rw [hstore] at hn
    split at hn
    · injection hn with hn
      subst hn
      refine ⟨hu.trans he.uuid, ?_, ?_⟩
      · rw [hc, hm, he.schema]
      · rw [hc]
        exact he.index
    · exact hs.entry n e' hn
  · obtain ⟨e₁', h1', hu1⟩ := hold n e₁ h1
    obtain ⟨e₂', h2', hu2⟩ := hold n' e₂ h2
    exact hs.inj n n' e₁' e₂' h1' h2' (by rw [hu1, hu2, h])

theorem Catalog.map_uuid_store (name : String) (c : Collection) (n : String) :
    ((m.store name c).collections.find? n).map Catalog.Entry.uuid =
      (m.collections.find? n).map Catalog.Entry.uuid := by
  rw [Catalog.find?_store]
  split
  · cases m.collections.find? n with
    | none => rfl
    | some e => simp only [Option.map_some]; split <;> rfl
  · rfl

/-- A commit of one collection's index keeps the map based. -/
theorem Based.committed (hs : Based d m) (hix : d.index e.uuid = some ix) (mark : LogMark) :
    Based (d.committed e ix mark) m := by
  refine ⟨fun n e' hn => ?_, hs.inj⟩
  have he' := hs.entry n e' hn
  by_cases hu : e'.uuid = e.uuid
  · refine ⟨he'.uuid, he'.schema, ix.committed e.collection mark, ?_, ?_⟩
    · rw [Disk.committed, Disk.index_setDir, if_pos hu]
    · obtain ⟨ix', hix', hschema⟩ := he'.index
      rw [hu, hix, Option.some.injEq] at hix'
      rw [← hschema, ← hix']
      rfl
  · refine he'.congr ?_
    rw [Disk.committed, Disk.index_setDir, if_neg hu]

theorem Based.congr (hs : Based d m) (hdirs : d'.dirs = d.dirs) : Based d' m :=
  ⟨fun n e hf => (hs.entry n e hf).congr (by rw [Disk.index, Disk.index, hdirs]), hs.inj⟩

end

/-! ## prefixes of the log -/

section
variable [Ext]

/-- The documents are those of the collection after the log through `k`. -/
def ShownAt (log : List Raft.Entry) (n : String) (u : Uuid) (docs : List Doc) (k : Nat) : Prop :=
  ∃ g, bound log k n = some g ∧ g.uuid = u ∧ view docs = g.docs

/-- The reader of a collection shows it at a position from `lo` on, and its
last commit at one from `lo'` on that is not before the reader's. -/
def Within (log : List Raft.Entry) (next lo lo' : Nat) (d : Disk) (n : String)
    (e : Catalog.Entry) : Prop :=
  ∃ ix r c, d.index e.uuid = some ix ∧ lo ≤ r ∧ lo' ≤ c ∧ r ≤ c ∧ c ≤ next - 1 ∧
    ShownAt log n e.uuid e.collection.searcher r ∧ ShownAt log n e.uuid ix.docs c

/-- A node that has applied the entries before `next`. -/
structure Steady (log : List Raft.Entry) (next : Nat) (d : Disk) (m : Catalog) : Prop where
  based : Based d m
  live : ∀ n, (slotOf d m n).live = bound log (next - 1) n
  noOrphans : NoOrphans d m
  within : ∀ n e, m.collections.find? n = some e →
    Within log next 0 (d.mark e.uuid).index d n e

variable {log : List Raft.Entry} {next next' lo lo' : Nat} {d d' : Disk} {m m' : Catalog}
  {n : String} {e e' : Catalog.Entry} {ix : Index}

/-- Nothing is bound before the first entry. -/
theorem ShownAt.pos {u : Uuid} {docs : List Doc} {k : Nat} (h : ShownAt log n u docs k) :
    0 < k := by
  obtain ⟨g, hg, _⟩ := h
  refine Nat.pos_of_ne_zero ?_
  rintro rfl
  contradiction

theorem Within.mono (h : Within log next lo lo' d n e) (hnext : next ≤ next')
    (hlo : lo₁ ≤ lo) (hlo' : lo₁' ≤ lo') : Within log next' lo₁ lo₁' d n e := by
  obtain ⟨ix, r, c, hix, hr, hc, hrc, hcn, h1, h2⟩ := h
  exact ⟨ix, r, c, hix, by omega, by omega, hrc, by omega, h1, h2⟩

/-- A reader that shows the last commit is where the commit is. -/
theorem Within.fresh (h : Within log next lo lo' d n e) (hix : d.index e.uuid = some ix)
    (hfresh : e.collection.searcher = ix.docs) : Within log next lo' lo' d n e := by
  obtain ⟨ix', r, c, hix', _, hc, _, hcn, _, h2⟩ := h
  rw [hix, Option.some.injEq] at hix'
  subst hix'
  exact ⟨ix, c, c, hix, hc, hc, le_rfl, hcn, by rw [hfresh]; exact h2, h2⟩

/-- The commit is not before the reader. -/
theorem Within.index_of_reader (h : Within log next lo lo' d n e) :
    Within log next lo lo d n e := by
  obtain ⟨ix, r, c, hix, hr, _, hrc, hcn, h1, h2⟩ := h
  exact ⟨ix, r, c, hix, hr, by omega, hrc, hcn, h1, h2⟩

/-- What is live is what the log says. -/
theorem bound_eq_toGen (hlive : ∀ n, (slotOf d m n).live = bound log (next - 1) n)
    (hf : m.collections.find? n = some e) : bound log (next - 1) n = some (e.toGen d) := by
  rw [← hlive, slotOf_live, hf]
  rfl

/-- A commit shows all that is applied. -/
theorem Steady.shownAt_committed (hs : Steady log next d m) (hf : m.collections.find? n = some e)
    (hix : d.index e.uuid = some ix) (mark : LogMark) :
    ShownAt log n e.uuid (ix.committed e.collection mark).docs (next - 1) := by
  refine ⟨_, bound_eq_toGen hs.live hf, rfl, ?_⟩
  simp [Catalog.Entry.toGen, Collection.pending, (hs.based.entry n e hf).uuid, hix, Index.committed]

theorem Within.mark_lt (h : Within log next lo (d.mark e.uuid).index d n e) :
    (d.mark e.uuid).index < next := by
  obtain ⟨ix, r, c, _, _, hc, _, hcn, _, hshown⟩ := h
  have hpos := hshown.pos
  omega

/-- A move keeps what is live at what the log says. -/
theorem Move.live (h : Move log next d m next' d' m') (hs : Steady log next d m)
    (hfirst : commandAt log 0 = ⟨none⟩) (n : String) :
    (slotOf d' m' n).live = bound log (next' - 1) n := by
  cases h with
  | apply ord he =>
    rw [Nat.add_sub_cancel, ← bound_apply hfirst, Contents.apply_eq, ← hs.live]
    refine he.live hs.based hs.noOrphans fun hl => ?_
    cases hf : m.collections.find? n with
    | none => simp [slotOf_live, hf] at hl
    | some e =>
      obtain ⟨ix, hix, _⟩ := (hs.based.entry n e hf).index
      rw [slotOf_mark hf hix, ← Disk.mark_index hix]
      exact (hs.within n e hf).mark_lt
  | publish name e ix mark hf hix hmark =>
    have he := hs.based.entry name e hf
    have hstore := Catalog.find?_store_self (c := e.collection.flushed) hf he.uuid
    rw [← hs.live, slotOf_live, slotOf_live, hstore]
    by_cases hn : n = name
    · subst hn
      rw [if_pos rfl, hf, Option.map_some, Option.map_some]
      simp [Catalog.Entry.toGen, Collection.pending, Collection.flushed, he.uuid, hix,
        Disk.committed, Disk.index_setDir, Index.committed, WriterOp.execAll]
    · rw [if_neg hn]
      cases hf' : m.collections.find? n with
      | none => rfl
      | some e' =>
        rw [Option.map_some, Option.map_some, toGen_congr (hs.based.entry n e' hf')]
        rw [Disk.committed, Disk.index_setDir,
          if_neg fun hu => hn (hs.based.inj n name e' e hf' hf hu)]
  | reload name e ix hf hix =>
    have he := hs.based.entry name e hf
    have hstore := Catalog.find?_store_self (c := e.collection.reloaded ix) hf he.uuid
    rw [← hs.live, slotOf_live, slotOf_live, hstore]
    by_cases hn : n = name
    · subst hn
      rw [if_pos rfl, hf]
      rfl
    · rw [if_neg hn]
  | files hdirs =>
    rw [← hs.live]
    refine slotOf_live_congr hs.based rfl fun e hf => ?_
    rw [Disk.index, Disk.index, hdirs]

/-- How a collection that stays comes out of a move: as it was, with a commit
of all that is applied, or with its reader on its last commit. -/
inductive Carried (log : List Raft.Entry) (next : Nat) (d d' : Disk) (n : String)
    (e e' : Catalog.Entry) : Prop where
  | same (hs : e'.collection.searcher = e.collection.searcher)
      (hix : d'.index e.uuid = d.index e.uuid)
  | published (ix : Index) (hs : e'.collection.searcher = e.collection.searcher)
      (hix : d'.index e.uuid = some ix) (hmark : ix.mark ≤ next - 1)
      (hdocs : ShownAt log n e.uuid ix.docs (next - 1))
  | reloaded (ix : Index) (hs : e'.collection.searcher = ix.docs)
      (hold : d.index e.uuid = some ix) (hix : d'.index e.uuid = some ix)

/-- A collection comes out of a move carried over, or is a new one without a commit. -/
theorem Move.entries (h : Move log next d m next' d' m') (hs : Steady log next d m)
    (hf : m'.collections.find? n = some e') :
    (∃ e, m.collections.find? n = some e ∧ e'.uuid = e.uuid ∧ Carried log next d d' n e e') ∨
      next' = next + 1 ∧ (d'.mark e'.uuid).index = 0 ∧
        ∃ ix x, d'.index e'.uuid = some ix ∧ e'.collection = .fromIndex e'.uuid x ix := by
  cases h with
  | apply ord he =>
    refine he.entries (P := fun d' n e' =>
      (∃ e, m.collections.find? n = some e ∧ e'.uuid = e.uuid ∧ Carried log next d d' n e e') ∨
        next + 1 = next + 1 ∧ (d'.mark e'.uuid).index = 0 ∧
          ∃ ix x, d'.index e'.uuid = some ix ∧ e'.collection = .fromIndex e'.uuid x ix)
      hs.based ?_ ?_ ?_ n e' hf
    · intro n e x hf hidx _
      exact .inl ⟨e, hf, rfl, .same rfl hidx⟩
    · intro n u x ix y _ hix hidx
      refine .inr ⟨rfl, ?_, ix, x, hidx, rfl⟩
      rcases hix with ⟨hix, ho⟩ | ⟨_, rfl⟩
      · rw [hs.noOrphans.index_eq_none ho] at hix
        contradiction
      · simp [Disk.mark, hidx]
    · intro n e id v ops hf _ _
      exact .inl ⟨e, hf, rfl, .same rfl rfl⟩
  | publish name e ix mark hf₀ hix hmark =>
    have he := hs.based.entry name e hf₀
    rw [Catalog.find?_store_self (c := e.collection.flushed) hf₀ he.uuid] at hf
    split at hf
    · rename_i hn
      injection hf with hf
      subst hf hn
      refine .inl ⟨e, hf₀, rfl, .published (ix.committed e.collection mark) rfl ?_ hmark
        (hs.shownAt_committed hf₀ hix mark)⟩
      rw [Disk.committed, Disk.index_setDir, if_pos rfl]
    · rename_i hn
      refine .inl ⟨e', hf, rfl, .same rfl ?_⟩
      rw [Disk.committed, Disk.index_setDir,
        if_neg fun hu => hn (hs.based.inj n name e' e hf hf₀ hu)]
  | reload name e ix hf₀ hix =>
    have he := hs.based.entry name e hf₀
    rw [Catalog.find?_store_self (c := e.collection.reloaded ix) hf₀ he.uuid] at hf
    split at hf
    · rename_i hn
      injection hf with hf
      subst hf hn
      exact .inl ⟨e, hf₀, rfl, .reloaded ix rfl hix hix⟩
    · exact .inl ⟨e', hf, rfl, .same rfl rfl⟩
  | files hdirs => exact .inl ⟨e', hf, rfl, .same rfl (by rw [Disk.index, Disk.index, hdirs])⟩

/-- Bounds on what a carried collection shows stay true. -/
theorem Carried.within (h : Carried log next d d' n e e') (hu : e'.uuid = e.uuid)
    (hw : Within log next lo lo' d n e) (hlo' : lo' ≤ next - 1) (hnext : next ≤ next') :
    Within log next' lo lo' d' n e' := by
  obtain ⟨ix, r, c, hix, hr, hc, hrc, hcn, h1, h2⟩ := hw
  rw [Within, hu]
  cases h with
  | same hs hidx =>
    exact ⟨ix, r, c, hidx.trans hix, hr, hc, hrc, by omega, by rw [hs]; exact h1, h2⟩
  | published ix' hs hidx _ hdocs =>
    exact ⟨ix', r, next - 1, hidx, hr, hlo', by omega, by omega, by rw [hs]; exact h1, hdocs⟩
  | reloaded ix' hs hold hidx =>
    rw [hix, Option.some.injEq] at hold
    subst hold
    exact ⟨ix, c, c, hidx, by omega, hc, le_rfl, by omega, by rw [hs]; exact h2, h2⟩

/-- A new collection shows what the command that was applied has made. -/
theorem within_new (hlive : ∀ n, (slotOf d' m' n).live = bound log next n)
    (hf : m'.collections.find? n = some e') {x : Mapping} (hix : d'.index e'.uuid = some ix)
    (hc : e'.collection = .fromIndex e'.uuid x ix) (hlo : lo ≤ next) (hlo' : lo' ≤ next) :
    Within log (next + 1) lo lo' d' n e' := by
  have hg : bound log next n = some (e'.toGen d') := by
    rw [← hlive, slotOf_live, hf]
    rfl
  have hshown : ShownAt log n e'.uuid ix.docs next := by
    refine ⟨_, hg, rfl, ?_⟩
    simp [Catalog.Entry.toGen, Collection.pending, hc, Collection.fromIndex, hix, WriterOp.execAll]
  refine ⟨ix, next, next, hix, hlo, hlo', le_rfl, le_rfl, ?_, hshown⟩
  rw [hc]
  exact hshown

theorem Move.le (h : Move log next d m next' d' m') : next ≤ next' := by cases h <;> omega

/-- **Moves keep bounds**, of the collection under a name if its identity meets
`p`: what is new shows the latest entry. -/
theorem Move.within (h : Move log next d m next' d' m') (hs : Steady log next d m)
    (hfirst : commandAt log 0 = ⟨none⟩) {p : Uuid → Prop} (hlo : lo ≤ next - 1)
    (hlo' : lo' ≤ next - 1)
    (hw : ∀ e, m.collections.find? n = some e → p e.uuid → Within log next lo lo' d n e) :
    ∀ e', m'.collections.find? n = some e' → p e'.uuid → Within log next' lo lo' d' n e' := by
  intro e' hf hp
  rcases h.entries hs hf with ⟨e, hfe, hu, hcarried⟩ | ⟨rfl, _, ix, x, hix, hc⟩
  · exact hcarried.within hu (hw e hfe (hu ▸ hp)) hlo' h.le
  · exact within_new (h.live hs hfirst) hf hix hc (by omega) (by omega)

/-- **Moves keep a node steady.** -/
theorem Move.steady (h : Move log next d m next' d' m') (hs : Steady log next d m)
    (hfirst : commandAt log 0 = ⟨none⟩) : Steady log next' d' m' where
  based := by
    cases h with
    | apply ord he =>
      refine he.based_of_schema hs.based fun n u x ix _ hix ho => ?_
      rw [hs.noOrphans.index_eq_none ho] at hix
      contradiction
    | publish name e ix mark hf hix hmark =>
      exact (hs.based.committed hix mark).store hf rfl rfl rfl
    | reload name e ix hf hix => exact hs.based.store hf rfl rfl rfl
    | files hdirs => exact hs.based.congr hdirs
  live := h.live hs hfirst
  noOrphans := by
    cases h with
    | apply ord he => exact he.noOrphans hs.noOrphans
    | publish name e ix mark hf hix hmark =>
      refine hs.noOrphans.mono (fun u hu => ?_) fun n e' hf' => Catalog.find?_store_uuid _ _ hf'
      rw [Disk.committed, Disk.contains_setDir, Bool.or_eq_true] at hu
      rcases hu with hu | hu
      · rw [of_decide_eq_true hu]
        exact Disk.contains_of_index hix
      · exact hu
    | reload name e ix hf hix =>
      exact hs.noOrphans.mono (fun _ hu => hu) fun n e' hf' => Catalog.find?_store_uuid _ _ hf'
    | files hdirs =>
      exact hs.noOrphans.mono (fun u hu => by rwa [hdirs] at hu) fun _ e' hf' => ⟨e', hf', rfl⟩
  within := by
    intro n e' hf
    have hnext := h.le
    rcases h.entries hs hf with ⟨e, hfe, hu, hcarried⟩ | ⟨rfl, hmark, ix, x, hix, hc⟩
    · have hw := hs.within n e hfe
      have hlt := hw.mark_lt
      cases hcarried with
      | same hse hidx =>
        have hk : Carried log next d d' n e e' := .same hse hidx
        rw [hu, Disk.mark_congr hidx]
        exact hk.within hu hw (by omega) hnext
      | published ix hse hidx hmark hdocs =>
        rw [hu, Disk.mark_index hidx]
        obtain ⟨_, r, c, _, hr, _, hrc, hcn, h1, _⟩ := hw
        rw [Within, hu]
        exact ⟨ix, r, next - 1, hidx, hr, hmark, by omega, by omega, by rw [hse]; exact h1, hdocs⟩
      | reloaded ix hse hold hidx =>
        have hk : Carried log next d d' n e e' := .reloaded ix hse hold hidx
        rw [hu, Disk.mark_congr (hidx.trans hold.symm)]
        exact hk.within hu hw (by omega) hnext
    · exact within_new (h.live hs hfirst) hf hix hc (by omega) (by omega)

/-! ## several moves -/

/-- What a step does to the catalog, as moves. -/
inductive Moves (log : List Raft.Entry) (next : Nat) (d : Disk) (m : Catalog) :
    Nat → Disk → Catalog → Prop where
  | refl : Moves log next d m next d m
  | step {next₁ next₂ : Nat} {d₁ d₂ : Disk} {m₁ m₂ : Catalog}
      (prev : Moves log next d m next₁ d₁ m₁) (h : Move log next₁ d₁ m₁ next₂ d₂ m₂) :
      Moves log next d m next₂ d₂ m₂

theorem Move.moves (h : Move log next d m next' d' m') : Moves log next d m next' d' m' :=
  .step .refl h

theorem Moves.le (h : Moves log next d m next' d' m') : next ≤ next' := by
  induction h with
  | refl => exact le_rfl
  | step _ h ih => exact ih.trans h.le

theorem Moves.steady (h : Moves log next d m next' d' m') (hs : Steady log next d m)
    (hfirst : commandAt log 0 = ⟨none⟩) : Steady log next' d' m' := by
  induction h with
  | refl => exact hs
  | step _ h ih => exact h.steady ih hfirst

/-- Only applying an entry changes what is live. -/
theorem Moves.map_uuid (h : Moves log next d m next' d' m') (hnext : next' = next) (n : String) :
    (m'.collections.find? n).map Catalog.Entry.uuid =
      (m.collections.find? n).map Catalog.Entry.uuid := by
  induction h with
  | refl => rfl
  | step prev h ih =>
    have hle := prev.le
    have hle' := h.le
    rw [← ih (by omega)]
    cases h with
    | apply ord he => omega
    | publish name e ix mark hf hix hmark => exact Catalog.map_uuid_store name _ n
    | reload name e ix hf hix => exact Catalog.map_uuid_store name _ n
    | files hdirs => rfl

theorem Moves.find_of_eq (h : Moves log next d m next d' m') (hf : m.collections.find? n = some e) :
    ∃ e', m'.collections.find? n = some e' ∧ e'.uuid = e.uuid := by
  have hu := h.map_uuid rfl n
  rwa [hf, Option.map_some, Option.map_eq_some_iff] at hu

theorem Moves.find_of_eq' (h : Moves log next d m next d' m')
    (hf : m'.collections.find? n = some e) :
    ∃ e', m.collections.find? n = some e' ∧ e'.uuid = e.uuid := by
  have hu := (h.map_uuid rfl n).symm
  rwa [hf, Option.map_some, Option.map_eq_some_iff] at hu

/-- Bounds on what the collection under a name shows, if its identity meets
`p`. -/
def ShowsFrom (log : List Raft.Entry) (next lo lo' : Nat) (d : Disk) (m : Catalog) (n : String)
    (p : Uuid → Prop) : Prop :=
  ∀ e, m.collections.find? n = some e → p e.uuid → Within log next lo lo' d n e

theorem Moves.showsFrom (h : Moves log next d m next' d' m') (hs : Steady log next d m)
    (hfirst : commandAt log 0 = ⟨none⟩) {p : Uuid → Prop} (hlo : lo ≤ next - 1)
    (hlo' : lo' ≤ next - 1) (hw : ShowsFrom log next lo lo' d m n p) :
    ShowsFrom log next' lo lo' d' m' n p := by
  induction h with
  | refl => exact hw
  | step prev h ih =>
    have hle := prev.le
    exact h.within (prev.steady hs hfirst) hfirst (by omega) (by omega) ih

end

end Lumen
