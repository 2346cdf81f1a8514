import Lumen.Catalog.Builder
import Lumen.Standalone.Recovery

/-!
# Lumen.Standalone.Ddl

Crashes inside the operations of a single node.

A create makes its directory and then the index in it, a drop removes the files
and then the directory.  The next `open` replays the logged operation.  A
replayed create opens the directory if it is there, whether or not it has an
index, and makes it if it is not, where Tantivy's builder may panic:
`recovery_of_cut_operation` says that a replayed create that can do neither
(`Obstructed`) is the only thing that keeps `open` from bringing back the state
before or behind the operation.
-/

namespace Lumen

open Lib Prog Replay

section
variable [Ext] {cmds : Nat → Proto.Command} {a r top i : Nat} {d d₀ d' : Disk} {m m' : Catalog}
  {l : List (String × Listed)} {es rest : List Proto.WalEntry} {u : Uuid} {x : Mapping}
  {ord : IterOrder}

/-- A create finds its directory without an index, or finds none and has a
mapping that Tantivy's builder does not take. -/
def Obstructs (d : Disk) (u : Uuid) (x : Mapping) : Prop :=
  (d.dirs.contains u = true ∧ d.index u = none) ∨ (d.dirs.contains u = false ∧ ¬ x.NoDash)

/-- A create that `open` replays can neither open its directory nor make it. -/
def Obstructed (d : Disk) : Prop :=
  ∃ a es d' m, Catalog.loadCatalog.run d .closed = (.ok (a, es), d', m) ∧
    ∃ e ∈ tailOf a es, ∃ n u x, e.event n = .create u x ∧ Obstructs d u x

/-! ## the directories of creates that are still to be replayed -/

/-- A directory stays as it is while its collection is not in the map and not
created. -/
theorem Effect.find?_of_closed {cmd : Proto.Command} (he : Effect ord i cmd d m d' m')
    (hopen : m.isOpen u = false) (hnew : ∀ n x, eventOf n cmd ≠ .create u x) :
    d'.dirs.find? u = d.dirs.find? u := by
  cases he with
  | same _ => rfl
  | create c u₁ x₁ ix hop hu₁ hx₁ hfree hix =>
    have hne : u ≠ u₁ := by
      rintro rfl
      exact hnew c.collection x₁ (by rw [eventOf_create hop hu₁ hx₁, if_pos rfl])
    show (d.setDir u₁ (.index ix)).dirs.find? u = _
    rw [Disk.setDir, OrdMap.find?_insert, if_neg hne]
  | drop name e hop hfind =>
    have hne : u ≠ e.uuid := (Catalog.uuid_ne_of_isOpen hopen hfind).symm
    show (d.removeDir e.uuid).dirs.find? u = _
    rw [Disk.removeDir, OrdMap.find?_erase, if_neg hne]
  | edit => rfl

/-- A create that has its effect was not obstructed. -/
theorem Tracking.not_obstructs {n : String} (h : Tracking cmds a r top d m)
    (hg : GoodLog cmds top) (hev : eventOf n (cmds (r + 1)) = .create u x)
    (hb : Buildable d m (cmds (r + 1))) (he : Effect ord (r + 1) (cmds (r + 1)) d m d' m') :
    ¬ Obstructs d u x := by
  obtain ⟨c, hop, rfl, hu, hx⟩ := eventOf_eq_create_iff.mp hev
  have hfind := h.free hg hop
  rintro (⟨hdir, hno⟩ | ⟨hdir, hdash⟩)
  · cases he with
    | same hsame =>
      -- the name is free, so the create would have filled the slot
      have hfree : (slotOf d m c.collection).live = none := by
        rw [slotOf_live, hfind]
        rfl
      obtain ⟨st, happ, _⟩ := Slot.apply_create hfree (r + 1) u x
      have hlive := congrArg Slot.live (hsame c.collection)
      rw [hev, happ, hfree] at hlive
      contradiction
    | create c' u' x' ix hop' hu' hx' hfree hix =>
      rw [hop, Option.some.injEq, Proto.Op.createCollection.injEq] at hop'
      subst hop'
      rw [hu, Except.ok.injEq] at hu'
      subst hu'
      rcases hix with ⟨hix, _⟩ | ⟨hfresh, _⟩
      · rw [hix] at hno
        contradiction
      · rw [hfresh] at hdir
        contradiction
    | drop name e hop' => simp [hop] at hop'
    | edit name id v e ops hev' =>
      rw [hev'] at hev
      split at hev <;> contradiction
  · exact hdash (hb c u x hop hu hx hfind hdir)

/-- The state before the entries `rest` are replayed: the directories of the
creates among them are as the replay has found them. -/
def Reaching (cmds : Nat → Proto.Command) (a top : Nat) (es : List Proto.WalEntry) (d₀ : Disk)
    (rest : List Proto.WalEntry) (d : Disk) (m : Catalog) : Prop :=
  ∃ r, a ≤ r ∧ Tracking cmds a r top d m ∧ Upcoming cmds a r top es rest ∧
    ∀ i n u x, r < i → eventOf n (cmds i) = .create u x → d.dirs.find? u = d₀.dirs.find? u

omit [Ext] in
theorem Obstructs.congr (hdir : d.dirs.find? u = d₀.dirs.find? u) (h : Obstructs d₀ u x) :
    Obstructs d u x := by
  rw [Obstructs, OrdMap.contains, Disk.index] at h ⊢
  rw [hdir]
  exact h

/-- **One round of the replay loop**: a create that returns was not obstructed
when the replay began. -/
theorem Reaching.wp_replayEntryWith {e : Proto.WalEntry}
    (h : Reaching cmds a top es d₀ (e :: rest) d m) (ht : Tail cmds a top es)
    (hg : GoodLog cmds top) :
    wp (Catalog.replayEntryWith ord a e)
      (fun _ d' m' => Reaching cmds a top es d₀ rest d' m' ∧
        (a < e.seq → ∀ n u x, e.event n = .create u x → ¬ Obstructs d₀ u x))
      (fun _ _ _ => True) (fun _ => True) d m := by
  obtain ⟨r, ha, htr, hup, hdirs⟩ := h
  rw [Catalog.replayEntryWith]
  split
  · rename_i hle
    exact ⟨⟨r, ha, htr, hup.pass ha hle, hdirs⟩, fun hlt => by omega⟩
  · obtain ⟨k, hk, hrk, hktop, hcmd, hskip, hup'⟩ := hup.next ht (by omega)
    have htr' := htr.skip hrk hskip
    rw [hcmd, hk, wp_bind]
    refine wp_imp (Catalog.wp_applyCommandWith htr'.sound.based) fun _ d' m' hpost => ?_
    obtain ⟨hb, heff⟩ := hpost
    refine ⟨⟨k + 1, by omega, htr'.effect hg (by omega) hktop heff, hup',
      fun i n u x hi hev => ?_⟩, fun _ n u x hev hobs => ?_⟩
    · rw [heff.find?_of_closed (htr'.not_isOpen hg (by omega) hev)
        fun n' y hev' => by have := (hg.distinct.eq hev' hev).1; omega]
      exact hdirs i n u x (by omega) hev
    · have hev : eventOf n (cmds (k + 1)) = .create u x := by
        rw [Proto.WalEntry.event, hcmd] at hev
        exact hev
      exact htr'.not_obstructs hg hev hb heff
        (hobs.congr (hdirs (k + 1) n u x (by omega) hev))

/-- An unobstructed create is one that the builder takes. -/
theorem Reaching.wp_replayEntryWith_iff {e : Proto.WalEntry}
    {Q : Unit → Disk → Catalog → Prop} {E : Error → Disk → Catalog → Prop} {C : Disk → Prop}
    (h : Reaching cmds a top es d₀ (e :: rest) d m) (ht : Tail cmds a top es)
    (hfree : ∀ e ∈ tailOf a es, ∀ n u x, e.event n = .create u x → ¬ Obstructs d₀ u x) :
    wp (Catalog.replayEntryWith ord a e) Q E C d m ↔
      wp (Catalog.replayEntry ord a e) Q E C d m := by
  obtain ⟨r, ha, htr, hup, hdirs⟩ := h
  rw [Catalog.replayEntryWith, Catalog.replayEntry]
  split
  · rfl
  · obtain ⟨k, hk, hrk, hktop, hcmd, hskip, hup'⟩ := hup.next ht (by omega)
    have hmem : e ∈ tailOf a es := mem_tailOf.mpr ⟨hup.suffix.subset List.mem_cons_self, by omega⟩
    rw [hcmd, hk]
    simp only [wp_bind]
    refine Catalog.wp_applyCommandWith_iff fun c u x hop hu hx hfind hno => ?_
    have hev : eventOf c.collection (cmds (k + 1)) = .create u x := by
      rw [eventOf_create hop hu hx, if_pos rfl]
    by_contra hdash
    refine hfree e hmem c.collection u x (by rw [Proto.WalEntry.event, hcmd]; exact hev) ?_
    exact .inr ⟨by rw [OrdMap.contains, ← hdirs (k + 1) _ u x (by omega) hev]; exact hno, hdash⟩

/-! ## recovery -/

theorem CutInv.reaching (h : CutInv cmds top d a l es) (hg : GoodLog cmds top)
    (hl : Loaded top d a l es m) : Reaching cmds a top es d es d m :=
  ⟨a, le_rfl, h.tracking hg hl.map, .start h.tail, fun _ _ _ _ _ _ => rfl⟩

/-- **Opening fails** where a create that is replayed is obstructed. -/
theorem CutInv.wp_openCatalogWith_obstructed {e : Proto.WalEntry} {n : String}
    (h : CutInv cmds top d a l es) (hg : GoodLog cmds top) (he : e ∈ tailOf a es)
    (hev : e.event n = .create u x) (hobs : Obstructs d u x) (m₀ : Catalog) :
    wp (Catalog.openCatalogWith ord) (fun _ _ _ => False) (fun _ _ _ => True) (fun _ => True)
      d m₀ := by
  obtain ⟨hmem, hlt⟩ := mem_tailOf.mp he
  rw [Catalog.openCatalogWith, wp_bind]
  refine h.wp_loadCatalog hg m₀ fun m hl => ?_
  rw [wp_bind]
  -- the entry stays among those still to come
  refine wp_imp (wp_forEach
    (fun rest d₁ m₁ => Reaching cmds a top es d rest d₁ m₁ ∧ e ∈ rest)
    (fun e' rest d₁ m₁ hI => ?_) es ⟨h.reaching hg hl, hmem⟩) fun _ d₁ m₁ hI => ?_
  · refine wp_imp (hI.1.wp_replayEntryWith h.tail hg) fun _ d₂ m₂ hpost => ⟨hpost.1, ?_⟩
    rcases List.mem_cons.mp hI.2 with rfl | hrest
    · exact absurd hobs (hpost.2 hlt n u x hev)
    · exact hrest
  · have hnone := hI.2
    contradiction

/-- Where no create is obstructed, every directory that the replay will find
has an index. -/
theorem CutInv.opens (h : CutInv cmds top d a l es) (hg : GoodLog cmds top)
    (hfree : ∀ e ∈ tailOf a es, ∀ n u x, e.event n = .create u x → ¬ Obstructs d u x) :
    Opens cmds a d := by
  intro i n u x hi hev hc
  obtain ⟨e, he, _, hee⟩ := h.tail.event hg (n := n) hi (by rw [logOf, hev]; simp)
  by_contra hno
  exact hfree e he n u x (hee.trans hev) (.inl ⟨hc, Option.not_isSome_iff_eq_none.mp hno⟩)

/-- **Opening succeeds** where no create that is replayed is obstructed. -/
theorem CutInv.wp_openCatalogWith (h : CutInv cmds top d a l es) (hg : GoodLog cmds top)
    (ord : IterOrder)
    (hfree : ∀ e ∈ tailOf a es, ∀ n u x, e.event n = .create u x → ¬ Obstructs d u x)
    (m₀ : Catalog) :
    wp (Catalog.openCatalogWith ord) (fun _ _ m' => m'.shown = specOf cmds top)
      (fun _ _ _ => False) (fun _ => True) d m₀ := by
  have hw : wp (Catalog.openCatalog ord) (fun _ _ m' => m'.shown = specOf cmds top)
      (fun _ _ _ => False) (fun _ => True) d m₀ :=
    wp_mono _ (h.wp_openCatalog hg (h.opens hg hfree) ord m₀
      fun d' m' hex _ _ hempty => hex.shown_eq hempty)
      (fun _ _ _ hq => hq) (fun _ _ _ he => he) fun _ _ => trivial
  have hload : wp Catalog.loadCatalog
      (fun p d₁ m₁ => p = (a, es) ∧ d₁ = d ∧ Loaded top d a l es m₁) (fun _ _ _ => False)
      (fun _ => True) d m₀ := h.wp_loadCatalog hg m₀ fun m hl => ⟨rfl, rfl, hl⟩
  rw [Catalog.openCatalog, wp_bind] at hw
  rw [Catalog.openCatalogWith, wp_bind]
  refine wp_mono _ (wp_and _ hload hw) (fun p d₁ m₁ hpost => ?_) (fun _ _ _ he => he.2)
    fun _ hc => hc.2
  obtain ⟨⟨rfl, rfl, hl⟩, hrest⟩ := hpost
  rw [wp_bind] at hrest ⊢
  exact wp_forEach_of_iff (Reaching cmds a top es d₁)
    (fun e rest d₂ m₂ hI => wp_imp (hI.wp_replayEntryWith h.tail hg) fun _ _ _ hp => hp.1)
    (fun e rest d₂ m₂ Q hI => hI.wp_replayEntryWith_iff h.tail hfree) es (h.reaching hg hl)
    hrest

/-- Opening what a cut operation left brings back its log exactly when no
create is obstructed. -/
theorem Crashed.open_iff {s : Spec} (h : Crashed s d) (ord : IterOrder) :
    (¬ Obstructed d → ∃ d' m', (Catalog.openCatalogWith ord).run d .closed = (.ok (), d', m') ∧
      m'.shown = s) ∧
    (Obstructed d → ∀ d' m',
      (Catalog.openCatalogWith ord).run d .closed ≠ (.ok (), d', m')) := by
  obtain ⟨cmds, top, ⟨hg, a, l, es, hd⟩, rfl⟩ := h
  obtain ⟨m, hrun, _⟩ := hd.load hg .closed
  refine ⟨fun hfree => ?_, ?_⟩
  · obtain ⟨_, d', m', hopen, hshown⟩ := run_ok_of_wp (hd.wp_openCatalogWith hg ord
      (fun e he n u x hev hobs => hfree ⟨a, es, d, m, hrun, e, he, n, u, x, hev, hobs⟩) .closed)
    exact ⟨d', m', hopen, hshown⟩
  · rintro ⟨a', es', d', m', hrun', e, he, n, u, x, hev, hobs⟩ d₁ m₁ hopen
    rw [hrun, Prod.mk.injEq, Except.ok.injEq, Prod.mk.injEq] at hrun'
    obtain ⟨⟨rfl, rfl⟩, _⟩ := hrun'
    exact post_of_wp (hd.wp_openCatalogWith_obstructed hg he hev hobs .closed) hopen

/-- **Crashes inside an operation**: whatever disk a crash inside a create, a
drop or a document operation leaves, the next `open` succeeds with the state
before the operation or the state behind it, all earlier operations in it,
exactly when no create that it replays is obstructed. -/
theorem recovery_of_cut_operation {s : Spec} {used : List Uuid} {minted : Uuid}
    (h : StandaloneRun (fun _ => False) d (some m) s used) (hnew : minted ∉ used) (op : Op)
    (hcut : d' ∈ (op.call minted).crashes d m) (ord : IterOrder) :
    (∃ d₁ m₁, (Catalog.openCatalogWith ord).run d' .closed = (.ok (), d₁, m₁) ∧
      ((∀ name, m₁.shown name = s name) ∨ ∀ name, m₁.shown name = op.apply minted s name)) ↔
      ¬ Obstructed d' := by
  obtain ⟨cmds, top, hrun, rfl, hu⟩ : Serving s used d m := h.inv fun _ _ _ _ _ _ _ _ hf => hf.elim
  have hcrash := crashes_of_wp (hrun.wp_call hu hnew op) d' hcut
  constructor
  · rintro ⟨d₁, m₁, hopen, _⟩ hhalf
    rcases hcrash with hc | hc
    · exact (hc.open_iff ord).2 hhalf d₁ m₁ hopen
    · exact (hc.open_iff ord).2 hhalf d₁ m₁ hopen
  · intro hhalf
    rcases hcrash with hc | hc
    · obtain ⟨d₁, m₁, hopen, hshown⟩ := (hc.open_iff ord).1 hhalf
      exact ⟨d₁, m₁, hopen, .inl fun name => by rw [hshown]⟩
    · obtain ⟨d₁, m₁, hopen, hshown⟩ := (hc.open_iff ord).1 hhalf
      exact ⟨d₁, m₁, hopen, .inr fun name => by rw [hshown]⟩

end

section
open Reference

/-- A create that is cut after its directory was made keeps the next `open`
from succeeding, and so does a drop that is cut while the files are removed if
its collection was created since the last checkpoint.  A create with a field
that the builder refuses is cut off by `open` itself. -/
theorem recovery_fails_on_half_made_directory :
    (∃ cut ∈ ((Op.create "a" emptyMapping).call (exampleUuid 1)).crashes
        (after (Catalog.openCatalog .stored) (.empty, .closed)).1
        (after (Catalog.openCatalog .stored) (.empty, .closed)).2,
      ((Catalog.openCatalogWith .stored).run cut .closed).1 =
        .error (.tantivy "index does not exist")) ∧
    (∃ cut ∈ ((Op.drop "a").call (exampleUuid 2)).crashes createdA.1 createdA.2,
      ((Catalog.openCatalogWith .stored).run cut .closed).1 =
        .error (.tantivy "index does not exist")) ∧
    ∃ cut ∈ ((Op.create "a" dashMapping).call (exampleUuid 1)).crashes
        (after (Catalog.openCatalog .stored) (.empty, .closed)).1
        (after (Catalog.openCatalog .stored) (.empty, .closed)).2,
      cut.dirs.contains (exampleUuid 1) = false ∧
        ((Catalog.openCatalogWith .stored).run cut .closed).1 =
          .error (.panicked "assertion failed: is_valid_field_name(&field_name)") :=
  ⟨by decide +kernel, by decide +kernel, by decide +kernel⟩

theorem checkpointedA_run (safe : Disk → Prop) :
    StandaloneRun safe checkpointedA.1 (some checkpointedA.2)
      ((Op.create "a" emptyMapping).apply (exampleUuid 1) fun _ => none) [exampleUuid 1] :=
  .checkpoint .stored
    (.acknowledged (.create "a" emptyMapping) (exampleUuid 1)
      (.opened .stored .start (Prod.ext (by decide +kernel) rfl)) (by decide)
      (Prod.ext (by decide +kernel) rfl)) (Prod.ext (by decide +kernel) rfl)

/-- The entries of the write-ahead log when the collection is dropped; the
checkpoint covers the first. -/
def dropAEntries : List Proto.WalEntry :=
  [⟨1, some ⟨some (.createCollection ⟨"a", fmtUuid (exampleUuid 1), some emptyMapping.toProto⟩)⟩⟩,
    ⟨2, some ⟨some (.dropCollection ⟨"a"⟩)⟩⟩]

theorem dropA_load :
    ∀ cut ∈ ((Op.drop "a").call (exampleUuid 2)).crashes checkpointedA.1 checkpointedA.2,
      (Catalog.loadCatalog.run cut .closed).1 = .ok (1, dropAEntries) := by
  decide +kernel

/-- A drop behind a checkpoint may be cut anywhere. -/
theorem recovery_of_cut_operation_behind_checkpoint :
    ((Op.drop "a").call (exampleUuid 2)).crashes checkpointedA.1 checkpointedA.2 ≠ [] ∧
      ∀ cut ∈ ((Op.drop "a").call (exampleUuid 2)).crashes checkpointedA.1 checkpointedA.2,
        let s : Spec := (Op.create "a" emptyMapping).apply (exampleUuid 1) fun _ => none
        ∃ d₁ m₁, (Catalog.openCatalogWith .stored).run cut .closed = (.ok (), d₁, m₁) ∧
          ((∀ name, m₁.shown name = s name) ∨
            ∀ name, m₁.shown name = (Op.drop "a").apply (exampleUuid 2) s name) := by
  refine ⟨by decide +kernel, fun cut hcut => ?_⟩
  refine (recovery_of_cut_operation (checkpointedA_run _) (by decide) (.drop "a") hcut .stored).mpr ?_
  rintro ⟨a, es, d', m, hrun, e, he, n, u, x, hev, _⟩
  have hload := dropA_load cut hcut
  rw [hrun, Except.ok.injEq, Prod.mk.injEq] at hload
  obtain ⟨rfl, rfl⟩ := hload
  obtain ⟨hmem, hlt⟩ := mem_tailOf.mp he
  simp only [dropAEntries, List.mem_cons, List.not_mem_nil, or_false] at hmem
  rcases hmem with rfl | rfl
  · exact absurd hlt (Nat.lt_irrefl 1)
  · rw [Proto.WalEntry.event] at hev
    obtain ⟨c, hop, _⟩ := eventOf_eq_create_iff.mp hev
    simp at hop

end

end Lumen
