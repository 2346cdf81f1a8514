import Lumen.Catalog.Sweep
import Lumen.Standalone.Checkpoint

/-!
# Lumen.Standalone.Open

Recovery of a single node.  The catalog file's collections are opened, the
operations behind its position are applied again, directories that belong to
nothing are swept, and a checkpoint ends it.

`Replaying` holds at every position of the replay; at the end of the log the
catalog is what the log says.  A create finds its directory missing or with an
index in it (`Opens`), or else it fails.  Creates and drops write the catalog
file on the way, with a position that passes documents only buffered so far:
`TailSafe` is what makes a crash there harmless.
-/

namespace Lumen

open Lib Prog Replay

section
variable [Ext] {cmds : Nat → Proto.Command} {a r top : Nat} {d d' : Disk} {m m' : Catalog}
  {l : List (String × Listed)} {es : List Proto.WalEntry}

/-- Every directory that a create behind `r` will find has an index. -/
def Opens (cmds : Nat → Proto.Command) (r : Nat) (d : Disk) : Prop :=
  ∀ i n u x, r < i → eventOf n (cmds i) = .create u x → d.dirs.contains u = true →
    (d.index u).isSome

/-- The map while the operations in `(a, top]` are applied again, up to `r` so
far. -/
structure Tracking (cmds : Nat → Proto.Command) (a r top : Nat) (d : Disk) (m : Catalog) :
    Prop where
  sound : Sound d m
  owned : Owned cmds top d m
  /-- Every directory is of a collection of the log. -/
  made : ∀ u, d.dirs.contains u = true → ∃ i n x, i ≤ top ∧ eventOf n (cmds i) = .create u x
  /-- What is in the map is there in the log, and is not a collection of the
  catalog file that is dropped behind it. -/
  births : ∀ n e, m.collections.find? n = some e → ∃ j,
    (logOf cmds n).Born j e.uuid e.collection.mapping ∧ j ≤ r ∧ ¬ (logOf cmds n).DropIn j r ∧
      (j ≤ a → ¬ (logOf cmds n).DropIn a top)

/-- The catalog while the operations are applied again. -/
structure Replaying (cmds : Nat → Proto.Command) (a r top : Nat) (d : Disk) (m : Catalog) : Prop
    extends Tracking cmds a r top d m where
  slots : ∀ n, Inv (logOf cmds n) r top (slotOf d m n)
  opens : Opens cmds r d

/-! ## the opened directory -/

theorem CutInv.tracking (h : CutInv cmds top d a l es) (hg : GoodLog cmds top)
    (hm : ∀ n, m.collections.find? n = openedMap d l (Catalog.droppedInTail a es) n) :
    Tracking cmds a a top d m where
  sound := h.sound hm hg
  owned := h.owned hm hg
  made u hu := by
    obtain ⟨i, n, x, hi, hev, _⟩ := h.dirs.owned u hu
    exact ⟨i, n, x, hi, hev⟩
  births n e hf := by
    rw [hm n] at hf
    obtain ⟨x, ix, hd, hx, hix, rfl⟩ := h.opened hf
    obtain ⟨j, hb, hj, hnd⟩ := h.born hd hx
    exact ⟨j, hb, hj, fun hd' => hnd (hd'.mono le_rfl h.le), fun _ => hd⟩

theorem CutInv.replaying (h : CutInv cmds top d a l es) (hg : GoodLog cmds top)
    (ho : Opens cmds a d)
    (hm : ∀ n, m.collections.find? n = openedMap d l (Catalog.droppedInTail a es) n) :
    Replaying cmds a a top d m := ⟨h.tracking hg hm, h.slots hm hg, ho⟩

/-- The directories of a node that was not cut all have an index. -/
theorem Dirs.opens (h : Dirs cmds a top d) : Opens cmds a d := by
  intro _ _ u _ _ _ hu
  obtain ⟨n, g, hstate, rfl⟩ := h.owned u hu
  obtain ⟨ix, hix, _⟩ := h.saved n g hstate
  rw [hix]
  rfl

/-! ## one position further -/

namespace Tracking

theorem stateAt (h : Tracking cmds a r top d m) {n : String} {e : Catalog.Entry}
    (hf : m.collections.find? n = some e) :
    ∃ g, (logOf cmds n).stateAt r = some g ∧ g.uuid = e.uuid ∧ g.info = e.collection.mapping := by
  obtain ⟨j, hb, hj, hnd, _⟩ := h.births n e hf
  exact ⟨_, hb.stateAt_eq hj hnd, rfl, rfl⟩

theorem skip {r' : Nat} (h : Tracking cmds a r top d m) (hle : r ≤ r')
    (hskip : ∀ i, r < i → i ≤ r' → (cmds i).op = none) : Tracking cmds a r' top d m where
  sound := h.sound
  owned := h.owned
  made := h.made
  births n e hf := by
    obtain ⟨j, hb, hj, hnd, hold⟩ := h.births n e hf
    refine ⟨j, hb, hj.trans hle, fun hd => ?_, hold⟩
    rcases hd.split r with hd | ⟨i, h1, h2, h3⟩
    · exact hnd hd
    · have hnone : logOf cmds n i = .skip := eventOf_of_none (hskip i h1 h2)
      rw [hnone] at h3
      contradiction

/-- The name of the next create is free. -/
theorem free (h : Tracking cmds a r top d m) (hg : GoodLog cmds top) {c : Proto.CreateCollection}
    (hop : (cmds (r + 1)).op = some (.createCollection c)) :
    m.collections.find? c.collection = none := by
  obtain ⟨_, _, _, _, hnone⟩ := hg.create (r + 1) c hop
  cases hf : m.collections.find? c.collection with
  | none => rfl
  | some e =>
    obtain ⟨g, hstate, _⟩ := h.stateAt hf
    have hnone : (logOf cmds c.collection).stateAt r = none := hnone
    rw [hnone] at hstate
    contradiction

/-- What is created later is not in the map yet. -/
theorem not_isOpen (h : Tracking cmds a r top d m) (hg : GoodLog cmds top) {i : Nat} {n : String}
    {u : Uuid} {x : Mapping} (hi : r < i) (hev : eventOf n (cmds i) = .create u x) :
    m.isOpen u = false := by
  refine Catalog.isOpen_eq_false fun n' e hf he => ?_
  obtain ⟨j, hb, hj, _⟩ := h.births n' e hf
  have hbe : eventOf n' (cmds j) = .create u e.collection.mapping := he ▸ hb.2.1
  have := (hg.distinct.eq hbe hev).1
  omega

/-- What an effect leaves in the map was there before, in a name the event is
not a drop of, or is created by it. -/
theorem births_effect {ord : IterOrder} (h : Tracking cmds a r top d m) (hg : GoodLog cmds top)
    (ha : a ≤ r) (he : Effect ord (r + 1) (cmds (r + 1)) d m d' m') (n : String)
    (e : Catalog.Entry) (hf : m'.collections.find? n = some e) :
    ∃ j, (logOf cmds n).Born j e.uuid e.collection.mapping ∧ j ≤ r + 1 ∧
      ¬ (logOf cmds n).DropIn j (r + 1) ∧ (j ≤ a → ¬ (logOf cmds n).DropIn a top) := by
  have hkeep : ∀ e₀, m.collections.find? n = some e₀ → e₀.uuid = e.uuid →
      e₀.collection.mapping = e.collection.mapping → logOf cmds n (r + 1) ≠ .drop →
      ∃ j, (logOf cmds n).Born j e.uuid e.collection.mapping ∧ j ≤ r + 1 ∧
        ¬ (logOf cmds n).DropIn j (r + 1) ∧ (j ≤ a → ¬ (logOf cmds n).DropIn a top) := by
    intro e₀ hf₀ hu hx hne
    obtain ⟨j, hb, hj, hnd, hold⟩ := h.births n e₀ hf₀
    rw [hu, hx] at hb
    exact ⟨j, hb, by omega, Log.not_dropIn_succ hnd hne, hold⟩
  cases he with
  | same hsame =>
    refine hkeep e hf rfl rfl fun hdrop => ?_
    -- a drop would have emptied the slot
    have hlive := congrArg Slot.live (hsame n)
    rw [show eventOf n (cmds (r + 1)) = .drop from hdrop] at hlive
    simp [Slot.apply, slotOf_live, hf] at hlive
  | create c u x ix hop hu hx hfree hix =>
    have hev := eventOf_create hop hu hx
    rw [Catalog.find?_inserted] at hf
    split at hf
    · rename_i hn
      injection hf with hf
      subst hf hn
      obtain ⟨_, _, _, _, hnone⟩ := hg.create (r + 1) c hop
      refine ⟨r + 1, ⟨by omega, ?_, hnone⟩, le_rfl, Log.not_dropIn_self, fun hle => by omega⟩
      show eventOf c.collection (cmds (r + 1)) = _
      rw [hev, if_pos rfl]
      rfl
    · refine hkeep e hf rfl rfl ?_
      rw [logOf, hev]
      split <;> simp
  | drop name e₀ hop hfind =>
    rw [Catalog.find?_erased] at hf
    split at hf
    · contradiction
    · rename_i hn
      refine hkeep e hf rfl rfl ?_
      rw [logOf, eventOf_drop hop, if_neg (Ne.symm hn)]
      simp
  | edit name id v e₀ ops hev hfind hmark hops =>
    have hne : logOf cmds n (r + 1) ≠ .drop := by
      rw [logOf, hev n]
      split <;> simp
    rw [Catalog.find?_store_self (c := e₀.collection.buffer ops) hfind
      (h.sound.entry name e₀ hfind).uuid] at hf
    split at hf
    · rename_i hn
      injection hf with hf
      subst hf hn
      exact hkeep e₀ hfind rfl rfl hne
    · exact hkeep e hf rfl rfl hne

/-- One operation applied again. -/
theorem effect {ord : IterOrder} (h : Tracking cmds a r top d m) (hg : GoodLog cmds top)
    (ha : a ≤ r) (hlt : r < top) (he : Effect ord (r + 1) (cmds (r + 1)) d m d' m') :
    Tracking cmds a (r + 1) top d' m' where
  sound := he.sound rfl h.sound h.owned hg.distinct
  owned := he.owned rfl hlt h.owned hg.distinct
  made u hu := by
    rcases he.contains hu with ⟨hold, _⟩ | ⟨n, x, hev, _⟩
    · exact h.made u hold
    · exact ⟨r + 1, n, x, hlt, hev⟩
  births := h.births_effect hg ha he

end Tracking

theorem Opens.mono {r' : Nat} (h : Opens cmds r d) (hle : r ≤ r') : Opens cmds r' d :=
  fun i n u x hi hev hu => h i n u x (by omega) hev hu

theorem Opens.effect {ord : IterOrder} {i : Nat} {cmd : Proto.Command} (h : Opens cmds r d)
    (he : Effect ord i cmd d m d' m') : Opens cmds r d' := by
  intro j n u x hj hev hu
  rcases he.contains hu with ⟨hold, hsame⟩ | ⟨_, _, _, hsome⟩
  · rw [Disk.index, hsame]
    exact h j n u x hj hev hold
  · exact hsome

namespace Replaying

theorem skip {r' : Nat} (h : Replaying cmds a r top d m) (hle : r ≤ r') (htop : r' ≤ top)
    (hskip : ∀ i, r < i → i ≤ r' → (cmds i).op = none) : Replaying cmds a r' top d m where
  toTracking := h.toTracking.skip hle hskip
  slots n := (h.slots n).move_skip hle htop fun i h1 h2 => eventOf_of_none (hskip i h1 h2)
  opens := h.opens.mono hle

/-- In a good log the next operation can always be applied. -/
theorem applicable (h : Replaying cmds a r top d m) (hg : GoodLog cmds top) :
    Applicable d m (r + 1) (cmds (r + 1)) := by
  rw [Applicable]
  split
  · rename_i c hop
    obtain ⟨u, x, hu, hx, _⟩ := hg.create (r + 1) c hop
    have hev : eventOf c.collection (cmds (r + 1)) = .create u x := by
      rw [eventOf_create hop hu hx, if_pos rfl]
    exact ⟨⟨x, hx⟩, fun _ => ⟨u, hu, fun hcontains =>
      ⟨h.opens (r + 1) _ u x (Nat.lt_succ_self r) hev hcontains,
        h.not_isOpen hg (Nat.lt_succ_self r) hev⟩⟩⟩
  · rename_i index hop
    intro e hf _
    obtain ⟨g, parsed, doc, hstate, hparsed, hdoc⟩ := hg.document (r + 1) index hop
    obtain ⟨g', hstate', _, hinfo⟩ := h.stateAt hf
    have hstate : (logOf cmds index.collection).stateAt r = some g := hstate
    rw [hstate, Option.some.injEq] at hstate'
    rw [(h.sound.entry _ e hf).schema, ← hinfo, ← hstate']
    exact ⟨parsed, doc, hparsed, hdoc⟩
  · trivial

/-- **One operation applied again.** -/
theorem effect {ord : IterOrder} (h : Replaying cmds a r top d m) (hg : GoodLog cmds top)
    (ha : a ≤ r) (hlt : r < top) (he : Effect ord (r + 1) (cmds (r + 1)) d m d' m') :
    Replaying cmds a (r + 1) top d' m' where
  toTracking := h.toTracking.effect hg ha hlt he
  slots n := ((h.slots n).apply (hg.noStale n) hlt).congr
    (he.slots rfl h.sound h.owned hg.distinct n)
  opens := (h.opens.mono (Nat.le_succ r)).effect he

/-- At the end of the log the catalog is what the log says. -/
theorem exact (h : Replaying cmds a top top d m) (hno : NoOrphans d m) : Exact cmds top d m where
  sound := h.sound
  live n := (h.slots n).live_eq
  created n e hf := (h.owned.live n e hf).1
  noOrphans := hno

end Replaying

/-! ## crashes on the way -/

/-- When a crash during the replay does no harm: the directories are those the
log says, a collection created behind `a` is still there at the end, and a
document operation that a create comes after is dropped with its collection,
done again behind that create, or saved in its directory. -/
structure TailSafe (cmds : Nat → Proto.Command) (a top : Nat) (d : Disk) : Prop where
  dirs : Dirs cmds a top d
  kept : ∀ n j u x, a < j → eventOf n (cmds j) = .create u x → ¬ (logOf cmds n).DropIn j top
  saved : ∀ i n u x, a < i → eventOf n (cmds i) = .create u x → ∀ n' p k v, a < p → p < i →
    logOf cmds n' p = .edit k v → (logOf cmds n').DropIn p top ∨ (logOf cmds n').Touched k i top ∨
      ∀ g, (logOf cmds n').stateAt top = some g → p ≤ (d.mark g.uuid).index

/-- The catalog file that a create of the replay writes. -/
theorem DiskInv.persisted (h : DiskInv cmds top d a l es) (ord : IterOrder)
    (hsafe : TailSafe cmds a top d) (ha : a < r) (hr : r ≤ top) {n₀ : String} {u₀ : Uuid}
    {x₀ : Mapping} (hcreate : eventOf n₀ (cmds r) = .create u₀ x₀) (hdirs : d'.dirs = d.dirs)
    (hwal : d'.wal = d.wal) (hq : d'.quarantined = d.quarantined)
    (hm : Replaying cmds a r top d' m') :
    DiskInv cmds top (d'.withCatalog (Catalog.snapshotProto ord m' r)) r
      ((ord.order m'.collections.toList).map fun p => (p.1, p.2.listed)) es := by
  have hperm : ((ord.order m'.collections.toList).map fun p => (p.1, p.2.listed)).Perm m'.listing :=
    (ord.perm _).map _
  refine ⟨⟨Disk.lists_withCatalog ord m' r, hr, ?_, ⟨h.tail.sorted, h.tail.le,
    fun e he hlt => h.tail.command e he (ha.trans hlt),
    fun i h1 h2 => h.tail.cover i (ha.trans h1) h2,
    .inr (h.tail.highest.resolve_left (by omega))⟩, ?_, ?_, fun n hd => ?_, fun p hp _ => ?_, ?_⟩,
    ?_, ?_⟩
  · show WalDisk d'.wal es top
    rw [hwal]
    exact h.wal
  · exact (hperm.map Prod.fst).nodup_iff.mpr (nodup_listing_names m')
  · exact (hperm.map fun p => p.2.uuid).nodup_iff.mpr hm.sound.nodup_listing_uuids
  · rw [lookup_listing]
    cases hf : m'.collections.find? n with
    | none =>
      rcases (hm.slots n).phase with hd' | ⟨_, hs⟩ | ⟨g, _, _, hl, _⟩
      · exact absurd hd' hd
      · rw [hs]
        rfl
      · rw [slotOf_live, hf] at hl
        contradiction
    | some e =>
      obtain ⟨g, hstate, hu, hx⟩ := hm.stateAt hf
      rw [hstate, Option.map_some, Option.map_some, Option.map_some, hu, hx]
      rfl
  · obtain ⟨q, hq, rfl⟩ := List.mem_map.mp hp
    exact (hm.owned.live q.1 q.2 (OrdMap.find?_eq_some_iff.mpr (ord.mem.mp hq))).1
  · refine (h.parked.mono ha.le).congr hq fun u hu => .inl ?_
    rw [← hdirs]
    exact hu
  · intro n g hstate
    obtain ⟨ix, hix, hs⟩ := h.dirs.saved n g hstate
    obtain ⟨j, hb, hj, hnd, hdocs, hcover⟩ := hs.docs
    have hmark : (d.mark g.uuid).index = ix.mark := by rw [Disk.mark, hix]; rfl
    refine ⟨ix, ?_, hs.schema, hs.mark_le, j, hb, hj, hnd, hdocs, fun k ht => ?_⟩
    · rw [Disk.index_withCatalog, Disk.index_congr hdirs, hix]
    · -- an edit behind `a` that was not saved is done again behind this create
      have hlater : ∀ p v, a < p → max j ix.mark < p → p ≤ r → logOf cmds n p = .edit k v →
          (logOf cmds n).Touched k r top := by
        intro p v hpa hpj hpr hev
        have hne : p ≠ r := by
          rintro rfl
          have hev : eventOf n (cmds p) = .edit k v := hev
          obtain ⟨c, hop, _, hu, hx⟩ := eventOf_eq_create_iff.mp hcreate
          rw [eventOf_create hop hu hx] at hev
          split at hev <;> contradiction
        rcases hsafe.saved r n₀ u₀ x₀ ha hcreate n p k v hpa (by omega) hev with hd | ht | hle
        · exact absurd (hd.mono (by omega) le_rfl) hnd
        · exact ht
        · have := hle g hstate
          omega
      obtain ⟨p, v, h1, h2, h3⟩ := ht
      rcases Nat.lt_or_ge a p with hp | hp
      · exact hlater p v hp h1 h2 h3
      · obtain ⟨p', v', h1', h2', h3'⟩ := hcover k ⟨p, v, h1, hp, h3⟩
        rcases Nat.lt_or_ge r p' with hp' | hp'
        · exact ⟨p', v', hp', h2', h3'⟩
        · exact hlater p' v' h1' (by omega) hp' h3'
  · intro u hu
    refine h.dirs.owned u ?_
    rw [← hdirs]
    exact hu

/-- What a safe replay keeps of the directory it started on: the collection
directories and the write-ahead log as they are, and a catalog file that holds
the log together with them. -/
structure Kept (cmds : Nat → Proto.Command) (top : Nat) (es : List Proto.WalEntry) (d₀ d : Disk) :
    Prop where
  dirs : d.dirs = d₀.dirs
  wal : d.wal = d₀.wal
  quarantined : d.quarantined = d₀.quarantined
  disk : ∃ a l, DiskInv cmds top d a l es

section
variable {d₀ : Disk} {ord : IterOrder} {mark : LogMark}

theorem Kept.withTmp (h : Kept cmds top es d₀ d) (tmp : Option Bytes) :
    Kept cmds top es d₀ { d with catalogTmp := tmp } := by
  obtain ⟨a, l, hd⟩ := h.disk
  exact ⟨h.dirs, h.wal, h.quarantined, a, l, hd.withTmp tmp⟩

variable (h₀ : DiskInv cmds top d₀ a l es) (hsafe : TailSafe cmds a top d₀)
  (hg : GoodLog cmds top) (ha : a ≤ r) (h : Replaying cmds a r top d m)
  (hk : Kept cmds top es d₀ d)
include h₀ hsafe hg ha h hk

/-- A create opens the directory that is there and writes the catalog file. -/
theorem Replaying.wp_create_kept {c : Proto.CreateCollection} (hlt : r < top)
    (hi : mark.index = r + 1) (hop : (cmds (r + 1)).op = some (.createCollection c)) :
    wp (Catalog.applyCreate ord mark c) (fun _ d' _ => Kept cmds top es d₀ d')
      (fun _ _ _ => True) (Kept cmds top es d₀) d m := by
  obtain ⟨u, x, hu, hx, hnone⟩ := hg.create (r + 1) c hop
  have hev : eventOf c.collection (cmds (r + 1)) = .create u x := by
    rw [eventOf_create hop hu hx, if_pos rfl]
  have hb : (logOf cmds c.collection).Born (r + 1) u x := ⟨by omega, hev, hnone⟩
  obtain ⟨ix, hix, _⟩ := h₀.dirs.saved _ _ (hb.stateAt_eq hlt
    (hsafe.kept _ (r + 1) u x (by omega) hev))
  have hix : d.index u = some ix := by rw [Disk.index_congr hk.dirs]; exact hix
  rw [Catalog.applyCreate, hx, wp_bind, wp_ofExcept_ok, wp_bind, Catalog.wp_lookup]
  cases hf : m.collections.find? c.collection with
  | some e => exact hk
  | none =>
    rw [Option.map_none, Catalog.applyNewCreate, hu, wp_bind, wp_ofExcept_ok, wp_bind,
      Catalog.installCollection, wp_bind, Catalog.openOrCreate, wp_bind, wp_getDisk,
      if_pos (Disk.contains_of_index hix), Catalog.openCollection, wp_bind, wp_getDisk, wp_bind,
      wp_getMem, hix]
    cases ho : m.isOpen u with
    | true => simp
    | false =>
      simp only [Bool.false_eq_true, if_false, wp_pure, wp_bind, wp_modifyMem, hi]
      have heff : Effect ord (r + 1) (cmds (r + 1)) d m _ _ :=
        .create c u x ix hop hu hx hf (.inl ⟨hix, ho⟩)
      rw [Disk.setDir_index hix] at heff
      have hdirs : (d.withCatalog (Catalog.snapshotProto ord
          (m.inserted c.collection u x (r + 1) ix) (r + 1))).dirs = d₀.dirs := hk.dirs
      have hdisk := h₀.persisted ord hsafe (by omega) hlt hev hdirs hk.wal hk.quarantined
        (h.effect hg ha hlt heff)
      have hkept : Kept cmds top es d₀ (d.withCatalog (Catalog.snapshotProto ord
          (m.inserted c.collection u x (r + 1) ix) (r + 1))) :=
        ⟨hk.dirs, hk.wal, hk.quarantined, _, _, hdisk⟩
      exact Catalog.wp_persist ord (r + 1) hk.withTmp hkept hkept

omit h₀ hg hk in
/-- A drop finds nothing to drop. -/
theorem Replaying.find?_of_drop {name : String} (hlt : r < top)
    (hop : (cmds (r + 1)).op = some (.dropCollection ⟨name⟩)) : m.collections.find? name = none := by
  cases hf : m.collections.find? name with
  | none => rfl
  | some e =>
    obtain ⟨j, hb, hj, _, hold⟩ := h.births name e hf
    have hdrop : (logOf cmds name).DropIn (max a j) top :=
      ⟨r + 1, by omega, hlt, by rw [logOf, eventOf_drop hop, if_pos rfl]⟩
    rcases Nat.lt_or_ge a j with hja | hja
    · exact absurd (hdrop.mono (by omega) le_rfl) (hsafe.kept name j _ _ hja hb.2.1)
    · exact absurd (hdrop.mono (by omega) le_rfl) (hold hja)

/-- **An operation of a safe replay** passes only through disks that still
hold the log. -/
theorem Replaying.wp_kept (hlt : r < top) (hi : mark.index = r + 1) :
    wp (Catalog.applyCommand ord mark (cmds (r + 1))) (fun _ d' _ => Kept cmds top es d₀ d')
      (fun _ _ _ => True) (Kept cmds top es d₀) d m := by
  -- a document operation only buffers
  have hedit : ∀ d' m', Effect ord mark.index (cmds (r + 1)) d m d' m' →
      (∀ c, (cmds (r + 1)).op ≠ some (.createCollection c)) →
      (∀ n, (cmds (r + 1)).op ≠ some (.dropCollection n)) → Kept cmds top es d₀ d' := by
    intro d' m' heff hc hd
    cases heff with
    | same _ => exact hk
    | create c u x ix hop => exact absurd hop (hc c)
    | drop name e hop => exact absurd hop (hd ⟨name⟩)
    | edit => exact hk
  rw [Catalog.applyCommand]
  split
  · rename_i c hop
    rw [wp_bind]
    exact Replaying.wp_create_kept h₀ hsafe hg ha h hk hlt hi hop
  · rename_i drop hop
    have hnone := Replaying.find?_of_drop hsafe ha h hlt hop
    simp only [wp_bind, Catalog.applyDrop, wp_getMem, wp_modifyMem, hnone, wp_pure]
    exact hk
  · rename_i index hop
    exact wp_applyIndex h.sound.based hop (fun _ _ _ _ => trivial) fun _ d' m' heff =>
      hedit d' m' heff (by simp [hop]) (by simp [hop])
  · rename_i delete hop
    exact wp_applyDeleteDoc h.sound.based hop fun _ d' m' heff =>
      hedit d' m' heff (by simp [hop]) (by simp [hop])
  · exact hk

end

/-! ## the replay loop -/

/-- The entries `rest` are still to be replayed, and `r` is the position
reached. -/
structure Upcoming (cmds : Nat → Proto.Command) (a r top : Nat) (es rest : List Proto.WalEntry) :
    Prop where
  suffix : rest <:+ es
  behind : ∀ e ∈ rest, a < e.seq → r < e.seq
  cover : ∀ i, r < i → i ≤ top → (cmds i).op ≠ none → ∃ e ∈ rest, e.seq = i

section
omit [Ext]
variable {e : Proto.WalEntry} {rest : List Proto.WalEntry}

theorem Upcoming.start (h : Tail cmds a top es) : Upcoming cmds a a top es es :=
  ⟨List.suffix_rfl, fun _ _ hlt => hlt, h.cover⟩

/-- An entry that the catalog file covers. -/
theorem Upcoming.pass (h : Upcoming cmds a r top es (e :: rest)) (ha : a ≤ r) (hle : e.seq ≤ a) :
    Upcoming cmds a r top es rest := by
  refine ⟨(List.suffix_cons e rest).trans h.suffix,
    fun e' he' => h.behind e' (List.mem_cons_of_mem e he'), fun i h1 h2 hop => ?_⟩
  obtain ⟨e', he', rfl⟩ := h.cover i h1 h2 hop
  rcases List.mem_cons.mp he' with rfl | he'
  · omega
  · exact ⟨e', he', rfl⟩

/-- The next entry that is replayed: nothing is logged between the last
operation and this one. -/
theorem Upcoming.next (h : Upcoming cmds a r top es (e :: rest)) (ht : Tail cmds a top es)
    (hgt : a < e.seq) : ∃ k, e.seq = k + 1 ∧ r ≤ k ∧ k < top ∧ e.command = some (cmds (k + 1)) ∧
      (∀ i, r < i → i ≤ k → (cmds i).op = none) ∧ Upcoming cmds a (k + 1) top es rest := by
  have hmem : e ∈ es := h.suffix.subset List.mem_cons_self
  have hlt : ∀ e' ∈ rest, e.seq < e'.seq :=
    (List.pairwise_cons.mp (ht.sorted.sublist h.suffix.sublist)).1
  have hre := h.behind e List.mem_cons_self hgt
  have htop := ht.le e hmem
  have hcmd := ht.command e hmem hgt
  obtain ⟨k, hk⟩ : ∃ k, e.seq = k + 1 := ⟨e.seq - 1, by omega⟩
  refine ⟨k, hk, by omega, by omega, hk ▸ hcmd, fun i h1 h2 => ?_,
    (List.suffix_cons e rest).trans h.suffix, fun e' he' _ => hk ▸ hlt e' he', fun i h1 h2 hop => ?_⟩
  · by_contra hop
    obtain ⟨e', he', rfl⟩ := h.cover i h1 (by omega) hop
    rcases List.mem_cons.mp he' with rfl | he'
    · omega
    · have := hlt e' he'
      omega
  · obtain ⟨e', he', rfl⟩ := h.cover i (by omega) h2 hop
    rcases List.mem_cons.mp he' with rfl | he'
    · omega
    · exact ⟨e', he', rfl⟩

end

section
variable {d₀ : Disk} {m₀ : Catalog} {ord : IterOrder}

/-- The state before the entries `rest` of the write-ahead log are replayed. -/
structure Pending (cmds : Nat → Proto.Command) (a top : Nat) (es : List Proto.WalEntry) (d₀ : Disk)
    (m₀ : Catalog) (rest : List Proto.WalEntry) (d : Disk) (m : Catalog) : Prop where
  position : ∃ r, a ≤ r ∧ r ≤ top ∧ Replaying cmds a r top d m ∧ Upcoming cmds a r top es rest
  kept : TailSafe cmds a top d₀ → Kept cmds top es d₀ d
  parked : Parked cmds a d
  wal : d.wal = d₀.wal
  log : m.wal = m₀.wal
  seq : m.seq = m₀.seq

/-- One operation, with what it keeps of the directory. -/
theorem Replaying.wp_applyCommand (h₀ : Booked cmds top d₀ a l es) (hg : GoodLog cmds top)
    (ha : a ≤ r) (hlt : r < top) (h : Replaying cmds a r top d m)
    (hk : TailSafe cmds a top d₀ → Kept cmds top es d₀ d) {mark : LogMark}
    (hi : mark.index = r + 1) {E : Error → Disk → Catalog → Prop} :
    wp (Catalog.applyCommand ord mark (cmds (r + 1)))
      (fun _ d' m' => Effect ord (r + 1) (cmds (r + 1)) d m d' m' ∧
        (TailSafe cmds a top d₀ → Kept cmds top es d₀ d')) E
      (fun d' => TailSafe cmds a top d₀ → Kept cmds top es d₀ d') d m := by
  have happ : Applicable d m mark.index (cmds (r + 1)) := hi ▸ h.applicable hg
  by_cases hsafe : TailSafe cmds a top d₀
  · have heff : wp (Catalog.applyCommand ord mark (cmds (r + 1)))
        (fun _ d' m' => Effect ord (r + 1) (cmds (r + 1)) d m d' m') (fun _ _ _ => False)
        (fun _ => True) d m :=
      Lumen.wp_applyCommand h.sound.based (fun _ _ => trivial) (fun _ _ _ hna => hna happ)
        fun _ _ _ heff => hi ▸ heff
    refine wp_mono _ (wp_and _ heff
      (Replaying.wp_kept ⟨h₀, hsafe.dirs⟩ hsafe hg ha h (hk hsafe) hlt hi))
      (fun _ d' m' hpost => ⟨hpost.1, fun _ => hpost.2⟩) (fun _ _ _ he => he.1.elim)
      fun _ hc _ => hc.2
  · exact Lumen.wp_applyCommand h.sound.based (fun _ _ hs => absurd hs hsafe)
      (fun _ _ _ hna => absurd happ hna)
      fun _ _ _ heff => ⟨hi ▸ heff, fun hs => absurd hs hsafe⟩

/-- **One round of the replay loop.** -/
theorem Pending.wp_replayEntry (h₀ : Booked cmds top d₀ a l es) (hg : GoodLog cmds top)
    {e : Proto.WalEntry} {rest : List Proto.WalEntry}
    (h : Pending cmds a top es d₀ m₀ (e :: rest) d m) {E : Error → Disk → Catalog → Prop} :
    wp (Catalog.replayEntry ord a e) (fun _ => Pending cmds a top es d₀ m₀ rest) E
      (fun d' => TailSafe cmds a top d₀ → Kept cmds top es d₀ d') d m := by
  obtain ⟨r, ha, hrtop, hrep, hup⟩ := h.position
  rw [Catalog.replayEntry]
  split
  · rename_i hle
    exact ⟨⟨r, ha, hrtop, hrep, hup.pass ha hle⟩, h.kept, h.parked, h.wal, h.log, h.seq⟩
  · obtain ⟨k, hk, hrk, hktop, hcmd, hskip, hup'⟩ := hup.next h₀.tail (by omega)
    have hrep' := hrep.skip hrk hktop.le hskip
    rw [hcmd, hk, wp_bind]
    refine wp_imp (hrep'.wp_applyCommand h₀ hg (by omega) hktop h.kept rfl) fun _ d' m' hpost => ?_
    obtain ⟨heff, hkept⟩ := hpost
    exact ⟨⟨k + 1, by omega, hktop, hrep'.effect hg (by omega) hktop heff, hup'⟩, hkept,
      h.parked.effect hg (by omega) heff, heff.wal.trans h.wal, heff.mem.1.trans h.log,
      heff.mem.2.trans h.seq⟩

/-- At the end of the loop the whole log is applied. -/
theorem Pending.replaying (h : Pending cmds a top es d₀ m₀ [] d m) :
    Replaying cmds a top top d m := by
  obtain ⟨r, _, hrtop, hrep, hup⟩ := h.position
  refine hrep.skip hrtop le_rfl fun i h1 h2 => ?_
  by_contra hop
  obtain ⟨_, he, _⟩ := hup.cover i h1 h2 hop
  contradiction

end

/-! ## the sweep -/

section
variable {ord : IterOrder} {E : Error → Disk → Catalog → Prop}

/-- Directories that are moved out of the way are not of the log. -/
theorem Replaying.swept {high : Nat} (h : Replaying cmds a top top d m)
    (hs : Sweeping m.liveUuids high d d') (hno : NoOrphans d' m) : Exact cmds top d' m := by
  have hindex : ∀ n e, m.collections.find? n = some e → d'.index e.uuid = d.index e.uuid :=
    fun n e hf => hs.index_of_mem (Catalog.mem_liveUuids.mpr ⟨n, e, hf, rfl⟩)
  refine ⟨⟨fun n e hf => (h.sound.entry n e hf).congr (hindex n e hf), h.sound.inj⟩, fun n => ?_,
    fun n e hf => (h.owned.live n e hf).1, hno⟩
  rw [← (h.slots n).live_eq, slotOf_live, slotOf_live]
  cases hf : m.collections.find? n with
  | none => rfl
  | some e =>
    rw [Option.map_some, Option.map_some, Catalog.Entry.toGen, Catalog.Entry.toGen,
      Collection.pending, Collection.pending, (h.sound.entry n e hf).uuid, hindex n e hf]

theorem Parked.swept {high : Nat} (h : Parked cmds top d) (ht : Tracking cmds a r top d m)
    (hs : Sweeping m.liveUuids high d d') : Parked cmds top d' := by
  intro u seq hq
  rcases hs.quarantined u seq with hold | ⟨_, _, hgone, hmoved⟩
  · obtain ⟨hno, hborn⟩ := h u seq (hold ▸ hq)
    refine ⟨OrdMap.contains_eq_false_iff.mpr ?_, hborn⟩
    rcases hs.dirs u with hsame | ⟨_, hgone⟩
    · rw [hsame]
      exact OrdMap.contains_eq_false_iff.mp hno
    · exact hgone
  · refine ⟨OrdMap.contains_eq_false_iff.mpr hgone, ?_⟩
    refine ht.made u ?_
    rw [hmoved] at hq
    cases hf : d.dirs.find? u with
    | none => exact absurd (.inl hf) hq
    | some dir => rw [OrdMap.contains, hf]; rfl

/-- **The sweep at the end of the replay** leaves what the log says; where
nothing is orphaned, it does nothing. -/
theorem Replaying.wp_sweepOrphans (h : Replaying cmds a top top d m) (ha : a ≤ top)
    (hp : Parked cmds a d) (high : Nat) {Q : Unit → Disk → Catalog → Prop} {C : Disk → Prop}
    (hC : ∀ d', ¬ NoOrphans d m → C d')
    (hQ : ∀ d', Exact cmds top d' m → Parked cmds top d' → Sweeping m.liveUuids high d d' →
      (NoOrphans d m → d' = d) → Q () d' m) :
    wp (Catalog.sweepOrphans ord high) Q E C d m := by
  by_cases hno : NoOrphans d m
  · exact hno.wp_sweepOrphans ord high (hQ d (h.exact hno) (hp.mono ha) (.refl _ _ _) fun _ => rfl)
  · refine Catalog.wp_sweepOrphans ord high (fun u hu _ => ?_) (fun d' _ => hC d' hno)
      fun d' hs hlive => ?_
    · by_contra hq
      rw [(hp u high hq).1] at hu
      contradiction
    · have hno' : NoOrphans d' m := fun u hu => Catalog.mem_liveUuids.mp (hlive u hu)
      exact hQ d' (h.swept hs hno') ((hp.mono ha).swept h.toTracking hs) hs fun hn => absurd hn hno

/-- A safe replay leaves no orphans. -/
theorem Kept.noOrphans {d₀ : Disk} (hk : Kept cmds top es d₀ d) (hd : Dirs cmds a top d₀)
    (h : Replaying cmds r top top d m) : NoOrphans d m := by
  intro u hu
  obtain ⟨n, g, hstate, rfl⟩ := hd.owned u (hk.dirs ▸ hu)
  have hlive := (h.slots n).live_eq
  rw [hstate, slotOf_live, Option.map_eq_some_iff] at hlive
  obtain ⟨e, hf, rfl⟩ := hlive
  exact ⟨n, e, hf, rfl⟩

end

/-! ## recovery -/

/-- Entries the catalog file covers are passed over. -/
theorem Catalog.wp_replay_covered {Q : Unit → Disk → Catalog → Prop}
    {E : Error → Disk → Catalog → Prop} {C : Disk → Prop} {ord : IterOrder}
    (h : ∀ e ∈ es, e.seq ≤ a) (hQ : Q () d m) :
    wp (forEach es (Catalog.replayEntry ord a)) Q E C d m := by
  induction es with
  | nil => exact hQ
  | cons e es ih =>
    rw [forEach, wp_bind', Catalog.replayEntry, if_pos (h e List.mem_cons_self)]
    exact ih fun e' he' => h e' (List.mem_cons_of_mem e he')

theorem Kept.recoverable {d₀ : Disk} (h : Kept cmds top es d₀ d) (hg : GoodLog cmds top)
    (hroom : Roomy d₀.wal top) : Recoverable cmds top d := by
  obtain ⟨a, l, hd⟩ := h.disk
  exact ⟨hg, h.wal ▸ hroom, a, l, es, hd⟩

/-- With nothing behind the catalog file, the swept directory holds the log
again. -/
theorem CutInv.swept {high : Nat} (h : CutInv cmds top d top l es) (hg : GoodLog cmds top)
    (hex : Exact cmds top d' m) (hp : Parked cmds top d') (hs : Sweeping m.liveUuids high d d') :
    DiskInv cmds top d' top l es := by
  refine ⟨h.toBooked.congr hs.catalogPb hs.wal hp, fun n g hstate => ?_, fun u hu => ?_⟩
  · obtain ⟨e, hf, rfl⟩ := hex.find? hstate
    rcases h.dirs.saved n _ hstate with ⟨ix, hix, hsaved⟩ | ⟨_, j, hj, hb⟩
    · exact ⟨ix, (hs.index_of_mem (Catalog.mem_liveUuids.mpr ⟨n, e, hf, rfl⟩)).trans hix, hsaved⟩
    · exact absurd (hg.born_le hb) (by omega)
  · obtain ⟨n, e, hf, he⟩ := hex.noOrphans u hu
    exact ⟨n, e.toGen d', hex.stateAt hf, he⟩

/-- What loading a directory leaves in memory. -/
structure Loaded (top : Nat) (d : Disk) (a : Nat) (l : List (String × Listed))
    (es : List Proto.WalEntry) (m : Catalog) : Prop where
  map : ∀ n, m.collections.find? n = openedMap d l (Catalog.droppedInTail a es) n
  seq : m.seq = top
  wal : WalLive d.wal m.wal es top top

theorem CutInv.wp_loadCatalog {Q : Nat × List Proto.WalEntry → Disk → Catalog → Prop}
    {E : Error → Disk → Catalog → Prop} {C : Disk → Prop} (h : CutInv cmds top d a l es)
    (hg : GoodLog cmds top) (m₀ : Catalog) (hQ : ∀ m, Loaded top d a l es m → Q (a, es) d m) :
    wp Catalog.loadCatalog Q E C d m₀ := by
  obtain ⟨segs, hsegs⟩ := h.wal
  have hfold := foldl_max_eq h.tail.le h.le h.tail.highest
  refine Catalog.wp_loadCatalog h.lists hsegs.rep hsegs.ordered hsegs.payloads (h.openable hg) m₀
    fun m hm hmem hrec hmax hseq => hQ m ⟨hm, ?_, hsegs.live hmem hrec hmax⟩
  refine Nat.le_antisymm ((hseq top).mpr ⟨hfold.le, fun p hp hd => h.created p hp ?_⟩)
    (hfold ▸ ((hseq m.seq).mp le_rfl).1)
  rwa [h.tail.mem_dropped] at hd

variable {E : Error → Disk → Catalog → Prop} {Q : Unit → Disk → Catalog → Prop}

/-- **Recovery**: opening a directory that holds the log, or that an operation
was cut on which left no half-made directory in the way, brings back the
catalog the log says; the directory holds the log again if there is room for
the next number.  So does every disk a crash on the way can leave, if the tail
is safe. -/
theorem CutInv.wp_openCatalog (h : CutInv cmds top d a l es) (hg : GoodLog cmds top)
    (ho : Opens cmds a d) (ord : IterOrder) (m₀ : Catalog)
    (hQ : ∀ d' m', Exact cmds top d' m' → (Roomy d.wal top → Running cmds top d' m') →
      m'.seq = top → (∀ n e, m'.collections.find? n = some e → e.collection.writer = []) →
      Q () d' m') :
    wp (Catalog.openCatalog ord) Q E (fun d' => TailSafe cmds a top d → Roomy d.wal top →
      Recoverable cmds top d') d m₀ := by
  rw [Catalog.openCatalog, wp_bind]
  refine h.wp_loadCatalog hg m₀ fun m hl => ?_
  have hrep := h.replaying hg ho hl.map
  have hstart : Pending cmds a top es d m es d m :=
    ⟨⟨a, le_rfl, h.le, hrep, .start h.tail⟩,
      fun hs => ⟨rfl, rfl, rfl, a, l, h.toBooked, hs.dirs⟩, h.parked, rfl, rfl, rfl⟩
  cases hreplays : Catalog.replays a es with
  | false =>
    -- nothing is behind the catalog file: it is at the end of the log already
    have hnone : ∀ e ∈ es, e.seq ≤ a := by
      intro e he
      by_contra hlt
      rw [Catalog.replays, List.any_eq_false] at hreplays
      have hfalse := hreplays e he
      rw [h.tail.command e he (by omega)] at hfalse
      simp at hfalse
      omega
    obtain rfl : top = a := by
      rcases h.tail.highest with htop | ⟨e, he, heq⟩
      · exact htop
      · have := hnone e he
        have := h.le
        omega
    rw [wp_bind]
    refine Catalog.wp_replay_covered hnone ?_
    rw [hreplays, Catalog.finishOpen, wp_bind, wp_getMem, wp_bind]
    refine hrep.wp_sweepOrphans le_rfl h.parked _ (fun d' hno hs _ => ?_)
      fun d' hex hp hswept _ => hQ d' m hex (fun hroom => ?_) hl.seq fun n e hf => ?_
    · exact absurd (((hstart.kept hs).noOrphans hs.dirs hrep)) hno
    · refine ⟨hg, hex, ⟨top, l, es, h.swept hg hex hp hswept, ?_⟩, ?_, hl.seq.ge⟩
      · rw [hswept.wal, hl.seq]
        exact hl.wal
      · rw [hswept.wal]
        exact hroom
    · rw [hl.map n] at hf
      obtain ⟨x, ix, _, _, _, rfl⟩ := h.opened hf
      rfl
  | true =>
    rw [wp_bind]
    refine wp_mono _ (wp_forEach (Pending cmds a top es d m)
      (fun e rest d₁ m₁ hI => hI.wp_replayEntry h.toBooked hg) es hstart)
      (fun _ d₁ m₁ hI => ?_) (fun _ _ _ he => he) fun d₁ hc hs hroom =>
        (hc hs).recoverable hg hroom
    have hseq₁ : m₁.seq = top := hI.seq.trans hl.seq
    have hno := fun hs : TailSafe cmds a top d => (hI.kept hs).noOrphans hs.dirs hI.replaying
    rw [hreplays, Catalog.finishOpen, wp_bind, wp_getMem, wp_bind]
    refine hI.replaying.wp_sweepOrphans h.le hI.parked _ (fun d' hn hs => absurd (hno hs) hn)
      fun d₂ hex hp hswept hsame => ?_
    rw [if_pos rfl]
    subst hseq₁
    have hwal : d₂.wal = d.wal := hswept.wal.trans hI.wal
    have hw : WalLive d₂.wal m₁.wal es m₁.seq m₁.seq := by rw [hwal, hI.log]; exact hl.wal
    refine hex.wp_checkpoint hg hp hw h.tail.sorted h.tail.le ord
      (fun d' _ hwal' hkeeps hs hroom => ?_)
      (fun d' l' es' hd hr _ hroom => ⟨hg, hr (hwal ▸ hroom), _, l', es', hd⟩)
      fun d' m' hex' hrun => hQ d' m' hex' fun hroom => hrun (hwal ▸ hroom)
    obtain ⟨a', l', hd⟩ := (hI.kept hs).disk
    rw [hsame (hno hs)] at hkeeps
    exact ⟨hg, by rw [hwal', hwal]; exact hroom, a', l', es, hkeeps a' l' es hd⟩

end

end Lumen
