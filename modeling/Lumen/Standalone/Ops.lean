import Lumen.Standalone.Checkpoint

/-!
# Lumen.Standalone.Ops

The operations of a single node.  Each draws a number, appends its command to
the write-ahead log and then does to the catalog what replaying the command
would do.  `Logged` is the state between the two; `Logged.running` ends every
operation, whatever the command's effect.  A crash on the way leaves a directory
that is `CutShort`: it holds the log without or with the operation, except
that the directories may be behind.
-/

namespace Lumen

open Lib Prog Replay

section
variable [Ext] {cmds : Nat → Proto.Command} {top seq a : Nat} {cmd : Proto.Command} {n : String}

/-! ## a log with one more operation -/

/-- The log with one more operation. -/
def grow (cmds : Nat → Proto.Command) (seq : Nat) (cmd : Proto.Command) : Nat → Proto.Command :=
  Function.update cmds (seq + 1) cmd

omit [Ext] in
theorem grow_self : grow cmds seq cmd (seq + 1) = cmd := Function.update_self ..

omit [Ext] in
theorem grow_of_ne {i : Nat} (h : i ≠ seq + 1) : grow cmds seq cmd i = cmds i :=
  Function.update_of_ne h ..

theorem logOf_grow {i : Nat} (h : i ≤ seq) : logOf cmds n i = logOf (grow cmds seq cmd) n i := by
  rw [logOf, logOf, grow_of_ne (by omega)]

theorem stateAt_grow_of_le {r : Nat} (h : r ≤ seq) :
    (logOf (grow cmds seq cmd) n).stateAt r = (logOf cmds n).stateAt r :=
  (Log.stateAt_congr fun _ hi => logOf_grow (by omega)).symm

/-- The state after one more operation. -/
theorem GoodLog.stateAt_grow (hg : GoodLog cmds top) (hle : top ≤ seq) :
    (logOf (grow cmds seq cmd) n).stateAt (seq + 1) =
      (eventOf n cmd).step ((logOf cmds n).stateAt top) := by
  rw [Log.stateAt, stateAt_grow_of_le le_rfl, hg.stateAt_eq hle, logOf, grow_self]

/-- What an operation must be to be logged: a create is of an absent name and
carries a new identity, a document fits its collection. -/
structure Loggable (cmds : Nat → Proto.Command) (top : Nat) (cmd : Proto.Command) : Prop where
  create : ∀ c, cmd.op = some (.createCollection c) → ∃ u x, Catalog.createUuid c = .ok u ∧
    Catalog.createMapping c = .ok x ∧ (logOf cmds c.collection).stateAt top = none ∧
      ∀ i n y, eventOf n (cmds i) ≠ .create u y
  document : ∀ index, cmd.op = some (.indexDocument index) → ∃ g parsed doc,
    (logOf cmds index.collection).stateAt top = some g ∧ fromSlice index.source = .ok parsed ∧
      buildDoc g.info.toSchema g.info index.id index.source parsed = .ok doc

theorem Loggable.fresh {u : Uuid} {x : Mapping} (h : Loggable cmds top cmd)
    (hev : eventOf n cmd = .create u x) (i : Nat) (n' : String) (y : Mapping) :
    eventOf n' (cmds i) ≠ .create u y := by
  obtain ⟨c, hop, _, hu, _⟩ := eventOf_eq_create_iff.mp hev
  obtain ⟨u', _, hu', _, _, hnew⟩ := h.create c hop
  rw [hu, Except.ok.injEq] at hu'
  exact hu' ▸ hnew i n' y

theorem GoodLog.grow (hg : GoodLog cmds top) (hle : top ≤ seq) (hl : Loggable cmds top cmd) :
    GoodLog (grow cmds seq cmd) (seq + 1) where
  distinct i j n n' u x y hi hj := by
    by_cases hin : i = seq + 1 <;> by_cases hjn : j = seq + 1
    · rw [hin, hjn]
    · rw [hin, grow_self] at hi
      rw [grow_of_ne hjn] at hj
      exact absurd hj (hl.fresh hi j n' y)
    · rw [hjn, grow_self] at hj
      rw [grow_of_ne hin] at hi
      exact absurd hi (hl.fresh hj i n x)
    · rw [grow_of_ne hin] at hi
      rw [grow_of_ne hjn] at hj
      exact hg.distinct i j n n' u x y hi hj
  create i c hop := by
    by_cases hi : i = seq + 1
    · subst hi
      rw [grow_self] at hop
      obtain ⟨u, x, hu, hx, hnone, _⟩ := hl.create c hop
      refine ⟨u, x, hu, hx, ?_⟩
      rw [Nat.add_sub_cancel, stateAt_grow_of_le le_rfl, hg.stateAt_eq hle, hnone]
    · rw [grow_of_ne hi] at hop
      obtain ⟨u, x, hu, hx, hnone⟩ := hg.create i c hop
      have := (hg.range i (by rw [hop]; simp)).2
      exact ⟨u, x, hu, hx, by rw [stateAt_grow_of_le (by omega), hnone]⟩
  document i index hop := by
    by_cases hi : i = seq + 1
    · subst hi
      rw [grow_self] at hop
      obtain ⟨g, parsed, doc, hstate, hrest⟩ := hl.document index hop
      refine ⟨g, parsed, doc, ?_, hrest⟩
      rw [Nat.add_sub_cancel, stateAt_grow_of_le le_rfl, hg.stateAt_eq hle, hstate]
    · rw [grow_of_ne hi] at hop
      obtain ⟨g, parsed, doc, hstate, hrest⟩ := hg.document i index hop
      have := (hg.range i (by rw [hop]; simp)).2
      exact ⟨g, parsed, doc, by rw [stateAt_grow_of_le (by omega), hstate], hrest⟩
  range i hop := by
    by_cases hi : i = seq + 1
    · omega
    · rw [grow_of_ne hi] at hop
      have := hg.range i hop
      omega

/-! ## the directory -/

section
variable {d d' : Disk} {m m' : Catalog} {ix : Index} {g g' : Gen Uuid Mapping String Bytes}
  {l : List (String × Listed)} {es : List Proto.WalEntry} (hg : GoodLog cmds top)
  (hle : top ≤ seq)
include hg hle

/-- A new operation that is not a drop of the collection leaves what its
directory has saved. -/
theorem Saved.grow (h : Saved (logOf cmds n) a top g ix) (ha : a ≤ top)
    (hne : eventOf n cmd ≠ .drop) (hu : g'.uuid = g.uuid) (hx : g'.info = g.info) :
    Saved (logOf (grow cmds seq cmd) n) a (seq + 1) g' ix := by
  obtain ⟨j, hb, hj, hnd, hdocs, hcover⟩ := h.docs
  have hmark := h.mark_le
  refine ⟨by rw [h.schema, hx], by omega, j, ?_, by omega, ?_, ?_, fun k ht => ?_⟩
  · rw [hu, hx]
    exact (Log.Born.congr fun i hi => logOf_grow (by omega)).mp hb
  · rintro ⟨i, h1, h2, h3⟩
    by_cases hi : i = seq + 1
    · rw [hi, logOf, grow_self] at h3
      exact hne h3
    · rw [← logOf_grow (by omega)] at h3
      have htop : i ≤ top := by
        by_contra hlt
        rw [hg.skip (by omega)] at h3
        contradiction
      exact hnd ⟨i, h1, htop, h3⟩
  · rw [hdocs]
    exact Log.docsFrom_congr fun i hi => logOf_grow (by omega)
  · have hold := hcover k ((Log.Touched.congr fun i hi => logOf_grow (by omega)).mpr ht)
    obtain ⟨i, v, h1, h2, h3⟩ := hold
    exact ⟨i, v, h1, by omega, by rw [← logOf_grow (by omega), h3]⟩

/-- The directories after the operation's effect. -/
theorem Dirs.effect {ord : IterOrder} (h : Dirs cmds a top d) (ha : a ≤ top)
    (hl : Loggable cmds top cmd) (hf : MapFollows cmds top m)
    (he : Effect ord (seq + 1) cmd d m d' m') : Dirs (Lumen.grow cmds seq cmd) a (seq + 1) d' := by
  -- the directory of a collection that stays is not touched
  have hframe : ∀ n g, (logOf cmds n).stateAt top = some g → eventOf n cmd ≠ .drop →
      d'.index g.uuid = d.index g.uuid := by
    intro n g hstate hne
    cases he with
    | same _ => rfl
    | create c u x ix hop hu hx hfree hix =>
      obtain ⟨j, hb, _⟩ := Log.exists_born hstate
      have hgu : g.uuid ≠ u := by
        rintro rfl
        have hev : eventOf c.collection cmd = .create g.uuid x := by
          rw [eventOf_create hop hu hx, if_pos rfl]
        exact hl.fresh hev j n g.info hb.2.1
      rw [Disk.index_withCatalog, Disk.index_setDir, if_neg hgu]
    | drop name e hop hfind =>
      have hgu : g.uuid ≠ e.uuid := by
        intro hgu
        obtain ⟨g₀, hstate₀, hu₀, _⟩ := hf.stateAt hfind
        obtain ⟨rfl, _⟩ := hg.name_eq hstate hstate₀ (hgu.trans hu₀.symm)
        exact hne (by rw [eventOf_drop hop, if_pos rfl])
      rw [Disk.index_withCatalog, Disk.index_removeDir, if_neg hgu]
    | edit => rfl
  constructor
  · intro n g' hstate'
    rw [hg.stateAt_grow hle] at hstate'
    rcases Event.step_eq_some hstate' with ⟨g, hstate, hu, hx, hne⟩ | ⟨hnone, hev, hdocs⟩
    · obtain ⟨ix, hix, hs⟩ := h.saved n g hstate
      exact ⟨ix, by rw [hu, hframe n g hstate hne, hix], Saved.grow hg hle hs ha hne hu hx⟩
    · -- a new collection has an empty directory
      have hix : d'.index g'.uuid = some ⟨g'.info.toSchema, [], none⟩ := by
        cases he with
        | same hsame =>
          have hfree : (slotOf d m n).live = none := by
            rw [slotOf_live, hf.find?_eq_none_iff.mpr hnone]
            rfl
          obtain ⟨st, happ, _⟩ := Slot.apply_create hfree (seq + 1) g'.uuid g'.info
          have hlive := congrArg Slot.live (hsame n)
          rw [hev, happ, hfree] at hlive
          contradiction
        | create c u x ix hop hu hx hfree hix =>
          have hev' : eventOf c.collection cmd = .create u x := by
            rw [eventOf_create hop hu hx, if_pos rfl]
          obtain ⟨_, rfl, rfl⟩ := eventOf_create_inj hev' hev
          rw [Disk.index_withCatalog, Disk.index_setDir, if_pos rfl]
          rcases hix with ⟨hix, _⟩ | ⟨_, rfl⟩
          · obtain ⟨n', g'', hstate, hu'⟩ := h.owned _ (Disk.contains_of_index hix)
            obtain ⟨j, hb, _⟩ := Log.exists_born hstate
            rw [hu'] at hb
            exact absurd hb.2.1 (hl.fresh hev' j n' _)
          · rfl
        | drop name e hop hfind =>
          rw [eventOf_drop hop] at hev
          split at hev <;> contradiction
        | edit name id v e ops hev' hfind hmark hops =>
          rw [hev'] at hev
          split at hev <;> contradiction
      have hb : (logOf (Lumen.grow cmds seq cmd) n).Born (seq + 1) g'.uuid g'.info := by
        refine ⟨by omega, by rw [logOf, grow_self, hev], ?_⟩
        rw [Nat.add_sub_cancel, stateAt_grow_of_le le_rfl, hg.stateAt_eq hle, hnone]
      refine ⟨_, hix, rfl, Nat.zero_le _, seq + 1, hb, le_rfl, Log.not_dropIn_self, rfl,
        fun k ht => ?_⟩
      obtain ⟨i, _, h1, h2, _⟩ := ht
      omega
  · intro u hu
    have hstays : ∀ n g, (logOf cmds n).stateAt top = some g → g.uuid = u →
        eventOf n cmd ≠ .drop → ∃ n g, (logOf (Lumen.grow cmds seq cmd) n).stateAt (seq + 1) =
          some g ∧ g.uuid = u := by
      intro n g hstate hgu hne
      obtain ⟨g', hg', hu', _⟩ := Event.step_some g hne
      exact ⟨n, g', by rw [hg.stateAt_grow hle, hstate, hg'], hu'.trans hgu⟩
    cases he with
    | same hsame =>
      obtain ⟨n, g, hstate, hgu⟩ := h.owned u hu
      refine hstays n g hstate hgu fun hdrop => ?_
      have hlive := congrArg Slot.live (hsame n)
      cases hfind : m.collections.find? n with
      | none =>
        rw [hf.find?_eq_none_iff.mp hfind] at hstate
        contradiction
      | some e => simp [hdrop, Slot.apply, slotOf_live, hfind] at hlive
    | create c u₁ x ix hop hu₁ hx hfree hix =>
      have hc : (d.setDir u₁ (.index ix)).dirs.contains u = true := hu
      rw [Disk.contains_setDir] at hc
      rcases (Bool.or_eq_true _ _).mp hc with hc | hc
      · have hnone := hf.find?_eq_none_iff.mp hfree
        refine ⟨c.collection, ⟨u₁, x, fun _ => none⟩, ?_, (of_decide_eq_true hc).symm⟩
        rw [hg.stateAt_grow hle, hnone, eventOf_create hop hu₁ hx, if_pos rfl]
        rfl
      · obtain ⟨n, g, hstate, hgu⟩ := h.owned u hc
        refine hstays n g hstate hgu ?_
        rw [eventOf_create hop hu₁ hx]
        split <;> simp
    | drop name e hop hfind =>
      have hc : (d.removeDir e.uuid).dirs.contains u = true := hu
      rw [Disk.contains_removeDir] at hc
      obtain ⟨hne, hc⟩ := (Bool.and_eq_true _ _).mp hc
      have hne : u ≠ e.uuid := of_decide_eq_true hne
      obtain ⟨n, g, hstate, hgu⟩ := h.owned u hc
      refine hstays n g hstate hgu ?_
      rw [eventOf_drop hop, if_neg]
      · simp
      · rintro rfl
        obtain ⟨g₀, hstate₀, hu₀, _⟩ := hf.stateAt hfind
        rw [hstate, Option.some.injEq] at hstate₀
        exact hne (by rw [← hgu, hstate₀, hu₀])
    | edit name id v e ops hev hfind hmark hops =>
      obtain ⟨n, g, hstate, hgu⟩ := h.owned u hu
      refine hstays n g hstate hgu ?_
      rw [hev]
      split <;> simp

omit hg hle in
/-- What the log says of the map and the directories. -/
theorem Exact.owned (hex : Exact cmds top d m) (h : Dirs cmds a top d) : Owned cmds top d m where
  dir _ _ hix := h.cut.dir hix
  live n e hf := by
    obtain ⟨j, hb, hj, _⟩ := Log.exists_born (hex.stateAt hf)
    exact ⟨hex.created n e hf, j, hj, hb.2.1⟩

omit hg in
theorem Owned.grow (h : Owned cmds top d m) : Owned (Lumen.grow cmds seq cmd) (seq + 1) d m where
  dir u ix hix := by
    obtain ⟨i, n, x, hi, hev, hs⟩ := h.dir u ix hix
    exact ⟨i, n, x, by omega, by rw [grow_of_ne (by omega), hev], hs⟩
  live n e hf := by
    obtain ⟨hseq, i, hi, hev⟩ := h.live n e hf
    exact ⟨by omega, i, by omega, by rw [grow_of_ne (by omega), hev]⟩

omit hg in
/-- Every mark is behind the next number. -/
theorem Exact.mark_lt (hex : Exact cmds top d m) (h : Dirs cmds a top d) (n : String) :
    (slotOf d m n).mark < seq + 1 := by
  cases hf : m.collections.find? n with
  | none => simp [Slot.mark, slotOf_live, hf]
  | some e =>
    obtain ⟨ix, hix, hs⟩ := h.saved n _ (hex.stateAt hf)
    have := hs.mark_le
    rw [slotOf_mark hf hix]
    omega

/-- The catalog after the operation's effect. -/
theorem Exact.effect {ord : IterOrder} (hex : Exact cmds top d m) (h : Dirs cmds a top d)
    (hl : Loggable cmds top cmd) (he : Effect ord (seq + 1) cmd d m d' m') :
    Exact (Lumen.grow cmds seq cmd) (seq + 1) d' m' := by
  have hown : Owned (Lumen.grow cmds seq cmd) (seq + 1) d m := Owned.grow hle (hex.owned h)
  have hdist := (hg.grow hle hl).distinct
  have hnew : ∀ n u x, eventOf n cmd = .create u x → (slotOf d m n).stores u = none := by
    intro n u x hev
    show (d.index u).map Index.toStore = none
    cases hix : d.index u with
    | none => rfl
    | some ix =>
      obtain ⟨i, n', y, _, hev', _⟩ := (hex.owned h).dir u ix hix
      exact absurd hev' (hl.fresh hev i n' y)
  refine ⟨he.sound grow_self hex.sound hown hdist, fun n => ?_, fun n e hf => ?_,
    he.noOrphans hex.noOrphans⟩
  · rw [(he.slots grow_self hex.sound hown hdist n).live,
      Slot.live_apply (fun _ => hex.mark_lt hle h n) fun u x hev _ => hnew n u x hev, hex.live,
      hg.stateAt_grow hle]
  · exact ((he.owned grow_self le_rfl hown hdist).live n e hf).1

omit hg in
theorem Parked.grow (h : Parked cmds a d) (ha : a ≤ top) : Parked (Lumen.grow cmds seq cmd) a d := by
  intro u q hq
  obtain ⟨hno, i, n, x, hi, hev⟩ := h u q hq
  exact ⟨hno, i, n, x, hi, by rw [grow_of_ne (by omega), hev]⟩

/-- The directories before the effect of a logged operation. -/
theorem Dirs.logged (h : Dirs cmds a top d) (ha : a ≤ top) (hl : Loggable cmds top cmd) :
    CutDirs (Lumen.grow cmds seq cmd) a (seq + 1) d := by
  refine ⟨fun n g' hstate' => ?_, fun u hu => ?_⟩
  · rw [hg.stateAt_grow hle] at hstate'
    rcases Event.step_eq_some hstate' with ⟨g, hstate, hu, hx, hne⟩ | ⟨hnone, hev, _⟩
    · obtain ⟨ix, hix, hs⟩ := h.saved n g hstate
      exact .inl ⟨ix, hu ▸ hix, Saved.grow hg hle hs ha hne hu hx⟩
    · refine .inr ⟨?_, seq + 1, by omega, by omega, by rw [logOf, grow_self, hev], ?_⟩
      · cases hix : d.index g'.uuid with
        | none => rfl
        | some ix =>
          obtain ⟨i, n', x, _, hev', _⟩ := h.cut.owned _ (Disk.contains_of_index hix)
          exact absurd hev' (hl.fresh hev i n' x)
      · rw [Nat.add_sub_cancel, stateAt_grow_of_le le_rfl, hg.stateAt_eq hle, hnone]
  · obtain ⟨i, n, x, hi, hev, hs⟩ := h.cut.owned u hu
    exact ⟨i, n, x, by omega, by rw [grow_of_ne (by omega), hev], hs⟩

/-- The catalog file and the write-ahead log with the operation logged. -/
theorem Booked.grow (h : Booked cmds top d a l es) (hpb : d'.catalogPb = d.catalogPb)
    (hw : WalDisk d'.wal (es ++ [⟨seq + 1, some cmd⟩]) (seq + 1))
    (hp : Parked (Lumen.grow cmds seq cmd) a d') :
    Booked (Lumen.grow cmds seq cmd) (seq + 1) d' a l (es ++ [⟨seq + 1, some cmd⟩]) := by
  have hatop := h.le
  -- a drop of the old log is one of the new log
  have hdrop : ∀ n, ¬ (logOf (Lumen.grow cmds seq cmd) n).DropIn a (seq + 1) →
      ¬ (logOf cmds n).DropIn a top := by
    rintro n hnd ⟨i, h1, h2, h3⟩
    exact hnd ⟨i, h1, by omega, by rw [← logOf_grow (by omega), h3]⟩
  refine ⟨?_, by omega, hw, ⟨?_, ?_, ?_, fun i h1 h2 hop => ?_, ?_⟩, h.names, h.uuids,
    fun n hnd => ?_, fun p hp hnd => (h.created p hp (hdrop _ hnd)).trans (by omega), hp⟩
  · rw [Disk.Lists, Catalog.loadSnapshot, hpb]
    exact h.lists
  · refine List.pairwise_append.mpr ⟨h.tail.sorted, List.pairwise_singleton _ _, fun e he e' he' => ?_⟩
    rw [List.mem_singleton] at he'
    have := h.tail.le e he
    rw [he']
    show e.seq < seq + 1
    omega
  · intro e he
    rcases List.mem_append.mp he with he | he
    · have := h.tail.le e he
      omega
    · rw [List.mem_singleton] at he
      rw [he]
  · intro e he hlt
    rcases List.mem_append.mp he with he | he
    · have := h.tail.le e he
      rw [grow_of_ne (by omega), h.tail.command e he hlt]
    · rw [List.mem_singleton] at he
      rw [he, grow_self]
  · by_cases hi : i = seq + 1
    · exact ⟨_, List.mem_append_right es List.mem_cons_self, hi.symm⟩
    · rw [grow_of_ne hi] at hop
      obtain ⟨e, he, hseq⟩ := h.tail.cover i h1 (hg.range i hop).2 hop
      exact ⟨e, List.mem_append_left _ he, hseq⟩
  · exact .inr ⟨_, List.mem_append_right es List.mem_cons_self, rfl⟩
  · rw [h.listed n (hdrop n hnd), stateAt_grow_of_le (by omega)]

end

/-! ## logging -/

variable {d d' : Disk} {m m' : Catalog} {α : Type} {Q : α → Disk → Catalog → Prop}
  {E : Error → Disk → Catalog → Prop} {C : Disk → Prop}

/-- The operation is in the write-ahead log and is still to be done. -/
structure Logged (cmds : Nat → Proto.Command) (top seq : Nat) (cmd : Proto.Command) (d : Disk)
    (m : Catalog) : Prop where
  good : GoodLog cmds top
  loggable : Loggable cmds top cmd
  exact : Exact cmds top d m
  le : top ≤ seq
  disk : ∃ a l es, a ≤ top ∧ Dirs cmds a top d ∧ Booked (grow cmds seq cmd) (seq + 1) d a l es ∧
    WalLive d.wal m.wal es (seq + 1) (seq + 1)
  room : Roomy d.wal (seq + 1)
  seq : m.seq = seq + 1

/-- A directory that a crash inside an operation can leave. -/
def CutShort (cmds : Nat → Proto.Command) (top : Nat) (d : Disk) : Prop :=
  GoodLog cmds top ∧ ∃ a l es, CutInv cmds top d a l es

theorem Running.cutShort (h : Running cmds top d m) : CutShort cmds top d := by
  obtain ⟨a, l, es, hd, _⟩ := h.disk
  exact ⟨h.good, a, l, es, hd.cut⟩

theorem Dirs.congr (h : Dirs cmds a top d) (hd : d'.dirs = d.dirs) : Dirs cmds a top d' where
  saved n g hg := by rw [Disk.index_congr hd]; exact h.saved n g hg
  owned u hu := h.owned u (hd ▸ hu)

/-- A number drawn in vain. -/
theorem Running.wasted (h : Running cmds top d m) :
    Running cmds top d { m with seq := m.seq + 1 } := by
  obtain ⟨a, l, es, hd, hw⟩ := h.disk
  have hle := h.le
  exact ⟨h.good, h.exact.congr rfl rfl, ⟨a, l, es, hd, hw.mono (Nat.le_succ m.seq)⟩, h.room,
    Nat.le_succ_of_le hle⟩

/-- **Logging an operation**: it is refused, with a number drawn in vain, or it
is in the write-ahead log. -/
theorem Running.wp_log (h : Running cmds top d m) {op : Proto.Op}
    (hl : Loggable cmds top ⟨some op⟩) {rest : Nat → CatalogM α}
    (hC : ∀ d', CutShort cmds top d' ∨
      CutShort (grow cmds m.seq ⟨some op⟩) (m.seq + 1) d' → C d')
    (hE : ∀ err m', Running cmds top d m' → E err d m')
    (hQ : ∀ d' m', Logged cmds top m.seq ⟨some op⟩ d' m' → m'.collections = m.collections →
      wp (rest (m.seq + 1)) Q E C d' m') :
    wp (Catalog.nextSeq >>= fun seq =>
      Catalog.onWal (Wal.append (Catalog.walEntry seq op)) >>= fun _ => rest seq) Q E C d m := by
  obtain ⟨a, l, es, hd, hw⟩ := h.disk
  have hdirs : ∀ {wal : LogDir}, Dirs cmds a top { d with wal := wal } := hd.dirs.congr rfl
  have hbooked : ∀ dir, WalDisk dir (es ++ [⟨m.seq + 1, some ⟨some op⟩⟩]) (m.seq + 1) →
      Booked (grow cmds m.seq ⟨some op⟩) (m.seq + 1) { d with wal := dir } a l _ :=
    fun dir hw' => Booked.grow h.good h.le hd.toBooked rfl hw' (Parked.grow h.le hd.parked hd.le)
  simp only [wp_bind, Catalog.nextSeq, wp_modifyMem, wp_getMem, wp_pure]
  refine Catalog.wp_onWal _ (hw.wp_append (h.room.mono h.le) h.le rfl (fun dir hcut => hC _ ?_)
    (fun err _ => hE err _ h.wasted) fun dir log _ hw' hroom => ?_)
  · rcases hcut with hw' | hw'
    · exact .inl ⟨h.good, a, l, es, { hd.toBooked with wal := hw' }, hdirs.cut⟩
    · exact .inr ⟨h.good.grow h.le hl, a, l, _, hbooked dir hw',
        Dirs.logged h.good h.le hdirs hd.le hl⟩
  · exact hQ _ _ ⟨h.good, hl, h.exact.congr rfl rfl, h.le,
      ⟨a, l, _, hd.le, hdirs, hbooked dir hw'.disk, hw'⟩, hroom, rfl⟩ rfl

/-- **Doing a logged operation**: after its effect on the directories and the
map, the node runs on the log with one more operation. -/
theorem Logged.running {ord : IterOrder} {d₁ : Disk} {m₁ : Catalog}
    (h : Logged cmds top seq cmd d m) (he : Effect ord (seq + 1) cmd d m d₁ m₁)
    (hdirs : d'.dirs = d₁.dirs) (hpb : d'.catalogPb = d.catalogPb) (hwal : d'.wal = d.wal)
    (hq : d'.quarantined = d.quarantined) (hm : m' = m₁) :
    Running (grow cmds seq cmd) (seq + 1) d' m' := by
  subst hm
  have hg := h.good.grow h.le h.loggable
  obtain ⟨a, l, es, ha, hd, hb, hw⟩ := h.disk
  have hdirs' : Dirs (grow cmds seq cmd) a (seq + 1) d' :=
    (Dirs.effect h.good h.le hd ha h.loggable h.exact.mapFollows he).congr hdirs
  have hparked : Parked (grow cmds seq cmd) a d' := by
    have he' : Effect ord (seq + 1) (grow cmds seq cmd (seq + 1)) d m d₁ m' := grow_self ▸ he
    refine (hb.parked.effect hg (Nat.lt_succ_of_le (ha.trans h.le)) he').congr
      (hq.trans he.quarantined.symm) fun u hu => .inl (hdirs ▸ hu)
  have hwal' : WalLive d'.wal m'.wal es (seq + 1) m'.seq := by
    rw [hwal, he.mem.1, he.mem.2, h.seq]
    exact hw
  refine ⟨hg, (Exact.effect h.good h.le h.exact hd h.loggable he).congr hdirs rfl,
    ⟨a, l, _, ⟨hb.congr hpb hwal hparked, hdirs'⟩, hwal'⟩, hwal ▸ h.room, ?_⟩
  rw [he.mem.2, h.seq]

/-- The index of a directory may be missing while the directory is made or
removed. -/
theorem Logged.cutShort (h : Logged cmds top seq cmd d m) {u : Uuid} {dir : Dir}
    (hdir : dir.index? = none) (hu : (∃ n x, eventOf n cmd = .create u x) ∧ d.dirs.contains u = false ∨
      ∃ name e, m.collections.find? name = some e ∧ e.uuid = u ∧ eventOf name cmd = .drop) :
    CutShort (grow cmds seq cmd) (seq + 1) (d.setDir u dir) := by
  obtain ⟨a, l, es, ha, hd, hb, _⟩ := h.disk
  have hcut := Dirs.logged h.good h.le hd ha h.loggable
  refine ⟨h.good.grow h.le h.loggable, a, l, es, hb.congr rfl rfl (hb.parked.congr rfl ?_), ?_, ?_⟩
  · intro u' hu'
    rw [Disk.contains_setDir] at hu'
    rcases (Bool.or_eq_true _ _).mp hu' with hu' | hu'
    · rw [of_decide_eq_true hu']
      rcases hu with ⟨⟨n, x, hev⟩, _⟩ | ⟨name, e, hf, he, _⟩
      · refine .inr fun i n' y hi => ?_
        rw [grow_of_ne (by have := h.le; omega)]
        exact h.loggable.fresh hev i n' y
      · obtain ⟨ix, hix, _⟩ := hd.saved name _ (h.exact.stateAt hf)
        exact .inl (he ▸ Disk.contains_of_index hix)
    · exact .inl hu'
  · intro n g hstate
    rw [Disk.index_setDir]
    split
    · rename_i hgu
      rcases hu with ⟨_, hno⟩ | ⟨name, e, hf, he, hdrop⟩
      · rcases hcut.saved n g hstate with ⟨ix, hix, _⟩ | ⟨_, hborn⟩
        · rw [← hgu, Disk.contains_of_index hix] at hno
          contradiction
        · exact .inr ⟨hdir, hborn⟩
      · -- the dropped collection is not in the log any more
        rw [h.good.stateAt_grow h.le] at hstate
        rcases Event.step_eq_some hstate with ⟨g₀, hstate₀, hu₀, _, hne⟩ | ⟨_, hev, _⟩
        · have hname := (h.good.name_eq hstate₀ (h.exact.stateAt hf)
            (hu₀.symm.trans (hgu.trans he.symm))).1
          exact absurd hdrop (hname ▸ hne)
        · obtain ⟨j, hb, _⟩ := Log.exists_born (h.exact.stateAt hf)
          have hbe : eventOf name (cmds j) = .create e.uuid _ := hb.2.1
          rw [he, ← hgu] at hbe
          exact absurd hbe (h.loggable.fresh hev j name _)
    · exact hcut.saved n g hstate
  · intro u' hu'
    rw [Disk.contains_setDir, Bool.or_eq_true, decide_eq_true_eq] at hu'
    by_cases huu : u' = u
    · -- the directory is of the create or of the dropped collection, and has no index
      subst huu
      have hindex : ∀ ix, (d.setDir u' dir).index u' ≠ some ix := by
        intro ix
        rw [Disk.index_setDir, if_pos rfl, hdir]
        simp
      have hborn : ∃ i n x, i ≤ seq + 1 ∧ eventOf n (grow cmds seq cmd i) = .create u' x := by
        rcases hu with ⟨⟨n, x, hev⟩, _⟩ | ⟨name, e, hf, rfl, _⟩
        · exact ⟨seq + 1, n, x, le_rfl, by rw [grow_self, hev]⟩
        · obtain ⟨ix, hix, _⟩ := hd.saved name _ (h.exact.stateAt hf)
          obtain ⟨i, n, x, hi, hev, _⟩ := hcut.owned _ (Disk.contains_of_index hix)
          exact ⟨i, n, x, hi, hev⟩
      obtain ⟨i, n, x, hi, hev⟩ := hborn
      exact ⟨i, n, x, hi, hev, fun ix hix => absurd hix (hindex ix)⟩
    · rw [Disk.index_setDir, if_neg huu]
      exact hcut.owned u' (hu'.resolve_left huu)

/-! ## the sections behind the write lock -/

/-- The part of an operation behind its number, with what the operation has
looked up. -/
inductive Section where
  | create (name : String) (mapping : Mapping) (minted : Uuid)
  | drop (name : String) (uuid : Uuid)
  | upsert (name : String) (target : Collection) (id : String) (source : Bytes) (parsed : Value)
  | delete (name : String) (target : Collection) (id : String)

namespace Section

/-- What the section logs. -/
def op : Section → Proto.Op
  | .create name mapping minted => .createCollection ⟨name, fmtUuid minted, some mapping.toProto⟩
  | .drop name _ => .dropCollection ⟨name⟩
  | .upsert name _ id source _ => .indexDocument ⟨name, id, source⟩
  | .delete name _ id => .deleteDocument ⟨name, id⟩

/-- Draw a number and append the record. -/
def log (s : Section) : CatalogM Nat := do
  let seq ← Catalog.nextSeq
  Catalog.onWal (Wal.append (Catalog.walEntry seq s.op))
  pure seq

/-- What comes behind the record. -/
def finish (seq : Nat) : Section → CatalogM Unit
  | .create name mapping minted => do
    let _ ← Catalog.installCollection name minted mapping seq
    pure ()
  | .drop name uuid => do
    modifyMem fun m => { m with collections := m.collections.erase name }
    Catalog.dropDir uuid
  | .upsert name target id source parsed => do
    let _ ← Catalog.applyUpsert name target id source parsed
    pure ()
  | .delete name target id => do
    let _ ← Catalog.applyDelete name target id
    pure ()

/-- The section fits the catalog; `target` may be an older handle of the same
collection. -/
def Fits (m : Catalog) : Section → Prop
  | .create name _ _ => m.collections.find? name = none
  | .drop name uuid => ∃ e, m.collections.find? name = some e ∧ uuid = e.uuid
  | .upsert name target _ source parsed => ∃ e, m.collections.find? name = some e ∧
      target.uuid = e.uuid ∧ Catalog.parseDocument e.collection.mapping source = .ok parsed
  | .delete name target _ => ∃ e, m.collections.find? name = some e ∧ target.uuid = e.uuid

/-- The identity that the section mints is new to the log. -/
def Fresh (cmds : Nat → Proto.Command) : Section → Prop
  | .create _ _ minted => ∀ i n y, eventOf n (cmds i) ≠ .create minted y
  | _ => True

/-- The directory that the section makes or removes. -/
def dir? : Section → Option Uuid
  | .create _ _ minted => some minted
  | .drop _ uuid => some uuid
  | .upsert _ _ _ _ _ => none
  | .delete _ _ _ => none

theorem eventOf_create (name : String) (mapping : Mapping) (minted : Uuid) (n : String) :
    eventOf n ⟨some (op (.create name mapping minted))⟩ =
      if name = n then .create minted mapping else .skip := by
  simp [eventOf, op, Catalog.createUuid, Catalog.createMapping, Mapping.tryFrom_toProto]

theorem parseDocument_eq_ok {mapping : Mapping} {source : Bytes} {parsed : Value}
    (h : Catalog.parseDocument mapping source = .ok parsed) :
    fromSlice source = .ok parsed ∧ mapping.validateDocument parsed = .ok () := by
  rw [Catalog.parseDocument] at h
  split at h
  · contradiction
  · rename_i p hp
    split at h
    · contradiction
    · rename_i hv
      injection h with h
      subst h
      exact ⟨hp, hv⟩

variable {s : Section}

theorem Fits.congr (h : s.Fits m) (hm : m'.collections = m.collections) : s.Fits m' := by
  cases s <;> simpa [Fits, hm] using h

theorem loggable (hfits : s.Fits m) (hfresh : s.Fresh cmds) (hf : MapFollows cmds top m) :
    Loggable cmds top ⟨some s.op⟩ := by
  cases s with
  | create name mapping minted =>
    refine ⟨fun c hop => ?_, fun index hop => by simp [op] at hop⟩
    obtain rfl : _ = c := by simpa [op] using hop
    exact ⟨minted, mapping, by simp [Catalog.createUuid], Mapping.tryFrom_toProto mapping,
      hf.find?_eq_none_iff.mp hfits, hfresh⟩
  | drop name uuid => exact ⟨fun c hop => by simp [op] at hop, fun index hop => by simp [op] at hop⟩
  | upsert name target id source parsed =>
    refine ⟨fun c hop => by simp [op] at hop, fun index hop => ?_⟩
    obtain rfl : _ = index := by simpa [op] using hop
    obtain ⟨e, hfind, _, hparsed⟩ := hfits
    obtain ⟨hjson, hvalid⟩ := parseDocument_eq_ok hparsed
    obtain ⟨values, hbuild⟩ := buildDoc_of_validate id source hvalid
    obtain ⟨g, hstate, _, hinfo⟩ := hf.stateAt hfind
    exact ⟨g, parsed, _, hstate, hjson, by rw [hinfo]; exact hbuild⟩
  | delete name target id =>
    exact ⟨fun c hop => by simp [op] at hop, fun index hop => by simp [op] at hop⟩

/-- What is behind the record does to the catalog what replaying it would do,
but for the catalog file. -/
theorem wp_finish {Q : Unit → Disk → Catalog → Prop} (hfits : s.Fits m) (hs : Sound d m)
    (hmark : ∀ n, (slotOf d m n).mark < seq + 1)
    (hno : ∀ name mapping minted, s = .create name mapping minted →
      d.dirs.contains minted = false)
    (hC : ∀ u (dir : Dir), s.dir? = some u → dir.index? = none → C (d.setDir u dir))
    (hQ : ∀ d₁ m₁ d', Effect .stored (seq + 1) ⟨some s.op⟩ d m d₁ m₁ → d'.dirs = d₁.dirs →
      d'.catalogPb = d.catalogPb → d'.wal = d.wal → d'.quarantined = d.quarantined →
      C d' ∧ Q () d' m₁) : wp (s.finish (seq + 1)) Q E C d m := by
  have hderef : ∀ {name : String} {e : Catalog.Entry} {target : Collection},
      m.collections.find? name = some e → target.uuid = e.uuid →
        m.deref name target = e.collection := by
    intro name e target hfind htarget
    rw [Catalog.deref, hfind]
    simp only [htarget, if_true]
  cases s with
  | create name mapping minted =>
    have hno := hno name mapping minted rfl
    have heff : Effect .stored (seq + 1) ⟨some (op (.create name mapping minted))⟩ d m _ _ :=
      .create ⟨name, fmtUuid minted, some mapping.toProto⟩ minted mapping
        ⟨mapping.toSchema, [], none⟩ rfl (by simp [Catalog.createUuid])
        (Mapping.tryFrom_toProto mapping) hfits (.inr ⟨hno, rfl⟩)
    obtain ⟨hdoneC, hdoneQ⟩ := hQ _ _ (d.setDir minted (.index ⟨mapping.toSchema, [], none⟩)) heff
      rfl rfl rfl rfl
    rw [finish, wp_bind, Catalog.installCollection, wp_bind]
    refine Catalog.wp_openOrCreate minted mapping (fun _ dir hdir => ?_) (fun _ hi => ?_)
      (fun ix hix _ => ?_) fun _ => ?_
    · rcases hdir with hdir | rfl
      · exact hC minted dir rfl hdir
      · exact hdoneC
    · exact absurd (fun hc => by rw [hno] at hc; contradiction) hi
    · rw [Disk.contains_of_index hix] at hno
      contradiction
    · exact hdoneQ
  | drop name uuid =>
    obtain ⟨e, hfind, rfl⟩ := hfits
    rw [finish, wp_bind, wp_modifyMem]
    obtain ⟨hdoneC, hdoneQ⟩ := hQ _ _ (d.removeDir e.uuid) (.drop name e rfl hfind) rfl rfl rfl rfl
    exact Catalog.wp_dropDir e.uuid (fun dir hdir => hC e.uuid dir rfl hdir) hdoneC hdoneQ
  | upsert name target id source parsed =>
    obtain ⟨e, hfind, htarget, hparsed⟩ := hfits
    obtain ⟨values, hbuild⟩ := buildDoc_of_validate id source (parseDocument_eq_ok hparsed).2
    rw [← (hs.entry name e hfind).schema] at hbuild
    simp only [finish, Catalog.applyUpsert, wp_bind, wp_getMem, hderef hfind htarget,
      Collection.applyUpsert, hbuild, wp_ofExcept_ok, wp_modifyMem, wp_pure]
    have hops : ∀ docs, view (WriterOp.execAll [.deleteTerm id, .addDocument ⟨id, source, values⟩]
        docs) = Function.update (view docs) id (some source) := view_replace ⟨id, source, values⟩
    exact (hQ _ _ _ (.edit name id (some source) e _ (fun n => rfl) hfind (hmark name) hops) rfl rfl
      rfl rfl).2
  | delete name target id =>
    obtain ⟨e, hfind, htarget⟩ := hfits
    obtain ⟨field, hfield⟩ := getField_idField e.collection.mapping
    rw [← (hs.entry name e hfind).schema] at hfield
    simp only [finish, Catalog.applyDelete, wp_bind, wp_getMem, hderef hfind htarget,
      Collection.applyDelete, hfield, wp_ofExcept_ok, wp_modifyMem, wp_pure]
    exact (hQ _ _ _ (.edit name id none e [.deleteTerm id] (fun n => rfl) hfind (hmark name)
      fun docs => view_deleteTerm id docs) rfl rfl rfl rfl).2

end Section

/-- The directory of a new identity is not there. -/
theorem Dirs.not_contains {u : Uuid} (h : Dirs cmds a top d)
    (hnew : ∀ i n y, eventOf n (cmds i) ≠ .create u y) : d.dirs.contains u = false := by
  cases hc : d.dirs.contains u with
  | false => rfl
  | true =>
    obtain ⟨n, g, hstate, hu⟩ := h.owned u hc
    obtain ⟨j, hb, _⟩ := Log.exists_born hstate
    rw [hu] at hb
    exact absurd hb.2.1 (hnew j n _)

/-- **A section** is refused, with a number drawn in vain, or is logged and done. -/
theorem Running.wp_section {Q : Unit → Disk → Catalog → Prop} (h : Running cmds top d m)
    {s : Section} (hfits : s.Fits m) (hfresh : s.Fresh cmds)
    (hC : ∀ d', CutShort cmds top d' ∨ CutShort (grow cmds m.seq ⟨some s.op⟩) (m.seq + 1) d' → C d')
    (hE : ∀ err m', Running cmds top d m' → E err d m')
    (hQ : ∀ d' m', Running (grow cmds m.seq ⟨some s.op⟩) (m.seq + 1) d' m' → Q () d' m') :
    wp (s.log >>= s.finish) Q E C d m := by
  have hl := Section.loggable hfits hfresh h.exact.mapFollows
  simp only [Section.log, bind_assoc, pure_bind]
  refine h.wp_log hl hC hE fun d₁ m₁ hlog hmap => ?_
  obtain ⟨a, l, es, _, hd₁, _⟩ := hlog.disk
  have hfits₁ : s.Fits m₁ := hfits.congr hmap
  refine Section.wp_finish hfits₁ hlog.exact.sound (hlog.exact.mark_lt hlog.le hd₁)
    (fun name mapping minted hs => ?_) (fun u dir hu hdir => hC _ (.inr (hlog.cutShort hdir ?_)))
    fun d₂ m₂ d' heff hdirs' hpb hwal hq => ?_
  · subst hs
    exact hd₁.not_contains hfresh
  · cases s with
    | create name mapping minted =>
      obtain rfl : minted = u := by simpa [Section.dir?] using hu
      refine .inl ⟨⟨name, mapping, ?_⟩, hd₁.not_contains hfresh⟩
      rw [Section.eventOf_create, if_pos rfl]
    | drop name uuid =>
      obtain ⟨e, hfind, rfl⟩ := hfits₁
      obtain rfl : e.uuid = u := by simpa [Section.dir?] using hu
      exact .inr ⟨name, e, hfind, rfl, by simp [eventOf, Section.op]⟩
    | upsert name target id source parsed => simp [Section.dir?] at hu
    | delete name target id => simp [Section.dir?] at hu
  · have hrun : Running _ _ d' m₂ := hlog.running heff hdirs' hpb hwal hq rfl
    exact ⟨hC d' (.inr hrun.cutShort), hQ d' m₂ hrun⟩

end

end Lumen
