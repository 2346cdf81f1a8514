import Lumen.Leader.Inv

/-!
# Lumen.Leader.Reads

Linearizable reads.  A get that finds its collection committed up to its mark
reads without a commit of its own, although the task that has published that
commit may not have reloaded the reader yet.  The checkpoint does both under the
lock of the map, which the read waits for; another get does not.

`linearizable_get_sees_committed`: where no get skips its commit while another
one is between the two halves of its commit, every answer is that of the log at
the read index or later.
-/

namespace Lumen

open Lib Prog Raft Replay

section
variable [Ext] {log : List Raft.Entry} {s s' : Leader} {d d' : Disk} {m m' : Catalog}
  {next next' : Nat}

/-! ## reloads under way -/

omit [Ext] in
theorem CheckpointPhase.reloads_eq_true {c : CheckpointPhase} {n : String} {u : Uuid} :
    c.reloads n u = true ↔ ∃ mark target rest, c = .published mark n target rest ∧
      target.uuid = u := by
  cases c <;> simp [CheckpointPhase.reloads]

omit [Ext] in
theorem Get.reloads_eq_true {g : Get} {n : String} {u : Uuid} :
    g.reloads n u = true ↔ g.collection = n ∧ ∃ mark target, g.phase = .published mark target ∧
      target.uuid = u := by
  cases hp : g.phase <;> simp [Get.reloads, hp]

/-! ## answers -/

/-- The answer of a get is that of the log at its read index or later. -/
def Get.Linearizable (log : List Raft.Entry) (next : Nat) (g : Get) : Prop :=
  match g.phase with
  | .answered (.ok source) => ∃ k st, g.readIndex ≤ k ∧ k < next ∧
      bound log k g.collection = some st ∧ st.docs g.id = some source
  | .answered (.error (.documentNotFound _)) => ∃ k st, g.readIndex ≤ k ∧ k < next ∧
      bound log k g.collection = some st ∧ st.docs g.id = none
  | _ => True

/-- A get does not skip its commit while another one has published a commit of
the collection and not reloaded its reader. -/
def Leader.calm (s : Leader) : Leader.Action → Bool
  | .get i =>
    match s.gets[i]? with
    | some ⟨collection, _, _, .resolved mark target⟩ =>
      (s.disk.data.mark target.uuid).index < mark.index ||
        !s.gets.any fun g => g.reloads collection target.uuid
    | _ => true
  | _ => true

/-! ## readers that lag -/

/-- Every reader shows the last commit, except where a reload is under way. -/
def Fresh (d : Disk) (m : Catalog) (busy : String → Uuid → Prop) : Prop :=
  ∀ n e ix, m.collections.find? n = some e → d.index e.uuid = some ix →
    e.collection.searcher = ix.docs ∨ busy n e.uuid

variable {busy busy' : String → Uuid → Prop} {name : String} {e : Catalog.Entry} {ix : Index}

omit [Ext] in
theorem Fresh.congr (h : Fresh d m busy) (hdirs : d'.dirs = d.dirs)
    (hbusy : ∀ n e, m.collections.find? n = some e → busy n e.uuid → busy' n e.uuid) :
    Fresh d' m busy' := by
  intro n e ix hf hix
  rw [Disk.index, hdirs] at hix
  exact (h n e ix hf hix).imp_right (hbusy n e hf)

theorem Fresh.apply {ord : IterOrder} {i : Nat} {cmd : Proto.Command} (h : Fresh d m busy)
    (hs : Based d m) (he : Effect ord i cmd d m d' m') : Fresh d' m' busy := by
  have hall := he.entries (P := fun d' n e' => ∀ ix, d'.index e'.uuid = some ix →
    e'.collection.searcher = ix.docs ∨ busy n e'.uuid) hs ?_ ?_ ?_
  · exact fun n e ix hf => hall n e hf ix
  · intro n e x hf hidx _ ix hix
    exact h n e ix hf (hidx ▸ hix)
  · intro n u x ix y _ _ hidx ix' hix'
    have hsame : ix = ix' := Option.some.inj (hidx.symm.trans hix')
    exact .inl (hsame ▸ rfl)
  · intro n e id v ops hf _ _ ix hix
    exact h n e ix hf hix

omit [Ext] in
/-- A commit that is published leaves its own reader behind. -/
theorem Fresh.publish {mark : LogMark} (h : Fresh d m busy) (hs : Based d m)
    (hf : m.collections.find? name = some e)
    (hbusy : ∀ n u, busy n u → busy' n u) (hself : busy' name e.uuid) :
    Fresh (d.committed e ix mark) (m.store name e.collection.flushed) busy' := by
  intro n e' ix' hf' hix'
  rw [Catalog.find?_store_self (c := e.collection.flushed) hf (hs.entry name e hf).uuid] at hf'
  split at hf'
  · rename_i hn
    cases hf'
    exact .inr (hn ▸ hself)
  · rename_i hn
    rw [Disk.committed, Disk.index_setDir,
      if_neg fun hu => hn (hs.inj n name e' e hf' hf hu)] at hix'
    exact (h n e' ix' hf' hix').imp_right (hbusy n e'.uuid)

omit [Ext] in
theorem Fresh.reload (h : Fresh d m busy) (hs : Based d m)
    (hf : m.collections.find? name = some e) (hix : d.index e.uuid = some ix)
    (hbusy : ∀ n u, busy n u → busy' n u ∨ n = name ∧ u = e.uuid) :
    Fresh d (m.store name (e.collection.reloaded ix)) busy' := by
  intro n e' ix' hf' hix'
  rw [Catalog.find?_store_self (c := e.collection.reloaded ix) hf (hs.entry name e hf).uuid] at hf'
  split at hf'
  · cases hf'
    have hsame : ix = ix' := Option.some.inj (hix.symm.trans hix')
    exact .inl (hsame ▸ rfl)
  · rename_i hn
    rcases h n e' ix' hf' hix' with hs' | hb
    · exact .inl hs'
    · rcases hbusy n e'.uuid hb with hb | ⟨hn', _⟩
      · exact .inr hb
      · exact absurd hn' hn

/-! ## what holds of a get -/

/-- What a get can rely on.  Before it has dealt with the collection it looked
up, any other collection under the name is newer than its mark; when it reads,
the reader has reached the mark unless the checkpoint is about to reload it. -/
def GetOk (log : List Raft.Entry) (next : Nat) (d : Disk) (m : Catalog) (c : CheckpointPhase)
    (g : Get) : Prop :=
  match g.phase with
  | .waiting => True
  | .marked _ => True
  | .resolved mark target => ShowsFrom log next mark.index 0 d m g.collection (· ≠ target.uuid)
  | .behind mark target => ShowsFrom log next mark.index 0 d m g.collection (· ≠ target.uuid)
  | .published mark target =>
    ShowsFrom log next mark.index 0 d m g.collection (· ≠ target.uuid) ∧
      ShowsFrom log next 0 mark.index d m g.collection (· = target.uuid)
  | .current mark => ShowsFrom log next 0 mark.index d m g.collection (fun _ => True) ∧
      ShowsFrom log next mark.index 0 d m g.collection fun u => c.reloads g.collection u = false
  | .answered _ => g.Linearizable log next

variable {g : Get} {c : CheckpointPhase}

theorem Get.Linearizable.mono (h : g.Linearizable log next) (hnext : next ≤ next') :
    g.Linearizable log next' := by
  rw [Get.Linearizable] at h ⊢
  split at h
  · obtain ⟨k, st, hk, hlt, hst⟩ := h
    exact ⟨k, st, hk, by omega, hst⟩
  · obtain ⟨k, st, hk, hlt, hst⟩ := h
    exact ⟨k, st, hk, by omega, hst⟩
  · trivial

/-- What other tasks do leaves a get what it relies on. -/
theorem GetOk.moves (h : GetOk log next d m c g) (hm : Moves log next d m next' d' m')
    (hs : Steady log next d m) (hfirst : commandAt log 0 = ⟨none⟩)
    (hmark : ∀ mark, g.phase.mark? = some mark → mark.index ≤ next - 1) :
    GetOk log next' d' m' c g := by
  have hzero : 0 ≤ next - 1 := Nat.zero_le _
  rw [GetOk] at h ⊢
  cases hp : g.phase with
  | waiting => trivial
  | marked mark => trivial
  | resolved mark target =>
    simp only [hp] at h
    exact hm.showsFrom hs hfirst (hmark mark (by rw [hp]; rfl)) hzero h
  | behind mark target =>
    simp only [hp] at h
    exact hm.showsFrom hs hfirst (hmark mark (by rw [hp]; rfl)) hzero h
  | published mark target =>
    simp only [hp] at h
    have hle := hmark mark (by rw [hp]; rfl)
    exact ⟨hm.showsFrom hs hfirst hle hzero h.1, hm.showsFrom hs hfirst hzero hle h.2⟩
  | current mark =>
    simp only [hp] at h
    have hle := hmark mark (by rw [hp]; rfl)
    exact ⟨hm.showsFrom hs hfirst hzero hle h.1, hm.showsFrom hs hfirst hle hzero h.2⟩
  | answered result =>
    simp only [hp] at h
    exact h.mono hm.le

/-- A collection that is newer than a mark has been committed from it on. -/
theorem ShowsFrom.index_of_reader {lo : Nat} {n : String} {p : Uuid → Prop}
    (h : ShowsFrom log next lo 0 d m n p) : ShowsFrom log next 0 lo d m n p :=
  fun e hf hp => (h e hf hp).index_of_reader.mono le_rfl (Nat.zero_le _) le_rfl

/-- The reader that was reloaded is where the commit is. -/
theorem ShowsFrom.reloaded {lo : Nat} {p : Uuid → Prop} (hs : Based d m)
    (hf : m.collections.find? name = some e) (hix : d.index e.uuid = some ix)
    (h : ShowsFrom log next 0 lo d (m.store name (e.collection.reloaded ix)) name p)
    (hp : p e.uuid) :
    ∀ e', (m.store name (e.collection.reloaded ix)).collections.find? name = some e' →
      Within log next lo 0 d name e' := by
  intro e' hf'
  have hstore := Catalog.find?_store_self (c := e.collection.reloaded ix) hf
    (hs.entry name e hf).uuid name
  rw [hstore, if_pos rfl] at hf'
  cases hf'
  have hw := h { e with collection := e.collection.reloaded ix } (by rw [hstore, if_pos rfl]) hp
  exact (hw.fresh hix rfl).mono le_rfl le_rfl (Nat.zero_le _)

/-- The checkpoint's own steps leave a get what it relies on: a reader it was
about to reload is reloaded. -/
theorem GetOk.checkpoint {phase : CheckpointPhase} (h : GetOk log s.next d m s.checkpoint g)
    (hstep : CheckpointStep s d m phase) (hs : Based s.disk.data s.sm.catalog) :
    GetOk log s.next d m phase g := by
  rw [GetOk] at h ⊢
  cases hp : g.phase with
  | current mark =>
    simp only [hp] at h
    refine ⟨h.1, fun e hf hphase => ?_⟩
    by_cases hold : s.checkpoint.reloads g.collection e.uuid = false
    · exact h.2 e hf hold
    · rw [Bool.not_eq_false, CheckpointPhase.reloads_eq_true] at hold
      obtain ⟨mark', target, rest, hc, hu⟩ := hold
      cases hstep with
      | reload mark' name target' rest' e' ix hp' hf' hu' hix =>
        obtain rfl : name = g.collection := by grind
        exact ShowsFrom.reloaded hs hf' hix h.1 trivial e hf
      | fail hfail =>
        obtain ⟨err, herr⟩ := hfail _ _ _ _ hc
        exact absurd hu.symm (Catalog.not_held_of_reload_error hs herr e hf)
      | _ => simp_all
  | _ => simp only [hp] at h; exact h

/-! ## the invariant -/

/-- A reload of the collection's reader is under way. -/
def Leader.Reloads (s : Leader) (n : String) (u : Uuid) : Prop :=
  s.checkpoint.reloads n u = true ∨ ∃ g ∈ s.gets, g.reloads n u = true

structure Leader.ReadInv (log : List Raft.Entry) (s : Leader) : Prop where
  inv : s.Inv log
  fresh : Fresh s.disk.data s.sm.catalog s.Reloads
  gets : ∀ g ∈ s.gets, GetOk log s.next s.disk.data s.sm.catalog s.checkpoint g

omit [Ext] in
/-- The lock of the map is free only where the checkpoint has no reload to do. -/
theorem Leader.reloads_eq_false (h : s.mapLocked = false) (n : String) (u : Uuid) :
    s.checkpoint.reloads n u = false := by
  rw [Leader.mapLocked, Bool.or_eq_false_iff] at h
  cases hc : s.checkpoint <;> simp_all [CheckpointPhase.reloads, CheckpointPhase.locksMap]

theorem Within.reader {lo lo' : Nat} {n : String} (h : Within log next lo lo' d n e) :
    ∃ k st, lo ≤ k ∧ k < next ∧ bound log k n = some st ∧ view e.collection.searcher = st.docs := by
  obtain ⟨_, r, c, _, hr, _, hrc, hcn, hshown, _⟩ := h
  have hpos := hshown.pos
  obtain ⟨st, hst, _, hdocs⟩ := hshown
  exact ⟨r, st, hr, by omega, hst, hdocs⟩

/-- A get answers from the reader. -/
theorem linearizable_answer {mark : Nat} (hle : g.readIndex ≤ mark)
    (h : ∀ e, m.collections.find? g.collection = some e →
      Within log next mark 0 d g.collection e) :
    Get.Linearizable log next
      { g with phase := .answered ((Catalog.getDocument g.collection g.id).run d m).1 } := by
  have hshown : ∀ e, m.collections.find? g.collection = some e →
      ∃ k st, g.readIndex ≤ k ∧ k < next ∧ bound log k g.collection = some st ∧
        st.docs g.id = e.collection.source g.id := by
    intro e hf
    obtain ⟨k, st, hk, hlt, hst, hdocs⟩ := (h e hf).reader
    exact ⟨k, st, by omega, hlt, hst, by rw [← hdocs]; rfl⟩
  have hw : wp (Catalog.getDocument g.collection g.id)
      (fun source _ _ => Get.Linearizable log next { g with phase := .answered (.ok source) })
      (fun err _ _ => Get.Linearizable log next { g with phase := .answered (.error err) })
      (fun _ => True) d m := by
    rw [Catalog.getDocument, wp_bind, Catalog.get, wp_bind, wp_getMem]
    cases hf : m.collections.find? g.collection with
    | none => trivial
    | some e =>
      obtain ⟨k, st, hk, hlt, hst, hdoc⟩ := hshown e hf
      rw [wp_pure]
      cases hsource : e.collection.source g.id with
      | none => exact ⟨k, st, hk, hlt, hst, hdoc.trans hsource⟩
      | some source => exact ⟨k, st, hk, hlt, hst, hdoc.trans hsource⟩
  have hrun := ((wp_iff _).mp hw).2
  cases hr : (Catalog.getDocument g.collection g.id).run d m with
  | mk result x =>
    rw [hr] at hrun
    cases result <;> exact hrun

omit [Ext] in
/-- A get that skips its commit while no other is about to reload the reader. -/
theorem Leader.not_reloads_of_calm {i : Nat} {mark : LogMark} {target : Collection}
    (hcalm : s.calm (.get i) = true) (hi : s.gets[i]? = some g)
    (hp : g.phase = .resolved mark target) (hle : mark.index ≤ (s.disk.data.mark target.uuid).index) :
    ∀ g' ∈ s.gets, g'.reloads g.collection target.uuid = false := by
  obtain ⟨collection, id, readIndex, phase⟩ := g
  obtain rfl : phase = .resolved mark target := hp
  simp only [Leader.calm, hi, Bool.or_eq_true, decide_eq_true_iff, Bool.not_eq_true',
    List.any_eq_false] at hcalm
  rcases hcalm with hlt | hnone
  · omega
  · exact fun g' hg' => Bool.eq_false_iff.mpr (hnone g' hg')

/-- A get's own step leaves it what it relies on next. -/
theorem GetStep.ok {phase : GetPhase} (hstep : GetStep s g d m phase) (h : s.ReadInv log)
    (hlog : CommittedLog log) {i : Nat} (hi : s.gets[i]? = some g) (hcalm : s.calm (.get i) = true) :
    GetOk log s.next d m s.checkpoint { g with phase := phase } := by
  have hmem := List.mem_of_getElem? hi
  have hg := h.gets g hmem
  have hmarks := h.inv.gets g hmem
  have hs := h.inv.steady
  have hmoves := hstep.moves log fun mark hm => (hmarks mark hm).2
  rw [GetOk] at hg
  cases hstep with
  | mark hp hle => trivial
  | fail err herr hp =>
    show Get.Linearizable log s.next _
    rw [Get.Linearizable]
    split
    · simp_all
    · rename_i id hq
      simp only [GetPhase.answered.injEq, Except.error.injEq] at hq
      exact absurd hq (herr id)
    · trivial
  | lookup mark e hp hf =>
    -- the collection under the name is the one that was looked up
    intro e' hf' hne
    rw [hf, Option.some.injEq] at hf'
    subst hf'
    exact absurd (hs.based.entry _ _ hf).uuid.symm hne
  | behind mark target hp =>
    simp only [hp] at hg
    exact hg
  | skip mark target ix hp hix hle =>
    simp only [hp] at hg
    have hmark : mark.index ≤ (s.disk.data.mark target.uuid).index := by
      rwa [Disk.mark, hix]
    -- the commit of the collection that was looked up is at its mark or later
    have hcommit : ShowsFrom log s.next 0 mark.index s.disk.data s.sm.catalog g.collection
        (fun _ => True) := by
      intro e hf _
      by_cases hu : e.uuid = target.uuid
      · exact (hs.within _ _ hf).mono le_rfl le_rfl (by rwa [hu])
      · exact hg.index_of_reader e hf hu
    refine ⟨hcommit, fun e hf hreload => ?_⟩
    by_cases hu : e.uuid = target.uuid
    · have hcalm := Leader.not_reloads_of_calm hcalm hi hp hmark
      rcases h.fresh _ e ix hf (hu ▸ hix) with hfresh | hbusy | ⟨g', hg', hbusy⟩
      · exact ((hcommit e hf trivial).fresh (hu ▸ hix) hfresh).mono le_rfl le_rfl (Nat.zero_le _)
      · rw [hreload] at hbusy
        contradiction
      · rw [hu, hcalm g' hg'] at hbusy
        contradiction
    · exact hg e hf hu
  | publish mark target e ix hp hf hu hix =>
    simp only [hp] at hg
    have hle := (hmarks mark (by rw [hp]; rfl)).2
    refine ⟨hmoves.showsFrom hs hlog.first hle (Nat.zero_le _) hg, fun e' hf' _ => ?_⟩
    rw [Catalog.find?_store_self (c := e.collection.flushed) hf (hs.based.entry _ e hf).uuid,
      if_pos rfl] at hf'
    cases hf'
    obtain ⟨_, r, k, _, _, _, hrk, hkn, hr, _⟩ := hs.within _ e hf
    refine ⟨ix.committed e.collection mark, r, s.next - 1, ?_, Nat.zero_le _, hle, by omega,
      le_rfl, hr, hs.shownAt_committed hf hix mark⟩
    rw [Disk.committed, Disk.index_setDir, if_pos rfl]
  | reload mark target e ix hp hf hu hix =>
    simp only [hp] at hg
    have hle := (hmarks mark (by rw [hp]; rfl)).2
    have hnew := hmoves.showsFrom hs hlog.first hle (Nat.zero_le _) hg.1
    have hcommit := hmoves.showsFrom hs hlog.first (Nat.zero_le _) hle hg.2
    refine ⟨fun e' hf' _ => ?_, fun e' hf' _ => ?_⟩
    · by_cases hu' : e'.uuid = target.uuid
      · exact hcommit e' hf' hu'
      · exact hnew.index_of_reader e' hf' hu'
    · exact ShowsFrom.reloaded hs.based hf hix hcommit hu e' hf'
  | answer mark hp hlock =>
    simp only [hp] at hg
    exact linearizable_answer (hmarks mark (by rw [hp]; rfl)).1 fun e hf =>
      hg.2 e hf (Leader.reloads_eq_false hlock _ _)

omit [Ext] in
/-- A get that moves on gives up no reload of another. -/
theorem Leader.reloads_set {i : Nat} (phase : GetPhase) (hi : s.gets[i]? = some g) {n : String}
    {u : Uuid} (h : s.Reloads n u) :
    s.checkpoint.reloads n u = true ∨
      (∃ g' ∈ s.gets.set i { g with phase := phase }, g'.reloads n u = true) ∨
        g.reloads n u = true := by
  rcases h with h | ⟨g', hg', h⟩
  · exact .inl h
  · obtain ⟨j, hj⟩ := List.mem_iff_getElem?.mp hg'
    by_cases hij : i = j
    · rw [← hij, hi, Option.some.injEq] at hj
      exact .inr (.inr (hj ▸ h))
    · exact .inr (.inl ⟨g', List.mem_iff_getElem?.mpr ⟨j, by rw [List.getElem?_set_ne hij, hj]⟩, h⟩)

/-- A get that has published a commit is on its way to reload the reader. -/
theorem GetStep.fresh {phase : GetPhase} (hstep : GetStep s g d m phase) (h : s.ReadInv log)
    {i : Nat} (hi : s.gets[i]? = some g) :
    Fresh d m (Leader.Reloads { s.withCatalog d m with
      gets := s.gets.set i { g with phase := phase } }) := by
  have hset := fun n u => Leader.reloads_set phase hi (n := n) (u := u)
  have hlt : i < s.gets.length := (List.getElem?_eq_some_iff.mp hi).1
  have hs := h.inv.steady.based
  have hquiet : (∀ mark target, g.phase ≠ .published mark target) → ∀ n u, s.Reloads n u →
      Leader.Reloads { s.withCatalog d m with gets := s.gets.set i { g with phase := phase } } n u := by
    intro hne n u hb
    rcases hset n u hb with hb | hb | hb
    · exact .inl hb
    · exact .inr hb
    · obtain ⟨_, mark, target, hp, _⟩ := Get.reloads_eq_true.mp hb
      exact absurd hp (hne mark target)
  cases hstep with
  | publish mark target e ix hp hf hu hix =>
    refine h.fresh.publish hs hf (hquiet (by simp [hp])) (.inr ⟨_, List.mem_set hlt _, ?_⟩)
    exact Get.reloads_eq_true.mpr ⟨rfl, mark, target, rfl, hu.symm⟩
  | reload mark target e ix hp hf hu hix =>
    refine h.fresh.reload hs hf hix fun n u hb => ?_
    rcases hset n u hb with hb | hb | hb
    · exact .inl (.inl hb)
    · exact .inl (.inr hb)
    · obtain ⟨hn, mark', target', hp', hu'⟩ := Get.reloads_eq_true.mp hb
      rw [hp, GetPhase.published.injEq] at hp'
      exact .inr ⟨hn.symm, by rw [← hu', ← hp'.2, hu]⟩
  | fail err herr hfail =>
    refine h.fresh.congr rfl fun n e hf hb => ?_
    rcases hset n e.uuid hb with hb | hb | hb
    · exact .inl hb
    · exact .inr hb
    · obtain ⟨rfl, mark, target, hp, hu⟩ := Get.reloads_eq_true.mp hb
      exact absurd hu.symm (Catalog.not_held_of_reload_error hs (hfail mark target hp) e hf)
  | mark hp hle => exact h.fresh.congr rfl fun n e _ => hquiet (by simp [hp]) n e.uuid
  | lookup mark e hp hf => exact h.fresh.congr rfl fun n e _ => hquiet (by simp [hp]) n e.uuid
  | behind mark target hp => exact h.fresh.congr rfl fun n e _ => hquiet (by simp [hp]) n e.uuid
  | skip mark target ix hp hix hle =>
    exact h.fresh.congr rfl fun n e _ => hquiet (by simp [hp]) n e.uuid
  | answer mark hp hlock => exact h.fresh.congr rfl fun n e _ => hquiet (by simp [hp]) n e.uuid

theorem CheckpointStep.fresh {phase : CheckpointPhase} (hstep : CheckpointStep s d m phase)
    (h : s.ReadInv log) :
    Fresh d m (Leader.Reloads { s.withCatalog d m with checkpoint := phase }) := by
  have hs := h.inv.steady.based
  have hquiet : (∀ mark name target rest, s.checkpoint ≠ .published mark name target rest) →
      ∀ n u, s.Reloads n u →
        Leader.Reloads { s.withCatalog d m with checkpoint := phase } n u := by
    rintro hne n u (hb | hb)
    · obtain ⟨mark, target, rest, hp, _⟩ := CheckpointPhase.reloads_eq_true.mp hb
      exact absurd hp (hne mark n target rest)
    · exact .inr hb
  cases hstep with
  | publish mark name target rest e ix hp hf hu hix =>
    refine h.fresh.publish hs hf (hquiet (by simp [hp])) (.inl ?_)
    exact CheckpointPhase.reloads_eq_true.mpr ⟨mark, target, rest, rfl, hu.symm⟩
  | reload mark name target rest e ix hp hf hu hix =>
    refine h.fresh.reload hs hf hix ?_
    rintro n u (hb | hb)
    · obtain ⟨mark', target', rest', hp', hu'⟩ := CheckpointPhase.reloads_eq_true.mp hb
      rw [hp, CheckpointPhase.published.injEq] at hp'
      obtain ⟨_, rfl, rfl, _⟩ := hp'
      exact .inr ⟨rfl, by rw [← hu', hu]⟩
    · exact .inl (.inr hb)
  | fail hfail =>
    refine h.fresh.congr rfl ?_
    rintro n e hf (hb | hb)
    · obtain ⟨mark, target, rest, hp, hu⟩ := CheckpointPhase.reloads_eq_true.mp hb
      obtain ⟨err, herr⟩ := hfail _ _ _ _ hp
      exact absurd hu.symm (Catalog.not_held_of_reload_error hs herr e hf)
    · exact .inr hb
  | mark id hp hid => exact h.fresh.congr rfl fun n e _ => hquiet (by simp [hp]) n e.uuid
  | enter mark targets hp => exact h.fresh.congr rfl fun n e _ => hquiet (by simp [hp]) n e.uuid
  | finish mark hp => exact h.fresh.congr rfl fun n e _ => hquiet (by simp [hp]) n e.uuid
  | persist mark d hp hdirs hsnap =>
    exact h.fresh.congr hdirs fun n e _ => hquiet (by simp [hp]) n e.uuid

/-- **Every step of a calm run keeps the invariant.** -/
theorem Leader.ReadInv.step {a : Leader.Action} (h : s.ReadInv log) (hlog : CommittedLog log)
    (hcalm : s.calm a = true) (hs : s.step log a = some s') : s'.ReadInv log := by
  have hsteady := h.inv.steady
  have hinv := h.inv.step hlog hs
  have hmarks : ∀ g ∈ s.gets, ∀ mark, g.phase.mark? = some mark → mark.index ≤ s.next - 1 :=
    fun g hg mark hm => (h.inv.gets g hg mark hm).2
  cases a with
  | apply ord =>
    obtain ⟨_, d, m, rfl, he⟩ := h.inv.apply_cases hlog hs
    exact ⟨hinv, h.fresh.apply hsteady.based he, fun g hg =>
      (h.gets g hg).moves (Move.apply ord he).moves hsteady hlog.first (hmarks g hg)⟩
  | report index =>
    rw [Leader.step, Leader.report] at hs
    split at hs
    · split at hs
      · cases hs
        exact ⟨hinv, h.fresh, h.gets⟩
      · contradiction
    · contradiction
  | call collection id readIndex =>
    cases hs
    refine ⟨hinv, h.fresh.congr rfl ?_, fun g hg => ?_⟩
    · rintro n e _ (hb | ⟨g, hg, hb⟩)
      · exact .inl hb
      · exact .inr ⟨g, List.mem_append_left _ hg, hb⟩
    · rcases List.mem_append.mp hg with hg | hg
      · exact h.gets g hg
      · rw [List.mem_singleton.mp hg]
        trivial
  | get i =>
    obtain ⟨g, d, m, phase, hi, hstep, rfl⟩ := Leader.get_cases hs
    have hmem := List.mem_of_getElem? hi
    refine ⟨hinv, hstep.fresh h hi, fun g' hg' => ?_⟩
    rcases List.mem_or_eq_of_mem_set hg' with hg' | rfl
    · exact (h.gets g' hg').moves (hstep.moves log (hmarks g hmem)) hsteady hlog.first (hmarks g' hg')
    · exact hstep.ok h hlog hi hcalm
  | checkpoint ord =>
    obtain ⟨d, m, phase, rfl, hstep⟩ := Leader.stepCheckpoint_cases hs
    refine ⟨hinv, hstep.fresh h, fun g hg => ?_⟩
    have hmoved := (h.gets g hg).moves (hstep.moves log h.inv.checkpoint) hsteady hlog.first
      (hmarks g hg)
    exact hmoved.checkpoint hstep hsteady.based
  | build ord =>
    have hstep := Leader.stepBuild_cases hs
    have hmoves := hstep.moves log h.inv.build
    have hgets := fun g hg =>
      (h.gets g hg).moves hmoves hsteady hlog.first (hmarks g hg)
    have hl := h.inv.build
    cases hstep with
    | archive name e rest ix hp hix =>
      rw [hp] at hl
      obtain ⟨e', hf, hix', hstore⟩ := hl.reloaded hix
      have hfresh := h.fresh.reload hsteady.based hf hix' fun _ _ hb => .inl hb
      rw [← hstore] at hfresh
      exact ⟨hinv, hfresh.congr rfl fun _ _ _ hb => hb, hgets⟩
    | list ord hp => exact ⟨hinv, h.fresh.congr rfl fun _ _ _ hb => hb, hgets⟩
    | pack hp => exact ⟨hinv, h.fresh.congr rfl fun _ _ _ hb => hb, hgets⟩
    | _ => exact ⟨hinv, h.fresh, hgets⟩
  | fetch =>
    obtain ⟨phase, rfl, _⟩ := Leader.stepFetch_cases hs
    exact ⟨hinv, h.fresh, h.gets⟩

/-- **A linearizable get sees every committed write**, in every run where no get
skips its commit while another one has published a commit of the same collection
and not yet reloaded its reader. -/
theorem linearizable_get_sees_committed (hlog : CommittedLog log)
    (h : (Leader.system log).Reach Leader.calm s) : ∀ g ∈ s.gets, g.Linearizable log s.next := by
  have hinv : s.ReadInv log := by
    refine h.invariant ?_ fun s a s' hI hcalm hs => hI.step hlog hcalm hs
    rintro s rfl
    have hstart := Leader.inv_start log
    obtain ⟨cat, membership, hnone, heq⟩ := Leader.start_eq
    rw [heq] at hstart ⊢
    exact ⟨hstart, fun n e ix hf => by simp [hnone n] at hf, by simp⟩
  intro g hg
  have hok := hinv.gets g hg
  rw [GetOk] at hok
  cases hp : g.phase with
  | answered result =>
    simp only [hp] at hok
    exact hok
  | _ =>
    rw [Get.Linearizable, hp]
    trivial

end

section
open Reference

/-- Whether a get was answered so. -/
def Get.answeredWith (g : Get) (result : Except Error Bytes) : Bool :=
  match g.phase with
  | .answered result' => result' = result
  | _ => false

theorem Get.answeredWith_iff {g : Get} {result : Except Error Bytes} :
    g.answeredWith result = true ↔ g.phase = .answered result := by
  cases hp : g.phase <;> simp [Get.answeredWith, hp]

/-- Two gets of the document of `createThenIndexLog`: the second one finds the
commit that the first has published, and reads through a reader that the first
has not reloaded. -/
def readBeforeReload : List Leader.Action :=
  [.apply .stored, .apply .stored, .apply .stored, .report 2, .call "a" "x" 2, .call "a" "x" 2,
    .get 0, .get 0, .get 0, .get 0, .get 1, .get 1, .get 1, .get 1]

/-- The document is not found, although it is in the log at the read index. -/
theorem linearizable_get_stale_before_reload :
    ∃ s, (Leader.system createThenIndexLog).Reach (fun _ _ => true) s ∧
      ∃ g ∈ s.gets, g.phase = .answered (.error (.documentNotFound "x")) ∧
        ¬ g.Linearizable createThenIndexLog s.next := by
  have hrun : ((Leader.system createThenIndexLog).exec (fun _ _ => true) Leader.start
      readBeforeReload).any (fun s => decide (s.next = 3) && s.gets[1]?.any fun g =>
        decide (g.collection = "a" ∧ g.id = "x" ∧ g.readIndex = 2) &&
          g.answeredWith (.error (.documentNotFound "x"))) = true := by
    decide +kernel
  have hdoc : (bound createThenIndexLog 2 "a").map (fun st => st.docs "x") =
      some (some textSource) := by
    decide +kernel
  obtain ⟨s, hs, hp⟩ := exists_of_any hrun
  obtain ⟨hnext, hp⟩ := (Bool.and_eq_true _ _).mp hp
  obtain ⟨g, hg, hp⟩ := exists_of_any hp
  obtain ⟨hcall, hp⟩ := (Bool.and_eq_true _ _).mp hp
  obtain ⟨hc, hid, hread⟩ := of_decide_eq_true hcall
  have hnext := of_decide_eq_true hnext
  have hphase := Get.answeredWith_iff.mp hp
  refine ⟨s, System.Reach.exec (.start rfl) hs, g, List.mem_of_getElem? hg, hphase, fun hlin => ?_⟩
  rw [Get.Linearizable, hphase] at hlin
  obtain ⟨k, st, hk, hlt, hst, hnone⟩ := hlin
  obtain rfl : k = 2 := by omega
  rw [← hc, hst, Option.map_some, ← hid, hnone] at hdoc
  simp at hdoc

/-- The same reads, with the reader reloaded in between. -/
def readAfterReload : List Leader.Action :=
  [.apply .stored, .apply .stored, .apply .stored, .report 2, .call "a" "x" 2, .call "a" "x" 2,
    .get 0, .get 0, .get 0, .get 0, .get 1, .get 1, .get 0, .get 1, .get 1]

theorem linearizable_get_sees_committed_after_reload :
    ∃ s, (Leader.system createThenIndexLog).exec Leader.calm Leader.start readAfterReload = some s ∧
      ∃ g, s.gets[1]? = some g ∧ g.phase = .answered (.ok textSource) ∧
        g.Linearizable createThenIndexLog s.next := by
  have hrun : ((Leader.system createThenIndexLog).exec Leader.calm Leader.start
      readAfterReload).any (fun s => s.gets[1]?.any fun g =>
        g.answeredWith (.ok textSource)) = true := by
    decide +kernel
  obtain ⟨s, hs, hp⟩ := exists_of_any hrun
  obtain ⟨g, hg, hp⟩ := exists_of_any hp
  have hphase := Get.answeredWith_iff.mp hp
  exact ⟨s, hs, g, hg, hphase, linearizable_get_sees_committed createThenIndexLog_committed
    (System.Reach.exec (.start rfl) hs) g (List.mem_of_getElem? hg)⟩

end

end Lumen
