import Lumen.Lib.Replay

/-!
# Lib.Slot

Replaying a log over state that was saved at several points of it.

The contents of a generation are kept in a store that outlives the process,
saved from time to time together with a mark: edits up to the mark are not
applied again.  The replay may start before the point the stores were saved
at, and even before the birth of the generation the slot holds.

`Inv log r top s` says what then holds between the position `r` replay has
reached and the last position `top` the slot has ever seen: a drop still to
come makes everything before it irrelevant, and a generation is right except
for the documents an edit still to come will write.  At `r = top` nothing is
still to come, and the slot is exactly the state of the log (`Inv.live_eq`).
-/

namespace Lib.Replay

variable {U I K V : Type}

/-! ## slots -/

/-- The saved contents of a generation. -/
structure Store (K V : Type) where
  mark : Nat
  docs : K → Option V

/-- A slot: the generation in memory with its current documents, and the
stores by identity. -/
structure Slot (U I K V : Type) where
  live : Option (Gen U I K V)
  stores : U → Option (Store K V)

namespace Slot

/-- Nothing in memory, nothing saved. -/
def empty : Slot U I K V := ⟨none, fun _ => none⟩

/-- The mark of the generation in memory. -/
def mark (s : Slot U I K V) : Nat :=
  match s.live with
  | none => 0
  | some g => ((s.stores g.uuid).map Store.mark).getD 0

section
variable [DecidableEq U] [DecidableEq K]

/-- Apply the event at position `i`. -/
def apply (i : Nat) : Event U I K V → Slot U I K V → Slot U I K V
  | .skip, s => s
  | .create u x, s =>
    match s.live with
    | some _ => s
    | none =>
      match s.stores u with
      | some st => { s with live := some ⟨u, x, st.docs⟩ }
      | none => ⟨some ⟨u, x, fun _ => none⟩, Function.update s.stores u (some ⟨0, fun _ => none⟩)⟩
  | .drop, s =>
    match s.live with
    | none => s
    | some g => ⟨none, Function.update s.stores g.uuid none⟩
  | .edit k v, s =>
    match s.live with
    | none => s
    | some g =>
      if i ≤ s.mark then s
      else { s with live := some { g with docs := Function.update g.docs k v } }

/-- Save the generation in memory under a mark. -/
def commit (c : Nat) (s : Slot U I K V) : Slot U I K V :=
  match s.live with
  | none => s
  | some g => { s with stores := Function.update s.stores g.uuid (some ⟨c, g.docs⟩) }

/-- Lose the memory: the generation is read back from its store, and stores
of other generations are swept. -/
def reopen (s : Slot U I K V) : Slot U I K V :=
  match s.live with
  | none => ⟨none, fun _ => none⟩
  | some g =>
    match s.stores g.uuid with
    | none => ⟨none, fun _ => none⟩
    | some st => ⟨some { g with docs := st.docs }, Function.update (fun _ => none) g.uuid (some st)⟩

end

end Slot

/-! ## the invariant -/

section
variable [DecidableEq K]
variable {log : Log U I K V} {s : Slot U I K V} {r j c top : Nat} {u : U} {x : I}

/-- The documents are those of generation `j` at position `c`, except where
an edit in `(c, top]` is still to come. -/
def DocsOk (log : Log U I K V) (j c top : Nat) (docs : K → Option V) : Prop :=
  ∀ k, docs k = log.docsFrom j c k ∨ log.Touched k c top

/-- The generation `j` in memory and its store. -/
structure LiveOk (log : Log U I K V) (r top j : Nat) (g : Gen U I K V) (st : Store K V) : Prop where
  born : log.Born j g.uuid g.info
  le_top : j ≤ top
  not_dropped : ¬ log.DropIn (min j r) top
  mark_le : st.mark ≤ top
  docs : DocsOk log j (max r st.mark) top g.docs
  saved : DocsOk log j st.mark top st.docs

/-- The store of a generation whose create is still to come: missing, as it
was created, or saved during the generation's life. -/
def HiddenOk (log : Log U I K V) (j top : Nat) : Option (Store K V) → Prop
  | none => True
  | some st => (st.mark < j ∧ st.docs = fun _ => none) ∨
      (j ≤ st.mark ∧ st.mark ≤ top ∧ DocsOk log j st.mark top st.docs)

/-- What a slot holds when replay has reached `r` and the log was once applied
up to `top`. -/
structure Inv (log : Log U I K V) (r top : Nat) (s : Slot U I K V) : Prop where
  le : r ≤ top
  phase : log.DropIn r top ∨ (s.live = none ∧ log.stateAt r = none) ∨
    ∃ g st j, s.live = some g ∧ s.stores g.uuid = some st ∧ LiveOk log r top j g st
  hidden : ∀ j u x, log.Born j u x → r < j → j ≤ top → ¬ log.DropIn j top →
    (∀ g, s.live = some g → g.uuid ≠ u) → HiddenOk log j top (s.stores u)

theorem Inv.empty : Inv log 0 0 Slot.empty where
  le := le_rfl
  phase := .inr (.inl ⟨rfl, rfl⟩)
  hidden j u x _ h1 h2 := by omega

/-- At the end of the log, the slot holds the state of the log. -/
theorem Inv.live_eq (h : Inv log r r s) : s.live = log.stateAt r := by
  rcases h.phase with hd | ⟨hl, hs⟩ | ⟨g, st, j, hl, _, hg⟩
  · exact absurd hd Log.not_dropIn_self
  · rw [hl, hs]
  · have hmin : min j r = j := Nat.min_eq_left hg.le_top
    have hmax : max r st.mark = r := Nat.max_eq_left hg.mark_le
    have hdocs : g.docs = log.docsFrom j r := by
      funext k
      have hk := hg.docs k
      rw [hmax] at hk
      exact hk.resolve_right Log.not_touched_self
    rw [hl, hg.born.stateAt_eq hg.le_top (hmin ▸ hg.not_dropped), ← hdocs]

theorem DocsOk.mono {docs : K → Option V} {top' : Nat} (h : DocsOk log j c top docs)
    (hle : top ≤ top') : DocsOk log j c top' docs :=
  fun k => (h k).imp_right fun ht => ht.mono le_rfl hle

/-- Documents that are right at a position are right at every earlier one. -/
theorem DocsOk.back {docs : K → Option V} {c' : Nat} (h : DocsOk log j c top docs)
    (hle : c' ≤ c) (htop : c ≤ top) : DocsOk log j c' top docs := by
  intro k
  by_cases ht : log.Touched k c' top
  · exact .inr ht
  · left
    have hk := (h k).resolve_right fun h' => ht (h'.mono hle le_rfl)
    rw [hk, Log.docsFrom_eq_of_not_touched hle fun h' => ht (h'.mono le_rfl htop)]

theorem DocsOk.succ {docs : K → Option V} (h : DocsOk log j r top docs)
    (he : ∀ k v, log (r + 1) ≠ .edit k v) : DocsOk log j (r + 1) top docs := by
  intro k
  rw [Log.docsFrom_succ (he k)]
  exact (h k).imp_right fun ht => ht.succ_left (he k)

/-- Applying an edit to documents that are right before it. -/
theorem DocsOk.edit {docs : K → Option V} {k : K} {v : Option V} (h : DocsOk log j r top docs)
    (he : log (r + 1) = .edit k v) (hv : j ≤ r ∨ v = none) :
    DocsOk log j (r + 1) top (Function.update docs k v) := by
  intro k'
  by_cases hk : k' = k
  · subst hk
    left
    rw [Function.update_self]
    rcases Nat.lt_or_ge r j with hlt | hge
    · rw [Log.docsFrom_of_le hlt]
      exact hv.resolve_left (by omega)
    · rw [Log.docsFrom_edit hge he, Function.update_self]
  · have hne : ∀ w, log (r + 1) ≠ .edit k' w := by
      intro w hw
      rw [he] at hw
      injection hw with hw _
      exact hk hw.symm
    rw [Function.update_of_ne hk, Log.docsFrom_succ hne]
    exact (h k').imp_right fun ht => ht.succ_left hne

theorem HiddenOk.mono {st : Option (Store K V)} {top' : Nat} (h : HiddenOk log j top st)
    (hle : top ≤ top') : HiddenOk log j top' st := by
  cases st with
  | none => trivial
  | some st => exact h.imp_right fun ⟨h1, h2, h3⟩ => ⟨h1, by omega, h3.mono hle⟩

/-- Two slots that hold the same, as far as the log's creates up to `top` can
tell. -/
structure Slot.Agree (log : Log U I K V) (top : Nat) (s s' : Slot U I K V) : Prop where
  live : s'.live = s.live
  stores : ∀ i u x, i ≤ top → log i = .create u x → s'.stores u = s.stores u

theorem Inv.congr {s' : Slot U I K V} (h : Inv log r top s) (ha : s.Agree log top s') :
    Inv log r top s' where
  le := h.le
  phase := by
    rw [ha.live]
    rcases h.phase with hd | hn | ⟨g, st, j, hl, hst, hg⟩
    · exact .inl hd
    · exact .inr (.inl hn)
    · exact .inr (.inr ⟨g, st, j, hl, (ha.stores j _ _ hg.le_top hg.born.2.1).trans hst, hg⟩)
  hidden j u x hb h1 h2 := by
    rw [ha.live, ha.stores j u x h2 hb.2.1]
    exact h.hidden j u x hb h1 h2

/-! ## one position further -/

/-- The position moves over an event that leaves the slot as it is. -/
theorem Inv.stay (h : Inv log r top s) (hlt : r < top) (hdrop : log (r + 1) ≠ .drop)
    (hnone : s.live = none → log.stateAt r = none → log.stateAt (r + 1) = none)
    (hedit : ∀ g st, s.live = some g → s.stores g.uuid = some st →
      (∀ k v, log (r + 1) ≠ .edit k v) ∨ r + 1 ≤ st.mark) : Inv log (r + 1) top s where
  le := hlt
  phase := by
    rcases h.phase with hd | ⟨hl, hs⟩ | ⟨g, st, j, hl, hst, hg⟩
    · exact .inl (hd.succ_left hdrop)
    · exact .inr (.inl ⟨hl, hnone hl hs⟩)
    · refine .inr (.inr ⟨g, st, j, hl, hst, hg.born, hg.le_top, ?_, hg.mark_le, ?_, hg.saved⟩)
      · exact fun hd => hg.not_dropped (hd.mono (by omega) le_rfl)
      · have hdocs := hg.docs
        rcases Nat.lt_or_ge r st.mark with hm | hm
        · rw [Nat.max_eq_right (by omega)] at hdocs ⊢
          exact hdocs
        · rw [Nat.max_eq_left (by omega)] at hdocs ⊢
          exact hdocs.succ ((hedit g st hl hst).resolve_right (by omega))
  hidden j u x hb h1 h2 := h.hidden j u x hb (by omega) h2

variable [DecidableEq U]

/-- Creating in an empty slot opens the store of the identity, or makes it. -/
theorem Slot.apply_create (hl : s.live = none) (i : Nat) (u : U) (x : I) :
    ∃ st, s.apply i (.create u x) = ⟨some ⟨u, x, st.docs⟩, Function.update s.stores u (some st)⟩ ∧
      (s.stores u = some st ∨ s.stores u = none ∧ st = ⟨0, fun _ => none⟩) := by
  cases hst : s.stores u with
  | none => exact ⟨⟨0, fun _ => none⟩, by simp only [Slot.apply, hl, hst], .inr ⟨rfl, rfl⟩⟩
  | some st =>
    have hself := Function.update_eq_self u s.stores
    rw [hst] at hself
    exact ⟨st, by simp only [Slot.apply, hl, hst, hself], .inl rfl⟩

/-- Behind the mark, and with nothing saved for a new identity, applying an
event is what it does to the state. -/
theorem Slot.live_apply {i : Nat} {ev : Event U I K V} (hmark : s.live.isSome → s.mark < i)
    (hnew : ∀ u x, ev = .create u x → s.live = none → s.stores u = none) :
    (s.apply i ev).live = ev.step s.live := by
  cases ev with
  | skip => rfl
  | create u x =>
    cases hl : s.live with
    | some g => simp only [Slot.apply, hl, Event.step]
    | none => simp only [Slot.apply, hl, hnew u x rfl hl, Event.step]
  | drop => cases hl : s.live <;> simp only [Slot.apply, hl, Event.step]
  | edit k v =>
    cases hl : s.live with
    | none => simp only [Slot.apply, hl, Event.step]
    | some g =>
      have hlt := hmark (by rw [hl]; rfl)
      simp only [Slot.apply, hl, if_neg (Nat.not_le.mpr hlt), Event.step]

theorem Inv.create (h : Inv log r top s) (hlt : r < top) (he : log (r + 1) = .create u x)
    (hl : s.live = none) : Inv log (r + 1) top (s.apply (r + 1) (.create u x)) := by
  obtain ⟨st, happ, hst⟩ := Slot.apply_create hl (r + 1) u x
  rw [happ]
  refine ⟨hlt, ?_, fun j u' x' hb h1 h2 hd hne => ?_⟩
  · by_cases hd : log.DropIn (r + 1) top
    · exact .inl hd
    · rcases h.phase with hd' | ⟨_, hs⟩ | ⟨g, _, _, hg, _⟩
      · exact absurd (hd'.succ_left (by simp [he])) hd
      · have hb : log.Born (r + 1) u x := ⟨by omega, he, hs⟩
        have hok : HiddenOk log (r + 1) top (some st) := by
          rcases hst with hst | ⟨_, rfl⟩
          · rw [← hst]
            exact h.hidden (r + 1) u x hb (by omega) hlt hd fun g hg => by
              rw [hl] at hg
              contradiction
          · exact .inl ⟨by show 0 < r + 1; omega, rfl⟩
        refine .inr (.inr ⟨_, st, r + 1, rfl, Function.update_self .., hb, hlt, ?_, ?_, ?_, ?_⟩)
        · rwa [Nat.min_self]
        · rcases hok with ⟨hm, _⟩ | ⟨_, hm, _⟩ <;> omega
        · rcases hok with ⟨hm, hdocs⟩ | ⟨hm, _, hdocs⟩
          · rw [Nat.max_eq_left (by omega), hdocs]
            exact fun k => .inl (by rw [Log.docsFrom_of_le le_rfl])
          · rwa [Nat.max_eq_right hm]
        · rcases hok with ⟨hm, hdocs⟩ | ⟨_, _, hdocs⟩
          · rw [hdocs]
            exact fun k => .inl (by rw [Log.docsFrom_of_le (by omega)])
          · exact hdocs
      · rw [hl] at hg
        contradiction
  · have hu : u ≠ u' := hne _ rfl
    show HiddenOk log j top (Function.update s.stores u (some st) u')
    rw [Function.update_of_ne hu.symm]
    exact h.hidden j u' x' hb (by omega) h2 hd fun g hg => by rw [hl] at hg; contradiction

theorem Inv.drop (h : Inv log r top s) (hlt : r < top) (he : log (r + 1) = .drop) :
    Inv log (r + 1) top (s.apply (r + 1) .drop) := by
  have hnone : log.stateAt (r + 1) = none := by rw [Log.stateAt, he]; rfl
  rw [Slot.apply]
  cases hl : s.live with
  | none => exact ⟨hlt, .inr (.inl ⟨hl, hnone⟩), fun j u x hb h1 => h.hidden j u x hb (by omega)⟩
  | some g =>
    refine ⟨hlt, .inr (.inl ⟨rfl, hnone⟩), fun j u x hb h1 h2 hd _ => ?_⟩
    show HiddenOk log j top (Function.update s.stores g.uuid none u)
    by_cases hu : u = g.uuid
    · rw [hu, Function.update_self]
      trivial
    · rw [Function.update_of_ne hu]
      refine h.hidden j u x hb (by omega) h2 hd fun g' hg' => ?_
      rw [hl, Option.some.injEq] at hg'
      exact hg' ▸ Ne.symm hu

omit [DecidableEq U] in
/-- An edit that reaches the generation in memory: on a generation that is
still to be born at this position it can only be a deletion. -/
theorem Inv.edit {k : K} {v : Option V} {g : Gen U I K V} (hstale : log.NoStale)
    (h : Inv log r top s) (hlt : r < top) (he : log (r + 1) = .edit k v) (hl : s.live = some g)
    (hm : s.mark < r + 1) :
    Inv log (r + 1) top { s with live := some { g with docs := Function.update g.docs k v } } := by
  refine ⟨hlt, ?_, fun j u x hb h1 h2 hd hne => ?_⟩
  · rcases h.phase with hd | ⟨hl', _⟩ | ⟨g', st, j, hl', hst, hg⟩
    · exact .inl (hd.succ_left (by simp [he]))
    · rw [hl] at hl'
      contradiction
    · obtain rfl : g = g' := by rw [hl] at hl'; injection hl'
      have hmark : st.mark < r + 1 := by
        rw [Slot.mark, hl] at hm
        simpa [hst] using hm
      refine .inr (.inr ⟨_, st, j, rfl, hst, hg.born, hg.le_top, ?_, hg.mark_le, ?_, hg.saved⟩)
      · exact fun hd => hg.not_dropped (hd.mono (by omega) le_rfl)
      · have hdocs := hg.docs
        rw [Nat.max_eq_left (by omega)] at hdocs ⊢
        refine hdocs.edit he ?_
        by_contra hnot
        rw [not_or] at hnot
        obtain ⟨w, rfl⟩ := Option.ne_none_iff_exists'.mp hnot.2
        have hne : j ≠ r + 1 := by
          intro hj
          have hcreate := hg.born.2.1
          rw [hj, he] at hcreate
          contradiction
        have hmin : min j r = r := by omega
        have hnd : ¬ log.DropIn r top := hmin ▸ hg.not_dropped
        have habsent : log.stateAt r = none :=
          Log.stateAt_none_of_later (by omega : r ≤ j - 1)
            (fun hd => hnd (hd.mono le_rfl (by have := hg.le_top; omega))) hg.born.2.2
        have hd := hstale r k w he habsent j _ _ (by omega) hg.born.2.1
        exact hnd (hd.mono (by omega) hg.le_top)
  · have hu : g.uuid ≠ u := hne { g with docs := Function.update g.docs k v } rfl
    exact h.hidden j u x hb (by omega) h2 hd fun g' hg' => by
      rw [hl, Option.some.injEq] at hg'
      exact hg' ▸ hu

/-- **Replaying one position** keeps the invariant. -/
theorem Inv.apply (hstale : log.NoStale) (h : Inv log r top s) (hlt : r < top) :
    Inv log (r + 1) top (s.apply (r + 1) (log (r + 1))) := by
  cases he : log (r + 1) with
  | skip =>
    refine h.stay hlt (by simp [he]) (fun _ hs => ?_) fun _ _ _ _ =>
      .inl fun k v => by simp [he]
    rw [Log.stateAt, he, hs]
    rfl
  | create u x =>
    cases hl : s.live with
    | none => exact h.create hlt he hl
    | some g =>
      rw [Slot.apply, hl]
      exact h.stay hlt (by simp [he]) (fun hl' => by simp [hl] at hl')
        fun _ _ _ _ => .inl fun k v => by simp [he]
  | drop => exact h.drop hlt he
  | edit k v =>
    cases hl : s.live with
    | none =>
      rw [Slot.apply, hl]
      refine h.stay hlt (by simp [he]) (fun _ hs => ?_) fun g _ hg => by
        rw [hl] at hg
        contradiction
      rw [Log.stateAt, he, hs]
      rfl
    | some g =>
      rw [Slot.apply, hl]
      by_cases hm : r + 1 ≤ s.mark
      · simp only [hm, if_true]
        refine h.stay hlt (by simp [he]) (fun hl' => by simp [hl] at hl')
          fun g' st hg' hst => .inr ?_
        rw [hl, Option.some.injEq] at hg'
        subst hg'
        rw [Slot.mark, hl] at hm
        simpa [hst] using hm
      · simp only [hm, if_false]
        exact h.edit hstale hlt he hl (by omega)

/-! ## the log grows -/

omit [DecidableEq U] in
/-- The log is applied one position further than ever before. -/
theorem Inv.extend (h : Inv log r top s)
    (hnew : ∀ u x, log.Born (top + 1) u x → HiddenOk log (top + 1) (top + 1) (s.stores u)) :
    Inv log r (top + 1) s where
  le := Nat.le_succ_of_le h.le
  phase := by
    rcases h.phase with hd | hn | ⟨g, st, j, hl, hst, hg⟩
    · exact .inl (hd.mono le_rfl (Nat.le_succ top))
    · exact .inr (.inl hn)
    · by_cases hd : log.DropIn r (top + 1)
      · exact .inl hd
      · have hmark := hg.mark_le
        have hj := hg.le_top
        refine .inr (.inr ⟨g, st, j, hl, hst, hg.born, by omega, fun hd' => ?_, by omega,
          hg.docs.mono (Nat.le_succ top), hg.saved.mono (Nat.le_succ top)⟩)
        rcases hd'.split top with h1 | h1
        · exact hg.not_dropped h1
        · exact hd (h1.mono h.le le_rfl)
  hidden j u x hb h1 h2 hd hne := by
    rcases Nat.lt_or_ge top j with hj | hj
    · obtain rfl : j = top + 1 := by omega
      exact hnew u x hb
    · exact (h.hidden j u x hb h1 hj (fun hd' => hd (hd'.mono le_rfl (Nat.le_succ top))) hne).mono
        (Nat.le_succ top)

omit [DecidableEq U] in
/-- The position moves over positions that hold nothing. -/
theorem Inv.move_skip {r' : Nat} (h : Inv log r top s) (hle : r ≤ r') (htop : r' ≤ top)
    (hskip : ∀ i, r < i → i ≤ r' → log i = .skip) : Inv log r' top s := by
  induction r' with
  | zero =>
    obtain rfl : r = 0 := by omega
    exact h
  | succ n ih =>
    rcases Nat.lt_or_ge n r with hlt | hge
    · obtain rfl : r = n + 1 := by omega
      exact h
    · have he : log (n + 1) = .skip := hskip (n + 1) (by omega) le_rfl
      refine (ih hge (by omega) fun i h1 h2 => hskip i h1 (by omega)).stay htop (by simp [he])
        (fun _ hs => ?_) fun _ _ _ _ => .inl fun k v => by simp [he]
      rw [Log.stateAt, he, hs]
      rfl

/-! ## saving and reopening -/

/-- **Saving under a mark not above the position** keeps the invariant. -/
theorem Inv.commit (h : Inv log r top s) (hc : c ≤ r) : Inv log r top (s.commit c) := by
  cases hl : s.live with
  | none =>
    rw [Slot.commit, hl]
    exact h
  | some g =>
    have hcommit : s.commit c = ⟨some g, Function.update s.stores g.uuid (some ⟨c, g.docs⟩)⟩ := by
      simp only [Slot.commit, hl]
    rw [hcommit]
    refine ⟨h.le, ?_, fun j u x hb h1 h2 hd hne => ?_⟩
    · rcases h.phase with hd | ⟨hl', _⟩ | ⟨g', st, j, hl', hst, hg⟩
      · exact .inl hd
      · rw [hl] at hl'
        contradiction
      · obtain rfl : g = g' := by rw [hl] at hl'; injection hl'
        have hle := h.le
        have hmax : max r st.mark ≤ top := by have := hg.mark_le; omega
        refine .inr (.inr ⟨g, ⟨c, g.docs⟩, j, rfl, Function.update_self .., hg.born, hg.le_top,
          hg.not_dropped, by show c ≤ top; omega, ?_, ?_⟩)
        · exact hg.docs.back (by show max r c ≤ max r st.mark; omega) hmax
        · exact hg.docs.back (by show c ≤ max r st.mark; omega) hmax
    · have hu : g.uuid ≠ u := hne g rfl
      show HiddenOk log j top (Function.update s.stores g.uuid _ u)
      rw [Function.update_of_ne hu.symm]
      exact h.hidden j u x hb h1 h2 hd fun g' hg' => hne g' (hl ▸ hg')

omit [DecidableEq K] in
/-- Only the store of the generation in memory is left after reopening. -/
theorem Slot.reopen_stores (hne : ∀ g, s.reopen.live = some g → g.uuid ≠ u) :
    s.reopen.stores u = none := by
  revert hne
  rw [Slot.reopen]
  cases s.live with
  | none => exact fun _ => rfl
  | some g =>
    cases hst : s.stores g.uuid with
    | none =>
      intro _
      simp only [hst]
    | some st =>
      simp only [hst]
      exact fun hne => Function.update_of_ne (hne _ rfl).symm _ _

/-- **Reopening and going back** to a position not above what is saved keeps
the invariant. -/
theorem Inv.reopen {r' : Nat} (h : Inv log r top s) (hr : r' ≤ r)
    (hmark : s.live.isSome → r' ≤ s.mark) : Inv log r' top s.reopen := by
  have hhidden : ∀ j u x, log.Born j u x → r' < j → j ≤ top → ¬ log.DropIn j top →
      (∀ g, s.reopen.live = some g → g.uuid ≠ u) → HiddenOk log j top (s.reopen.stores u) := by
    intro j u x _ _ _ _ hne
    rw [Slot.reopen_stores hne]
    trivial
  refine ⟨hr.trans h.le, ?_, hhidden⟩
  by_cases hd : log.DropIn r' top
  · exact .inl hd
  · rcases h.phase with hd' | ⟨hl, hs⟩ | ⟨g, st, j, hl, hst, hg⟩
    · exact absurd (hd'.mono hr le_rfl) hd
    · have hopen : s.reopen = ⟨none, fun _ => none⟩ := by rw [Slot.reopen, hl]
      have hs' := Log.stateAt_none_of_later hr (fun h' => hd (h'.mono le_rfl h.le)) hs
      rw [hopen]
      exact .inr (.inl ⟨rfl, hs'⟩)
    · have hopen : s.reopen = ⟨some { g with docs := st.docs },
          Function.update (fun _ => none) g.uuid (some st)⟩ := by
        simp only [Slot.reopen, hl, hst]
      have hle : r' ≤ st.mark := by
        have := hmark (by rw [hl]; rfl)
        rw [Slot.mark, hl] at this
        simpa [hst] using this
      have hself : Function.update (fun _ => none) g.uuid (some st) g.uuid = some st :=
        Function.update_self ..
      rw [hopen]
      refine .inr (.inr ⟨_, st, j, rfl, hself, hg.born, hg.le_top, fun hd' => ?_, hg.mark_le, ?_,
        hg.saved⟩)
      · rcases Nat.lt_or_ge r' j with hj | hj
        · exact hd (hd'.mono (by omega) le_rfl)
        · exact hg.not_dropped (hd'.mono (by omega) le_rfl)
      · rw [Nat.max_eq_right hle]
        exact hg.saved

end

end Lib.Replay
