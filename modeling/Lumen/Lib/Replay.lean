import Mathlib.Logic.Function.Basic
import Mathlib.Order.Nat

/-!
# Lib.Replay

The log of a slot that holds at most one generation: a `create` fills it, a
`drop` empties it and an `edit` changes one document of what is in it.

`stateAt` is what the log says; `Born`, `DropIn`, `Touched` and `docsFrom`
take the state apart: a generation is born at one position, not dropped since,
and its documents are what the edits since have written.
-/

namespace Lib.Replay

variable {U I K V : Type}

/-- One position of a slot's log. -/
inductive Event (U I K V : Type) where
  | skip
  | create (u : U) (x : I)
  | drop
  | edit (k : K) (v : Option V)

/-- What a slot holds: an identity, what it was created with, and documents. -/
@[ext] structure Gen (U I K V : Type) where
  uuid : U
  info : I
  docs : K → Option V

section
variable [DecidableEq K]

/-- What an event does to the state. -/
def Event.step : Event U I K V → Option (Gen U I K V) → Option (Gen U I K V)
  | .skip, s => s
  | .create u x, none => some ⟨u, x, fun _ => none⟩
  | .create _ _, some g => some g
  | .drop, _ => none
  | .edit _ _, none => none
  | .edit k v, some g => some { g with docs := Function.update g.docs k v }

/-- What is there after an event was there before, or is created by it. -/
theorem Event.step_eq_some {ev : Event U I K V} {s : Option (Gen U I K V)} {g : Gen U I K V}
    (h : ev.step s = some g) :
    (∃ g', s = some g' ∧ g.uuid = g'.uuid ∧ g.info = g'.info ∧ ev ≠ .drop) ∨
      s = none ∧ ev = .create g.uuid g.info ∧ g.docs = fun _ => none := by
  cases ev with
  | skip => exact .inl ⟨g, h, rfl, rfl, by simp⟩
  | create u x =>
    cases s with
    | none =>
      injection h with h
      exact .inr ⟨rfl, by rw [← h], by rw [← h]⟩
    | some g' =>
      injection h with h
      exact .inl ⟨g', rfl, by rw [h], by rw [h], by simp⟩
  | drop => contradiction
  | edit k v =>
    cases s with
    | none => contradiction
    | some g' =>
      injection h with h
      exact .inl ⟨g', rfl, by rw [← h], by rw [← h], by simp⟩

/-- An event other than a drop leaves the generation there. -/
theorem Event.step_some {ev : Event U I K V} (g : Gen U I K V) (hne : ev ≠ .drop) :
    ∃ g', ev.step (some g) = some g' ∧ g'.uuid = g.uuid ∧ g'.info = g.info := by
  cases ev with
  | skip => exact ⟨g, rfl, rfl, rfl⟩
  | create u x => exact ⟨g, rfl, rfl, rfl⟩
  | drop => contradiction
  | edit k v => exact ⟨_, rfl, rfl, rfl⟩

/-- What tells generations apart, whatever their documents. -/
def Gen.identity (g : Gen U I K V) : U × I := (g.uuid, g.info)

/-- An event does the same to states that differ in documents only. -/
theorem Event.step_identity_congr (ev : Event U I K V) {s s' : Option (Gen U I K V)}
    (h : s.map Gen.identity = s'.map Gen.identity) :
    (ev.step s).map Gen.identity = (ev.step s').map Gen.identity := by
  cases s <;> cases s' <;> cases ev <;> simp_all [Event.step, Gen.identity]

/-- An event that creates and drops nothing changes documents only. -/
theorem Event.step_identity {ev : Event U I K V} (hcreate : ∀ u x, ev ≠ .create u x)
    (hdrop : ev ≠ .drop) (s : Option (Gen U I K V)) :
    (ev.step s).map Gen.identity = s.map Gen.identity := by
  cases ev with
  | skip => rfl
  | create u x => exact absurd rfl (hcreate u x)
  | drop => contradiction
  | edit k v =>
    cases s with
    | none => rfl
    | some g => rfl

end

/-- The events of a slot, by position; the first position is 1. -/
abbrev Log (U I K V : Type) := Nat → Event U I K V

namespace Log

/-- A drop in `(lo, hi]`. -/
def DropIn (log : Log U I K V) (lo hi : Nat) : Prop :=
  ∃ i, lo < i ∧ i ≤ hi ∧ log i = .drop

/-- An edit of document `k` in `(lo, hi]`. -/
def Touched (log : Log U I K V) (k : K) (lo hi : Nat) : Prop :=
  ∃ i v, lo < i ∧ i ≤ hi ∧ log i = .edit k v

/-- No two creates bring the same identity. -/
def Distinct (log : Log U I K V) : Prop :=
  ∀ i j u x y, log i = .create u x → log j = .create u y → i = j

variable {log : Log U I K V} {lo hi lo' hi' : Nat} {k : K}

theorem DropIn.mono (h : log.DropIn lo hi) (hlo : lo' ≤ lo) (hhi : hi ≤ hi') :
    log.DropIn lo' hi' := by
  obtain ⟨i, h1, h2, h3⟩ := h
  exact ⟨i, by omega, by omega, h3⟩

theorem DropIn.succ_left (h : log.DropIn lo hi) (hne : log (lo + 1) ≠ .drop) :
    log.DropIn (lo + 1) hi := by
  obtain ⟨i, h1, h2, h3⟩ := h
  have hi : i ≠ lo + 1 := fun he => hne (he ▸ h3)
  exact ⟨i, by omega, h2, h3⟩

theorem DropIn.split (h : log.DropIn lo hi) (mid : Nat) :
    log.DropIn lo mid ∨ log.DropIn mid hi := by
  obtain ⟨i, h1, h2, h3⟩ := h
  by_cases hm : i ≤ mid
  · exact .inl ⟨i, h1, hm, h3⟩
  · exact .inr ⟨i, by omega, h2, h3⟩

theorem not_dropIn_self : ¬ log.DropIn lo lo := by
  rintro ⟨i, h1, h2, _⟩
  omega

theorem not_dropIn_succ (hd : ¬ log.DropIn lo hi) (hne : log (hi + 1) ≠ .drop) :
    ¬ log.DropIn lo (hi + 1) := by
  rintro ⟨i, h1, h2, h3⟩
  have hi' : i ≠ hi + 1 := fun he => hne (he ▸ h3)
  exact hd ⟨i, h1, by omega, h3⟩

theorem Touched.mono (h : log.Touched k lo hi) (hlo : lo' ≤ lo) (hhi : hi ≤ hi') :
    log.Touched k lo' hi' := by
  obtain ⟨i, v, h1, h2, h3⟩ := h
  exact ⟨i, v, by omega, by omega, h3⟩

theorem Touched.succ_left (h : log.Touched k lo hi) (hne : ∀ v, log (lo + 1) ≠ .edit k v) :
    log.Touched k (lo + 1) hi := by
  obtain ⟨i, v, h1, h2, h3⟩ := h
  have hi : i ≠ lo + 1 := fun he => hne v (he ▸ h3)
  exact ⟨i, v, by omega, h2, h3⟩

theorem not_touched_self : ¬ log.Touched k lo lo := by
  rintro ⟨i, v, h1, h2, _⟩
  omega

theorem Touched.congr {log' : Log U I K V} (h : ∀ i ≤ hi, log i = log' i) :
    log.Touched k lo hi ↔ log'.Touched k lo hi := by
  constructor
  · rintro ⟨i, v, h1, h2, h3⟩
    exact ⟨i, v, h1, h2, (h i h2).symm.trans h3⟩
  · rintro ⟨i, v, h1, h2, h3⟩
    exact ⟨i, v, h1, h2, (h i h2).trans h3⟩

section
variable [DecidableEq K]

/-- The state after the positions up to `r`. -/
def stateAt (log : Log U I K V) : Nat → Option (Gen U I K V)
  | 0 => none
  | r + 1 => (log (r + 1)).step (stateAt log r)

/-- What the edits in `(j, r]` make of an empty generation. -/
def docsFrom (log : Log U I K V) (j : Nat) : Nat → K → Option V
  | 0 => fun _ => none
  | r + 1 =>
    if r + 1 ≤ j then fun _ => none
    else
      match log (r + 1) with
      | .edit k v => Function.update (docsFrom log j r) k v
      | _ => docsFrom log j r

/-- Position `j` fills the empty slot. -/
def Born (log : Log U I K V) (j : Nat) (u : U) (x : I) : Prop :=
  0 < j ∧ log j = .create u x ∧ log.stateAt (j - 1) = none

/-- A document edit that found the slot empty is forgotten before the slot is
filled again. -/
def NoStale (log : Log U I K V) : Prop :=
  ∀ i k v, log (i + 1) = .edit k (some v) → log.stateAt i = none →
    ∀ j u x, i + 1 < j → log j = .create u x → log.DropIn (i + 1) j

variable {log : Log U I K V} {j r : Nat} {u : U} {x : I}

theorem docsFrom_of_le (h : r ≤ j) : log.docsFrom j r = fun _ => none := by
  cases r with
  | zero => rfl
  | succ r => rw [docsFrom, if_pos h]

theorem docsFrom_edit {v : Option V} (h : j ≤ r) (he : log (r + 1) = .edit k v) :
    log.docsFrom j (r + 1) = Function.update (log.docsFrom j r) k v := by
  rw [docsFrom, if_neg (by omega), he]

theorem docsFrom_succ (he : ∀ v, log (r + 1) ≠ .edit k v) :
    log.docsFrom j (r + 1) k = log.docsFrom j r k := by
  rw [docsFrom]
  split
  · rw [docsFrom_of_le (by omega)]
  · cases hk : log (r + 1) with
    | edit k' v =>
      have hne : k ≠ k' := fun h => he v (h ▸ hk)
      show Function.update (log.docsFrom j r) k' v k = log.docsFrom j r k
      rw [Function.update_of_ne hne]
    | _ => rfl

/-- Documents no edit in `(lo, hi]` writes are the same at both ends. -/
theorem docsFrom_eq_of_not_touched (hle : lo ≤ hi) (h : ¬ log.Touched k lo hi) :
    log.docsFrom j hi k = log.docsFrom j lo k := by
  induction hi with
  | zero => rw [Nat.le_zero.mp hle]
  | succ hi ih =>
    rcases Nat.lt_or_ge hi lo with hlt | hge
    · rw [show lo = hi + 1 by omega]
    · rw [docsFrom_succ fun v hv => h ⟨hi + 1, v, by omega, le_rfl, hv⟩]
      exact ih hge fun ht => h (ht.mono le_rfl (Nat.le_succ hi))

/-- A filled slot without a drop stays filled, by the same generation. -/
theorem stateAt_isSome (hle : lo ≤ hi) (hd : ¬ log.DropIn lo hi)
    (h : (log.stateAt lo).isSome) : (log.stateAt hi).isSome := by
  induction hi with
  | zero => rwa [← Nat.le_zero.mp hle]
  | succ hi ih =>
    rcases Nat.lt_or_ge hi lo with hlt | hge
    · rwa [show hi + 1 = lo by omega]
    · have hprev := ih hge fun h' => hd (h'.mono le_rfl (Nat.le_succ hi))
      obtain ⟨g, hg⟩ := Option.isSome_iff_exists.mp hprev
      rw [stateAt, hg]
      cases he : log (hi + 1) with
      | drop => exact absurd ⟨hi + 1, by omega, le_rfl, he⟩ hd
      | skip => rfl
      | create u x => rfl
      | edit k v => rfl

theorem stateAt_none_of_later (hle : lo ≤ hi) (hd : ¬ log.DropIn lo hi)
    (h : log.stateAt hi = none) : log.stateAt lo = none := by
  by_contra hsome
  have := stateAt_isSome hle hd (Option.isSome_iff_ne_none.mpr hsome)
  rw [h] at this
  contradiction

/-- The state while a generation lives. -/
theorem Born.stateAt_eq (hb : log.Born j u x) (hle : j ≤ r) (hd : ¬ log.DropIn j r) :
    log.stateAt r = some ⟨u, x, log.docsFrom j r⟩ := by
  induction r with
  | zero => exact absurd hb.1 (by omega)
  | succ r ih =>
    rcases Nat.lt_or_ge r j with hlt | hge
    · obtain rfl : j = r + 1 := by omega
      have hnone : log.stateAt r = none := hb.2.2
      rw [stateAt, hb.2.1, hnone, Event.step, docsFrom_of_le le_rfl]
    · have hprev := ih hge fun h' => hd (h'.mono le_rfl (Nat.le_succ r))
      rw [stateAt, hprev]
      cases he : log (r + 1) with
      | drop => exact absurd ⟨r + 1, by omega, le_rfl, he⟩ hd
      | skip =>
        have hdocs : log.docsFrom j (r + 1) = log.docsFrom j r :=
          funext fun k => docsFrom_succ fun v hv => by rw [he] at hv; contradiction
        rw [hdocs]
        rfl
      | create u' x' =>
        have hdocs : log.docsFrom j (r + 1) = log.docsFrom j r :=
          funext fun k => docsFrom_succ fun v hv => by rw [he] at hv; contradiction
        rw [hdocs]
        rfl
      | edit k v =>
        rw [docsFrom_edit hge he]
        rfl

/-- The state and the births depend on the log up to the position only. -/
theorem stateAt_congr {log' : Log U I K V} (h : ∀ i ≤ r, log i = log' i) :
    log.stateAt r = log'.stateAt r := by
  induction r with
  | zero => rfl
  | succ r ih => rw [stateAt, stateAt, h (r + 1) le_rfl, ih fun i hi => h i (by omega)]

theorem docsFrom_congr {log' : Log U I K V} (h : ∀ i ≤ r, log i = log' i) :
    log.docsFrom j r = log'.docsFrom j r := by
  induction r with
  | zero => rfl
  | succ r ih => rw [docsFrom, docsFrom, h (r + 1) le_rfl, ih fun i hi => h i (by omega)]

theorem Born.congr {log' : Log U I K V} (h : ∀ i ≤ j, log i = log' i) :
    log.Born j u x ↔ log'.Born j u x := by
  rw [Born, Born, h j le_rfl, stateAt_congr fun i hi => h i (by omega)]

/-- Positions that hold nothing do not change the state. -/
theorem stateAt_skip (hle : lo ≤ hi) (h : ∀ i, lo < i → i ≤ hi → log i = .skip) :
    log.stateAt hi = log.stateAt lo := by
  induction hi with
  | zero => rw [Nat.le_zero.mp hle]
  | succ hi ih =>
    rcases Nat.lt_or_ge hi lo with hlt | hge
    · rw [show lo = hi + 1 by omega]
    · rw [stateAt, h (hi + 1) (by omega) le_rfl, Event.step]
      exact ih hge fun i h1 h2 => h i h1 (by omega)

/-- What a filled slot holds was born at some position and not dropped
since. -/
theorem exists_born {g : Gen U I K V} (h : log.stateAt r = some g) :
    ∃ j, log.Born j g.uuid g.info ∧ j ≤ r ∧ ¬ log.DropIn j r := by
  induction r generalizing g with
  | zero => contradiction
  | succ r ih =>
    -- the generation was there before, up to its documents, or is born here
    have hkeep : ∀ g', log.stateAt r = some g' → g'.uuid = g.uuid → g'.info = g.info →
        log (r + 1) ≠ .drop → ∃ j, log.Born j g.uuid g.info ∧ j ≤ r + 1 ∧
          ¬ log.DropIn j (r + 1) := by
      intro g' hg' hu hx hne
      obtain ⟨j, hb, hle, hd⟩ := ih hg'
      rw [hu, hx] at hb
      exact ⟨j, hb, by omega, not_dropIn_succ hd hne⟩
    rw [stateAt] at h
    cases he : log (r + 1) with
    | skip =>
      rw [he] at h
      exact hkeep g h rfl rfl (by simp [he])
    | drop => rw [he] at h; contradiction
    | create u x =>
      rw [he] at h
      cases hs : log.stateAt r with
      | none =>
        rw [hs] at h
        injection h with h
        subst h
        exact ⟨r + 1, ⟨by omega, he, hs⟩, le_rfl, not_dropIn_self⟩
      | some g' =>
        rw [hs] at h
        injection h with h
        exact hkeep g' hs (by rw [h]) (by rw [h]) (by simp [he])
    | edit k v =>
      rw [he] at h
      cases hs : log.stateAt r with
      | none => rw [hs] at h; contradiction
      | some g' =>
        rw [hs] at h
        injection h with h
        exact hkeep g' hs (by rw [← h]) (by rw [← h]) (by simp [he])

end

end Log

end Lib.Replay
