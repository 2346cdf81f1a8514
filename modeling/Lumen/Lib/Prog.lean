/-!
# Lib.Prog

Programs that keep volatile memory `μ` over durable state `δ` and may stop
between any two durable steps.

A `Prog` is the tree of its atomic actions: reading, changing memory, one
durable step, returning or throwing.  The same tree gives

* `run` — the uninterrupted execution;
* `crashes` — every durable state the execution passes through, which is
  what a process that dies on the way leaves behind;
* `wp` — the weakest precondition for a postcondition, an error condition
  and a condition on every crash state.  `wp_bind` composes it, and
  `wp_iff` connects it to `run` and `crashes`.
-/

namespace Lib

/-- A program over durable state `δ` and memory `μ` that throws `ε` or
returns `α`. -/
inductive Prog (δ μ ε α : Type) : Type where
  | ret (a : α)
  | throw (e : ε)
  | look (k : δ → μ → Prog δ μ ε α)
  | mem (f : μ → μ) (k : Prog δ μ ε α)
  | disk (f : δ → δ) (k : Prog δ μ ε α)

namespace Prog

variable {δ μ ε α β : Type}

def bind : Prog δ μ ε α → (α → Prog δ μ ε β) → Prog δ μ ε β
  | .ret a, f => f a
  | .throw e, _ => .throw e
  | .look k, f => .look fun d m => (k d m).bind f
  | .mem g k, f => .mem g (k.bind f)
  | .disk g k, f => .disk g (k.bind f)

instance : Monad (Prog δ μ ε) where
  pure := .ret
  bind := Prog.bind

theorem bind_bind {γ : Type} (p : Prog δ μ ε α) (f : α → Prog δ μ ε β) (g : β → Prog δ μ ε γ) :
    (p.bind f).bind g = p.bind fun a => (f a).bind g := by
  induction p with
  | ret a => rfl
  | throw e => rfl
  | look k ih => exact congrArg look (funext fun d => funext fun m => ih d m)
  | mem h k ih => exact congrArg (mem h) ih
  | disk h k ih => exact congrArg (disk h) ih

theorem bind_ret (p : Prog δ μ ε α) : p.bind .ret = p := by
  induction p with
  | ret a => rfl
  | throw e => rfl
  | look k ih => exact congrArg look (funext fun d => funext fun m => ih d m)
  | mem h k ih => exact congrArg (mem h) ih
  | disk h k ih => exact congrArg (disk h) ih

instance : LawfulMonad (Prog δ μ ε) :=
  LawfulMonad.mk' (Prog δ μ ε) bind_ret (fun _ _ => rfl) bind_bind

/-! ## primitive actions -/

/-- The durable state. -/
def getDisk : Prog δ μ ε δ := .look fun d _ => .ret d

/-- The memory. -/
def getMem : Prog δ μ ε μ := .look fun _ m => .ret m

/-- Change the memory; a crash loses it. -/
def modifyMem (f : μ → μ) : Prog δ μ ε Unit := .mem f (.ret ())

/-- One atomic durable step. -/
def step (f : δ → δ) : Prog δ μ ε Unit := .disk f (.ret ())

/-- Lift a fallible value. -/
def ofExcept : Except ε α → Prog δ μ ε α
  | .ok a => .ret a
  | .error e => .throw e

/-- Run `f` on each element in order. -/
def forEach (l : List β) (f : β → Prog δ μ ε Unit) : Prog δ μ ε Unit :=
  match l with
  | [] => .ret ()
  | b :: l => (f b).bind fun _ => forEach l f

/-! ## execution -/

/-- The uninterrupted execution: its result, the disk and the memory after. -/
def run : Prog δ μ ε α → δ → μ → Except ε α × δ × μ
  | .ret a, d, m => (.ok a, d, m)
  | .throw e, d, m => (.error e, d, m)
  | .look k, d, m => (k d m).run d m
  | .mem f k, d, m => k.run d (f m)
  | .disk f k, d, m => k.run (f d) m

/-- The durable states the execution passes through, one for each durable
step, in order. -/
def crashes : Prog δ μ ε α → δ → μ → List δ
  | .ret _, _, _ => []
  | .throw _, _, _ => []
  | .look k, d, m => (k d m).crashes d m
  | .mem f k, d, m => k.crashes d (f m)
  | .disk f k, d, m => f d :: k.crashes (f d) m

/-- Weakest precondition: `Q` of a returned value, `E` of a thrown error,
and `C` of every durable state on the way. -/
def wp : Prog δ μ ε α → (α → δ → μ → Prop) → (ε → δ → μ → Prop) → (δ → Prop) → δ → μ → Prop
  | .ret a, Q, _, _, d, m => Q a d m
  | .throw e, _, E, _, d, m => E e d m
  | .look k, Q, E, C, d, m => (k d m).wp Q E C d m
  | .mem f k, Q, E, C, d, m => k.wp Q E C d (f m)
  | .disk f k, Q, E, C, d, m => C (f d) ∧ k.wp Q E C (f d) m

variable {Q Q' : α → δ → μ → Prop} {E E' : ε → δ → μ → Prop} {C C' : δ → Prop}
  {d : δ} {m : μ}

/-! ## rules -/

@[simp] theorem wp_pure (a : α) : wp (pure a) Q E C d m = Q a d m := rfl

@[simp] theorem wp_ret (a : α) : wp (.ret a) Q E C d m = Q a d m := rfl

@[simp] theorem wp_throw (e : ε) : wp (.throw e) Q E C d m = E e d m := rfl

@[simp] theorem wp_getDisk {Q : δ → δ → μ → Prop} : wp getDisk Q E C d m = Q d d m := rfl

@[simp] theorem wp_getMem {Q : μ → δ → μ → Prop} : wp getMem Q E C d m = Q m d m := rfl

@[simp] theorem wp_modifyMem {Q : Unit → δ → μ → Prop} (f : μ → μ) :
    wp (modifyMem f) Q E C d m = Q () d (f m) := rfl

@[simp] theorem wp_step {Q : Unit → δ → μ → Prop} (f : δ → δ) :
    wp (step f) Q E C d m = (C (f d) ∧ Q () (f d) m) := rfl

@[simp] theorem wp_ofExcept_ok (a : α) : wp (ofExcept (.ok a)) Q E C d m = Q a d m := rfl

@[simp] theorem wp_ofExcept_error (e : ε) :
    wp (ofExcept (.error e)) Q E C d m = E e d m := rfl

/-- Sequencing: the first program must establish the precondition of the
second; errors and crash states go straight through. -/
theorem wp_bind' (p : Prog δ μ ε α) (f : α → Prog δ μ ε β) {Q : β → δ → μ → Prop} :
    wp (p.bind f) Q E C d m ↔ wp p (fun a d m => wp (f a) Q E C d m) E C d m := by
  induction p generalizing d m with
  | ret a => rfl
  | throw e => rfl
  | look k ih => exact ih d m
  | mem g k ih => exact ih
  | disk g k ih => exact and_congr_right fun _ => ih

@[simp] theorem wp_bind (p : Prog δ μ ε α) (f : α → Prog δ μ ε β) {Q : β → δ → μ → Prop} :
    wp (p >>= f) Q E C d m ↔ wp p (fun a d m => wp (f a) Q E C d m) E C d m :=
  wp_bind' p f

/-- Consequence. -/
theorem wp_mono (p : Prog δ μ ε α) (h : wp p Q E C d m)
    (hQ : ∀ a d m, Q a d m → Q' a d m) (hE : ∀ e d m, E e d m → E' e d m)
    (hC : ∀ d, C d → C' d) : wp p Q' E' C' d m := by
  induction p generalizing d m with
  | ret a => exact hQ a d m h
  | throw e => exact hE e d m h
  | look k ih => exact ih d m h
  | mem g k ih => exact ih h
  | disk g k ih => exact ⟨hC _ h.1, ih h.2⟩

/-- Weaken what is known of the result alone. -/
theorem wp_imp {p : Prog δ μ ε α} (h : wp p Q E C d m) (hQ : ∀ a d m, Q a d m → Q' a d m) :
    wp p Q' E C d m :=
  wp_mono p h hQ (fun _ _ _ he => he) fun _ hc => hc

/-- Conjunction: two specifications of one program hold together. -/
theorem wp_and (p : Prog δ μ ε α) (h : wp p Q E C d m) (h' : wp p Q' E' C' d m) :
    wp p (fun a d m => Q a d m ∧ Q' a d m) (fun e d m => E e d m ∧ E' e d m)
      (fun d => C d ∧ C' d) d m := by
  induction p generalizing d m with
  | ret a => exact ⟨h, h'⟩
  | throw e => exact ⟨h, h'⟩
  | look k ih => exact ih d m h h'
  | mem g k ih => exact ih h h'
  | disk g k ih => exact ⟨⟨h.1, h'.1⟩, ih h.2 h'.2⟩

/-- Loop rule: an invariant of the elements still to come, kept by each
round, holds after the loop. -/
theorem wp_forEach {f : β → Prog δ μ ε Unit} (I : List β → δ → μ → Prop)
    (hstep : ∀ b l d m, I (b :: l) d m → wp (f b) (fun _ => I l) E C d m)
    (l : List β) (h : I l d m) : wp (forEach l f) (fun _ => I []) E C d m := by
  induction l generalizing d m with
  | nil => exact h
  | cons b l ih =>
    rw [forEach, wp_bind']
    exact wp_mono _ (hstep b l d m h) (fun _ d m hI => ih hI) (fun _ _ _ he => he)
      (fun _ hc => hc)

/-- Two loops whose rounds do the same where an invariant of the elements still to
come holds. -/
theorem wp_forEach_of_iff {f g : β → Prog δ μ ε Unit} (I : List β → δ → μ → Prop)
    (hstep : ∀ b l d m, I (b :: l) d m →
      wp (g b) (fun _ => I l) (fun _ _ _ => True) (fun _ => True) d m)
    (hiff : ∀ b l d m (Q : Unit → δ → μ → Prop), I (b :: l) d m →
      (wp (g b) Q E C d m ↔ wp (f b) Q E C d m))
    (l : List β) {Q : Unit → δ → μ → Prop} (h : I l d m) (hf : wp (forEach l f) Q E C d m) :
    wp (forEach l g) Q E C d m := by
  induction l generalizing d m with
  | nil => exact hf
  | cons b l ih =>
    rw [forEach, wp_bind'] at hf ⊢
    refine wp_mono _ (wp_and _ (hstep b l d m h) ((hiff b l d m _ h).mpr hf))
      (fun _ d m hpost => ih hpost.1 hpost.2) (fun _ _ _ he => he.2) fun _ hc => hc.2

/-- What `wp` says of the execution: the final state meets the
postcondition or the error condition, and every crash state meets `C`. -/
theorem wp_iff (p : Prog δ μ ε α) :
    wp p Q E C d m ↔
      (∀ x ∈ p.crashes d m, C x) ∧
        match p.run d m with
        | (.ok a, d', m') => Q a d' m'
        | (.error e, d', m') => E e d' m' := by
  induction p generalizing d m with
  | ret a => simp [wp, crashes, run]
  | throw e => simp [wp, crashes, run]
  | look k ih => exact ih d m
  | mem g k ih => exact ih
  | disk g k ih =>
    rw [wp, ih]
    simp only [crashes, run, List.forall_mem_cons]
    exact and_assoc.symm

theorem wp_trivial (p : Prog δ μ ε α) :
    wp p (fun _ _ _ => True) (fun _ _ _ => True) (fun _ => True) d m := by
  rw [wp_iff]
  refine ⟨fun _ _ => trivial, ?_⟩
  split <;> trivial

/-- A program that meets its specification and never throws returns. -/
theorem run_ok_of_wp {p : Prog δ μ ε α} (h : wp p Q (fun _ _ _ => False) C d m) :
    ∃ a d' m', p.run d m = (.ok a, d', m') ∧ Q a d' m' := by
  have h := ((wp_iff p).mp h).2
  cases hr : p.run d m with
  | mk r s =>
    obtain ⟨d', m'⟩ := s
    rw [hr] at h
    cases r with
    | ok a => exact ⟨a, d', m', rfl, h⟩
    | error e => exact h.elim

/-- A program that meets its specification and never returns throws. -/
theorem run_error_of_wp {p : Prog δ μ ε α} (h : wp p (fun _ _ _ => False) E C d m) :
    ∃ e d' m', p.run d m = (.error e, d', m') ∧ E e d' m' := by
  have h := ((wp_iff p).mp h).2
  cases hr : p.run d m with
  | mk r s =>
    obtain ⟨d', m'⟩ := s
    rw [hr] at h
    cases r with
    | ok a => exact h.elim
    | error e => exact ⟨e, d', m', rfl, h⟩

/-- The run of a program that returns in a known state. -/
theorem run_eq_ok_of_wp {p : Prog δ μ ε α} {a : α} {d' : δ} {m' : μ}
    (h : wp p (fun x d m => x = a ∧ d = d' ∧ m = m') (fun _ _ _ => False) C d m) :
    p.run d m = (.ok a, d', m') := by
  obtain ⟨_, _, _, hrun, rfl, rfl, rfl⟩ := run_ok_of_wp h
  exact hrun

/-- The run of a program that throws in a known state. -/
theorem run_eq_error_of_wp {p : Prog δ μ ε α} {e : ε} {d' : δ} {m' : μ}
    (h : wp p (fun _ _ _ => False) (fun x d m => x = e ∧ d = d' ∧ m = m') C d m) :
    p.run d m = (.error e, d', m') := by
  obtain ⟨_, _, _, hrun, rfl, rfl, rfl⟩ := run_error_of_wp h
  exact hrun

/-- The second program runs where the first one returned. -/
theorem run_bind_ok {p : Prog δ μ ε α} {f : α → Prog δ μ ε β} {a : α} {d' : δ} {m' : μ}
    (h : p.run d m = (.ok a, d', m')) : (p >>= f).run d m = (f a).run d' m' := by
  induction p generalizing d m with
  | ret b => cases h; rfl
  | throw e => cases h
  | look k ih => exact ih d m h
  | mem g k ih => exact ih h
  | disk g k ih => exact ih h

/-- An error ends the sequence. -/
theorem run_bind_error {p : Prog δ μ ε α} {f : α → Prog δ μ ε β} {e : ε} {d' : δ} {m' : μ}
    (h : p.run d m = (.error e, d', m')) : (p >>= f).run d m = (.error e, d', m') := by
  induction p generalizing d m with
  | ret b => cases h
  | throw e => cases h; rfl
  | look k ih => exact ih d m h
  | mem g k ih => exact ih h
  | disk g k ih => exact ih h

/-- A sequence stops in its first program, or in the second where the first
one returned. -/
theorem mem_crashes_bind {p : Prog δ μ ε α} {f : α → Prog δ μ ε β} {x : δ} :
    x ∈ (p >>= f).crashes d m ↔ x ∈ p.crashes d m ∨
      ∃ a d' m', p.run d m = (.ok a, d', m') ∧ x ∈ (f a).crashes d' m' := by
  change x ∈ (p.bind f).crashes d m ↔ _
  induction p generalizing d m with
  | ret a =>
    constructor
    · exact fun hx => .inr ⟨a, d, m, rfl, hx⟩
    · rintro (hx | ⟨_, _, _, ⟨⟩, hx⟩)
      · contradiction
      · exact hx
  | throw e => simp [Prog.bind, crashes, run]
  | look k ih => exact ih d m
  | mem g k ih => exact ih
  | disk g k ih => simp only [Prog.bind, crashes, run, List.mem_cons, ih, or_assoc]

theorem crashes_of_wp {p : Prog δ μ ε α} (h : wp p Q E C d m) : ∀ x ∈ p.crashes d m, C x :=
  ((wp_iff p).mp h).1

theorem post_of_wp {p : Prog δ μ ε α} (h : wp p Q E C d m) {a : α} {d' : δ} {m' : μ}
    (hr : p.run d m = (.ok a, d', m')) : Q a d' m' := by
  have h := ((wp_iff p).mp h).2
  rwa [hr] at h

theorem value_of_wp {p : Prog δ μ ε α} (h : wp p Q E C d m) {a : α}
    (hr : (p.run d m).1 = .ok a) : ∃ d' m', Q a d' m' :=
  ⟨(p.run d m).2.1, (p.run d m).2.2, post_of_wp h (Prod.ext hr rfl)⟩

/-- What the precondition says of the result, whether it is a value or an error. -/
theorem result_of_wp {p : Prog δ μ ε α} {R : Except ε α → δ → μ → Prop}
    (h : wp p (fun a => R (.ok a)) (fun e => R (.error e)) C d m) :
    R (p.run d m).1 (p.run d m).2.1 (p.run d m).2.2 := by
  have hrun := ((wp_iff p).mp h).2
  split at hrun <;> simp_all

/-- A precondition from a known run. -/
theorem wp_of_run_ok {p : Prog δ μ ε α} {a : α} {d' : δ} {m' : μ}
    (h : p.run d m = (.ok a, d', m')) (hQ : Q a d' m') : wp p Q E (fun _ => True) d m := by
  refine (wp_iff p).mpr ⟨fun _ _ => trivial, ?_⟩
  rw [h]
  exact hQ

theorem wp_of_run_error {p : Prog δ μ ε α} {e : ε} {d' : δ} {m' : μ}
    (h : p.run d m = (.error e, d', m')) (hE : E e d' m') : wp p Q E (fun _ => True) d m := by
  refine (wp_iff p).mpr ⟨fun _ _ => trivial, ?_⟩
  rw [h]
  exact hE

theorem error_of_wp {p : Prog δ μ ε α} (h : wp p Q E C d m) {e : ε} {d' : δ} {m' : μ}
    (hr : p.run d m = (.error e, d', m')) : E e d' m' := by
  have h := ((wp_iff p).mp h).2
  rwa [hr] at h

/-- What a program keeps whether it returns or throws. -/
theorem final_of_wp {p : Prog δ μ ε α} {I : δ → μ → Prop}
    (h : wp p (fun _ => I) (fun _ => I) C d m) {r : Except ε α} {d' : δ} {m' : μ}
    (hr : p.run d m = (r, d', m')) : I d' m' := by
  cases r with
  | ok a => exact post_of_wp h hr
  | error e => exact error_of_wp h hr

/-- The state a program leaves. -/
def after (p : Prog δ μ ε α) (x : δ × μ) : δ × μ := (p.run x.1 x.2).2

theorem run_eq_after {p : Prog δ μ ε α} {x : δ × μ} {r : Except ε α}
    (h : (p.run x.1 x.2).1 = r) : p.run x.1 x.2 = (r, (p.after x).1, (p.after x).2) :=
  Prod.ext h rfl

/-! ## programs over a part of the state -/

/-- A part `σ` of a larger state `S`. -/
structure Focus (S σ : Type) where
  get : S → σ
  set : σ → S → S
  get_set : ∀ x s, get (set x s) = x
  set_set : ∀ x y s, set x (set y s) = set x s
  set_get : ∀ s, set (get s) s = s

variable {Δ M : Type}

/-- Run a program about a part of the disk and a part of the memory. -/
def zoom (pd : Focus Δ δ) (pm : Focus M μ) : Prog δ μ ε α → Prog Δ M ε α
  | .ret a => .ret a
  | .throw e => .throw e
  | .look k => .look fun D N => (k (pd.get D) (pm.get N)).zoom pd pm
  | .mem f k => .mem (fun N => pm.set (f (pm.get N)) N) (k.zoom pd pm)
  | .disk f k => .disk (fun D => pd.set (f (pd.get D)) D) (k.zoom pd pm)

/-- A zoomed program meets the specification of the original one, read on
the part; everything else is untouched. -/
theorem wp_zoom (pd : Focus Δ δ) (pm : Focus M μ) (p : Prog δ μ ε α)
    {Q : α → Δ → M → Prop} {E : ε → Δ → M → Prop} {C : Δ → Prop} {D : Δ} {N : M} :
    wp (p.zoom pd pm) Q E C D N ↔
      wp p (fun a d m => Q a (pd.set d D) (pm.set m N)) (fun e d m => E e (pd.set d D) (pm.set m N))
        (fun d => C (pd.set d D)) (pd.get D) (pm.get N) := by
  induction p generalizing D N with
  | ret a => simp only [zoom, wp_ret, pd.set_get, pm.set_get]
  | throw e => simp only [zoom, wp_throw, pd.set_get, pm.set_get]
  | look k ih => exact ih _ _
  | mem f k ih =>
    simp only [zoom, wp]
    rw [ih]
    simp only [pm.get_set, pm.set_set]
  | disk f k ih =>
    simp only [zoom, wp]
    rw [ih]
    simp only [pd.get_set, pd.set_set]

/-! ## errors of another type -/

variable {ε' : Type}

/-- Turn every error of a program into another. -/
def mapError (f : ε → ε') : Prog δ μ ε α → Prog δ μ ε' α
  | .ret a => .ret a
  | .throw e => .throw (f e)
  | .look k => .look fun d m => (k d m).mapError f
  | .mem g k => .mem g (k.mapError f)
  | .disk g k => .disk g (k.mapError f)

@[simp] theorem wp_mapError (f : ε → ε') (p : Prog δ μ ε α) {E : ε' → δ → μ → Prop} :
    wp (p.mapError f) Q E C d m ↔ wp p Q (fun e => E (f e)) C d m := by
  induction p generalizing d m with
  | ret a => rfl
  | throw e => rfl
  | look k ih => exact ih d m
  | mem g k ih => exact ih
  | disk g k ih => exact and_congr_right fun _ => ih

end Prog

end Lib
