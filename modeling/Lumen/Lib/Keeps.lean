import Lumen.Lib.Prog

/-!
# Lib.Keeps

Programs that keep an invariant of the durable state and one of the memory,
whether they return, throw or are cut off.

`Keeps` composes like the programs do, so that an invariant of a whole program
is read off its text: `Keeps.bind` for a sequence, `Keeps.getDisk` and
`Keeps.getMem` for what is read, `Keeps.step` and `Keeps.modifyMem` for what is
written, `Keeps.forEach` for a loop, `Keeps.focus` for a part of the state that
the invariants are about and `Keeps.zoom` for one that they do not speak of.
-/

namespace Lib.Prog

variable {δ μ ε ε' α β : Type} {I : δ → Prop} {J : μ → Prop} {P : α → Prop} {R : β → Prop}

/-- The program keeps `I` of the durable state, also where it is cut off, and `J` of the
memory; what it returns has `P`. -/
def Keeps (I : δ → Prop) (J : μ → Prop) (P : α → Prop) (p : Prog δ μ ε α) : Prop :=
  ∀ d m, I d → J m → wp p (fun a d m => P a ∧ I d ∧ J m) (fun _ d m => I d ∧ J m) I d m

namespace Keeps

theorem pure {a : α} (h : P a) : Keeps I J P (Pure.pure a : Prog δ μ ε α) :=
  fun _ _ hd hm => ⟨h, hd, hm⟩

theorem throw (e : ε) : Keeps I J P (.throw e : Prog δ μ ε α) := fun _ _ hd hm => ⟨hd, hm⟩

theorem ofExcept {r : Except ε α} (h : ∀ a, r = .ok a → P a) :
    Keeps I J P (ofExcept r : Prog δ μ ε α) := by
  intro d m hd hm
  cases r with
  | error e => exact ⟨hd, hm⟩
  | ok a => exact ⟨h a rfl, hd, hm⟩

/-- A check whose result is not looked at. -/
theorem check (r : Except ε α) :
    Keeps I J (fun _ => True) (Prog.ofExcept r : Prog δ μ ε α) := ofExcept fun _ _ => trivial

theorem bind {p : Prog δ μ ε α} {f : α → Prog δ μ ε β} (hp : Keeps I J P p)
    (hf : ∀ a, P a → Keeps I J R (f a)) : Keeps I J R (p >>= f) := by
  intro d m hd hm
  rw [wp_bind]
  exact wp_imp (hp d m hd hm) fun a d m h => hf a h.1 d m h.2.1 h.2.2

/-- A result that is only passed on. -/
theorem thenPure {p : Prog δ μ ε α} (h : Keeps I J P p) (f : α → β) :
    Keeps I J (fun _ => True) (p >>= fun a => Pure.pure (f a)) :=
  h.bind fun _ _ => pure trivial

theorem getDisk {f : δ → Prog δ μ ε β} (hf : ∀ d, I d → Keeps I J R (f d)) :
    Keeps I J R (Prog.getDisk >>= f) :=
  fun d m hd hm => hf d hd d m hd hm

theorem getMem {f : μ → Prog δ μ ε β} (hf : ∀ m, J m → Keeps I J R (f m)) :
    Keeps I J R (Prog.getMem >>= f) :=
  fun d m hd hm => hf m hm d m hd hm

theorem step {f : δ → δ} (h : ∀ d, I d → I (f d)) :
    Keeps I J (fun _ => True) (Prog.step f : Prog δ μ ε Unit) :=
  fun d _ hd hm => ⟨h d hd, trivial, h d hd, hm⟩

theorem modifyMem {f : μ → μ} (h : ∀ m, J m → J (f m)) :
    Keeps I J (fun _ => True) (Prog.modifyMem f : Prog δ μ ε Unit) :=
  fun _ m hd hm => ⟨trivial, hd, h m hm⟩

theorem forEach {l : List β} {f : β → Prog δ μ ε Unit}
    (h : ∀ b ∈ l, Keeps I J (fun _ => True) (f b)) :
    Keeps I J (fun _ => True) (Prog.forEach l f) := by
  induction l with
  | nil => exact pure trivial
  | cons b l ih =>
    exact bind (h b List.mem_cons_self) fun _ _ =>
      ih fun b' hb' => h b' (List.mem_cons_of_mem b hb')

/-- A program about a part of the state that the invariants do not speak of. -/
theorem zoom {Δ M : Type} {I : Δ → Prop} {J : M → Prop} {pd : Focus Δ δ} {pm : Focus M μ}
    (hd : ∀ x d, I d → I (pd.set x d)) (hm : ∀ x m, J m → J (pm.set x m)) (p : Prog δ μ ε α) :
    Keeps I J (fun _ => True) (p.zoom pd pm) := by
  induction p with
  | ret a => exact pure trivial
  | throw e => exact throw e
  | look k ih => exact fun d m hd hm => ih _ _ d m hd hm
  | mem f k ih => exact fun d m hd hm' => ih d _ hd (hm _ m hm')
  | disk f k ih => exact fun d m hd' hm => ⟨hd _ d hd', ih _ m (hd _ d hd') hm⟩

/-- A program about the part of the state that the invariants are about. -/
theorem focus {Δ M : Type} {p : Prog δ μ ε α} (h : Keeps I J P p) (pd : Focus Δ δ)
    (pm : Focus M μ) :
    Keeps (fun D => I (pd.get D)) (fun N => J (pm.get N)) P (p.zoom pd pm) := by
  intro D N hD hN
  rw [wp_zoom]
  refine wp_mono _ (h _ _ hD hN) (fun a d m ha => ?_) (fun e d m he => ?_) fun d hd => ?_
  · simpa only [pd.get_set, pm.get_set] using ha
  · simpa only [pd.get_set, pm.get_set] using he
  · simpa only [pd.get_set] using hd

theorem mapError {p : Prog δ μ ε α} (h : Keeps I J P p) (f : ε → ε') :
    Keeps I J P (p.mapError f) := by
  intro d m hd hm
  rw [wp_mapError]
  exact h d m hd hm

/-! ## what is kept -/

theorem of_run {p : Prog δ μ ε α} (h : Keeps I J P p) {d d' : δ} {m m' : μ} {r : Except ε α}
    (hd : I d) (hm : J m) (hr : p.run d m = (r, d', m')) : I d' ∧ J m' :=
  final_of_wp (I := fun d m => I d ∧ J m)
    (wp_imp (h d m hd hm) fun _ _ _ h => h.2) hr

theorem of_crash {p : Prog δ μ ε α} (h : Keeps I J P p) {d x : δ} {m : μ} (hd : I d) (hm : J m)
    (hx : x ∈ p.crashes d m) : I x :=
  crashes_of_wp (h d m hd hm) x hx

end Keeps

end Lib.Prog
