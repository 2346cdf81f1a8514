import Lumen.Lib.Prog

/-!
# Lib.Simulates

Two programs over different states that return and throw the same.

`Simulates` is a relation between a program at one pair of states and another at
another pair.  It composes along `bind`, so two programs written over one interface
are compared by comparing the implementations of the interface.  Failures that only
the first program has are named by `F`.
-/

namespace Lib.Prog

variable {δ μ δ' μ' ε ε' α β : Type} {S : δ → μ → δ' → μ' → Prop} {F : ε → δ → μ → Prop}
  {d : δ} {m : μ} {d' : δ'} {m' : μ'}

/-- The first program returns or throws what the second does, with `S` of the states behind
it, or it fails as `F` says. -/
def Simulates (S : δ → μ → δ' → μ' → Prop) (F : ε → δ → μ → Prop) (p : Prog δ μ ε α)
    (q : Prog δ' μ' ε α) (d : δ) (m : μ) (d' : δ') (m' : μ') : Prop :=
  wp p (fun a x y => ∃ x' y', q.run d' m' = (.ok a, x', y') ∧ S x y x' y')
    (fun e x y => (∃ x' y', q.run d' m' = (.error e, x', y') ∧ S x y x' y') ∨ F e x y)
    (fun _ => True) d m

namespace Simulates

theorem pure {a : α} (h : S d m d' m') :
    Simulates S F (Pure.pure a) (Pure.pure a : Prog δ' μ' ε α) d m d' m' := ⟨d', m', rfl, h⟩

theorem ofExcept (r : Except ε α) (h : S d m d' m') :
    Simulates S F (ofExcept r) (ofExcept r) d m d' m' := by
  cases r with
  | ok a => exact ⟨d', m', rfl, h⟩
  | error e => exact .inl ⟨d', m', rfl, h⟩

theorem bind {p : Prog δ μ ε α} {q : Prog δ' μ' ε α} {f : α → Prog δ μ ε β}
    {g : α → Prog δ' μ' ε β} (h : Simulates S F p q d m d' m')
    (hf : ∀ a x y x' y', S x y x' y' → Simulates S F (f a) (g a) x y x' y') :
    Simulates S F (p >>= f) (q >>= g) d m d' m' := by
  rw [Simulates, wp_bind]
  refine wp_mono _ h (fun a x y hq => ?_) (fun e x y he => ?_) fun _ hc => hc
  · obtain ⟨x', y', hrun, hs⟩ := hq
    rw [run_bind_ok hrun]
    exact hf a x y x' y' hs
  · refine he.imp_left fun hq => ?_
    obtain ⟨x', y', hrun, hs⟩ := hq
    exact ⟨x', y', run_bind_error hrun, hs⟩

/-- The outcome of the first program. -/
theorem of_run {p : Prog δ μ ε α} {q : Prog δ' μ' ε α} (h : Simulates S F p q d m d' m')
    {r : Except ε α} {x : δ} {y : μ} (hr : p.run d m = (r, x, y)) :
    (∃ x' y', q.run d' m' = (r, x', y') ∧ S x y x' y') ∨ ∃ e, r = .error e ∧ F e x y := by
  cases r with
  | ok a => exact .inl (post_of_wp h hr)
  | error e => exact (error_of_wp h hr).imp_right fun hf => ⟨e, rfl, hf⟩

end Simulates

end Lib.Prog
