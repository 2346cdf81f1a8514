/-!
# Lib.System

Labelled transition systems with an executable step.  `Reach` are the states
of the runs whose steps all meet a condition; `Reach.invariant` is the one
induction over runs, and `Reach.exec` turns an executed list of labels into a
run.
-/

namespace Lib

universe u v

/-- States that start somewhere and step under labels; a label that is not
enabled has no step. -/
structure System (σ : Type u) (α : Type v) where
  init : σ → Prop
  step : σ → α → Option σ

namespace System

variable {σ : Type u} {α : Type v}

/-- The states reached by steps that all meet `ok`. -/
inductive Reach (sys : System σ α) (ok : σ → α → Bool) : σ → Prop where
  | start {s : σ} (h : sys.init s) : Reach sys ok s
  | step {s s' : σ} (prev : Reach sys ok s) (a : α) (hok : ok s a = true)
      (h : sys.step s a = some s') : Reach sys ok s'

variable {sys : System σ α} {ok : σ → α → Bool} {s s' : σ}

/-- What holds at the start and is kept by every step holds in every state. -/
theorem Reach.invariant {I : σ → Prop} (h : Reach sys ok s) (hinit : ∀ s, sys.init s → I s)
    (hstep : ∀ s a s', I s → ok s a = true → sys.step s a = some s' → I s') : I s := by
  induction h with
  | start h => exact hinit _ h
  | step prev a hok h ih => exact hstep _ a _ ih hok h

/-- The same steps, from one state on. -/
def startingAt (sys : System σ α) (s : σ) : System σ α := { sys with init := (· = s) }

/-- A run goes on from a state it has reached. -/
theorem Reach.trans (h : Reach sys ok s) (h' : Reach (sys.startingAt s) ok s') :
    Reach sys ok s' := by
  induction h' with
  | start hs => exact hs ▸ h
  | step prev a hok hstep ih => exact ih.step a hok hstep

/-- Do one label after the other, while they meet the condition. -/
def exec (sys : System σ α) (ok : σ → α → Bool) (s : σ) : List α → Option σ
  | [] => some s
  | a :: rest =>
    if ok s a then
      match sys.step s a with
      | none => none
      | some s' => sys.exec ok s' rest
    else none

theorem Reach.exec {actions : List α} (h : Reach sys ok s)
    (hs : sys.exec ok s actions = some s') : Reach sys ok s' := by
  induction actions generalizing s with
  | nil =>
    injection hs with hs
    exact hs ▸ h
  | cons a rest ih =>
    rw [System.exec] at hs
    split at hs
    · rename_i hok
      split at hs
      · contradiction
      · rename_i s₁ hstep
        exact ih (h.step a hok hstep) hs
    · contradiction

end System

end Lib
