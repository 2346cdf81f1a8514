import Lumen.Lib.Prog

/-!
# Lib.Keeper

A process that keeps one value in durable state.

The value's specification is a history (`Reads`): a call that returned has
saved, a call the process died in has saved or has not, and nothing else
changes the value.  A run of the process (`Keeper.Run`) goes through calls,
crashes at any durable step, and restarts that may themselves be cut off.
`Keeper.Run.reads` is the one induction over runs: where every call meets
`Keeper.Sound`, the value on disk is one the history allows.
-/

namespace Lib

universe u

namespace Keeper

/-- How a call ended: it returned, it failed, or the process died in it. -/
inductive Event (ι : Type u) where
  | done (i : ι)
  | failed (i : ι)
  | cut (i : ι)

variable {ι : Type u} {V W : Type}

/-- The values a history allows, where a call that returns does `save` to the
value and one that fails does `fail`. -/
inductive Reads (save fail : ι → V → V) (v₀ : V) : List (Event ι) → V → Prop where
  | start : Reads save fail v₀ [] v₀
  | done {evs : List (Event ι)} {v : V} (i : ι) (prev : Reads save fail v₀ evs v) :
      Reads save fail v₀ (evs ++ [.done i]) (save i v)
  | failed {evs : List (Event ι)} {v : V} (i : ι) (prev : Reads save fail v₀ evs v) :
      Reads save fail v₀ (evs ++ [.failed i]) (fail i v)
  | lost {evs : List (Event ι)} {v : V} (i : ι) (prev : Reads save fail v₀ evs v) :
      Reads save fail v₀ (evs ++ [.cut i]) v
  | saved {evs : List (Event ι)} {v : V} (i : ι) (prev : Reads save fail v₀ evs v) :
      Reads save fail v₀ (evs ++ [.cut i]) (save i v)

/-- A part of the value that the calls change on its own has a history of its
own. -/
theorem Reads.map {save fail : ι → V → V} {save' fail' : ι → W → W} {v₀ v : V}
    {evs : List (Event ι)} (f : V → W) (hsave : ∀ i v, f (save i v) = save' i (f v))
    (hfail : ∀ i v, f (fail i v) = fail' i (f v)) (h : Reads save fail v₀ evs v) :
    Reads save' fail' (f v₀) evs (f v) := by
  induction h with
  | start => exact .start
  | done i prev ih => rw [hsave]; exact .done i ih
  | failed i prev ih => rw [hfail]; exact .failed i ih
  | lost i prev ih => exact .lost i ih
  | saved i prev ih => rw [hsave]; exact .saved i ih

end Keeper

/-- A process with its calls, and what they do to the value it keeps. -/
structure Keeper (δ μ ε : Type) (ι : Type u) (V : Type) where
  /-- The memory of a new process. -/
  fresh : μ
  /-- The programs a start may run. -/
  Boot : Prog δ μ ε Unit → Prop
  call : ι → Prog δ μ ε Unit
  save : ι → V → V
  fail : ι → V → V
  /-- What a crash may make of the durable state it finds. -/
  Left : δ → δ → Prop

namespace Keeper

variable {δ μ ε V : Type} {ι : Type u}

/-- The states of a process that starts on `d₀`: its history, the durable
state, and its memory while it is up. -/
inductive Run (k : Keeper δ μ ε ι V) (d₀ : δ) : List (Event ι) → δ → Option μ → Prop where
  | start : Run k d₀ [] d₀ none
  | boot {evs : List (Event ι)} {d d' : δ} {m' : μ} {b : Prog δ μ ε Unit} (hb : k.Boot b)
      (prev : Run k d₀ evs d none) (h : b.run d k.fresh = (.ok (), d', m')) :
      Run k d₀ evs d' (some m')
  | bootFailed {evs : List (Event ι)} {d d' : δ} {m' : μ} {e : ε} {b : Prog δ μ ε Unit}
      (hb : k.Boot b) (prev : Run k d₀ evs d none) (h : b.run d k.fresh = (.error e, d', m')) :
      Run k d₀ evs d' none
  | bootCut {evs : List (Event ι)} {d x d' : δ} {b : Prog δ μ ε Unit} (hb : k.Boot b)
      (prev : Run k d₀ evs d none) (h : x ∈ b.crashes d k.fresh) (left : k.Left x d') :
      Run k d₀ evs d' none
  | done {evs : List (Event ι)} {d d' : δ} {m m' : μ} (i : ι) (prev : Run k d₀ evs d (some m))
      (h : (k.call i).run d m = (.ok (), d', m')) : Run k d₀ (evs ++ [.done i]) d' (some m')
  | failed {evs : List (Event ι)} {d d' : δ} {m m' : μ} {e : ε} (i : ι)
      (prev : Run k d₀ evs d (some m)) (h : (k.call i).run d m = (.error e, d', m')) :
      Run k d₀ (evs ++ [.failed i]) d' (some m')
  | cut {evs : List (Event ι)} {d x d' : δ} {m : μ} (i : ι) (prev : Run k d₀ evs d (some m))
      (h : x ∈ (k.call i).crashes d m) (left : k.Left x d') : Run k d₀ (evs ++ [.cut i]) d' none
  | stop {evs : List (Event ι)} {d d' : δ} {m : μ} (prev : Run k d₀ evs d (some m))
      (left : k.Left d d') : Run k d₀ evs d' none

/-- What one start and one call do, where `Holds` is the value on disk and
`Cached` the value in memory. -/
structure Sound (k : Keeper δ μ ε ι V) (Holds : δ → V → Prop) (Cached : μ → V → Prop) : Prop where
  boot : ∀ {b : Prog δ μ ε Unit} {d : δ} {v : V}, k.Boot b → Holds d v →
    b.wp (fun _ d' m' => Holds d' v ∧ Cached m' v) (fun _ d' _ => Holds d' v)
      (fun x => Holds x v) d k.fresh
  call : ∀ {d : δ} {m : μ} {v : V} (i : ι), Holds d v → Cached m v →
    (k.call i).wp (fun _ d' m' => Holds d' (k.save i v) ∧ Cached m' (k.save i v))
      (fun _ d' m' => Holds d' (k.fail i v) ∧ Cached m' (k.fail i v))
      (fun x => Holds x v ∨ Holds x (k.save i v)) d m
  left : ∀ {d d' : δ} {v : V}, k.Left d d' → Holds d v → Holds d' v

variable {k : Keeper δ μ ε ι V} {Holds : δ → V → Prop} {Cached : μ → V → Prop}

/-- In every state of a run the disk, and the memory while there is one, hold
one value that the history allows. -/
theorem Run.reads (hk : k.Sound Holds Cached) {d₀ d : δ} {v₀ : V} (h₀ : Holds d₀ v₀)
    {evs : List (Event ι)} {p : Option μ} (h : k.Run d₀ evs d p) :
    ∃ v, Reads k.save k.fail v₀ evs v ∧ Holds d v ∧ ∀ m, p = some m → Cached m v := by
  induction h with
  | start => exact ⟨v₀, .start, h₀, by simp⟩
  | boot hb prev h ih =>
    obtain ⟨v, hr, hd, _⟩ := ih
    obtain ⟨hd', hm'⟩ := Prog.post_of_wp (hk.boot hb hd) h
    exact ⟨v, hr, hd', by rintro _ ⟨⟩; exact hm'⟩
  | bootFailed hb prev h ih =>
    obtain ⟨v, hr, hd, _⟩ := ih
    exact ⟨v, hr, Prog.error_of_wp (hk.boot hb hd) h, by simp⟩
  | bootCut hb prev h left ih =>
    obtain ⟨v, hr, hd, _⟩ := ih
    exact ⟨v, hr, hk.left left (Prog.crashes_of_wp (hk.boot hb hd) _ h), by simp⟩
  | done i prev h ih =>
    obtain ⟨v, hr, hd, hm⟩ := ih
    obtain ⟨hd', hm'⟩ := Prog.post_of_wp (hk.call i hd (hm _ rfl)) h
    exact ⟨_, hr.done i, hd', by rintro _ ⟨⟩; exact hm'⟩
  | failed i prev h ih =>
    obtain ⟨v, hr, hd, hm⟩ := ih
    obtain ⟨hd', hm'⟩ := Prog.error_of_wp (hk.call i hd (hm _ rfl)) h
    exact ⟨_, hr.failed i, hd', by rintro _ ⟨⟩; exact hm'⟩
  | cut i prev h left ih =>
    obtain ⟨v, hr, hd, hm⟩ := ih
    rcases Prog.crashes_of_wp (hk.call i hd (hm _ rfl)) _ h with hx | hx
    · exact ⟨v, hr.lost i, hk.left left hx, by simp⟩
    · exact ⟨_, hr.saved i, hk.left left hx, by simp⟩
  | stop prev left ih =>
    obtain ⟨v, hr, hd, _⟩ := ih
    exact ⟨v, hr, hk.left left hd, by simp⟩

end Keeper

end Lib
