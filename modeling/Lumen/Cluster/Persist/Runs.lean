import Lumen.Cluster.Persist.Inv

/-!
# Lumen.Cluster.Persist.Runs

The runs of the two tasks that write `catalog.pb`.

* `catalog_updates_kept` — when no listing is taken while the other task is between
  its own and its rename, the file lists the map once both have returned, and
  neither task fails because of the other; a listing taken in between can make one
  fail.
* `created_collection_lost` — a checkpoint writes the listing it took before a
  create over the one the create wrote.
-/

namespace Lumen.Persisting

open Lib Prog

section
variable [Ext] {d : Disk} {m : Catalog} {s s' : State}

theorem State.Opened.inv (h : s.Opened) : s.Inv := by
  obtain ⟨hist, happly, hcheckpoint, hbegan⟩ := h
  have hhost : Hosting s.disk s.catalog := hist.inv
  constructor
  case sound => exact hhost.sound
  case wal => exact hhost.wal
  case dirs => exact fun u hu => .inl (Catalog.mem_liveUuids.mpr (hhost.noOrphans u hu))
  case current => exact .inr hhost.current
  all_goals simp [happly, hcheckpoint, Phase.Works, Phase.Commits, Phase.Writes, Phase.isWriting]

/-- **Every state of a run** whose listings are exclusive. -/
theorem Reach.inv (h : system.Reach exclusive s) : s.Inv :=
  h.invariant (fun _ hs => hs.inv) fun s a s' hs hok hstep => by
    cases a with
    | apply mark cmd => exact hs.begin hstep
    | checkpoint mark ord => exact hs.called hstep
    | next who ord =>
      cases who with
      | apply => exact hs.nextApply hok hstep
      | checkpoint => exact hs.nextCheckpoint hok hstep

/-- What is asked of the two tasks: once both have returned, the catalog file lists
the map and opening brings the listed collections back, and neither fails because of
the other. -/
structure State.Kept (s : State) : Prop where
  listed : s.apply.returned = true → s.checkpoint.returned = true →
    Current s.disk s.catalog ∧ ∀ ord, ∃ d' m',
      (Catalog.openCatalog ord).run s.disk .closed = (.ok (), d', m') ∧
        m'.listing = s.catalog.listing
  checkpoint : ∀ e, s.checkpoint ≠ .failed e
  apply : ∀ e, s.apply = .failed e → FailsAlone s.began e

theorem State.Inv.kept (h : s.Inv) : s.Kept where
  listed happly hcheckpoint := by
    have howes : s.apply.owes = false ∧ s.apply.spare = none := by
      cases hp : s.apply with
      | idle => exact ⟨rfl, rfl⟩
      | failed e => exact ⟨rfl, rfl⟩
      | _ => simp [hp, Phase.returned] at happly
    have hcur := h.current.resolve_left (by simp [howes.1])
    have hhost : Hosting s.disk s.catalog := ⟨⟨h.sound, hcur, h.wal⟩, fun u hu =>
      Catalog.mem_liveUuids.mp ((h.dirs u hu).resolve_right (by simp [howes.2]))⟩
    exact ⟨hcur, hhost.reopens⟩
  checkpoint e he := by
    have hc := h.commits
    rw [he] at hc
    exact hc
  apply e he := by
    have hw := h.works
    rw [he] at hw
    exact hw

/-! ### listings that are not exclusive -/

/-- Whether the action takes a listing. -/
def State.lists (s : State) : Action → Bool
  | .next .apply _ =>
    match s.apply with
    | .persisting _ => true
    | _ => false
  | .next .checkpoint _ =>
    match s.checkpoint with
    | .persisting _ => true
    | _ => false
  | _ => false

/-- The steps by which a task that writes comes to its rename. -/
def Write.untilRename (who : Task) : Write → List Action
  | .listed _ => [.next who .stored, .next who .stored]
  | .created _ _ => [.next who .stored]
  | .written => []

/-- Both tasks come to their rename, the one that took its listing last first. -/
def collision (last : Task) (w w' : Write) : List Action :=
  match last with
  | .apply => w.untilRename .apply ++ w'.untilRename .checkpoint
  | .checkpoint => w'.untilRename .checkpoint ++ w.untilRename .apply

/-- Where one task has just taken its listing and the other one writes, the
checkpoint can come to rename a file that is gone. -/
theorem collides (d : Disk) (m : Catalog) {w w' : Write} (began : Option Began)
    (hl : (∃ bytes, w = .listed bytes) ∨ ∃ bytes, w' = .listed bytes) :
    ∃ s', (system.startingAt ⟨d, m, .writing w, .writing w', began⟩).Reach exclusive s' ∧
      s'.checkpoint = .failed (.io .notFound) := by
  let sys := system.startingAt ⟨d, m, .writing w, .writing w', began⟩
  have hexec : ∃ actions s',
      sys.exec exclusive ⟨d, m, .writing w, .writing w', began⟩ actions = some s' ∧
        s'.checkpoint = .failed (.io .notFound) := by
    rcases hl with ⟨bytes, rfl⟩ | ⟨bytes, rfl⟩
    · refine ⟨collision .apply (.listed bytes) w' ++
        [.next .apply .stored, .next .checkpoint .stored], ?_⟩
      cases w' with
      | listed bytes' => exact ⟨_, rfl, rfl⟩
      | created bytes' place => cases place <;> exact ⟨_, rfl, rfl⟩
      | written => exact ⟨_, rfl, rfl⟩
    · refine ⟨collision .checkpoint w (.listed bytes) ++
        [.next .apply .stored, .next .checkpoint .stored], ?_⟩
      cases w with
      | listed bytes' => exact ⟨_, rfl, rfl⟩
      | created bytes' place => cases place <;> exact ⟨_, rfl, rfl⟩
      | written => exact ⟨_, rfl, rfl⟩
  obtain ⟨actions, s', hs, hfailed⟩ := hexec
  exact ⟨s', (System.Reach.start rfl).exec hs, hfailed⟩

/-- A listing that is not exclusive leaves both tasks writing. -/
theorem lists_not_exclusive {a : Action} (hlists : s.lists a = true)
    (hstep : s.step a = some s') (hex : exclusive s a = false) :
    ∃ d m began w w', s' = ⟨d, m, .writing w, .writing w', began⟩ ∧
      ((∃ bytes, w = .listed bytes) ∨ ∃ bytes, w' = .listed bytes) := by
  obtain ⟨d, m, apply, checkpoint, began⟩ := s
  cases a with
  | apply mark cmd => cases hlists
  | checkpoint mark ord => cases hlists
  | next who ord =>
    cases who with
    | apply =>
      cases apply with
      | persisting seq =>
        cases checkpoint with
        | writing w' =>
          cases hstep
          exact ⟨d, m, began, _, w', rfl, .inl ⟨_, rfl⟩⟩
        | _ => cases hex
      | _ => cases hlists
    | checkpoint =>
      cases checkpoint with
      | persisting seq =>
        cases apply with
        | writing w =>
          cases hstep
          exact ⟨d, m, began, w, _, rfl, .inr ⟨_, rfl⟩⟩
        | _ => cases hex
      | _ => cases hlists

/-- **No catalog update is lost** in a run whose listings are exclusive: once both
tasks have returned, the file lists the map and opening brings the listed
collections back, and neither task fails because of the other.  A listing keeps this
for every continuation if and only if it is exclusive. -/
theorem catalog_updates_kept (h : system.Reach exclusive s) :
    s.Kept ∧ ∀ a s₁, s.lists a = true → s.step a = some s₁ →
      ((∀ s', (system.startingAt s₁).Reach exclusive s' → s'.Kept) ↔ exclusive s a = true) := by
  refine ⟨(Reach.inv h).kept, fun a s₁ hlists hstep => ⟨fun hall => ?_, fun hok s' h' => ?_⟩⟩
  · refine Bool.eq_true_of_not_eq_false fun hex => ?_
    obtain ⟨d, m, began, w, w', rfl, hl⟩ := lists_not_exclusive hlists hstep hex
    obtain ⟨s', hreach, hfailed⟩ := collides d m began hl
    exact (hall s' hreach).checkpoint _ hfailed
  · exact (Reach.inv ((h.step a hok hstep).trans h')).kept

end

/-! ### a create and a checkpoint -/

section
open Reference

/-- A node on an empty directory. -/
def openedNode : State :=
  let x := (Catalog.openCatalog .stored).after (.empty, .closed)
  ⟨x.1, x.2, .idle, .idle, none⟩

theorem openedNode_reach (ok : State → Action → Bool) : system.Reach ok openedNode :=
  .start ⟨.opened .stored .fresh (Prod.ext (by decide +kernel) rfl), rfl, rfl, rfl⟩

/-- The state after some actions. -/
def stateAfter (ok : State → Action → Bool) (actions : List Action) : State :=
  (system.exec ok openedNode actions).getD openedNode

theorem stateAfter_reach {ok : State → Action → Bool} {actions : List Action}
    (h : (system.exec ok openedNode actions).isSome = true) :
    system.Reach ok (stateAfter ok actions) := by
  obtain ⟨s, hs⟩ := Option.isSome_iff_exists.mp h
  rw [stateAfter, hs]
  exact (openedNode_reach ok).exec hs

def createAction : Action := .apply ⟨1, 1, 2⟩ ⟨some (.createCollection firstCreate)⟩

/-- The checkpoint takes its listing after the create has entered its collection, and
renames before the create takes its own. -/
def inTurn : List Action :=
  [createAction, .checkpoint ⟨1, 1, 1⟩ .stored, .next .apply .stored, .next .checkpoint .stored,
    .next .apply .stored] ++ List.replicate 4 (.next .checkpoint .stored) ++
    List.replicate 4 (.next .apply .stored)

/-- The collection is listed once both have returned. -/
theorem catalog_updates_kept_inTurn :
    (stateAfter exclusive inTurn).catalog.collections.keys = ["a"] ∧
      Current (stateAfter exclusive inTurn).disk (stateAfter exclusive inTurn).catalog ∧
      ∀ ord, ∃ d' m',
        (Catalog.openCatalog ord).run (stateAfter exclusive inTurn).disk .closed = (.ok (), d', m') ∧
          m'.listing = (stateAfter exclusive inTurn).catalog.listing := by
  have hreach : system.Reach exclusive (stateAfter exclusive inTurn) :=
    stateAfter_reach (by decide +kernel)
  exact ⟨by decide +kernel,
    (catalog_updates_kept hreach).1.listed (by decide +kernel) (by decide +kernel)⟩

/-- The checkpoint takes its listing before the create and renames after it. -/
def overtaken : List Action :=
  [.checkpoint ⟨1, 1, 1⟩ .stored, .next .checkpoint .stored, .next .checkpoint .stored,
    createAction] ++ List.replicate 6 (.next .apply .stored) ++
    List.replicate 3 (.next .checkpoint .stored)

/-- Both tasks have returned, the map holds the new collection, and
a restart has forgotten it. -/
theorem created_collection_lost :
    system.Reach anyStep (stateAfter anyStep overtaken) ∧
      (stateAfter anyStep overtaken).apply.returned = true ∧
      (stateAfter anyStep overtaken).checkpoint.returned = true ∧
      (stateAfter anyStep overtaken).catalog.collections.keys = ["a"] ∧
      let restarted := (Catalog.openCatalog .stored).run (stateAfter anyStep overtaken).disk .closed
      restarted.1 = .ok () ∧ restarted.2.2.collections.keys = [] :=
  ⟨stateAfter_reach (by decide +kernel), by decide +kernel, by decide +kernel, by decide +kernel,
    by decide +kernel, by decide +kernel⟩

end

end Lumen.Persisting
