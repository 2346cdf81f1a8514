import Lumen.Catalog.Effect
import Lumen.Mapping.Schema

/-!
# Lumen.Catalog.Builder

Applying and replaying commands when Tantivy's schema builder may panic.

`Catalog.createCollection` takes the schema of every mapping, the builder does not:
the programs here are those of the catalog with `createCollectionWith` in its place.
Where a create is `Buildable` they do the same, and where it is not they do not
return (`Catalog.wp_applyCommandWith_iff`, `Catalog.wp_applyCommandWith_panics`).
-/

namespace Lumen

open Lib Prog

/-! ## programs -/

namespace Catalog
variable [Ext]

/-- Create a collection the map does not hold. -/
def applyNewCreateWith (ord : IterOrder) (mark : LogMark) (create : Proto.CreateCollection)
    (mapping : Mapping) : CatalogM Unit := do
  let uuid ← ofExcept (createUuid create)
  let collection ← openOrCreateWith uuid mapping
  modifyMem fun m =>
    { m with collections := m.collections.insert create.collection ⟨uuid, mark.index, collection⟩ }
  persist ord mark.index

def applyCreateWith (ord : IterOrder) (mark : LogMark) (create : Proto.CreateCollection) :
    CatalogM Unit := do
  let mapping ← ofExcept (createMapping create)
  let existing ← lookup create.collection
  match existing with
  | some _ => pure ()
  | none => applyNewCreateWith ord mark create mapping

/-- `apply_command`, with what Tantivy's builder may answer. -/
def applyCommandWith (ord : IterOrder) (mark : LogMark) (command : Proto.Command) :
    CatalogM ApplyOutcome :=
  match command.op with
  | some (.createCollection create) => do
    applyCreateWith ord mark create
    pure default
  | _ => applyCommand ord mark command

def replayEntryWith (ord : IterOrder) (appliedSeq : Nat) (entry : Proto.WalEntry) :
    CatalogM Unit :=
  if entry.seq ≤ appliedSeq then pure ()
  else
    match entry.command with
    | none => pure ()
    | some command => do
      let _ ← applyCommandWith ord { index := entry.seq } command
      pure ()

/-- `Catalog::open`, with what Tantivy's builder may answer. -/
def openCatalogWith (ord : IterOrder) : CatalogM Unit := do
  let (appliedSeq, entries) ← loadCatalog
  forEach entries (replayEntryWith ord appliedSeq)
  finishOpen ord (replays appliedSeq entries)

end Catalog

/-! ## creates the builder takes -/

/-- The builder takes the mapping of a create. -/
def Proto.Command.NoDash (cmd : Proto.Command) : Prop :=
  ∀ c x, cmd.op = some (.createCollection c) → Catalog.createMapping c = .ok x → x.NoDash

section
variable [Ext]

/-- A create finds its collection or its directory, or the builder takes its
mapping. -/
def Buildable (d : Disk) (m : Catalog) (cmd : Proto.Command) : Prop :=
  ∀ c u x, cmd.op = some (.createCollection c) → Catalog.createUuid c = .ok u →
    Catalog.createMapping c = .ok x → m.collections.find? c.collection = none →
    d.dirs.contains u = false → x.NoDash

theorem Proto.Command.NoDash.buildable {cmd : Proto.Command} (h : cmd.NoDash) (d : Disk)
    (m : Catalog) : Buildable d m cmd := fun c _ x hop _ hx _ _ => h c x hop hx

namespace Catalog

variable {d : Disk} {m : Catalog} {u : Uuid} {x : Mapping} {ord : IterOrder} {mark : LogMark}
  {cmd : Proto.Command} {E : Error → Disk → Catalog → Prop} {C : Disk → Prop}

omit [Ext] in
theorem wp_openOrCreateWith_iff {Q : Collection → Disk → Catalog → Prop}
    (h : d.dirs.contains u = false → x.NoDash) :
    wp (openOrCreateWith u x) Q E C d m ↔ wp (openOrCreate u x) Q E C d m := by
  rw [openOrCreateWith, openOrCreate, wp_bind, wp_bind, wp_getDisk, wp_getDisk]
  cases hc : d.dirs.contains u with
  | true => rfl
  | false => rw [Mapping.createCollectionWith_eq (h hc)]

omit [Ext] in
/-- The builder does not return the schema of another mapping. -/
theorem wp_openOrCreateWith_panics (hc : d.dirs.contains u = false) (hdash : ¬ x.NoDash) :
    wp (openOrCreateWith u x) (fun _ _ _ => False) (fun _ _ _ => True) (fun _ => True) d m := by
  rw [openOrCreateWith, wp_bind, wp_getDisk, hc, if_neg Bool.false_ne_true, createCollectionWith,
    wp_bind, wp_getDisk, hc, if_neg Bool.false_ne_true, wp_bind, wp_step, wp_bind]
  refine ⟨trivial, ?_⟩
  cases hbuild : x.buildSchema with
  | error e => trivial
  | ok schema =>
    exact absurd (Mapping.noDash_iff.mpr (Mapping.buildSchema_eq_ok_iff.mp hbuild).2) hdash

/-- **A buildable command** is applied as if the builder took every schema. -/
theorem wp_applyCommandWith_iff {Q : ApplyOutcome → Disk → Catalog → Prop}
    (h : Buildable d m cmd) :
    wp (applyCommandWith ord mark cmd) Q E C d m ↔ wp (applyCommand ord mark cmd) Q E C d m := by
  rw [applyCommandWith]
  split
  · rename_i c hop
    rw [applyCommand, hop]
    simp only [applyCreateWith, applyCreate, wp_bind, wp_lookup]
    cases hx : createMapping c with
    | error e => rfl
    | ok x =>
      simp only [wp_ofExcept_ok]
      cases hf : m.collections.find? c.collection with
      | some e => rfl
      | none =>
        simp only [Option.map_none, applyNewCreateWith, applyNewCreate, wp_bind]
        cases hu : createUuid c with
        | error e => rfl
        | ok u =>
          simp only [wp_ofExcept_ok, installCollection, wp_bind]
          rw [wp_openOrCreateWith_iff (h c u x hop hu hx hf)]
          simp only [wp_modifyMem, wp_pure]
  · rfl

/-- Another create does not return. -/
theorem wp_applyCommandWith_panics (h : ¬ Buildable d m cmd) :
    wp (applyCommandWith ord mark cmd) (fun _ _ _ => False) (fun _ _ _ => True) (fun _ => True)
      d m := by
  simp only [Buildable, not_forall] at h
  obtain ⟨c, u, x, hop, hu, hx, hf, hc, hdash⟩ := h
  rw [applyCommandWith, hop]
  simp only [applyCreateWith, applyNewCreateWith, wp_bind, wp_lookup, hx, hu, wp_ofExcept_ok, hf,
    Option.map_none]
  exact wp_mono _ (wp_openOrCreateWith_panics hc hdash) (fun _ _ _ h => h.elim)
    (fun _ _ _ _ => trivial) fun _ _ => trivial

/-- What returns had an effect. -/
theorem wp_applyCommandWith (hs : Based d m) :
    wp (applyCommandWith ord mark cmd)
      (fun _ d' m' => Buildable d m cmd ∧ Effect ord mark.index cmd d m d' m')
      (fun _ _ _ => True) (fun _ => True) d m := by
  by_cases h : Buildable d m cmd
  · refine (wp_applyCommandWith_iff h).mpr ?_
    exact wp_applyCommand hs (fun _ _ => trivial) (fun _ _ _ _ => trivial)
      fun _ _ _ heff => ⟨h, heff⟩
  · exact wp_imp (wp_applyCommandWith_panics h) fun _ _ _ hf => hf.elim

end Catalog

end

end Lumen
