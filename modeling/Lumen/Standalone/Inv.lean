import Lumen.Standalone.Wal

/-!
# Lumen.Standalone.Inv

What the data directory of a single node holds, whatever was cut off when it
was left.

The acknowledged operations are a log of commands by sequence number
(`GoodLog`).  The directory relates to it in three places (`DiskInv`): the
catalog file lists the collections as of a position `a`, the write-ahead log
has every operation behind `a`, and each directory has saved its documents as
of its own mark (`Dirs`).  A create or drop that is cut short leaves the first
two and directories that may be behind the log (`CutInv`).  Together they are a
slot per name that satisfies the replay invariant at position `a`
(`CutInv.slots`).
-/

namespace Lumen

open Lib Prog Replay

section
variable [Ext] {cmds : Nat → Proto.Command} {top : Nat}

/-! ## the log -/

/-- The operations a node has acknowledged up to `top`: creates are of absent
names and carry new identities, documents fit the collection they go to. -/
structure GoodLog (cmds : Nat → Proto.Command) (top : Nat) : Prop where
  distinct : DistinctUuids cmds
  create : ∀ i c, (cmds i).op = some (.createCollection c) → ∃ u x,
    Catalog.createUuid c = .ok u ∧ Catalog.createMapping c = .ok x ∧
      (logOf cmds c.collection).stateAt (i - 1) = none
  document : ∀ i index, (cmds i).op = some (.indexDocument index) → ∃ g parsed doc,
    (logOf cmds index.collection).stateAt (i - 1) = some g ∧ fromSlice index.source = .ok parsed ∧
      buildDoc g.info.toSchema g.info index.id index.source parsed = .ok doc
  range : ∀ i, (cmds i).op ≠ none → 0 < i ∧ i ≤ top

theorem eventOf_of_none {n : String} {cmd : Proto.Command} (h : cmd.op = none) :
    eventOf n cmd = .skip := by
  simp only [eventOf, h]

theorem op_of_edit {n id : String} {v : Bytes} {cmd : Proto.Command}
    (h : eventOf n cmd = .edit id (some v)) :
    ∃ index, cmd.op = some (.indexDocument index) ∧ index.collection = n := by
  simp only [eventOf] at h
  split at h
  · split at h
    · split at h <;> contradiction
    · contradiction
  · split at h <;> contradiction
  · rename_i index hop
    split at h
    · rename_i hn
      exact ⟨index, hop, hn⟩
    · contradiction
  · split at h
    · injection h with _ h
      contradiction
    · contradiction
  · contradiction

theorem op_of_drop {n : String} {cmd : Proto.Command} (h : eventOf n cmd = .drop) :
    cmd.op = some (.dropCollection ⟨n⟩) := by
  simp only [eventOf] at h
  split at h
  · split at h
    · split at h <;> contradiction
    · contradiction
  · rename_i drop hop
    split at h
    · rename_i hn
      rw [hop, ← hn]
    · contradiction
  · split at h <;> contradiction
  · split at h <;> contradiction
  · contradiction

namespace GoodLog

variable (h : GoodLog cmds top)
include h

theorem noStale (n : String) : (logOf cmds n).NoStale := by
  intro i k v he hnone
  obtain ⟨index, hop, rfl⟩ := op_of_edit he
  obtain ⟨g, _, _, hg, _⟩ := h.document (i + 1) index hop
  have hg : (logOf cmds index.collection).stateAt i = some g := hg
  rw [hnone] at hg
  contradiction

theorem logDistinct (n : String) : (logOf cmds n).Distinct :=
  fun i j u x y hi hj => h.distinct i j n n u x y hi hj

theorem skip {n : String} {i : Nat} (hi : top < i) : logOf cmds n i = .skip := by
  refine eventOf_of_none ?_
  by_contra hop
  have := (h.range i hop).2
  omega

/-- Nothing happens behind the last operation. -/
theorem stateAt_eq {n : String} {r : Nat} (hr : top ≤ r) :
    (logOf cmds n).stateAt r = (logOf cmds n).stateAt top :=
  Log.stateAt_skip hr fun _ hi _ => h.skip hi

theorem born_le {n : String} {j : Nat} {u : Uuid} {x : Mapping}
    (hb : (logOf cmds n).Born j u x) : j ≤ top := by
  by_contra hj
  have hcreate := hb.2.1
  rw [h.skip (by omega)] at hcreate
  contradiction

/-- Two collections of the log with one identity are one. -/
theorem name_eq {n n' : String} {r r' : Nat} {g g' : Gen Uuid Mapping String Bytes}
    (hg : (logOf cmds n).stateAt r = some g) (hg' : (logOf cmds n').stateAt r' = some g')
    (hu : g.uuid = g'.uuid) : n = n' ∧ g.info = g'.info := by
  obtain ⟨j, hb, _⟩ := Log.exists_born hg
  obtain ⟨j', hb', _⟩ := Log.exists_born hg'
  have hev : eventOf n (cmds j) = .create g.uuid g.info := hb.2.1
  have hev' : eventOf n' (cmds j') = .create g'.uuid g'.info := hb'.2.1
  rw [← hu] at hev'
  exact (h.distinct.eq hev hev').2

end GoodLog

/-! ## directories -/

/-- A collection's directory: its documents are those of its mark, and an edit
it has not saved comes again behind position `a` — or the position is not
past the mark. -/
structure Saved (log : Log Uuid Mapping String Bytes) (a top : Nat)
    (g : Gen Uuid Mapping String Bytes) (ix : Index) : Prop where
  schema : ix.schema = g.info.toSchema
  mark_le : ix.mark ≤ top
  docs : ∃ j, log.Born j g.uuid g.info ∧ j ≤ top ∧ ¬ log.DropIn j top ∧
    view ix.docs = log.docsFrom j ix.mark ∧
    ∀ k, log.Touched k (max j ix.mark) a → log.Touched k a top

/-- The collection directories are those of the collections that are there
after the last operation. -/
structure Dirs (cmds : Nat → Proto.Command) (a top : Nat) (d : Disk) : Prop where
  saved : ∀ n g, (logOf cmds n).stateAt top = some g → ∃ ix, d.index g.uuid = some ix ∧
    Saved (logOf cmds n) a top g ix
  owned : ∀ u, d.dirs.contains u = true → ∃ n g, (logOf cmds n).stateAt top = some g ∧ g.uuid = u

/-- The collection directories when the last operation may have been cut: a
collection that is created behind `a` may have no index yet, and an index may
be of a collection that is dropped. -/
structure CutDirs (cmds : Nat → Proto.Command) (a top : Nat) (d : Disk) : Prop where
  saved : ∀ n g, (logOf cmds n).stateAt top = some g →
    (∃ ix, d.index g.uuid = some ix ∧ Saved (logOf cmds n) a top g ix) ∨
      d.index g.uuid = none ∧ ∃ j, a < j ∧ (logOf cmds n).Born j g.uuid g.info
  owned : ∀ u, d.dirs.contains u = true → ∃ i n x, i ≤ top ∧ eventOf n (cmds i) = .create u x ∧
    ∀ ix, d.index u = some ix → ix.schema = x.toSchema

theorem CutDirs.dir {a : Nat} {d : Disk} {u : Uuid} {ix : Index} (h : CutDirs cmds a top d)
    (hix : d.index u = some ix) :
    ∃ i n x, i ≤ top ∧ eventOf n (cmds i) = .create u x ∧ ix.schema = x.toSchema := by
  obtain ⟨i, n, x, hi, hev, hschema⟩ := h.owned u (Disk.contains_of_index hix)
  exact ⟨i, n, x, hi, hev, hschema ix hix⟩

theorem Dirs.cut {a : Nat} {d : Disk} (h : Dirs cmds a top d) : CutDirs cmds a top d where
  saved n g hg := .inl (h.saved n g hg)
  owned u hu := by
    obtain ⟨n, g, hstate, rfl⟩ := h.owned u hu
    obtain ⟨ix, hix, hs⟩ := h.saved n g hstate
    obtain ⟨j, hb, hj, _⟩ := hs.docs
    refine ⟨j, n, g.info, hj, hb.2.1, fun ix' hix' => ?_⟩
    rw [hix, Option.some.injEq] at hix'
    exact hix' ▸ hs.schema

/-- What was put into quarantine is not in its place, and no operation behind
`a` makes it again. -/
def Parked (cmds : Nat → Proto.Command) (a : Nat) (d : Disk) : Prop :=
  ∀ u seq, ¬ Vacant (d.quarantined.lookup (u, seq)) → d.dirs.contains u = false ∧
    ∃ i n x, i ≤ a ∧ eventOf n (cmds i) = .create u x

section
variable {a : Nat} {d d' : Disk}

theorem Parked.mono {b : Nat} (h : Parked cmds a d) (hle : a ≤ b) : Parked cmds b d := by
  intro u seq hq
  obtain ⟨hno, i, n, x, hi, hev⟩ := h u seq hq
  exact ⟨hno, i, n, x, hi.trans hle, hev⟩

/-- Directories may go, and those come that were not put into quarantine. -/
theorem Parked.congr (h : Parked cmds a d) (hq : d'.quarantined = d.quarantined)
    (hdirs : ∀ u, d'.dirs.contains u = true → d.dirs.contains u = true ∨
      ∀ i n x, i ≤ a → eventOf n (cmds i) ≠ .create u x) : Parked cmds a d' := by
  intro u seq hl
  obtain ⟨hno, i, n, x, hi, hev⟩ := h u seq (hq ▸ hl)
  refine ⟨?_, i, n, x, hi, hev⟩
  cases hc : d'.dirs.contains u with
  | false => rfl
  | true =>
    rcases hdirs u hc with hold | hnew
    · rw [hno] at hold
      contradiction
    · exact absurd hev (hnew i n x hi)

/-- What a replay makes was not put into quarantine. -/
theorem Parked.effect {m m' : Catalog} {ord : IterOrder} {i : Nat} (h : Parked cmds a d)
    (hg : GoodLog cmds top) (hi : a < i) (he : Effect ord i (cmds i) d m d' m') : Parked cmds a d' := by
  refine h.congr he.quarantined fun u hu => ?_
  rcases he.contains hu with ⟨hold, _⟩ | ⟨n, x, hev, _⟩
  · exact .inl hold
  · refine .inr fun j n' y hj hev' => ?_
    have := (hg.distinct.eq hev hev').1
    omega

end

/-! ## the tail -/

/-- The entries of the write-ahead log: behind position `a` they are the
operations of the log, and the last is the last operation, unless nothing is
behind `a`. -/
structure Tail (cmds : Nat → Proto.Command) (a top : Nat) (es : List Proto.WalEntry) : Prop where
  sorted : es.Pairwise fun e e' => e.seq < e'.seq
  le : ∀ e ∈ es, e.seq ≤ top
  command : ∀ e ∈ es, a < e.seq → e.command = some (cmds e.seq)
  cover : ∀ i, a < i → i ≤ top → (cmds i).op ≠ none → ∃ e ∈ es, e.seq = i
  highest : top = a ∨ ∃ e ∈ es, e.seq = top

/-- The names `open` finds dropped are those a drop behind `a` names. -/
theorem Tail.mem_dropped {a : Nat} {es : List Proto.WalEntry} {n : String}
    (h : Tail cmds a top es) :
    n ∈ Catalog.droppedInTail a es ↔ (logOf cmds n).DropIn a top := by
  rw [Catalog.droppedInTail, List.mem_filterMap]
  constructor
  · rintro ⟨e, he, hdrop⟩
    split at hdrop
    · rename_i hlt
      have hcmd := h.command e he hlt
      refine ⟨e.seq, hlt, h.le e he, ?_⟩
      rw [hcmd] at hdrop
      split at hdrop
      · rename_i drop hop
        injection hop with hop
        injection hdrop with hdrop
        rw [logOf, hop]
        simp [eventOf, hdrop]
      · contradiction
    · contradiction
  · rintro ⟨i, h1, h2, h3⟩
    have hop := op_of_drop h3
    obtain ⟨e, he, rfl⟩ := h.cover i h1 h2 (by rw [hop]; simp)
    refine ⟨e, he, ?_⟩
    rw [if_pos h1, h.command e he h1]
    have hcmd : cmds e.seq = ⟨some (.dropCollection ⟨n⟩)⟩ := by rw [← hop]
    rw [hcmd]

omit [Ext] in
theorem foldl_max_eq {es : List Proto.WalEntry} {a top : Nat} (hle : ∀ e ∈ es, e.seq ≤ top)
    (ha : a ≤ top) (hh : top = a ∨ ∃ e ∈ es, e.seq = top) :
    es.foldl (fun s e => max s e.seq) a = top := by
  obtain ⟨hlow, hall⟩ := (foldl_max_le_iff Proto.WalEntry.seq es a _).mp le_rfl
  refine Nat.le_antisymm ((foldl_max_le_iff Proto.WalEntry.seq es a top).mpr ⟨ha, hle⟩) ?_
  rcases hh with rfl | ⟨e, he, rfl⟩
  · exact hlow
  · exact hall e he

/-! ## the whole directory -/

/-- What the catalog file and the write-ahead log hold: the file lists the
collections as of position `a`, except those a later operation drops. -/
structure Booked (cmds : Nat → Proto.Command) (top : Nat) (d : Disk) (a : Nat)
    (l : List (String × Listed)) (es : List Proto.WalEntry) : Prop where
  lists : d.Lists a l
  le : a ≤ top
  wal : WalDisk d.wal es top
  tail : Tail cmds a top es
  names : (l.map Prod.fst).Nodup
  uuids : (l.map fun p => p.2.uuid).Nodup
  listed : ∀ n, ¬ (logOf cmds n).DropIn a top →
    (l.lookup n).map (fun x => (x.uuid, x.mapping)) =
      ((logOf cmds n).stateAt a).map fun g => (g.uuid, g.info)
  created : ∀ p ∈ l, ¬ (logOf cmds p.1).DropIn a top → p.2.createdSeq ≤ top
  parked : Parked cmds a d

/-- What the data directory holds. -/
structure DiskInv (cmds : Nat → Proto.Command) (top : Nat) (d : Disk) (a : Nat)
    (l : List (String × Listed)) (es : List Proto.WalEntry) : Prop
    extends Booked cmds top d a l es where
  dirs : Dirs cmds a top d

/-- What the data directory holds when the last operation may have been cut. -/
structure CutInv (cmds : Nat → Proto.Command) (top : Nat) (d : Disk) (a : Nat)
    (l : List (String × Listed)) (es : List Proto.WalEntry) : Prop
    extends Booked cmds top d a l es where
  dirs : CutDirs cmds a top d

section
variable {d d' : Disk} {a : Nat} {l : List (String × Listed)} {es : List Proto.WalEntry}

theorem DiskInv.cut (h : DiskInv cmds top d a l es) : CutInv cmds top d a l es :=
  ⟨h.toBooked, h.dirs.cut⟩

theorem Booked.congr (h : Booked cmds top d a l es) (hpb : d'.catalogPb = d.catalogPb)
    (hwal : d'.wal = d.wal) (hparked : Parked cmds a d') : Booked cmds top d' a l es where
  lists := by
    rw [Disk.Lists, Catalog.loadSnapshot, hpb]
    exact h.lists
  le := h.le
  wal := hwal ▸ h.wal
  tail := h.tail
  names := h.names
  uuids := h.uuids
  listed := h.listed
  created := h.created
  parked := hparked

end

namespace CutInv

variable {d : Disk} {a : Nat} {l : List (String × Listed)} {es : List Proto.WalEntry}
  (h : CutInv cmds top d a l es)
include h

/-- A listed collection was there at position `a` and still is. -/
theorem born {n : String} {x : Listed} (hd : ¬ (logOf cmds n).DropIn a top)
    (hx : l.lookup n = some x) :
    ∃ j, (logOf cmds n).Born j x.uuid x.mapping ∧ j ≤ a ∧ ¬ (logOf cmds n).DropIn j top := by
  have hl := h.listed n hd
  rw [hx, Option.map_some] at hl
  obtain ⟨g, hg, hgx⟩ := Option.map_eq_some_iff.mp hl.symm
  rw [Prod.mk.injEq] at hgx
  obtain ⟨j, hb, hj, hnd⟩ := Log.exists_born hg
  rw [hgx.1, hgx.2] at hb
  refine ⟨j, hb, hj, fun hd' => ?_⟩
  rcases hd'.split a with h1 | h1
  · exact hnd h1
  · exact hd h1

/-- Its directory. -/
theorem index {n : String} {x : Listed} (hg : GoodLog cmds top) (hd : ¬ (logOf cmds n).DropIn a top)
    (hx : l.lookup n = some x) :
    ∃ j ix, (logOf cmds n).Born j x.uuid x.mapping ∧ j ≤ a ∧ ¬ (logOf cmds n).DropIn j top ∧
      d.index x.uuid = some ix ∧
        Saved (logOf cmds n) a top ⟨x.uuid, x.mapping, (logOf cmds n).docsFrom j top⟩ ix := by
  obtain ⟨j, hb, hj, hnd⟩ := h.born hd hx
  rcases h.dirs.saved n _ (hb.stateAt_eq (hj.trans h.le) hnd) with ⟨ix, hix, hs⟩ | ⟨_, j', hj', hb'⟩
  · exact ⟨j, ix, hb, hj, hnd, hix, hs⟩
  · have := hg.logDistinct n j j' _ _ _ hb.2.1 hb'.2.1
    omega

theorem openable (hg : GoodLog cmds top) : Openable d l (Catalog.droppedInTail a es) where
  names := h.names
  uuids := h.uuids
  index p hp hd := by
    rw [h.tail.mem_dropped] at hd
    obtain ⟨_, ix, _, _, _, hix, _⟩ := h.index hg hd ((lookup_eq_some_iff_mem h.names).mpr hp)
    rw [hix]
    rfl

/-- The map entries that opening makes, and the state at position `a`. -/
theorem opened {n : String} {e : Catalog.Entry}
    (hf : openedMap d l (Catalog.droppedInTail a es) n = some e) :
    ∃ x ix, ¬ (logOf cmds n).DropIn a top ∧ l.lookup n = some x ∧ d.index x.uuid = some ix ∧
      e = x.opened ix := by
  rw [openedMap] at hf
  split at hf
  · contradiction
  · rename_i hd
    rw [h.tail.mem_dropped] at hd
    obtain ⟨x, hx, he⟩ := Option.bind_eq_some_iff.mp hf
    obtain ⟨ix, hix, rfl⟩ := Option.map_eq_some_iff.mp he
    exact ⟨x, ix, hd, hx, hix, rfl⟩

variable {m : Catalog}
  (hm : ∀ n, m.collections.find? n = openedMap d l (Catalog.droppedInTail a es) n)
include hm

theorem sound (hg : GoodLog cmds top) : Sound d m where
  entry n e hf := by
    rw [hm n] at hf
    obtain ⟨x, ix, hd, hx, hix, rfl⟩ := h.opened hf
    obtain ⟨_, ix', _, _, _, hix', hs⟩ := h.index hg hd hx
    rw [hix, Option.some.injEq] at hix'
    subst hix'
    exact ⟨rfl, hs.schema, ix, hix, rfl, rfl⟩
  inj n n' e e' hf hf' hu := by
    rw [hm] at hf hf'
    obtain ⟨x, _, _, hx, _, rfl⟩ := h.opened hf
    obtain ⟨x', _, _, hx', _, rfl⟩ := h.opened hf'
    have hp := List.inj_on_of_nodup_map h.uuids (mem_of_lookup hx) (mem_of_lookup hx') hu
    exact congrArg Prod.fst hp

theorem owned (hg : GoodLog cmds top) : Owned cmds top d m where
  dir _ _ hix := h.dirs.dir hix
  live n e hf := by
    rw [hm n] at hf
    obtain ⟨x, ix, hd, hx, hix, rfl⟩ := h.opened hf
    obtain ⟨j, hb, _, _⟩ := h.born hd hx
    exact ⟨h.created (n, x) (mem_of_lookup hx) hd, j, hg.born_le hb, hb.2.1⟩

/-- **The slots of an opened directory** satisfy the replay invariant at the
position of the catalog file. -/
theorem slots (hg : GoodLog cmds top) (n : String) :
    Inv (logOf cmds n) a top (slotOf d m n) := by
  refine ⟨h.le, ?_, fun j u x hb h1 h2 hnd _ => ?_⟩
  · by_cases hd : (logOf cmds n).DropIn a top
    · exact .inl hd
    · have hopen : m.collections.find? n =
          (l.lookup n).bind fun x => (d.index x.uuid).map x.opened := by
        rw [hm n, openedMap, if_neg (by rwa [h.tail.mem_dropped])]
      cases hx : l.lookup n with
      | none =>
        refine .inr (.inl ⟨by rw [slotOf_live, hopen, hx]; rfl, ?_⟩)
        have hl := h.listed n hd
        rw [hx, Option.map_none] at hl
        exact Option.map_eq_none_iff.mp hl.symm
      | some x =>
        obtain ⟨j, ix, hb, hj, hnd, hix, hs⟩ := h.index hg hd hx
        have hlive : (slotOf d m n).live = some ⟨x.uuid, x.mapping, view ix.docs⟩ := by
          rw [slotOf_live, hopen, hx, Option.bind_some, hix]
          simp [Listed.opened, Catalog.Entry.toGen, Collection.fromIndex, Collection.pending,
            WriterOp.execAll, hix]
        have hstore : (slotOf d m n).stores x.uuid = some ix.toStore := by
          show (d.index x.uuid).map Index.toStore = _
          rw [hix]
          rfl
        obtain ⟨j', hb', _, _, hdocs, hcover⟩ := hs.docs
        obtain rfl : j = j' := hg.logDistinct n j j' _ _ _ hb.2.1 hb'.2.1
        have hmin : min j a = j := Nat.min_eq_left hj
        refine .inr (.inr ⟨_, ix.toStore, j, hlive, hstore, hb, hj.trans h.le, ?_, hs.mark_le,
          fun k => ?_, fun k => ?_⟩)
        · rwa [hmin]
        · show view ix.docs k = (logOf cmds n).docsFrom j (max a ix.mark) k ∨
            (logOf cmds n).Touched k (max a ix.mark) top
          rw [hdocs]
          rcases Nat.le_total a ix.mark with hle | hle
          · rw [Nat.max_eq_right hle]
            exact .inl rfl
          · rw [Nat.max_eq_left hle]
            by_cases ht : (logOf cmds n).Touched k (max j ix.mark) a
            · exact .inr (hcover k ht)
            · have hsame := Log.docsFrom_eq_of_not_touched (j := j) (by omega) ht
              rw [hsame]
              left
              rcases Nat.le_total j ix.mark with hjm | hjm
              · rw [Nat.max_eq_right hjm]
              · rw [Nat.max_eq_left hjm, Log.docsFrom_of_le hjm, Log.docsFrom_of_le le_rfl]
        · exact .inl (congrFun hdocs k)
  · -- the directory of a collection that is created behind `a`
    have hstore : (slotOf d m n).stores u = (d.index u).map Index.toStore := rfl
    rcases h.dirs.saved n _ (hb.stateAt_eq h2 hnd) with ⟨ix, hix, hs⟩ | ⟨hix, _⟩
    · obtain ⟨j', hb', _, _, hdocs, _⟩ := hs.docs
      obtain rfl : j = j' := hg.logDistinct n j j' _ _ _ hb.2.1 hb'.2.1
      rw [hstore, hix]
      rcases Nat.lt_or_ge ix.mark j with hlt | hge
      · have hnone : (logOf cmds n).docsFrom j ix.mark = fun _ => none := Log.docsFrom_of_le hlt.le
        exact .inl ⟨hlt, by rw [← hnone]; exact hdocs⟩
      · exact .inr ⟨hge, hs.mark_le, fun k => .inl (congrFun hdocs k)⟩
    · rw [hstore, hix]
      trivial

end CutInv

end

end Lumen
