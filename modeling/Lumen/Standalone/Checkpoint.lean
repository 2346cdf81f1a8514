import Lumen.Standalone.Inv

/-!
# Lumen.Standalone.Checkpoint

Checkpoints of a single node.  A commit saves what the log says of the
collection, so the directory keeps what it holds of the log at its old
position; the renamed catalog file moves the position to the end of the log,
and then the write-ahead log may go.
-/

namespace Lumen

open Lib Prog Replay

section
variable [Ext] {cmds : Nat → Proto.Command} {top a : Nat} {d d' : Disk} {m m' : Catalog}
  {l : List (String × Listed)} {es : List Proto.WalEntry}

/-- The catalog in memory is what the log says, and every directory belongs to
it. -/
structure Exact (cmds : Nat → Proto.Command) (top : Nat) (d : Disk) (m : Catalog) : Prop where
  sound : Sound d m
  live : ∀ n, (slotOf d m n).live = (logOf cmds n).stateAt top
  created : ∀ n e, m.collections.find? n = some e → e.createdSeq ≤ top
  noOrphans : NoOrphans d m

/-- A node that is running: its catalog and its directory hold the log up to
`top`; numbers behind `top` may have been drawn in vain. -/
structure Running (cmds : Nat → Proto.Command) (top : Nat) (d : Disk) (m : Catalog) : Prop where
  good : GoodLog cmds top
  exact : Exact cmds top d m
  disk : ∃ a l es, DiskInv cmds top d a l es ∧ WalLive d.wal m.wal es top m.seq
  room : Roomy d.wal top
  le : top ≤ m.seq

/-- A directory that opening brings the log's state back from. -/
def Recoverable (cmds : Nat → Proto.Command) (top : Nat) (d : Disk) : Prop :=
  GoodLog cmds top ∧ Roomy d.wal top ∧ ∃ a l es, DiskInv cmds top d a l es

theorem Running.recoverable (h : Running cmds top d m) : Recoverable cmds top d := by
  obtain ⟨a, l, es, hdisk, _⟩ := h.disk
  exact ⟨h.good, h.room, a, l, es, hdisk⟩

theorem GoodLog.mono {top' : Nat} (h : GoodLog cmds top) (hle : top ≤ top') :
    GoodLog cmds top' where
  distinct := h.distinct
  create := h.create
  document := h.document
  range i hi := ⟨(h.range i hi).1, (h.range i hi).2.trans hle⟩

/-- Numbers drawn in vain change nothing. -/
theorem Exact.mono {top' : Nat} (h : Exact cmds top d m) (hg : GoodLog cmds top)
    (hle : top ≤ top') : Exact cmds top' d m where
  sound := h.sound
  live n := by rw [h.live, hg.stateAt_eq hle]
  created n e hf := (h.created n e hf).trans hle
  noOrphans := h.noOrphans

omit [Ext] in
theorem Disk.index_congr (h : d'.dirs = d.dirs) : d'.index = d.index := by
  funext u
  rw [Disk.index, Disk.index, h]

/-- Only the directories and the map matter. -/
theorem Exact.congr (h : Exact cmds top d m) (hd : d'.dirs = d.dirs)
    (hm : m'.collections = m.collections) : Exact cmds top d' m' where
  sound :=
    { entry := fun n e hf => (h.sound.entry n e (hm ▸ hf)).congr (by rw [Disk.index_congr hd])
      inj := by rw [hm]; exact h.sound.inj }
  live n := by
    rw [← h.live n, slotOf_live, slotOf_live, hm]
    congr 1
    funext e
    rw [Catalog.Entry.toGen, Catalog.Entry.toGen, Collection.pending, Collection.pending,
      Disk.index_congr hd]
  created := by rw [hm]; exact h.created
  noOrphans := by rw [NoOrphans, hd, hm]; exact h.noOrphans

/-- The collection of a name, in the map and in the log. -/
theorem Exact.find? (h : Exact cmds top d m) {n : String} {g : Gen Uuid Mapping String Bytes}
    (hg : (logOf cmds n).stateAt top = some g) :
    ∃ e, m.collections.find? n = some e ∧ e.toGen d = g := by
  have hlive := h.live n
  rw [slotOf_live, hg] at hlive
  exact Option.map_eq_some_iff.mp hlive

theorem Exact.stateAt (h : Exact cmds top d m) {n : String} {e : Catalog.Entry}
    (hf : m.collections.find? n = some e) : (logOf cmds n).stateAt top = some (e.toGen d) := by
  rw [← h.live n, slotOf_live, hf]
  rfl

/-- The map is what the log says, up to the documents. -/
structure MapFollows (cmds : Nat → Proto.Command) (top : Nat) (m : Catalog) : Prop where
  live : ∀ n, (m.collections.find? n).map (fun e => (e.uuid, e.collection.mapping)) =
    ((logOf cmds n).stateAt top).map Gen.identity

theorem Exact.mapFollows (h : Exact cmds top d m) : MapFollows cmds top m where
  live n := by
    rw [← h.live n, slotOf_live, Option.map_map]
    rfl

namespace MapFollows

theorem stateAt (h : MapFollows cmds top m) {n : String} {e : Catalog.Entry}
    (hf : m.collections.find? n = some e) :
    ∃ g, (logOf cmds n).stateAt top = some g ∧ g.uuid = e.uuid ∧ g.info = e.collection.mapping := by
  have hlive := h.live n
  rw [hf, Option.map_some, eq_comm, Option.map_eq_some_iff] at hlive
  obtain ⟨g, hstate, hg⟩ := hlive
  exact ⟨g, hstate, congrArg Prod.fst hg, congrArg Prod.snd hg⟩

theorem find?_eq_none_iff (h : MapFollows cmds top m) {n : String} :
    m.collections.find? n = none ↔ (logOf cmds n).stateAt top = none := by
  rw [← Option.map_eq_none_iff, h.live n, Option.map_eq_none_iff]

end MapFollows

/-! ## commits -/

section
variable {name : String} {e : Catalog.Entry} {ix : Index} {mark : LogMark}

theorem Exact.committed (h : Exact cmds top d m) (hf : m.collections.find? name = some e)
    (hix : d.index e.uuid = some ix) :
    Exact cmds top (d.committed e ix mark) (m.committed name e ix) where
  sound := h.sound.committed hf hix mark
  live n := (slotOf_committed_live h.sound hf hix mark n).trans (h.live n)
  created n e' hf' := by
    rw [Catalog.find?_committed h.sound hf ix] at hf'
    split at hf'
    · injection hf' with hf'
      subst hf'
      exact h.created name e hf
    · exact h.created n e' hf'
  noOrphans := h.noOrphans.committed hix

/-- What a directory has saved when it was committed at the end of the log. -/
theorem saved_of_live {n : String} {g : Gen Uuid Mapping String Bytes}
    (hstate : (logOf cmds n).stateAt top = some g) (hle : a ≤ top)
    (hschema : ix.schema = g.info.toSchema) (hmark : ix.mark = top) (hdocs : view ix.docs = g.docs) :
    Saved (logOf cmds n) a top g ix := by
  obtain ⟨j, hb, hj, hnd⟩ := Log.exists_born hstate
  refine ⟨hschema, hmark.le, j, hb, hj, hnd, ?_, fun k ht => ?_⟩
  · have hst := hb.stateAt_eq hj hnd
    rw [hstate, Option.some.injEq] at hst
    rw [hdocs, hmark, hst]
  · obtain ⟨i, _, h1, h2, _⟩ := ht
    omega

theorem Parked.committed (h : Parked cmds a d) (hix : d.index e.uuid = some ix) :
    Parked cmds a (d.committed e ix mark) := by
  refine h.congr rfl fun u hu => .inl ?_
  rw [Disk.committed, Disk.contains_setDir] at hu
  rcases (Bool.or_eq_true _ _).mp hu with hu | hu
  · rw [of_decide_eq_true hu]
    exact Disk.contains_of_index hix
  · exact hu

/-- **Committing one collection at the end of the log** keeps what the
directory holds, at any position of the catalog file. -/
theorem DiskInv.committed (h : DiskInv cmds top d a l es) (hg : GoodLog cmds top)
    (hex : Exact cmds top d m) (hf : m.collections.find? name = some e)
    (hix : d.index e.uuid = some ix) (hmark : mark.index = top) :
    DiskInv cmds top (d.committed e ix mark) a l es := by
  have hstate := hex.stateAt hf
  have he := hex.sound.entry name e hf
  have hdocs : view (ix.committed e.collection mark).docs = (e.toGen d).docs := by
    simp [Index.committed, Catalog.Entry.toGen, Collection.pending, he.uuid, hix]
  have hschema : (ix.committed e.collection mark).schema = (e.toGen d).info.toSchema := by
    obtain ⟨ix', hix', hs, _⟩ := he.index
    rw [hix, Option.some.injEq] at hix'
    subst hix'
    exact hs.trans he.schema
  refine ⟨h.toBooked.congr rfl rfl (h.parked.committed hix), fun n g hng => ?_, fun u hu => ?_⟩
  · rw [Disk.committed, Disk.index_setDir]
    split
    · rename_i hu
      obtain ⟨rfl, _⟩ := hg.name_eq hng hstate hu
      rw [hstate, Option.some.injEq] at hng
      subst hng
      exact ⟨_, rfl, saved_of_live hstate h.le hschema hmark hdocs⟩
    · exact h.dirs.saved n g hng
  · rw [Disk.committed, Disk.contains_setDir] at hu
    rcases (Bool.or_eq_true _ _).mp hu with hu | hu
    · exact ⟨name, e.toGen d, hstate, (of_decide_eq_true hu).symm⟩
    · exact h.dirs.owned u hu

end

/-! ## the catalog file -/

theorem DiskInv.withTmp (h : DiskInv cmds top d a l es) (tmp : Option Bytes) :
    DiskInv cmds top { d with catalogTmp := tmp } a l es :=
  ⟨h.toBooked.congr rfl rfl h.parked, h.dirs.saved, h.dirs.owned⟩

omit [Ext] in
/-- A listing that has what the map has. -/
theorem lookup_listing (ord : IterOrder) (m : Catalog) (n : String) :
    ((ord.order m.collections.toList).map fun p => (p.1, p.2.listed)).lookup n =
      (m.collections.find? n).map Catalog.Entry.listed := by
  have hperm : ((ord.order m.collections.toList).map fun p => (p.1, p.2.listed)).Perm m.listing :=
    (ord.perm _).map _
  have hnd := (hperm.map Prod.fst).nodup_iff.mpr (nodup_listing_names m)
  refine Option.ext fun x => ?_
  rw [lookup_eq_some_iff_mem hnd, hperm.mem_iff, mem_listing, Option.map_eq_some_iff]

/-- **The renamed catalog file**: with every collection committed at the end of
the log, the directory holds the log from there. -/
theorem Exact.diskInv (h : Exact cmds top d m) {mark : LogMark} (hmark : mark.index = top)
    (hcommitted : ∀ n e, m.collections.find? n = some e → e.Committed d mark)
    (hparked : Parked cmds top d) (hw : WalDisk d.wal es top)
    (hsorted : es.Pairwise fun e e' => e.seq < e'.seq) (hle : ∀ e ∈ es, e.seq ≤ top)
    (ord : IterOrder) :
    DiskInv cmds top (d.withCatalog (Catalog.snapshotProto ord m top)) top
      ((ord.order m.collections.toList).map fun p => (p.1, p.2.listed)) es := by
  have hperm : ((ord.order m.collections.toList).map fun p => (p.1, p.2.listed)).Perm m.listing :=
    (ord.perm _).map _
  refine ⟨⟨Disk.lists_withCatalog ord m top, le_rfl, hw, ⟨hsorted, hle, fun e he hlt => ?_,
    fun i h1 h2 => ?_, .inl rfl⟩, ?_, ?_, fun n _ => ?_, fun p hp _ => ?_, hparked⟩,
    fun n g hng => ?_, fun u hu => ?_⟩
  · have := hle e he
    omega
  · omega
  · exact (hperm.map Prod.fst).nodup_iff.mpr (nodup_listing_names m)
  · exact (hperm.map fun p => p.2.uuid).nodup_iff.mpr h.sound.nodup_listing_uuids
  · rw [lookup_listing, ← h.live n, slotOf_live, Option.map_map, Option.map_map]
    rfl
  · obtain ⟨q, hq, rfl⟩ := List.mem_map.mp hp
    exact h.created q.1 q.2 (OrdMap.find?_eq_some_iff.mpr (ord.mem.mp hq))
  · obtain ⟨e, hf, rfl⟩ := h.find? hng
    have he := h.sound.entry n e hf
    obtain ⟨ix, hix, hschema, _⟩ := he.index
    obtain ⟨hempty, hpayload⟩ := hcommitted n e hf
    rw [hix, Option.bind_some] at hpayload
    refine ⟨ix, hix, saved_of_live hng le_rfl (hschema.trans he.schema) ?_ ?_⟩
    · rw [Index.mark, hpayload]
      exact hmark
    · simp [Catalog.Entry.toGen, Collection.pending, he.uuid, hix, hempty, WriterOp.execAll]
  · obtain ⟨n, e, hf, he⟩ := h.noOrphans u hu
    exact ⟨n, e.toGen d, h.stateAt hf, he⟩

/-- With the position at the end of the log, any part of the write-ahead log
may be missing. -/
theorem DiskInv.trimmed {es' : List Proto.WalEntry} {dir : LogDir} (h : DiskInv cmds top d top l es)
    (hes : es' <:+ es) (hw : WalDisk dir es' top) :
    DiskInv cmds top { d with wal := dir } top l es' where
  lists := h.lists
  le := h.le
  wal := hw
  tail :=
    { sorted := h.tail.sorted.sublist hes.sublist
      le := fun e he => h.tail.le e (hes.subset he)
      command := fun e he hlt => absurd (h.tail.le e (hes.subset he)) (by omega)
      cover := fun i h1 h2 => by omega
      highest := .inl rfl }
  names := h.names
  uuids := h.uuids
  listed := h.listed
  created := h.created
  parked := h.parked
  dirs := ⟨h.dirs.saved, h.dirs.owned⟩

/-! ## the checkpoint -/

variable {E : Error → Disk → Catalog → Prop} {C : Disk → Prop} {Q : Unit → Disk → Catalog → Prop}

/-- The invariant of the commit loop: the catalog stays what the log says, and
the directory keeps whatever it holds of the log. -/
structure Committing (cmds : Nat → Proto.Command) (top : Nat) (d₀ : Disk) (m₀ : Catalog) (d : Disk)
    (m : Catalog) : Prop where
  exact : Exact cmds top d m
  parked : Parked cmds top d
  keeps : ∀ a l es, DiskInv cmds top d₀ a l es → DiskInv cmds top d a l es
  pb : d.catalogPb = d₀.catalogPb
  wal : d.wal = d₀.wal
  log : m.wal = m₀.wal
  seq : m.seq = m₀.seq

/-- **A checkpoint** of a catalog that is what the log says ends with the
directory holding the log from its end.  A crash before the catalog file is
renamed leaves what the directory held; one behind it leaves the end.  The
node runs on if its write-ahead log has room for the next number. -/
theorem Exact.wp_checkpoint (h : Exact cmds m.seq d m) (hg : GoodLog cmds m.seq)
    (hparked : Parked cmds m.seq d) (hw : WalLive d.wal m.wal es m.seq m.seq)
    (hsorted : es.Pairwise fun e e' => e.seq < e'.seq) (hle : ∀ e ∈ es, e.seq ≤ m.seq)
    (ord : IterOrder)
    (hbefore : ∀ d', d'.catalogPb = d.catalogPb → d'.wal = d.wal →
      (∀ a l es, DiskInv cmds m.seq d a l es → DiskInv cmds m.seq d' a l es) → C d')
    (hbehind : ∀ d' l es', DiskInv cmds m.seq d' m.seq l es' →
      (Roomy d.wal m.seq → Roomy d'.wal m.seq) → C d')
    (hQ : ∀ d' m', Exact cmds m.seq d' m' → (Roomy d.wal m.seq → Running cmds m.seq d' m') →
      m'.seq = m.seq → (∀ n e, m'.collections.find? n = some e → e.collection.writer = []) →
      Q () d' m') : wp (Catalog.checkpoint ord) Q E C d m := by
  have hstart : Committing cmds m.seq d m d m :=
    ⟨h, hparked, fun _ _ _ hd => hd, rfl, rfl, rfl, rfl⟩
  rw [Catalog.checkpoint, wp_bind, wp_getMem, wp_bind, Catalog.commitAll, wp_bind, wp_getMem,
    wp_bind]
  refine wp_imp (Catalog.wp_commitLoop (Committing cmds m.seq d m) (fun _ _ hI => hI.exact.sound)
    (fun d₁ m₁ name e ix hI hf hix => ?_)
    (fun d₁ m₁ hI => hbefore d₁ hI.pb hI.wal hI.keeps) (ord.perm _) hstart) fun _ d₁ m₁ hpost => ?_
  · exact ⟨hI.exact.committed hf hix, hI.parked.committed hix, fun a l es hd =>
      (hI.keeps a l es hd).committed hg hI.exact hf hix rfl, hI.pb, hI.wal, hI.log, hI.seq⟩
  · obtain ⟨hI, hcommitted⟩ := hpost
    have hw₁ : WalLive d₁.wal m₁.wal es m.seq m.seq := by rwa [hI.wal, hI.log]
    have hd := hI.exact.diskInv rfl hcommitted hI.parked hw₁.disk hsorted hle ord
    refine Catalog.wp_persist ord m.seq
      (fun tmp => hbefore _ hI.pb hI.wal fun a l es hold => (hI.keeps a l es hold).withTmp tmp)
      (hbehind _ _ _ hd fun hroom => hI.wal ▸ hroom) ?_
    refine Catalog.wp_onWal _ (hw₁.wp_trim (fun dir es' hes hwal hroom => ?_)
      fun dir log es' hes hwal hroom => ?_)
    · exact hbehind _ _ _ (hd.trimmed hes hwal) fun hr => hroom (hI.wal ▸ hr)
    · refine hQ _ _ (hI.exact.congr rfl rfl) (fun hr => ?_) hI.seq
        fun n e hf => (hcommitted n e hf).writer
      obtain ⟨hr', hlive⟩ := hroom (hI.wal ▸ hr)
      refine ⟨hg, hI.exact.congr rfl rfl, ⟨m.seq, _, es', hd.trimmed hes hwal, ?_⟩, hr', hI.seq.ge⟩
      rw [hI.seq]
      exact hlive

end

end Lumen
