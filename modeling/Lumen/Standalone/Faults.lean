import Lumen.Standalone.Recovery

/-!
# Lumen.Standalone.Faults

Operations that fail once their record is in the write-ahead log: the sync of the
record fails, or a step behind it.

The record stays, so memory and a replay part ways.  A document operation that
failed leaves its document unsettled, until an operation on it is acknowledged; a create
or drop that failed leaves memory without it, and a crash would bring it back, until
the next checkpoint.  `failed_operation_keeps_acknowledged` asks that neither is so for
what clients were told when the node crashes.
-/

namespace Lumen

open Lib Prog Replay

section
variable [Ext]

/-! ## failures -/

/-- What a section does behind its record, in order: make the directory and the
index in it; take the collection out of the map and remove its files and its
directory; buffer the deletion of the old version of the document. -/
def Section.actions : Section → List (CatalogM Unit)
  | .create _ mapping minted =>
    [step fun d => d.setDir minted .empty,
      step fun d => d.setDir minted .files,
      step fun d => d.setDir minted (.index ⟨mapping.toSchema, [], none⟩)]
  | .drop name uuid =>
    [modifyMem fun m => { m with collections := m.collections.erase name },
      step fun d => if d.dirs.contains uuid then d.setDir uuid .files else d,
      step fun d => if d.dirs.contains uuid then d.setDir uuid .empty else d,
      step fun d => d.removeDir uuid]
  | .upsert name target id _ _ =>
    [do
      let _ ← Catalog.applyDelete name target id
      pure ()]
  | .delete _ _ _ => []

/-- The call of an operation that fails behind its record, when the first `n`
things it does there are done. -/
def Op.callBroken (n : Nat) (failure : Error) (minted : Uuid) (op : Op) : CatalogM Unit :=
  op.callWith (fun s => do
    let _ ← s.log
    forEach (s.actions.take n) fun act => act
    Prog.throw failure) minted

/-! ## what clients were told -/

/-- What the acknowledged operations amount to, the documents an acknowledged
operation was on, and those an operation has failed on since. -/
structure Ledger where
  spec : Spec
  told : Set (String × String)
  unsettled : Set (String × String)

/-- Nothing was told yet. -/
def Ledger.empty : Ledger := ⟨fun _ => none, ∅, ∅⟩

/-- An acknowledged operation settles what it overwrites; when a collection is dropped
its documents are no longer spoken of. -/
def Op.settle (minted : Uuid) (op : Op) (b : Ledger) : Ledger where
  spec := op.apply minted b.spec
  told := {p | p ∈ b.told ∧ ¬ op.Overwrites minted p.1 p.2 ∨
    op.isDocument ∧ op.Overwrites minted p.1 p.2}
  unsettled := {p | p ∈ b.unsettled ∧ ¬ op.Overwrites minted p.1 p.2}

/-- A failed operation leaves its document unsettled. -/
def Op.loosen (minted : Uuid) (op : Op) (b : Ledger) : Ledger :=
  { b with unsettled := {p | p ∈ b.unsettled ∨ op.isDocument ∧ op.Overwrites minted p.1 p.2} }

/-- What clients were told of is settled. -/
def Ledger.Settled (b : Ledger) : Prop := ∀ p ∈ b.told, p ∉ b.unsettled

/-- A catalog that shows every collection with its acknowledged mapping, and every
document as the last operation that was acknowledged on it left it. -/
structure Ledger.KeptBy (b : Ledger) (s : Spec) : Prop where
  mapping : ∀ name, (s name).map Prod.fst = (b.spec name).map Prod.fst
  source : ∀ name id, (name, id) ∈ b.told → s.source name id = b.spec.source name id

/-- A catalog that differs from what was acknowledged in unsettled documents only. -/
structure Ledger.Allows (b : Ledger) (s : Spec) : Prop where
  mapping : ∀ name, (s name).map Prod.fst = (b.spec name).map Prod.fst
  source : ∀ name id, (name, id) ∉ b.unsettled → s.source name id = b.spec.source name id

end

/-- What has failed since the last checkpoint. -/
inductive Trouble where
  | nothing
  | documents
  | collections
  deriving DecidableEq, Repr

/-- The trouble after an operation has failed. -/
def Trouble.worse (t : Trouble) (op : Op) : Trouble :=
  if op.isDocument then if t = .collections then .collections else .documents else .collections

section
variable [Ext]

/-- Runs of a node whose operations may fail behind their record.  In a `careful`
run a create or drop fails before it does anything else, and is followed by a
checkpoint before the next crash; an operation that fails on a document clients were
told of is followed by one that is acknowledged on it, or drops its collection, before
the next crash; no checkpoint is cut while an operation has failed since the last one,
or right after a number was drawn in vain; and a cut `open` was replaying a safe
tail. -/
inductive FaultyRun (careful : Prop) :
    Disk → Option Catalog → Ledger → List Uuid → Trouble → Prop where
  | start : FaultyRun careful .empty none .empty [] .nothing
  | opened {d d' : Disk} {m' : Catalog} {b : Ledger} {used : List Uuid} {t : Trouble}
      (ord : IterOrder) (prev : FaultyRun careful d none b used t)
      (h : (Catalog.openCatalog ord).run d .closed = (.ok (), d', m')) :
      FaultyRun careful d' (some m') b used .nothing
  | acknowledged {d d' : Disk} {m m' : Catalog} {b : Ledger} {used : List Uuid} {t : Trouble}
      (op : Op) (minted : Uuid) (prev : FaultyRun careful d (some m) b used t)
      (hnew : minted ∉ used) (h : (op.call minted).run d m = (.ok (), d', m')) :
      FaultyRun careful d' (some m') (op.settle minted b) (minted :: used) t
  | refused {d d' : Disk} {m m' : Catalog} {b : Ledger} {used : List Uuid} {t : Trouble}
      {err : Error} (op : Op) (minted : Uuid) (prev : FaultyRun careful d (some m) b used t)
      (hnew : minted ∉ used) (h : (op.call minted).run d m = (.error err, d', m')) :
      FaultyRun careful d' (some m') b (minted :: used) t
  | failed {d d' : Disk} {m m' : Catalog} {b : Ledger} {used : List Uuid} {t : Trouble}
      {err : Error} (op : Op) (minted : Uuid) (n : Nat) (failure : Error)
      (prev : FaultyRun careful d (some m) b used t) (hnew : minted ∉ used)
      (h : (op.callBroken n failure minted).run d m = (.error err, d', m'))
      (hcareful : careful → op.isDocument ∨ n = 0) :
      FaultyRun careful d' (some m') (op.loosen minted b) (minted :: used) (t.worse op)
  | checkpoint {d d' : Disk} {m m' : Catalog} {b : Ledger} {used : List Uuid} {t : Trouble}
      (ord : IterOrder) (prev : FaultyRun careful d (some m) b used t)
      (h : (Catalog.checkpoint ord).run d m = (.ok (), d', m')) :
      FaultyRun careful d' (some m') b used .nothing
  | stopped {d : Disk} {m : Catalog} {b : Ledger} {used : List Uuid} {t : Trouble}
      (prev : FaultyRun careful d (some m) b used t)
      (hcareful : careful → t ≠ .collections ∧ b.Settled) :
      FaultyRun careful d none b used .nothing
  | cut {d d' : Disk} {m : Catalog} {b : Ledger} {used : List Uuid} {t : Trouble}
      (ord : IterOrder) (prev : FaultyRun careful d (some m) b used t)
      (hcut : d' ∈ (Catalog.checkpoint ord).crashes d m)
      (hcareful : careful → (t = .nothing ∧
        (d.resumesAt = some m.seq ∨ d'.appliedSeq = some m.seq)) ∧ b.Settled) :
      FaultyRun careful d' none b used .nothing
  | cutOpen {d d' : Disk} {b : Ledger} {used : List Uuid} {t : Trouble} (ord : IterOrder)
      (prev : FaultyRun careful d none b used t)
      (hcut : d' ∈ (Catalog.openCatalog ord).crashes d .closed) (hcareful : careful → TailOk d) :
      FaultyRun careful d' none b used .nothing

/-! ## the ledger and the logs -/

variable {b : Ledger} {s s' : Spec} {minted : Uuid}

omit [Ext] in
theorem Ledger.Allows.keptBy (h : b.Allows s) (hb : b.Settled) : b.KeptBy s :=
  ⟨h.mapping, fun name id htold => h.source name id (hb _ htold)⟩

/-- An operation on a document keeps the mappings. -/
theorem Op.map_fst_document {op : Op} (hdoc : op.isDocument = true) (s : Spec) (name : String) :
    (op.apply minted s name).map Prod.fst = (s name).map Prod.fst := by
  cases op with
  | create n mapping => contradiction
  | drop n => contradiction
  | upsert n i source => by_cases hn : name = n <;> simp [Op.apply, hn, Function.comp_def]
  | delete n i => by_cases hn : name = n <;> simp [Op.apply, hn, Function.comp_def]

/-- The mappings after an operation depend on those before it only. -/
theorem Op.map_fst_apply (op : Op) (h : ∀ name, (s name).map Prod.fst = (s' name).map Prod.fst)
    (name : String) :
    (op.apply minted s name).map Prod.fst = (op.apply minted s' name).map Prod.fst := by
  cases op with
  | create n mapping =>
    by_cases hn : name = n
    · simp only [Op.apply, hn, Function.update_self, Option.map_or, h n]
    · simp [Op.apply, hn, h]
  | drop n => by_cases hn : name = n <;> simp [Op.apply, hn, h]
  | upsert n i source => rw [Op.map_fst_document rfl, Op.map_fst_document rfl, h]
  | delete n i => rw [Op.map_fst_document rfl, Op.map_fst_document rfl, h]

/-- What an operation leaves of a document it overwrites depends on the mappings only. -/
theorem Op.source_apply_of_overwrites {op : Op} {name id : String}
    (ho : op.Overwrites minted name id) (h : (s name).map Prod.fst = (s' name).map Prod.fst) :
    (op.apply minted s).source name id = (op.apply minted s').source name id := by
  have hthere : ∀ v : Option Bytes, ((s name).bind fun _ => v) = (s' name).bind fun _ => v := by
    intro v
    simpa [Option.bind_map, Function.comp_def] using congrArg (Option.bind · fun _ => v) h
  cases op with
  | create n mapping => exact ho.elim
  | drop n =>
    obtain rfl : n = name := ho
    simp [Op.apply, Spec.source]
  | upsert n i source =>
    obtain ⟨rfl, rfl⟩ := ho
    simpa only [Op.apply, Spec.source_edit, and_self, if_true] using hthere (some source)
  | delete n i =>
    obtain ⟨rfl, rfl⟩ := ho
    simpa only [Op.apply, Spec.source_edit, and_self, if_true] using hthere none

theorem Ledger.Allows.settle (h : b.Allows s) (op : Op) :
    (op.settle minted b).Allows (op.apply minted s) where
  mapping := op.map_fst_apply h.mapping
  source name id hu := by
    by_cases ho : op.Overwrites minted name id
    · exact Op.source_apply_of_overwrites ho (h.mapping name)
    · have hname : (name, id) ∉ b.unsettled := fun hb => hu ⟨hb, ho⟩
      simp only [Op.settle, Op.source_apply_of_not_overwrites ho, h.source name id hname]

/-- A failed operation may have done nothing. -/
theorem Ledger.Allows.unchanged (h : b.Allows s) (op : Op) : (op.loosen minted b).Allows s :=
  ⟨h.mapping, fun name id hu => h.source name id fun hb => hu (.inl hb)⟩

/-- An operation on a document may come back, and another on the same document may have
been done. -/
theorem Ledger.Allows.comesBack (h : b.Allows s) {op done : Op} (hdoc : op.isDocument = true)
    (hdone : done.isDocument = true)
    (hsame : ∀ name id, done.Overwrites minted name id → op.Overwrites minted name id) :
    (op.loosen minted b).Allows (done.apply minted s) where
  mapping name := (Op.map_fst_document hdone s name).trans (h.mapping name)
  source name id hu := by
    have ho : ¬ done.Overwrites minted name id := fun ho => hu (.inr ⟨hdoc, hsame name id ho⟩)
    exact (Op.source_apply_of_not_overwrites ho s).trans
      (h.source name id fun hb => hu (.inl hb))

/-! ## memory and the write-ahead log -/

variable {live disk : Nat → Proto.Command} {top seq : Nat} {cmd lcmd : Proto.Command}
  {es : List Proto.WalEntry} {d d' d₁ : Disk} {m m' m₁ : Catalog} {t t' : Trouble}
  {used : List Uuid} {ord : IterOrder} {sp : Spec}

/-- The catalog and its directories are what was done. -/
structure Lively (live : Nat → Proto.Command) (top : Nat) (d : Disk) (m : Catalog) : Prop where
  good : GoodLog live top
  exact : Exact live top d m
  dirs : Dirs live 0 top d
  parked : Parked live top d

/-- A directory that holds what was logged; the map differs from it in documents
only. -/
structure Backed (disk : Nat → Proto.Command) (top : Nat) (es : List Proto.WalEntry) (d : Disk)
    (m : Catalog) : Prop where
  good : GoodLog disk top
  follows : MapFollows disk top m
  disk : ∃ a l, DiskInv disk top d a l es

/-- A node on which operations may have failed: `live` is what was done, and `disk`
what was logged. -/
structure Straying (t : Trouble) (live disk : Nat → Proto.Command) (top : Nat)
    (es : List Proto.WalEntry) (d : Disk) (m : Catalog) : Prop extends Lively live top d m where
  wal : WalLive d.wal m.wal es top m.seq
  sorted : es.Pairwise fun e e' => e.seq < e'.seq
  seqs : ∀ e ∈ es, e.seq ≤ top
  room : Roomy d.wal top
  le : top ≤ m.seq
  backed : t ≠ .collections → Backed disk top es d m
  same : t = .nothing → disk = live

theorem Dirs.zero {cmds : Nat → Proto.Command} {a : Nat} (h : Dirs cmds a top d) :
    Dirs cmds 0 top d where
  saved n g hstate := by
    obtain ⟨ix, hix, hs⟩ := h.saved n g hstate
    obtain ⟨j, hb, hj, hnd, hdocs, _⟩ := hs.docs
    refine ⟨ix, hix, hs.schema, hs.mark_le, j, hb, hj, hnd, hdocs, fun k ht => ?_⟩
    obtain ⟨i, _, h1, h2, _⟩ := ht
    omega
  owned := h.owned

theorem Running.straying (h : Running live top d m) :
    ∃ es, Straying .nothing live live top es d m := by
  obtain ⟨a, l, es, hd, hw⟩ := h.disk
  exact ⟨es, ⟨h.good, h.exact, hd.dirs.zero, hd.parked.mono hd.le⟩, hw, hd.tail.sorted, hd.tail.le,
    h.room, h.le, fun _ => ⟨h.good, h.exact.mapFollows, a, l, hd⟩, fun _ => rfl⟩

theorem Straying.running (h : Straying .nothing live disk top es d m) : Running live top d m := by
  obtain ⟨a, l, hd⟩ := (h.backed (by simp)).disk
  rw [h.same rfl] at hd
  exact ⟨h.good, h.exact, ⟨a, l, es, hd, h.wal⟩, h.room, h.le⟩

theorem Straying.wasted (h : Straying t live disk top es d m) :
    Straying t live disk top es d { m with seq := m.seq + 1 } := by
  refine ⟨⟨h.good, h.exact.congr rfl rfl, h.dirs, h.parked⟩, h.wal.mono (Nat.le_succ m.seq),
    h.sorted, h.seqs, h.room, Nat.le_succ_of_le h.le, fun ht => ?_, h.same⟩
  obtain ⟨hg, hf, hd⟩ := h.backed ht
  exact ⟨hg, ⟨hf.live⟩, hd⟩

/-- The effect of an operation on what was done. -/
theorem Lively.effect (h : Lively live top d m) (hle : top ≤ seq) (hl : Loggable live top lcmd)
    (he : Effect ord (seq + 1) lcmd d m d₁ m₁) (hdirs : d'.dirs = d₁.dirs)
    (hq : d'.quarantined = d.quarantined) : Lively (grow live seq lcmd) (seq + 1) d' m₁ := by
  have hg := h.good.grow hle hl
  have he' : Effect ord (seq + 1) (grow live seq lcmd (seq + 1)) d m d₁ m₁ := grow_self ▸ he
  refine ⟨hg, (Exact.effect h.good hle h.exact h.dirs hl he).congr hdirs rfl,
    (Dirs.effect h.good hle h.dirs (Nat.zero_le top) hl h.exact.mapFollows he).congr hdirs, ?_⟩
  have hp : Parked (grow live seq lcmd) top d := Parked.grow hle h.parked le_rfl
  refine ((hp.effect hg (Nat.lt_succ_of_le hle) he').congr (hq.trans he.quarantined.symm)
    fun u hu => .inl (hdirs ▸ hu)).mono (hle.trans (Nat.le_succ seq))

/-- The record is in the write-ahead log, and nothing else has happened. -/
structure Appended (t : Trouble) (live disk : Nat → Proto.Command) (top seq : Nat)
    (cmd : Proto.Command) (es : List Proto.WalEntry) (d : Disk) (m : Catalog) : Prop
    extends Lively live top d m where
  le : top ≤ seq
  number : m.seq = seq + 1
  wal : WalLive d.wal m.wal (es ++ [⟨seq + 1, some cmd⟩]) (seq + 1) (seq + 1)
  sorted : es.Pairwise fun e e' => e.seq < e'.seq
  seqs : ∀ e ∈ es, e.seq ≤ top
  room : Roomy d.wal (seq + 1)
  logged : t ≠ .collections → GoodLog disk top ∧ MapFollows disk top m ∧ ∃ a l, a ≤ top ∧
    Dirs disk a top d ∧ Booked (grow disk seq cmd) (seq + 1) d a l (es ++ [⟨seq + 1, some cmd⟩])
  same : t = .nothing → disk = live

/-- **Logging a section**: it is refused, with a number drawn in vain, or its record
is there. -/
theorem Straying.wp_log (h : Straying t live disk top es d m) (s : Section) :
    wp s.log (fun n d' m' => n = m.seq + 1 ∧ m'.collections = m.collections ∧
        Appended t live disk top m.seq ⟨some s.op⟩ es d' m')
      (fun _ d' m' => d' = d ∧ Straying t live disk top es d' m') (fun _ => True) d m := by
  simp only [Section.log, wp_bind, Catalog.nextSeq, wp_modifyMem, wp_getMem, wp_pure]
  refine Catalog.wp_onWal _ (h.wal.wp_append (h.room.mono h.le) h.le rfl (fun _ _ => trivial)
    (fun _ _ => ⟨rfl, h.wasted⟩) fun dir log _ hw hroom => ⟨trivial, rfl, ?_⟩)
  refine ⟨⟨h.good, h.exact.congr rfl rfl, h.dirs.congr rfl, h.parked⟩, h.le, rfl, hw, h.sorted,
    h.seqs, hroom, fun ht => ?_, h.same⟩
  obtain ⟨hg, hf, a, l, hd⟩ := h.backed ht
  exact ⟨hg, ⟨hf.live⟩, a, l, hd.le, hd.dirs.congr rfl,
    Booked.grow hg h.le hd.toBooked rfl hw.disk (Parked.grow h.le hd.parked hd.le)⟩

/-- **Behind the record**: `lcmd` is what was done.  Unless collections are in
trouble now, the operation that was logged would have left the same directories. -/
theorem Appended.straying (h : Appended t live disk top seq cmd es d m)
    (hl : Loggable live top lcmd) (he : Effect ord (seq + 1) lcmd d m d₁ m')
    (hdirs : d'.dirs = d₁.dirs) (hpb : d'.catalogPb = d.catalogPb) (hwal : d'.wal = d.wal)
    (hq : d'.quarantined = d.quarantined)
    (hlogged : t' ≠ .collections → t ≠ .collections ∧ Loggable disk top cmd ∧
      (∃ d₂ m₂, Effect ord (seq + 1) cmd d m d₂ m₂ ∧ d'.dirs = d₂.dirs) ∧
      ∀ n s s', Option.map Gen.identity s = Option.map Gen.identity s' →
        ((eventOf n lcmd).step s).map Gen.identity = ((eventOf n cmd).step s').map Gen.identity)
    (hsame : t' = .nothing → t = .nothing ∧ lcmd = cmd) :
    Straying t' (grow live seq lcmd) (grow disk seq cmd) (seq + 1)
      (es ++ [⟨seq + 1, some cmd⟩]) d' m' := by
  have hlive := h.toLively.effect h.le hl he hdirs hq
  refine ⟨hlive, ?_, ?_, ?_, hwal ▸ h.room, ?_, fun ht => ?_, fun ht => ?_⟩
  · rw [hwal, he.mem.1, he.mem.2, h.number]
    exact h.wal
  · refine List.pairwise_append.mpr ⟨h.sorted, List.pairwise_singleton _ _, fun e he e' he' => ?_⟩
    rw [List.mem_singleton] at he'
    have := h.seqs e he
    have := h.le
    rw [he']
    show e.seq < seq + 1
    omega
  · intro e he
    rcases List.mem_append.mp he with he | he
    · have := h.seqs e he
      have := h.le
      omega
    · rw [List.mem_singleton.mp he]
  · rw [he.mem.2, h.number]
  · obtain ⟨ht₀, hld, ⟨d₂, m₂, he₂, hdirs₂⟩, hshape⟩ := hlogged ht
    obtain ⟨hg₀, hf₀, a, l, ha, hd, hb⟩ := h.logged ht₀
    have hg := hg₀.grow h.le hld
    have he₂' : Effect ord (seq + 1) (grow disk seq cmd (seq + 1)) d m d₂ m₂ := grow_self ▸ he₂
    refine ⟨hg, ⟨fun n => ?_⟩, a, l, hb.congr hpb hwal ?_, ?_⟩
    · -- the logs agreed up to documents, and still do
      rw [hlive.exact.mapFollows.live n, h.good.stateAt_grow h.le, hg₀.stateAt_grow h.le]
      exact hshape n _ _ ((h.exact.mapFollows.live n).symm.trans (hf₀.live n))
    · exact (hb.parked.effect hg (Nat.lt_succ_of_le (ha.trans h.le)) he₂').congr
        (hq.trans he₂.quarantined.symm) fun u hu => .inl (hdirs₂ ▸ hu)
    · exact (Dirs.effect hg₀ h.le hd ha hld hf₀ he₂).congr hdirs₂
  · obtain ⟨ht₀, rfl⟩ := hsame ht
    rw [h.same ht₀]

/-! ## sections -/

variable {s : Section}

/-- **A section** that is not broken off. -/
theorem Straying.wp_section (h : Straying t live disk top es d m) (hfits : s.Fits m)
    (hlive : s.Fresh live) (hdisk : s.Fresh disk) :
    wp (s.log >>= s.finish)
      (fun _ d' m' => Straying t (grow live m.seq ⟨some s.op⟩) (grow disk m.seq ⟨some s.op⟩)
        (m.seq + 1) (es ++ [⟨m.seq + 1, some ⟨some s.op⟩⟩]) d' m')
      (fun _ d' m' => Straying t live disk top es d' m') (fun _ => True) d m := by
  rw [wp_bind]
  refine wp_mono _ (h.wp_log s) (fun n d₁ m₁ hpost => ?_) (fun _ _ _ he => he.2) fun _ hc => hc
  obtain ⟨rfl, hmap, happ⟩ := hpost
  have hfits₁ := hfits.congr hmap
  refine Section.wp_finish hfits₁ happ.exact.sound (happ.exact.mark_lt happ.le happ.dirs)
    (fun name mapping minted hs => ?_) (fun _ _ _ _ => trivial)
    fun d₂ m₂ d' heff hdirs hpb hwal hq => ⟨trivial, ?_⟩
  · subst hs
    exact happ.dirs.not_contains hlive
  · refine happ.straying (Section.loggable hfits₁ hlive happ.exact.mapFollows) heff hdirs hpb hwal
      hq (fun ht => ?_) fun ht => ⟨ht, rfl⟩
    exact ⟨ht, Section.loggable hfits₁ hdisk (happ.logged ht).2.1, ⟨d₂, m₂, heff, hdirs⟩,
      fun n _ _ => Event.step_identity_congr _⟩

/-- A document operation that was logged would have left the directories. -/
theorem Section.document_effect (hdoc : s.dir? = none) (hfits : s.Fits m)
    (hmark : ∀ n, (slotOf d m n).mark < seq + 1) :
    ∃ m₂, Effect .stored (seq + 1) ⟨some s.op⟩ d m d m₂ := by
  cases s with
  | create name mapping minted => contradiction
  | drop name uuid => contradiction
  | upsert name target id source parsed =>
    obtain ⟨e, hfind, _⟩ := hfits
    exact ⟨_, .edit name id (some source) e [.deleteTerm id, .addDocument ⟨id, source, []⟩]
      (fun n => rfl) hfind (hmark name) (view_replace ⟨id, source, []⟩)⟩
  | delete name target id =>
    obtain ⟨e, hfind, _⟩ := hfits
    exact ⟨_, .edit name id none e [.deleteTerm id] (fun n => rfl) hfind (hmark name)
      fun docs => view_deleteTerm id docs⟩

theorem Section.document_disk (hdoc : s.dir? = none) {i : Nat}
    (he : Effect ord i ⟨some s.op⟩ d m d₁ m₁) : d₁ = d := by
  cases he with
  | same h => rfl
  | create c u x ix hop hu hx hfree hix => cases s <;> simp_all [Section.op, Section.dir?]
  | drop name e hop hfind => cases s <;> simp_all [Section.op, Section.dir?]
  | edit name id v e ops hev hfind hmark hops => rfl

/-- A document operation changes documents only. -/
theorem Section.document_identity (hdoc : s.dir? = none) (n : String)
    (g : Option (Gen Uuid Mapping String Bytes)) :
    ((eventOf n ⟨some s.op⟩).step g).map Gen.identity = g.map Gen.identity := by
  cases s with
  | create name mapping minted => contradiction
  | drop name uuid => contradiction
  | upsert name target id source parsed =>
    refine Event.step_identity (fun u x => ?_) ?_ g <;>
      simp only [eventOf, Section.op] <;> split <;> simp
  | delete name target id =>
    refine Event.step_identity (fun u x => ?_) ?_ g <;>
      simp only [eventOf, Section.op] <;> split <;> simp

theorem loggable_none (cmds : Nat → Proto.Command) (top : Nat) : Loggable cmds top ⟨none⟩ :=
  ⟨fun _ hop => by simp at hop, fun _ hop => by simp at hop⟩

/-- What was done when a section is broken off: nothing, or the old version of the
document was deleted. -/
inductive Section.Done : Section → Proto.Command → Prop where
  | nothing (s : Section) : s.Done ⟨none⟩
  | deleted (name : String) (target : Collection) (id : String) (source : Bytes) (parsed : Value) :
      (Section.upsert name target id source parsed).Done
        ⟨some (Section.delete name target id).op⟩

theorem Section.Done.identity (h : s.Done lcmd) (n : String)
    (g : Option (Gen Uuid Mapping String Bytes)) :
    ((eventOf n lcmd).step g).map Gen.identity = g.map Gen.identity := by
  cases h with
  | nothing s => rfl
  | deleted name target id source parsed =>
    exact Section.document_identity (s := .delete name target id) rfl n g

/-- The record of a section that was broken off, in the two logs. -/
theorem Appended.broken (h : Appended t live disk top seq ⟨some s.op⟩ es d m) (hfits : s.Fits m)
    (hdisk : s.Fresh disk) (hdone : s.Done lcmd) (hl : Loggable live top lcmd)
    (he : Effect .stored (seq + 1) lcmd d m d m') (hdirs : d'.dirs = d.dirs)
    (hpb : d'.catalogPb = d.catalogPb) (hwal : d'.wal = d.wal)
    (hq : d'.quarantined = d.quarantined)
    (ht : t' ≠ .collections → t ≠ .collections ∧ s.dir? = none) (hne : t' ≠ .nothing) :
    Straying t' (grow live seq lcmd) (grow disk seq ⟨some s.op⟩) (seq + 1)
      (es ++ [⟨seq + 1, some ⟨some s.op⟩⟩]) d' m' := by
  refine h.straying hl he hdirs hpb hwal hq (fun ht' => ?_) fun hno => absurd hno hne
  obtain ⟨ht₀, hdoc⟩ := ht ht'
  obtain ⟨m₂, he₂⟩ := Section.document_effect hdoc hfits (h.exact.mark_lt h.le h.dirs)
  refine ⟨ht₀, Section.loggable hfits hdisk (h.logged ht₀).2.1, ⟨d, m₂, he₂, hdirs⟩,
    fun n g g' hg => ?_⟩
  rw [hdone.identity, Section.document_identity hdoc, hg]

/-- **A section that is broken off** behind its record. -/
theorem Straying.wp_broken (h : Straying t live disk top es d m) (hfits : s.Fits m)
    (hdisk : s.Fresh disk) {n : Nat} (hn : s.dir? = none ∨ n = 0) (failure : Error)
    (ht : t' ≠ .collections → t ≠ .collections ∧ s.dir? = none) (hne : t' ≠ .nothing) :
    wp (s.log >>= fun _ => forEach (s.actions.take n) (fun act => act) >>= fun _ =>
        (Prog.throw failure : CatalogM Unit)) (fun _ _ _ => True)
      (fun _ d' m' => Straying t live disk top es d' m' ∨ ∃ lcmd, s.Done lcmd ∧
        Straying t' (grow live m.seq lcmd) (grow disk m.seq ⟨some s.op⟩) (m.seq + 1)
          (es ++ [⟨m.seq + 1, some ⟨some s.op⟩⟩]) d' m') (fun _ => True) d m := by
  rw [wp_bind]
  refine wp_mono _ (h.wp_log s) (fun q d₁ m₁ hpost => ?_) (fun _ _ _ he => .inl he.2) fun _ hc => hc
  obtain ⟨rfl, hmap, happ⟩ := hpost
  have hfits₁ := hfits.congr hmap
  have hnothing : Straying t' (grow live m.seq ⟨none⟩) (grow disk m.seq ⟨some s.op⟩) (m.seq + 1)
      (es ++ [⟨m.seq + 1, some ⟨some s.op⟩⟩]) d₁ m₁ :=
    happ.broken hfits₁ hdisk (.nothing s) (loggable_none live top) (.same fun _ => rfl) rfl rfl rfl
      rfl ht hne
  by_cases hnil : s.actions.take n = []
  · rw [hnil]
    exact .inr ⟨_, .nothing s, hnothing⟩
  obtain ⟨k, rfl⟩ : ∃ k, n = k + 1 :=
    Nat.exists_eq_succ_of_ne_zero fun h0 => hnil (h0 ▸ List.take_zero)
  cases s with
  | create name mapping minted => simp [Section.dir?] at hn
  | drop name uuid => simp [Section.dir?] at hn
  | delete name target id => exact absurd rfl hnil
  | upsert name target id source parsed =>
    -- the old version is deleted, the new one is not added
    have htake : (Section.upsert name target id source parsed).actions.take (k + 1) =
        [(Section.delete name target id).finish (m.seq + 1)] := by
      simp [Section.actions, Section.finish]
    rw [htake]
    have hfits₂ : (Section.delete name target id).Fits m₁ := by
      obtain ⟨e, hfind, htarget, _⟩ := hfits₁
      exact ⟨e, hfind, htarget⟩
    rw [wp_bind, forEach, wp_bind']
    refine Section.wp_finish hfits₂ happ.exact.sound (happ.exact.mark_lt happ.le happ.dirs)
      (fun _ _ _ hs => by contradiction) (fun _ _ _ _ => trivial)
      fun d₂ m₂ d' heff hdirs hpb hwal hq =>
        ⟨trivial, .inr ⟨_, .deleted name target id source parsed, ?_⟩⟩
    obtain rfl := Section.document_disk (s := .delete name target id) rfl heff
    exact happ.broken hfits₁ hdisk (.deleted name target id source parsed)
      (Section.loggable hfits₂ trivial happ.exact.mapFollows) heff hdirs hpb hwal hq ht hne

/-! ## runs -/

/-- A node that shows what was acknowledged up to unsettled documents, and unless
collections are in trouble would do so after a replay. -/
def Coping (t : Trouble) (b : Ledger) (used : List Uuid) (d : Disk) (m : Catalog) : Prop :=
  ∃ live disk top es, Straying t live disk top es d m ∧ b.Allows (specOf live top) ∧
    (t ≠ .collections → b.Allows (specOf disk top)) ∧ Drawn live used ∧ Drawn disk used

/-- A directory whose log differs from what was acknowledged in unsettled documents
only. -/
def Held (b : Ledger) (used : List Uuid) (d : Disk) : Prop := ∃ s, Holding s used d ∧ b.Allows s

theorem Serving.coping (h : Serving sp used d m) (hb : b.Allows sp) :
    Coping .nothing b used d m := by
  obtain ⟨cmds, top, hrun, rfl, hu⟩ := h
  obtain ⟨es, hs⟩ := hrun.straying
  exact ⟨cmds, cmds, top, es, hs, hb, fun _ => hb, hu, hu⟩

theorem Coping.held (h : Coping t b used d m) (ht : t ≠ .collections) : Held b used d := by
  obtain ⟨live, disk, top, es, hs, _, hb, _, hu⟩ := h
  obtain ⟨hg, _, a, l, hd⟩ := hs.backed ht
  exact ⟨specOf disk top, ⟨disk, top, ⟨hg, hs.room, a, l, es, hd⟩, rfl, hu⟩, hb ht⟩

theorem Straying.worsen (h : Straying t live disk top es d m)
    (ht : t' ≠ .collections → t ≠ .collections) (hne : t' ≠ .nothing) :
    Straying t' live disk top es d m :=
  ⟨h.toLively, h.wal, h.sorted, h.seqs, h.room, h.le, fun ht' => h.backed (ht ht'),
    fun hno => absurd hno hne⟩

/-- Creating what is there settles nothing. -/
theorem Ledger.Allows.settle_create (h : b.Allows sp) {name : String} (mapping : Mapping)
    (hsome : (sp name).isSome) : (Op.create name mapping).settle minted b = b := by
  have hb : (b.spec name).isSome := by
    rw [← Option.isSome_map (f := Prod.fst), ← h.mapping name, Option.isSome_map]
    exact hsome
  obtain ⟨c, hc⟩ := Option.isSome_iff_exists.mp hb
  have hspec : (Op.create name mapping).apply minted b.spec = b.spec :=
    Function.update_eq_self_iff.mpr (by rw [hc]; rfl)
  simp [Op.settle, Op.Overwrites, hspec]

theorem Coping.cons (h : Coping t b used d m) : Coping t b (minted :: used) d m := by
  obtain ⟨live, disk, top, es, hs, hb, hb', hu, hu'⟩ := h
  exact ⟨live, disk, top, es, hs, hb, hb', hu.cons, hu'.cons⟩

/-- **An operation** that does not fail behind its record. -/
theorem Coping.wp_call (h : Coping t b used d m) (hnew : minted ∉ used) (op : Op) :
    wp (op.call minted) (fun _ d' m' => Coping t (op.settle minted b) (minted :: used) d' m')
      (fun _ d' m' => Coping t b (minted :: used) d' m') (fun _ => True) d m := by
  rw [Op.call_eq]
  have hcoping : Coping t b (minted :: used) d m := h.cons
  obtain ⟨live, disk, top, es, hs, hb, hb', hu, hu'⟩ := h
  refine op.wp_callWith hs.exact.sound (fun _ => hcoping) (fun name mapping e hop hf => ?_)
    fun s hfits hlogged => ?_
  · have hsome : (specOf live top name).isSome := by
      rw [hs.exact.specOf_find?, hf]
      rfl
    rw [hop, hb.settle_create mapping hsome]
    exact hcoping
  · refine wp_mono _ (hs.wp_section hfits (hu.section_fresh hnew hlogged)
      (hu'.section_fresh hnew hlogged)) (fun _ d' m' h' => ?_) (fun _ d' m' h' => ?_) fun _ hc => hc
    · rw [hlogged] at h'
      refine ⟨_, _, _, _, h', ?_, fun ht => ?_, hu.logged op, hu'.logged op⟩
      · rw [hs.good.specOf_logged hs.le]
        exact hb.settle op
      · rw [(hs.backed ht).good.specOf_logged hs.le]
        exact (hb' ht).settle op
    · exact ⟨live, disk, top, es, h', hb, hb', hu.cons, hu'.cons⟩

/-- What was done when an operation failed is in its document only. -/
theorem Section.Done.allows (hdone : s.Done lcmd) {op : Op} (hs : s.op = op.logged minted)
    (hg : GoodLog live top) (hle : top ≤ seq) (hb : b.Allows (specOf live top)) :
    (op.loosen minted b).Allows (specOf (grow live seq lcmd) (seq + 1)) := by
  cases hdone with
  | nothing s =>
    have hsame : specOf (grow live seq ⟨none⟩) (seq + 1) = specOf live top := by
      funext n
      rw [specOf, hg.stateAt_grow hle]
      rfl
    rw [hsame]
    exact hb.unchanged op
  | deleted name target id source parsed =>
    cases op with
    | upsert name' id' source' =>
      obtain ⟨rfl, rfl, rfl⟩ : name = name' ∧ id = Catalog.orNewId id' minted ∧
          source = source' := by
        simpa [Section.op, Op.logged] using hs
      let deletion := Op.delete name (Catalog.orNewId id' minted)
      have hspec : specOf (grow live seq ⟨some (deletion.logged minted)⟩) (seq + 1) =
          deletion.apply minted (specOf live top) := hg.specOf_logged hle deletion
      exact hspec ▸ hb.comesBack rfl rfl fun _ _ h => h
    | create name' mapping => simp [Section.op, Op.logged] at hs
    | drop name' => simp [Section.op, Op.logged] at hs
    | delete name' id' => simp [Section.op, Op.logged] at hs

theorem Section.Done.drawn (hdone : s.Done lcmd) (hu : Drawn live used) :
    Drawn (grow live seq lcmd) (minted :: used) := by
  refine hu.grow fun n u x hev => ?_
  cases hdone with
  | nothing s => simp [eventOf] at hev
  | deleted name target id source parsed =>
    simp only [eventOf, Section.op] at hev
    split at hev <;> contradiction

theorem Op.dir?_eq_none {op : Op} (hs : s.op = op.logged minted) (hdoc : op.isDocument = true) :
    s.dir? = none := by
  cases op <;> cases s <;> simp_all [Section.op, Op.logged, Op.isDocument, Section.dir?]

omit [Ext] in
theorem Trouble.worse_ne_nothing (t : Trouble) (op : Op) : t.worse op ≠ .nothing := by
  unfold Trouble.worse
  split
  · split <;> simp
  · simp

omit [Ext] in
theorem Trouble.of_worse {op : Op} (h : t.worse op ≠ .collections) :
    t ≠ .collections ∧ op.isDocument = true := by
  unfold Trouble.worse at h
  split at h
  · split at h
    · contradiction
    · exact ⟨by assumption, by assumption⟩
  · contradiction

/-- **An operation that fails behind its record.** -/
theorem Coping.wp_callBroken (h : Coping t b used d m) (hnew : minted ∉ used) (op : Op) {n : Nat}
    (failure : Error) (hn : op.isDocument = true ∨ n = 0) :
    wp (op.callBroken n failure minted) (fun _ _ _ => True)
      (fun _ d' m' => Coping (t.worse op) (op.loosen minted b) (minted :: used) d' m')
      (fun _ => True) d m := by
  obtain ⟨live, disk, top, es, hs, hb, hb', hu, hu'⟩ := h
  have hnothing : ∀ {d' m'}, Straying t live disk top es d' m' →
      Coping (t.worse op) (op.loosen minted b) (minted :: used) d' m' := fun h' =>
    ⟨live, disk, top, es, h'.worsen (fun ht => (Trouble.of_worse ht).1) (t.worse_ne_nothing op),
      hb.unchanged op, fun ht => (hb' (Trouble.of_worse ht).1).unchanged op, hu.cons, hu'.cons⟩
  refine op.wp_callWith hs.exact.sound (fun _ => hnothing hs) (fun _ _ _ _ _ => trivial)
    fun s hfits hlogged => ?_
  refine wp_mono _ (hs.wp_broken hfits (hu'.section_fresh hnew hlogged)
    (hn.imp_left (Op.dir?_eq_none hlogged)) failure
    (fun ht => ⟨(Trouble.of_worse ht).1, Op.dir?_eq_none hlogged (Trouble.of_worse ht).2⟩)
    (t.worse_ne_nothing op)) (fun _ _ _ hq => hq) (fun _ d' m' h' => ?_) fun _ hc => hc
  rcases h' with h' | ⟨lcmd, hdone, h'⟩
  · exact hnothing h'
  · rw [hlogged] at h'
    refine ⟨_, _, _, _, h', hdone.allows hlogged hs.good hs.le hb, fun ht => ?_, hdone.drawn hu,
      hu'.logged op⟩
    obtain ⟨ht, hdoc⟩ := Trouble.of_worse ht
    rw [(hs.backed ht).good.specOf_logged hs.le]
    exact (hb' ht).comesBack hdoc hdoc fun _ _ h => h

/-- **A checkpoint** writes down what was done. -/
theorem Coping.wp_checkpoint (h : Coping t b used d m) (ord : IterOrder) :
    wp (Catalog.checkpoint ord) (fun _ d' m' => Coping .nothing b used d' m') (fun _ _ _ => True)
      (fun d' => t = .nothing ∧ (d.resumesAt = some m.seq ∨ d'.appliedSeq = some m.seq) →
        Held b used d') d m := by
  obtain ⟨live, disk, top, es, hs, hb, _, hu, _⟩ := h
  by_cases ht : t = .nothing
  · subst ht
    refine wp_mono _ (hs.running.wp_checkpoint hu ord) (fun _ _ _ h' => h'.coping hb)
      (fun _ _ _ he => he) fun d' hc hcut => ⟨_, hc hcut.2, hb⟩
  · have hg := hs.good.mono hs.le
    have hspec := hs.good.specOf_eq hs.le
    refine (hs.exact.mono hs.good hs.le).wp_checkpoint hg (hs.parked.mono hs.le)
      (hs.wal.raise hs.le) hs.sorted (fun e he => (hs.seqs e he).trans hs.le) ord
      (fun _ _ _ _ hcut => absurd hcut.1 ht) (fun _ _ _ _ _ hcut => absurd hcut.1 ht)
      fun d' m' _ hrun _ _ => Serving.coping ⟨live, m.seq, hrun (hs.room.mono hs.le), hspec, hu⟩ hb

/-- **Every state of a careful run.** -/
theorem FaultyRun.inv {o : Option Catalog} (h : FaultyRun True d o b used t) :
    match o with
    | none => Held b used d ∧ b.Settled
    | some m => Coping t b used d m := by
  induction h with
  | start => exact ⟨⟨_, Holding.empty, fun _ => rfl, fun _ _ _ => rfl⟩, fun _ h => h.elim⟩
  | opened ord prev h ih =>
    obtain ⟨⟨sp, hhold, hb⟩, _⟩ := ih
    exact (post_of_wp (hhold.wp_open ord TailOk (tailSafe_of_tailOk _)) h).1.coping hb
  | acknowledged op minted prev hnew h ih => exact post_of_wp (ih.wp_call hnew op) h
  | refused op minted prev hnew h ih => exact error_of_wp (ih.wp_call hnew op) h
  | failed op minted n failure prev hnew h hcareful ih =>
    exact error_of_wp (ih.wp_callBroken hnew op failure (hcareful trivial)) h
  | checkpoint ord prev h ih => exact post_of_wp (ih.wp_checkpoint ord) h
  | stopped prev hcareful ih =>
    obtain ⟨ht, hb⟩ := hcareful trivial
    exact ⟨ih.held ht, hb⟩
  | cut ord prev hcut hcareful ih =>
    obtain ⟨ht, hb⟩ := hcareful trivial
    exact ⟨crashes_of_wp (ih.wp_checkpoint ord) _ hcut ht, hb⟩
  | cutOpen ord prev hcut hcareful ih =>
    obtain ⟨⟨sp, hhold, hb⟩, hsettled⟩ := ih
    exact ⟨⟨sp, crashes_of_wp (hhold.wp_open ord TailOk (tailSafe_of_tailOk _)) _ hcut
      (hcareful trivial), hb⟩, hsettled⟩

/-- **A failed operation does no harm**: after a careful run `open` succeeds, and shows
every collection with its acknowledged mapping and every document as the last operation
that was acknowledged on it left it. -/
theorem failed_operation_keeps_acknowledged (h : FaultyRun True d none b used t) (ord : IterOrder) :
    ∃ d' m', (Catalog.openCatalog ord).run d .closed = (.ok (), d', m') ∧ b.KeptBy m'.shown := by
  obtain ⟨⟨sp, hhold, hb⟩, hsettled⟩ : Held b used d ∧ b.Settled := h.inv
  obtain ⟨_, d', m', hrun, _, hshown⟩ :=
    run_ok_of_wp (hhold.wp_open ord TailOk (tailSafe_of_tailOk d))
  exact ⟨d', m', hrun, hshown ▸ hb.keptBy hsettled⟩

end

/-! ## a failed upsert, a failed drop and a failed create -/

section
open Reference

/-- What the disk answers when it fails. -/
def ioFailure : Error := .io .other

theorem createdA_faulty (careful : Prop) :
    FaultyRun careful createdA.1 (some createdA.2)
      ((Op.create "a" emptyMapping).settle (exampleUuid 1) .empty) [exampleUuid 1] .nothing :=
  .acknowledged (.create "a" emptyMapping) (exampleUuid 1)
    (.opened .stored .start (Prod.ext (by decide +kernel) rfl)) (by decide)
    (Prod.ext (by decide +kernel) rfl)

theorem FaultyRun.broken {careful : Prop} {x : Disk × Catalog} {b : Ledger} {used : List Uuid}
    {t : Trouble} (op : Op) (minted : Uuid) (n : Nat)
    (prev : FaultyRun careful x.1 (some x.2) b used t) (hnew : minted ∉ used)
    (h : ((op.callBroken n ioFailure minted).run x.1 x.2).1 = .error ioFailure)
    (hcareful : careful → op.isDocument ∨ n = 0) :
    FaultyRun careful (after (op.callBroken n ioFailure minted) x).1
      (some (after (op.callBroken n ioFailure minted) x).2) (op.loosen minted b) (minted :: used)
      (t.worse op) :=
  .failed op minted n ioFailure prev hnew (run_eq_after h) hcareful

def upsertA (id : String) : Op := .upsert "a" (some id) emptyObject

/-- The upsert of "x" failed at the sync of its record. -/
def failedX : Disk × Catalog :=
  after ((upsertA "x").callBroken 0 ioFailure (exampleUuid 2)) createdA

/-- A later upsert of "y" was acknowledged. -/
def storedY : Disk × Catalog := after ((upsertA "y").call (exampleUuid 3)) failedX

/-- The deletion of "y" failed at the sync of its record. -/
def failedDeleteY : Disk × Catalog :=
  after ((Op.delete "a" "y").callBroken 0 ioFailure (exampleUuid 4)) storedY

/-- The upsert of "y" was repeated. -/
def storedYAgain : Disk × Catalog := after ((upsertA "y").call (exampleUuid 5)) failedDeleteY

/-- What clients were told when the deletion had failed. -/
def ledgerY : Ledger :=
  (Op.delete "a" "y").loosen (exampleUuid 4) <| (upsertA "y").settle (exampleUuid 3) <|
    (upsertA "x").loosen (exampleUuid 2) <|
    (Op.create "a" emptyMapping).settle (exampleUuid 1) .empty

theorem failedDeleteY_faulty (careful : Prop) :
    FaultyRun careful failedDeleteY.1 (some failedDeleteY.2) ledgerY
      [exampleUuid 4, exampleUuid 3, exampleUuid 2, exampleUuid 1] .documents :=
  .broken (x := storedY) (.delete "a" "y") (exampleUuid 4) 0
    (.acknowledged (upsertA "y") (exampleUuid 3)
      (.broken (upsertA "x") (exampleUuid 2) 0 (createdA_faulty careful) (by decide)
        (by decide +kernel) fun _ => .inl rfl)
      (by decide) (run_eq_after (by decide +kernel)))
    (by decide) (by decide +kernel) fun _ => .inl rfl

/-- With the repeated upsert "y" is there after a crash, whatever became of "x". -/
theorem failed_operation_keeps_acknowledged_repeated :
    ∃ d' m', (Catalog.openCatalog .stored).run storedYAgain.1 .closed = (.ok (), d', m') ∧
      m'.shown.source "a" "y" = some emptyObject := by
  have hsettled : ((upsertA "y").settle (exampleUuid 5) ledgerY).Settled := by
    -- only "y" was told of, and the upsert overwrites it
    rintro ⟨name, id⟩ (⟨htold, hno⟩ | ⟨_, ho⟩) ⟨_, hno'⟩
    · rcases htold with ⟨⟨h, _⟩ | ⟨_, h⟩, _⟩ | ⟨_, ho⟩
      · exact h
      · exact h
      · exact hno ho
    · exact hno' ho
  obtain ⟨d', m', hrun, hkept⟩ := failed_operation_keeps_acknowledged
    (.stopped (.acknowledged (upsertA "y") (exampleUuid 5) (failedDeleteY_faulty True) (by decide)
      (run_eq_after (by decide +kernel))) fun _ => ⟨by decide, hsettled⟩) .stored
  exact ⟨d', m', hrun, hkept.source "a" "y" (.inr ⟨rfl, rfl, rfl⟩)⟩

/-- The drop of "a" failed at the sync of its record. -/
def failedDropA : Disk × Catalog :=
  after ((Op.drop "a").callBroken 0 ioFailure (exampleUuid 2)) createdA

/-- A later upsert of "y" was acknowledged. -/
def storedYBehindDrop : Disk × Catalog := after ((upsertA "y").call (exampleUuid 3)) failedDropA

/-- The create of "b" failed when its directory was made and the index in it was
not. -/
def failedCreateB : Disk × Catalog :=
  after ((Op.create "b" emptyMapping).callBroken 1 ioFailure (exampleUuid 2)) createdA

/-- The failed drop is replayed, and the collection with the acknowledged document
is gone; the failed deletion is replayed, and the acknowledged document is gone; the
failed create is replayed over its half-made directory, and `open` fails. -/
theorem failed_operation_loses_acknowledged :
    (∃ b used t, FaultyRun False storedYBehindDrop.1 none b used t ∧
      ("a", "y") ∈ b.told ∧ b.spec.source "a" "y" = some emptyObject ∧
      ((Catalog.openCatalog .stored).run storedYBehindDrop.1 .closed).1 = .ok () ∧
      ((Catalog.openCatalog .stored).run storedYBehindDrop.1 .closed).2.2.shown "a" = none) ∧
    (∃ b used t, FaultyRun False failedDeleteY.1 none b used t ∧
      ("a", "y") ∈ b.told ∧ b.spec.source "a" "y" = some emptyObject ∧
      ((Catalog.openCatalog .stored).run failedDeleteY.1 .closed).1 = .ok () ∧
      ((Catalog.openCatalog .stored).run failedDeleteY.1 .closed).2.2.shown.source "a" "y" = none) ∧
    ∃ b used t, FaultyRun False failedCreateB.1 none b used t ∧
      ((Catalog.openCatalog .stored).run failedCreateB.1 .closed).1 ≠ .ok () := by
  exact ⟨⟨_, _, _, .stopped (.acknowledged (upsertA "y") (exampleUuid 3)
      (.broken (.drop "a") (exampleUuid 2) 0 (createdA_faulty False) (by decide)
        (by decide +kernel) False.elim)
      (by decide) (run_eq_after (by decide +kernel))) False.elim, .inr ⟨rfl, rfl, rfl⟩, rfl,
      by decide +kernel, Option.isNone_iff_eq_none.mp (by decide +kernel)⟩,
    ⟨_, _, _, .stopped (failedDeleteY_faulty False) False.elim, .inr ⟨rfl, rfl, rfl⟩, rfl,
      by decide +kernel,
      Option.isNone_iff_eq_none.mp (by decide +kernel)⟩,
    ⟨_, _, _, .stopped (.broken (.create "b" emptyMapping) (exampleUuid 2) 1
      (createdA_faulty False) (by decide) (by decide +kernel) False.elim) False.elim,
      by decide +kernel⟩⟩

end

end Lumen
