import Lumen.Cluster.Transfer
import Lumen.Log.Carries
import Lumen.Standalone.Recovery

/-!
# Lumen.Catalog.Directories

The catalog and the directories under the root, over runs of every operation
in both modes.

A run uses each identity for one create command.  `Registered` says that the
map, the catalog file, the directories and the write-ahead log all do; every
operation that succeeds keeps it, whether it draws the identity, replays it or
takes it from an archive.  Between operations no directory is left over
(`NoOrphans`), since opening and installing sweep last.
-/

namespace Lumen

open Lib Prog

section
variable [Ext]

/-! ## identities -/

/-- What an identity stands for: the name and the mapping of the create command
that carries it. -/
abbrev Registry := Uuid → Option (String × Mapping)

/-- The identity of a create command stands for that command. -/
def Registry.Allows (R : Registry) (cmd : Proto.Command) : Prop :=
  ∀ n u x, eventOf n cmd = .create u x → R u = some (n, x)

def Registry.AllowsEntry (R : Registry) (e : Proto.WalEntry) : Prop :=
  ∀ cmd, e.command = some cmd → R.Allows cmd

/-- The map, the directories, the catalog file and the write-ahead log use every
identity for what it stands for. -/
structure Registered (R : Registry) (d : Disk) (m : Catalog) : Prop where
  sound : Sound d m
  entry : ∀ n e, m.collections.find? n = some e → R e.uuid = some (n, e.collection.mapping)
  schema : ∀ u ix n x, d.index u = some ix → R u = some (n, x) → ix.schema = x.toSchema
  listed : ∃ a l, d.Lists a l ∧ ∀ p ∈ l, R p.2.uuid = some (p.1, p.2.mapping)
  wal : LogDir.Carries (EncodesEntry R.AllowsEntry) d.wal

variable {R : Registry} {d d' : Disk} {m m' : Catalog} {name : String} {u : Uuid} {x : Mapping}
  {ix : Index} {e : Catalog.Entry}

/-! ## what changes the map, a directory or the catalog file -/

namespace Registered

/-- An empty map names nothing. -/
theorem of_empty (h : Registered R d m) (hm : ∀ n, m'.collections.find? n = none) :
    Registered R d m' where
  sound := ⟨fun n e hf => by simp [hm] at hf, fun n n' e e' hf => by simp [hm] at hf⟩
  entry n e hf := by simp [hm] at hf
  schema := h.schema
  listed := h.listed
  wal := h.wal

theorem withWal (h : Registered R d m) {dir : LogDir}
    (hdir : LogDir.Carries (EncodesEntry R.AllowsEntry) dir) (seq : Nat) (log : SegmentedLog) :
    Registered R { d with wal := dir } { m with seq := seq, wal := log } where
  sound := ⟨fun n e hf => (h.sound.entry n e hf).congr rfl, h.sound.inj⟩
  entry := h.entry
  schema := h.schema
  listed := h.listed
  wal := hdir

theorem withSnapshots (h : Registered R d m) (s : SnapshotsDir) :
    Registered R { d with snapshots := s } m where
  sound := h.sound.congr fun _ _ _ => rfl
  entry := h.entry
  schema := h.schema
  listed := h.listed
  wal := h.wal

theorem withTmp (h : Registered R d m) (tmp : Option Bytes) :
    Registered R { d with catalogTmp := tmp } m where
  sound := h.sound.congr fun _ _ _ => rfl
  entry := h.entry
  schema := h.schema
  listed := h.listed
  wal := h.wal

/-- The catalog file is written from the map. -/
theorem withCatalog (h : Registered R d m) (ord : IterOrder) (a : Nat) :
    Registered R (d.withCatalog (Catalog.snapshotProto ord m a)) m where
  sound := h.sound.congr fun _ _ _ => rfl
  entry := h.entry
  schema := h.schema
  listed := by
    refine ⟨a, _, Disk.lists_withCatalog ord m a, fun p hp => ?_⟩
    obtain ⟨q, hq, rfl⟩ := List.mem_map.mp hp
    exact h.entry q.1 q.2 (OrdMap.find?_eq_some_iff.mpr (ord.mem.mp hq))
  wal := h.wal

/-- A collection is entered under its identity, in a directory that is there or
made for it. -/
theorem inserted (h : Registered R d m) (hR : R u = some (name, x))
    (hix : d.index u = some ix ∧ m.isOpen u = false ∨
      d.dirs.contains u = false ∧ ix = ⟨x.toSchema, [], none⟩) (seq : Nat) :
    Registered R (d.setDir u (.index ix)) (m.inserted name u x seq ix) := by
  have hne := fun n e hf => h.sound.based.uuid_ne hix (n := n) (e := e) hf
  have hschema : ix.schema = x.toSchema := by
    rcases hix with ⟨hix, _⟩ | ⟨_, rfl⟩
    · exact h.schema u ix name x hix hR
    · rfl
  constructor
  · constructor
    · intro n e hf
      rw [Catalog.find?_inserted] at hf
      split at hf
      · rw [← Option.some.inj hf]
        exact ⟨rfl, hschema, ix, by simp [Disk.index_setDir], rfl, rfl⟩
      · refine (h.sound.entry n e hf).congr ?_
        rw [Disk.index_setDir, if_neg (hne n e hf)]
    · intro n n' e e' hf hf' hu
      rw [Catalog.find?_inserted] at hf hf'
      split at hf <;> split at hf'
      · simp_all
      · rw [← Option.some.inj hf] at hu
        exact absurd hu.symm (hne n' e' hf')
      · rw [← Option.some.inj hf'] at hu
        exact absurd hu (hne n e hf)
      · exact h.sound.inj n n' e e' hf hf' hu
  · intro n e hf
    rw [Catalog.find?_inserted] at hf
    split at hf
    · rename_i hn
      rw [← Option.some.inj hf, hn]
      exact hR
    · exact h.entry n e hf
  · intro u' ix' n y hix' hR'
    rw [Disk.index_setDir] at hix'
    split at hix'
    · rename_i hu
      rw [hu, hR, Option.some.injEq, Prod.mk.injEq] at hR'
      rw [← Option.some.inj hix', ← hR'.2]
      exact hschema
    · exact h.schema u' ix' n y hix' hR'
  · exact h.listed
  · exact h.wal

/-- A collection is dropped with its directory. -/
theorem erased (h : Registered R d m) (hf : m.collections.find? name = some e) :
    Registered R (d.removeDir e.uuid) (m.erased name) := by
  have hkept : ∀ n e', (m.erased name).collections.find? n = some e' →
      n ≠ name ∧ m.collections.find? n = some e' := by
    intro n e' hf'
    rw [Catalog.find?_erased] at hf'
    split at hf'
    · contradiction
    · exact ⟨by assumption, hf'⟩
  constructor
  · constructor
    · intro n e' hf'
      obtain ⟨hn, hf'⟩ := hkept n e' hf'
      refine (h.sound.entry n e' hf').congr ?_
      rw [Disk.index_removeDir, if_neg fun hu => hn (h.sound.inj n name e' e hf' hf hu)]
    · intro n n' e₁ e₂ h1 h2 hu
      exact h.sound.inj n n' e₁ e₂ (hkept n e₁ h1).2 (hkept n' e₂ h2).2 hu
  · exact fun n e' hf' => h.entry n e' (hkept n e' hf').2
  · intro u' ix' n y hix' hR'
    rw [Disk.index_removeDir] at hix'
    split at hix'
    · contradiction
    · exact h.schema u' ix' n y hix' hR'
  · exact h.listed
  · exact h.wal

/-- Operations are buffered. -/
theorem buffered (h : Registered R d m) (hf : m.collections.find? name = some e)
    (ops : List WriterOp) : Registered R d (m.store name (e.collection.buffer ops)) := by
  have he := h.sound.entry name e hf
  have hstore := Catalog.find?_store_self (c := e.collection.buffer ops) hf he.uuid
  have hold : ∀ n e', (m.store name (e.collection.buffer ops)).collections.find? n = some e' →
      ∃ e₀, m.collections.find? n = some e₀ ∧ e'.uuid = e₀.uuid ∧
        e'.collection.mapping = e₀.collection.mapping := by
    intro n e' hf'
    rw [hstore] at hf'
    split at hf'
    · rename_i hn
      rw [← Option.some.inj hf', hn]
      exact ⟨e, hf, rfl, rfl⟩
    · exact ⟨e', hf', rfl, rfl⟩
  constructor
  · constructor
    · intro n e' hf'
      rw [hstore] at hf'
      split at hf'
      · rw [← Option.some.inj hf']
        exact ⟨he.uuid, he.schema, he.index⟩
      · exact h.sound.entry n e' hf'
    · intro n n' e₁ e₂ h1 h2 hu
      obtain ⟨e₁', hf₁, hu₁, _⟩ := hold n e₁ h1
      obtain ⟨e₂', hf₂, hu₂, _⟩ := hold n' e₂ h2
      exact h.sound.inj n n' e₁' e₂' hf₁ hf₂ (by rw [← hu₁, ← hu₂, hu])
  · intro n e' hf'
    obtain ⟨e₀, hf₀, hu₀, hx₀⟩ := hold n e' hf'
    rw [hu₀, hx₀]
    exact h.entry n e₀ hf₀
  · exact h.schema
  · exact h.listed
  · exact h.wal

theorem committed (h : Registered R d m) (hf : m.collections.find? name = some e)
    (hix : d.index e.uuid = some ix) (mark : LogMark) :
    Registered R (d.committed e ix mark) (m.committed name e ix) where
  sound := h.sound.committed hf hix mark
  entry n e' hf' := by
    rw [Catalog.find?_committed h.sound hf ix] at hf'
    split at hf'
    · rename_i hn
      rw [← Option.some.inj hf', hn]
      exact h.entry name e hf
    · exact h.entry n e' hf'
  schema u ix' n y hix' hR := by
    rw [Disk.committed, Disk.index_setDir] at hix'
    split at hix'
    · rename_i hu
      rw [← Option.some.inj hix']
      exact h.schema u ix n y (hu ▸ hix) hR
    · exact h.schema u ix' n y hix' hR
  listed := h.listed
  wal := h.wal

/-- The sweep leaves the directories of the map. -/
theorem swept (h : Registered R d m) {high : Nat} (hsw : Sweeping m.liveUuids high d d') :
    Registered R d' m where
  sound := h.sound.congr fun n e hf => hsw.index_of_mem (Catalog.mem_liveUuids.mpr ⟨n, e, hf, rfl⟩)
  entry := h.entry
  schema u ix n y hix hR := by
    refine h.schema u ix n y ?_ hR
    rw [Disk.index] at hix ⊢
    rcases hsw.dirs u with hu | ⟨_, hu⟩
    · rwa [← hu]
    · simp [hu] at hix
  listed := by
    obtain ⟨a, l, hl, hall⟩ := h.listed
    refine ⟨a, l, ?_, hall⟩
    rw [Disk.Lists, Catalog.loadSnapshot, hsw.catalogPb]
    exact hl
  wal := hsw.wal ▸ h.wal

end Registered

/-- Applying a command whose identity stands for it. -/
theorem Effect.registered {ord : IterOrder} {i : Nat} {cmd : Proto.Command}
    (he : Effect ord i cmd d m d' m') (h : Registered R d m) (hcmd : R.Allows cmd) :
    Registered R d' m' := by
  cases he with
  | same _ => exact h
  | create c u x ix hop hu hx hfree hix =>
    have hR := hcmd c.collection u x (by rw [eventOf_create hop hu hx, if_pos rfl])
    exact (h.inserted hR hix i).withCatalog ord i
  | drop name e hop hf => exact (h.erased hf).withCatalog ord i
  | edit name id v e ops hev hf hmark hops => exact h.buffered hf ops

/-! ## operations -/

/-- The states between operations. -/
structure Matched (R : Registry) (d : Disk) (m : Catalog) : Prop extends Registered R d m where
  noOrphans : NoOrphans d m

theorem Matched.stable (R : Registry) (mark : LogMark) : Stable (Matched R) mark where
  sound _ _ h := h.sound
  commit _ _ _ _ _ h hf hix := ⟨h.toRegistered.committed hf hix mark, h.noOrphans.committed hix⟩
  persist _ _ ord h := ⟨h.toRegistered.withCatalog ord mark.index, h.noOrphans⟩
  tmp _ _ tmp h := ⟨h.toRegistered.withTmp tmp, h.noOrphans⟩

/-- An operation of a single node draws a number and writes its command to the
write-ahead log first. -/
theorem Matched.wp_logged {α : Type} {op : Proto.Op} {k : Nat → CatalogM α}
    {Q : α → Disk → Catalog → Prop} (h : Matched R d m) (hop : R.Allows ⟨some op⟩)
    (hk : ∀ dir log, Matched R { d with wal := dir } { m with seq := m.seq + 1, wal := log } →
      wp (k (m.seq + 1)) Q (fun _ _ _ => True) (fun _ => True) { d with wal := dir }
        { m with seq := m.seq + 1, wal := log }) :
    wp (do
      let seq ← Catalog.nextSeq
      Catalog.onWal (Wal.append (Catalog.walEntry seq op))
      k seq) Q (fun _ _ _ => True) (fun _ => True) d m := by
  have hentry : EncodesEntry R.AllowsEntry
      (Ext.walEntry.encode (Catalog.walEntry (m.seq + 1) op)) := by
    refine ⟨_, rfl, fun cmd hcmd => ?_⟩
    rw [← Option.some.inj hcmd]
    exact hop
  simp only [Catalog.nextSeq, wp_bind, wp_modifyMem, wp_getMem, wp_pure]
  refine Catalog.wp_onWal _ (h.wal.wp_append hentry _ fun dir log hdir => ?_)
  exact hk dir log ⟨h.toRegistered.withWal hdir _ log, h.noOrphans⟩

theorem Registry.allows_create (hR : R u = some (name, x)) :
    R.Allows ⟨some (.createCollection ⟨name, fmtUuid u, some x.toProto⟩)⟩ := by
  intro n u' x' hev
  obtain ⟨c, hop, rfl, hu, hx⟩ := eventOf_eq_create_iff.mp hev
  cases Proto.Op.createCollection.inj (Option.some.inj hop)
  rw [Catalog.createUuid, Ext.parseUuid_fmtUuid, Except.ok.injEq] at hu
  have hx : Mapping.tryFrom x.toProto = .ok x' := hx
  rw [Mapping.tryFrom_toProto, Except.ok.injEq] at hx
  rw [← hu, ← hx]
  exact hR

/-- Only a create command carries an identity. -/
theorem Registry.allows_of_ne {op : Proto.Op} (hop : ∀ c, op ≠ .createCollection c) :
    R.Allows ⟨some op⟩ := by
  intro n u x hev
  obtain ⟨c, hc, _⟩ := eventOf_eq_create_iff.mp hev
  exact absurd (Option.some.inj hc) (hop c)

/-- `create`, with an identity that stands for it if it is drawn. -/
theorem Matched.wp_create (h : Matched R d m)
    (hR : m.collections.find? name = none → R u = some (name, x)) :
    wp (Catalog.create name x u) (fun _ => Matched R) (fun _ _ _ => True) (fun _ => True) d m := by
  rw [Catalog.create, wp_bind]
  cases Catalog.validateName name with
  | error err => trivial
  | ok _ =>
    rw [wp_ofExcept_ok, wp_bind, Catalog.wp_lookup]
    cases hf : m.collections.find? name with
    | some e =>
      simp only [Option.map_some]
      split
      · exact h
      · trivial
    | none =>
      simp only [Option.map_none, Catalog.logCreate]
      refine h.wp_logged (Registry.allows_create (hR hf)) fun dir log h' => ?_
      have hfree : ({ m with seq := m.seq + 1, wal := log } : Catalog).collections.find? name =
          none := hf
      rw [wp_bind, Catalog.installCollection, wp_bind]
      refine Catalog.wp_openOrCreate u x (fun _ _ _ => trivial) (fun _ _ => trivial)
        (fun ix hix ho => ?_) fun hno => ?_
      · simp only [wp_bind, wp_modifyMem, wp_pure]
        have hreg := h'.toRegistered.inserted (hR hf) (.inl ⟨hix, ho⟩) (m.seq + 1)
        have horph := h'.noOrphans.inserted hfree (u := u) x (m.seq + 1) ix
        rw [Disk.setDir_index hix] at hreg horph
        exact ⟨hreg, horph⟩
      · simp only [wp_bind, wp_modifyMem, wp_pure]
        exact ⟨h'.toRegistered.inserted (hR hf) (.inr ⟨hno, rfl⟩) (m.seq + 1),
          h'.noOrphans.inserted hfree x (m.seq + 1) _⟩

theorem Matched.wp_dropCollection (h : Matched R d m) (name : String) :
    wp (Catalog.dropCollection name) (fun _ => Matched R) (fun _ _ _ => True) (fun _ => True)
      d m := by
  rw [Catalog.dropCollection, wp_bind, wp_getMem]
  cases hf : m.collections.find? name with
  | none => trivial
  | some e =>
    simp only [Catalog.logDrop]
    refine h.wp_logged (Registry.allows_of_ne (by simp)) fun dir log h' => ?_
    exact Catalog.wp_dropDir e.uuid (fun _ _ => trivial) trivial
      ⟨h'.toRegistered.erased hf, h'.noOrphans.erased hf⟩

/-- Operations are buffered in a collection of the map. -/
theorem Matched.buffered (h : Matched R d m) (hf : m.collections.find? name = some e)
    (ops : List WriterOp) : Matched R d (m.store name (e.collection.buffer ops)) :=
  ⟨h.toRegistered.buffered hf ops,
    h.noOrphans.mono (fun _ hu => hu) fun _ _ hf => Catalog.find?_store_uuid _ _ hf⟩

theorem Matched.wp_applyUpsert (h : Matched R d m) (hf : m.collections.find? name = some e)
    (id : String) (source : Bytes) (parsed : Value) :
    wp (Catalog.applyUpsert name e.collection id source parsed) (fun _ => Matched R)
      (fun _ _ _ => True) (fun _ => True) d m := by
  simp only [Catalog.applyUpsert, wp_bind, wp_getMem,
    Catalog.deref_of_uuid hf (h.sound.entry name e hf).uuid, Collection.applyUpsert]
  cases buildDoc e.collection.schema e.collection.mapping id source parsed with
  | error err => trivial
  | ok doc => exact h.buffered hf [.deleteTerm id, .addDocument doc]

theorem Matched.wp_applyDelete (h : Matched R d m) (hf : m.collections.find? name = some e)
    (id : String) :
    wp (Catalog.applyDelete name e.collection id) (fun _ => Matched R) (fun _ _ _ => True)
      (fun _ => True) d m := by
  simp only [Catalog.applyDelete, wp_bind, wp_getMem,
    Catalog.deref_of_uuid hf (h.sound.entry name e hf).uuid, Collection.applyDelete]
  cases e.collection.schema.getField idField with
  | none => trivial
  | some field => exact h.buffered hf [.deleteTerm id]

theorem Matched.wp_upsertDocument (h : Matched R d m) (name : String) (id : Option String)
    (source : Bytes) (minted : Uuid) :
    wp (Catalog.upsertDocument name id source minted) (fun _ => Matched R) (fun _ _ _ => True)
      (fun _ => True) d m := by
  rw [Catalog.upsertDocument, wp_bind, Catalog.get, wp_bind, wp_getMem]
  cases hf : m.collections.find? name with
  | none => trivial
  | some e =>
    rw [wp_pure, wp_bind]
    cases Catalog.parseDocument e.collection.mapping source with
    | error err => trivial
    | ok parsed =>
      simp only [wp_ofExcept_ok, Catalog.logUpsert]
      refine h.wp_logged (Registry.allows_of_ne (by simp)) fun dir log h' => ?_
      rw [wp_bind]
      exact h'.wp_applyUpsert hf _ source parsed

theorem Matched.wp_deleteDocument (h : Matched R d m) (name id : String) :
    wp (Catalog.deleteDocument name id) (fun _ => Matched R) (fun _ _ _ => True)
      (fun _ => True) d m := by
  rw [Catalog.deleteDocument, wp_bind, Catalog.get, wp_bind, wp_getMem]
  cases hf : m.collections.find? name with
  | none => trivial
  | some e =>
    simp only [wp_pure, Catalog.logDelete]
    refine h.wp_logged (Registry.allows_of_ne (by simp)) fun dir log h' => ?_
    exact h'.wp_applyDelete hf id

theorem Matched.wp_applyCommand (h : Matched R d m) {cmd : Proto.Command} (hcmd : R.Allows cmd)
    (ord : IterOrder) (mark : LogMark) :
    wp (Catalog.applyCommand ord mark cmd) (fun _ => Matched R) (fun _ _ _ => True)
      (fun _ => True) d m :=
  Lumen.wp_applyCommand h.sound.based (fun _ _ => trivial) (fun _ _ _ _ => trivial)
    fun _ _ _ he => ⟨he.registered h.toRegistered hcmd, he.noOrphans h.noOrphans⟩

theorem Matched.wp_checkpoint (h : Matched R d m) (ord : IterOrder) :
    wp (Catalog.checkpoint ord) (fun _ => Matched R) (fun _ _ _ => True) (fun _ => True) d m := by
  rw [Catalog.checkpoint, wp_bind, wp_getMem, wp_bind]
  refine (Matched.stable R { index := m.seq }).wp_checkpointApplied h (fun _ _ _ => trivial)
    (fun d' m' h' _ => ?_) ord
  refine Catalog.wp_onWal _ (h'.wal.wp_purgeThrough _ fun dir log hdir => ?_)
  exact ⟨h'.toRegistered.withWal hdir m'.seq log, h'.noOrphans⟩

/-! ## opening -/

/-- One round of the loop over the catalog file. -/
theorem Registered.wp_openEntry (h : Registered R d m) {p : String × Listed}
    (hp : R p.2.uuid = some (p.1, p.2.mapping)) (dropped : List String) :
    wp (Catalog.openEntry dropped (Listed.toProto p)) (fun _ => Registered R) (fun _ _ _ => True)
      (fun _ => True) d m := by
  rw [Catalog.openEntry]
  split
  · exact h
  · rw [wp_bind, Catalog.decodeEntry_toProto, wp_ofExcept_ok]
    simp only [Catalog.openListed, wp_bind, wp_getDisk]
    split
    · simp only [wp_bind, wp_modifyMem, Catalog.openCollection, wp_getDisk, wp_getMem]
      cases hix : d.index p.2.uuid with
      | none => trivial
      | some ix =>
        simp only []
        split
        · trivial
        · rename_i ho
          have h' := (h.withWal h.wal (max m.seq p.2.createdSeq) m.wal).inserted hp
            (.inl ⟨hix, Bool.not_eq_true _ ▸ ho⟩) p.2.createdSeq
          have hsame : ({ d with wal := d.wal } : Disk).setDir p.2.uuid (.index ix) = d :=
            Disk.setDir_index hix
          rw [hsame] at h'
          exact h'
    · trivial

/-- One round of the replay loop. -/
theorem Registered.wp_replayEntry (h : Registered R d m) {entry : Proto.WalEntry}
    (hentry : R.AllowsEntry entry) (ord : IterOrder) (applied : Nat) :
    wp (Catalog.replayEntry ord applied entry) (fun _ => Registered R) (fun _ _ _ => True)
      (fun _ => True) d m := by
  rw [Catalog.replayEntry]
  split
  · exact h
  · cases hcmd : entry.command with
    | none => exact h
    | some cmd =>
      rw [wp_bind]
      exact wp_applyCommand h.sound.based (fun _ _ => trivial) (fun _ _ _ _ => trivial)
        fun _ _ _ he => he.registered h (hentry cmd hcmd)

/-- **Opening** uses every identity as before, and sweeps every directory that
no collection has. -/
theorem Registered.wp_openCatalog (h : Registered R d m) (ord : IterOrder) (m₀ : Catalog) :
    wp (Catalog.openCatalog ord) (fun _ => Matched R) (fun _ _ _ => True) (fun _ => True) d m₀ := by
  obtain ⟨a, l, hl, hall⟩ := h.listed
  rw [Catalog.openCatalog, wp_bind, Catalog.loadCatalog, wp_bind, wp_getDisk, wp_bind, hl,
    wp_ofExcept_ok, wp_bind, wp_modifyMem, wp_bind]
  refine Catalog.wp_onWal _ (h.wal.wp_openWal fun es log hes => ?_)
  rw [wp_bind, wp_modifyMem, wp_bind]
  let listed : List Proto.CatalogEntry → Disk → Catalog → Prop := fun rest d m =>
    Registered R d m ∧ ∀ entry ∈ rest, ∃ p, entry = Listed.toProto p ∧
      R p.2.uuid = some (p.1, p.2.mapping)
  have hstart : ∀ entry ∈ l.map Listed.toProto, ∃ p, entry = Listed.toProto p ∧
      R p.2.uuid = some (p.1, p.2.mapping) := by
    intro entry he
    obtain ⟨p, hp, rfl⟩ := List.mem_map.mp he
    exact ⟨p, rfl, hall p hp⟩
  refine wp_imp (wp_forEach listed (fun entry rest d m hJ => ?_) _
    ⟨h.of_empty fun _ => OrdMap.find?_empty _, hstart⟩) fun _ d m hJ => ?_
  · obtain ⟨h, hrest⟩ := hJ
    obtain ⟨⟨p, rfl, hp⟩, hnext⟩ := List.forall_mem_cons.mp hrest
    exact wp_imp (h.wp_openEntry hp _) fun _ _ _ h' => ⟨h', hnext⟩
  · -- the replay applies commands of the log
    let replayed : List Proto.WalEntry → Disk → Catalog → Prop := fun rest d m =>
      Registered R d m ∧ ∀ entry ∈ rest, R.AllowsEntry entry
    rw [wp_pure, wp_bind]
    refine wp_imp (wp_forEach replayed (fun entry rest d m hJ => ?_) _ ⟨hJ.1, hes⟩)
      fun _ d m hJ => ?_
    · obtain ⟨h, hrest⟩ := hJ
      obtain ⟨hentry, hrest⟩ := List.forall_mem_cons.mp hrest
      exact wp_imp (h.wp_replayEntry hentry ord a) fun _ _ _ h' => ⟨h', hrest⟩
    · rw [Catalog.finishOpen, wp_bind, wp_getMem, wp_bind]
      refine Catalog.wp_sweepOrphans_cases ord _ (fun _ _ => trivial) (fun _ _ _ _ _ _ => trivial)
        fun d' hsw hlive _ => ?_
      have h' : Matched R d' m :=
        ⟨hJ.1.swept hsw, fun u hu => Catalog.mem_liveUuids.mp (hlive u hu)⟩
      split
      · exact h'.wp_checkpoint ord
      · exact h'

/-! ## archives -/

/-- The listing and the directories of an archive use every identity for what it
stands for. -/
def Archive.Registered (R : Registry) (a : Archive) : Prop :=
  ∃ seq l, a.Formed seq l ∧ ∀ p ∈ l, R p.2.uuid = some (p.1, p.2.mapping) ∧
    ∀ ix, a.index p.2.uuid = some ix → ix.schema = p.2.mapping.toSchema

theorem Matched.wp_buildSnapshot (h : Matched R d m) (ord : IterOrder) :
    wp (Catalog.buildSnapshot ord)
      (fun _ d' m' => Matched R d' m' ∧ ∃ a, d'.snapshots.currentTar = some a ∧ a.Registered R)
      (fun _ _ _ => True) (fun _ => True) d m := by
  refine Catalog.wp_buildSnapshot ord h.sound fun s a hs hformed hidx => ?_
  refine ⟨⟨h.toRegistered.withSnapshots s, h.noOrphans⟩, a, hs, m.seq, _, hformed, fun p hp => ?_⟩
  obtain ⟨q, hq, rfl⟩ := List.mem_map.mp hp
  have hf := OrdMap.find?_eq_some_iff.mpr (ord.mem.mp hq)
  have hR := h.entry q.1 q.2 hf
  refine ⟨hR, fun ix hix => ?_⟩
  exact h.schema q.2.uuid ix _ _ ((hidx q.1 q.2 hf).symm.trans hix) hR

/-- An archive in its place, with no other directory. -/
theorem Installed.matched {a : Archive} {seq : Nat} {l : List (String × Listed)}
    (h : Installed a d d' l) (hf : a.Formed seq l)
    (hl : ∀ p ∈ l, R p.2.uuid = some (p.1, p.2.mapping) ∧
      ∀ ix, a.index p.2.uuid = some ix → ix.schema = p.2.mapping.toSchema)
    (hwal : LogDir.Carries (EncodesEntry R.AllowsEntry) d.wal)
    (hdirs : ∀ u, d'.dirs.contains u = true → ∃ p ∈ l, p.2.uuid = u)
    (hm : ∀ n, m'.collections.find? n = openedFrom a.index (.ofList l) n) : Matched R d' m' := by
  have hopen : ∀ n e, m'.collections.find? n = some e →
      ∃ y ix, (n, y) ∈ l ∧ d'.index y.uuid = some ix ∧ e = y.opened ix := by
    intro n e hfind
    rw [hm, ← h.openedFrom_eq] at hfind
    obtain ⟨y, ix, hy, hix, rfl⟩ := openedFrom_eq_some_iff.mp hfind
    exact ⟨y, ix, mem_of_find?_ofList hy, hix, rfl⟩
  constructor
  · constructor
    · constructor
      · intro n e hfind
        obtain ⟨y, ix, hy, hix, rfl⟩ := hopen n e hfind
        have hschema := (hl (n, y) hy).2 ix (by rw [← h.index hy]; exact hix)
        exact ⟨rfl, hschema, ix, hix, rfl, rfl⟩
      · intro n n' e e' hfind hfind' hu
        obtain ⟨y, ix, hy, _, rfl⟩ := hopen n e hfind
        obtain ⟨y', ix', hy', _, rfl⟩ := hopen n' e' hfind'
        exact congrArg Prod.fst (List.inj_on_of_nodup_map hf.uuids hy hy' hu)
    · intro n e hfind
      obtain ⟨y, ix, hy, _, rfl⟩ := hopen n e hfind
      exact (hl (n, y) hy).1
    · intro u ix n y hix hR
      obtain ⟨p, hp, rfl⟩ := hdirs u (Disk.contains_of_index hix)
      rw [(hl p hp).1, Option.some.injEq, Prod.mk.injEq] at hR
      rw [← hR.2]
      exact (hl p hp).2 ix (by rw [← h.index hp, hix])
    · exact ⟨seq, l, h.lists hf, fun p hp => (hl p hp).1⟩
    · exact h.wal ▸ hwal
  · intro u hu
    exact Catalog.mem_liveUuids.mp ((hf.mem_liveUuids hm).mpr (hdirs u hu))

/-- **Installing** an archive leaves its collections and its directories. -/
theorem Matched.wp_installSnapshot (h : Matched R d m) {a : Archive} (ha : a.Registered R)
    (ord : IterOrder) :
    wp (Catalog.installSnapshot ord a) (fun _ => Matched R) (fun _ _ _ => True) (fun _ => True)
      d m := by
  obtain ⟨seq, l, hf, hl⟩ := ha
  by_cases hfree : d.FreeAt seq l
  · refine wp_mono _ (Catalog.wp_installSnapshot ord hf hfree) (fun _ d' m' h' => ?_)
      (fun _ _ _ _ => trivial) fun _ _ => trivial
    obtain ⟨hinst, hdirs, hm⟩ := h'
    exact hinst.matched hf hl h.wal hdirs hm
  · exact wp_mono _ (Catalog.wp_installSnapshot_blocked ord hf hfree) (fun _ _ _ h' => h'.elim)
      (fun _ _ _ _ => trivial) fun _ _ => trivial

/-! ## runs -/

/-- An operation on an open catalog, with what it draws from outside. -/
inductive Operation where
  | create (name : String) (mapping : Mapping) (minted : Uuid)
  | dropCollection (name : String)
  | upsertDocument (name : String) (id : Option String) (source : Bytes) (minted : Uuid)
  | deleteDocument (name id : String)
  | applyCommand (ord : IterOrder) (mark : LogMark) (cmd : Proto.Command)
  | checkpoint (ord : IterOrder)
  | checkpointApplied (ord : IterOrder) (mark : LogMark)
  | commitCollection (name : String) (mark : LogMark)
  | buildSnapshot (ord : IterOrder)

def Operation.prog : Operation → CatalogM Unit
  | .create name mapping minted => do let _ ← Catalog.create name mapping minted
  | .dropCollection name => Catalog.dropCollection name
  | .upsertDocument name id source minted => do
    let _ ← Catalog.upsertDocument name id source minted
  | .deleteDocument name id => do let _ ← Catalog.deleteDocument name id
  | .applyCommand ord mark cmd => do let _ ← Catalog.applyCommand ord mark cmd
  | .checkpoint ord => Catalog.checkpoint ord
  | .checkpointApplied ord mark => Catalog.checkpointApplied ord mark
  | .commitCollection name mark => Catalog.commitCollection name mark
  | .buildSnapshot ord => Catalog.buildSnapshot ord

/-- The identity an operation brings stands for the collection it creates. -/
def Operation.Allowed (R : Registry) (m : Catalog) : Operation → Prop
  | .create name mapping minted => m.collections.find? name = none → R minted = some (name, mapping)
  | .applyCommand _ _ cmd => R.Allows cmd
  | _ => True

/-- The runs of operations that succeed on one data directory, with the states
between them, the last first: the directory is opened, worked on in either mode,
opened again, and given archives that were built in runs with the same
identities. -/
inductive CatalogRun (R : Registry) : List (Disk × Catalog) → Prop where
  | opened (ord : IterOrder) {d : Disk} {m : Catalog}
      (h : (Catalog.openCatalog ord).run .empty .closed = (.ok (), d, m)) : CatalogRun R [(d, m)]
  | reopened (ord : IterOrder) {d d' : Disk} {m m' : Catalog} {past : List (Disk × Catalog)}
      (prev : CatalogRun R ((d, m) :: past))
      (h : (Catalog.openCatalog ord).run d .closed = (.ok (), d', m')) :
      CatalogRun R ((d', m') :: (d, m) :: past)
  | step (op : Operation) {d d' : Disk} {m m' : Catalog} {past : List (Disk × Catalog)}
      (prev : CatalogRun R ((d, m) :: past)) (allowed : op.Allowed R m)
      (h : op.prog.run d m = (.ok (), d', m')) : CatalogRun R ((d', m') :: (d, m) :: past)
  | installed (ord ord' : IterOrder) {d d' d₀ d₁ : Disk} {m m' m₀ m₁ : Catalog}
      {past past₀ : List (Disk × Catalog)} {a : Archive} (prev : CatalogRun R ((d, m) :: past))
      (other : CatalogRun R ((d₀, m₀) :: past₀))
      (built : (Catalog.buildSnapshot ord').run d₀ m₀ = (.ok (), d₁, m₁))
      (archive : d₁.snapshots.currentTar = some a)
      (h : (Catalog.installSnapshot ord a).run d m = (.ok (), d', m')) :
      CatalogRun R ((d', m') :: (d, m) :: past)

section
variable {s s₀ : Disk × Catalog} {past past₀ : List (Disk × Catalog)}

theorem CatalogRun.openedAfter (ord : IterOrder)
    (h : ((Catalog.openCatalog ord).run .empty .closed).1 = .ok ()) :
    CatalogRun R [(Catalog.openCatalog ord).after (.empty, .closed)] :=
  .opened ord (Prod.ext h rfl)

theorem CatalogRun.reopenedAfter (prev : CatalogRun R (s :: past)) (ord : IterOrder)
    (h : ((Catalog.openCatalog ord).run s.1 .closed).1 = .ok ()) :
    CatalogRun R ((Catalog.openCatalog ord).after (s.1, .closed) :: s :: past) :=
  .reopened ord prev (Prod.ext h rfl)

theorem CatalogRun.stepAfter (prev : CatalogRun R (s :: past)) (op : Operation)
    (allowed : op.Allowed R s.2) (h : (op.prog.run s.1 s.2).1 = .ok ()) :
    CatalogRun R (op.prog.after s :: s :: past) :=
  .step op prev allowed (Prod.ext h rfl)

theorem CatalogRun.installedAfter (prev : CatalogRun R (s :: past)) (ord ord' : IterOrder)
    (other : CatalogRun R (s₀ :: past₀)) (a : Archive)
    (built : ((Catalog.buildSnapshot ord').run s₀.1 s₀.2).1 = .ok ())
    (archive : ((Catalog.buildSnapshot ord').after s₀).1.snapshots.currentTar = some a)
    (h : ((Catalog.installSnapshot ord a).run s.1 s.2).1 = .ok ()) :
    CatalogRun R ((Catalog.installSnapshot ord a).after s :: s :: past) :=
  .installed ord ord' prev other (Prod.ext built rfl) archive (Prod.ext h rfl)

end

/-- One operation. -/
theorem Matched.wp_operation (h : Matched R d m) {op : Operation} (hop : op.Allowed R m) :
    wp op.prog (fun _ => Matched R) (fun _ _ _ => True) (fun _ => True) d m := by
  cases op with
  | create name mapping minted => exact (wp_bind _ _).mpr (h.wp_create hop)
  | dropCollection name => exact h.wp_dropCollection name
  | upsertDocument name id source minted =>
    exact (wp_bind _ _).mpr (h.wp_upsertDocument name id source minted)
  | deleteDocument name id => exact (wp_bind _ _).mpr (h.wp_deleteDocument name id)
  | applyCommand ord mark cmd => exact (wp_bind _ _).mpr (h.wp_applyCommand hop ord mark)
  | checkpoint ord => exact h.wp_checkpoint ord
  | checkpointApplied ord mark =>
    exact (Matched.stable R mark).wp_checkpointApplied h (fun _ _ _ => trivial)
      (fun _ _ h' _ => h') ord
  | commitCollection name mark =>
    exact (Matched.stable R mark).wp_commitCollection h (fun _ _ _ => trivial)
      (fun _ _ h' => h') fun _ _ => trivial
  | buildSnapshot ord => exact wp_imp (h.wp_buildSnapshot ord) fun _ _ _ h' => h'.1

theorem Registered.empty (R : Registry) : Registered R .empty .closed where
  sound := ⟨by simp [Catalog.closed], by simp [Catalog.closed]⟩
  entry := by simp [Catalog.closed]
  schema := by simp [Disk.index, Disk.empty]
  listed := ⟨0, [], rfl, by simp⟩
  wal := LogDir.Carries.empty

/-- Every state of a run is matched. -/
theorem CatalogRun.matched {states : List (Disk × Catalog)} (h : CatalogRun R states) :
    ∀ s ∈ states, Matched R s.1 s.2 := by
  induction h with
  | opened ord h =>
    rw [List.forall_mem_singleton]
    exact post_of_wp ((Registered.empty R).wp_openCatalog ord .closed) h
  | reopened ord prev h ih =>
    refine List.forall_mem_cons.mpr ⟨?_, ih⟩
    have hs := ih _ List.mem_cons_self
    exact post_of_wp (hs.toRegistered.wp_openCatalog ord .closed) h
  | step op prev allowed h ih =>
    refine List.forall_mem_cons.mpr ⟨?_, ih⟩
    have hs := ih _ List.mem_cons_self
    exact post_of_wp (hs.wp_operation allowed) h
  | installed ord ord' prev other built archive h ih ih₀ =>
    refine List.forall_mem_cons.mpr ⟨?_, ih⟩
    have hs := ih _ List.mem_cons_self
    have hs₀ := ih₀ _ List.mem_cons_self
    obtain ⟨_, a, ha, hreg⟩ := post_of_wp (hs₀.wp_buildSnapshot ord') built
    rw [archive, Option.some.injEq] at ha
    exact post_of_wp (hs.wp_installSnapshot (ha ▸ hreg) ord) h

/-- The collections of a map and the directories under the root are the same. -/
structure Corresponds (d : Disk) (m : Catalog) : Prop where
  inj : ∀ n n' e e', m.collections.find? n = some e → m.collections.find? n' = some e' →
    e.uuid = e'.uuid → n = n'
  dir : ∀ n e, m.collections.find? n = some e → d.dirs.contains e.uuid = true
  owned : ∀ u, d.dirs.contains u = true → ∃ n e, m.collections.find? n = some e ∧ e.uuid = u

theorem Matched.corresponds (h : Matched R d m) : Corresponds d m where
  inj := h.sound.inj
  dir n e hf := by
    obtain ⟨ix, hix, _⟩ := (h.sound.entry n e hf).index
    exact Disk.contains_of_index hix
  owned := h.noOrphans

/-- **Catalog and directories correspond.**  In every state between the
operations of a run, names have identities of their own, the directories under
the root are those of the collections, and two states that both have a
collection with some identity have it under one name and with one mapping. -/
theorem catalog_directories_correspond {states : List (Disk × Catalog)}
    (h : CatalogRun R states) :
    (∀ s ∈ states, Corresponds s.1 s.2) ∧
      ∀ s ∈ states, ∀ s' ∈ states, ∀ n n' e e', s.2.collections.find? n = some e →
        s'.2.collections.find? n' = some e' → e.uuid = e'.uuid →
        n = n' ∧ e.collection.mapping = e'.collection.mapping := by
  refine ⟨fun s hs => (h.matched s hs).corresponds, fun s hs s' hs' n n' e e' hf hf' hu => ?_⟩
  have hR := (h.matched s hs).entry n e hf
  rw [hu, (h.matched s' hs').entry n' e' hf', Option.some.injEq, Prod.mk.injEq] at hR
  exact ⟨hR.1.symm, hR.2.symm⟩

end

/-! ### a run through both modes -/

section
open Reference

def registryAB : Registry := fun u =>
  if u = exampleUuid 1 then some ("a", emptyMapping)
  else if u = exampleUuid 2 then some ("b", emptyMapping)
  else none

def openedRoot : Disk × Catalog := (Catalog.openCatalog .stored).after (.empty, .closed)

/-- A collection created on a single node. -/
def createA : Operation := .create "a" emptyMapping (exampleUuid 1)

/-- A collection created by a command of the cluster. -/
def applyB : Operation :=
  .applyCommand .stored ⟨1, 1, 2⟩ (createCommand "b" (exampleUuid 2) [])

/-- The archive of the first collection, installed over both. -/
def installedOverB : Disk × Catalog :=
  (Catalog.installSnapshot .stored (builtArchive (createA.prog.after openedRoot))).after
    (applyB.prog.after (createA.prog.after openedRoot))

def reopenedRoot : Disk × Catalog := (Catalog.openCatalog .stored).after (installedOverB.1, .closed)

theorem mixed_run : CatalogRun registryAB [reopenedRoot, installedOverB,
    applyB.prog.after (createA.prog.after openedRoot), createA.prog.after openedRoot,
    openedRoot] := by
  have hB : applyB.Allowed registryAB (createA.prog.after openedRoot).2 := by
    intro n u x hev
    obtain ⟨c, hop, rfl, hu, hx⟩ := eventOf_eq_create_iff.mp hev
    cases Proto.Op.createCollection.inj (Option.some.inj hop)
    have hu' : u = exampleUuid 2 := Except.ok.inj (hu.symm.trans (by decide +kernel))
    have hx' : x = emptyMapping := Except.ok.inj (hx.symm.trans (by decide +kernel))
    rw [hu', hx']
    decide +kernel
  have hopened := CatalogRun.openedAfter (R := registryAB) .stored (by decide +kernel)
  have hcreated := hopened.stepAfter createA (fun _ => by decide +kernel) (by decide +kernel)
  have happlied := hcreated.stepAfter applyB hB (by decide +kernel)
  have hinstalled := happlied.installedAfter .stored .stored hcreated
    (builtArchive (createA.prog.after openedRoot)) (by decide +kernel) (by decide +kernel)
    (by decide +kernel)
  exact hinstalled.reopenedAfter .stored (by decide +kernel)

/-- The second collection and its directory are gone together. -/
theorem catalog_directories_correspond_mixed :
    reopenedRoot.2.collections.keys = ["a"] ∧ reopenedRoot.1.dirs.keys = [exampleUuid 1] ∧
      Corresponds reopenedRoot.1 reopenedRoot.2 :=
  ⟨by decide +kernel, by decide +kernel,
    (catalog_directories_correspond mixed_run).1 _ List.mem_cons_self⟩

end

end Lumen
