import Lumen.Cluster.Run
import Lumen.Lib.Keeper
import Lumen.Log.Map
import Lumen.LogStore.Refine

/-!
# Lumen.Cluster.Metadata

The two files a node keeps for Raft beside its log and its collections:
`raft-meta.pb` with the vote, the committed id and the purge floor, and
`membership.pb`.  Both are written whole to a temporary file that is renamed
into place.

A crash keeps the file that is in place and may do anything to the temporary
one; what it does to the log and to the catalog is left open, and opening the
store does not depend on it (`wp_openStore_any`).  A rename that is not yet
synced may be lost, which is a crash before it.

* `raft_metadata_survives_crashes` — after any run of calls, crashes and
  restarts both files read back the value of the last save, or that of a save
  that was cut off.
-/

namespace Lumen

open Lib Prog Raft

/-! ## opening any log -/

section
variable [Ext] {dir : LogDir} {log : SegmentedLog} {C : LogDir → Prop}
  {E : Error → LogDir → SegmentedLog → Prop}

/-- The scan goes over the files in order and takes none away. -/
theorem wp_openSegments_listed {l : List Nat} {records : OrdMap Nat RecordLoc}
    {Q : List Nat × OrdMap Nat RecordLoc × Option Active → LogDir → SegmentedLog → Prop}
    (hl : ∀ s ∈ l, ∃ bytes, dir.find? s = some bytes) (hC : ∀ d, C d)
    (hQ : ∀ r dir', r.1.Sublist l → (∀ s ∈ l, ∃ bytes, dir'.find? s = some bytes) →
      Q r dir' log) :
    wp (SegmentedLog.openSegments l records) Q E C dir log := by
  suffices hw : ∀ (records : OrdMap Nat RecordLoc)
      (Q : List Nat × OrdMap Nat RecordLoc × Option Active → LogDir → SegmentedLog → Prop),
      (∀ r dir', r.1.Sublist l →
        (∀ s, (∃ bytes, dir.find? s = some bytes) → ∃ bytes, dir'.find? s = some bytes) →
          Q r dir' log) →
      wp (SegmentedLog.openSegments l records) Q E C dir log from
    hw records Q fun r dir' hr hdir' => hQ r dir' hr fun s hs => hdir' s (hl s hs)
  clear hQ
  induction l with
  | nil => exact fun _ _ hQ => hQ _ _ (List.Sublist.refl _) fun _ hs => hs
  | cons s l ih =>
    intro records Q hQ
    obtain ⟨bytes, hb⟩ := hl s List.mem_cons_self
    have hone : [s].Sublist (s :: l) := List.Sublist.cons_cons s (List.nil_sublist l)
    rw [SegmentedLog.openSegments, wp_bind, wp_getDisk, hb]
    dsimp only
    split
    · refine ⟨hC _, hQ _ _ hone ?_⟩
      rintro t ⟨b, hb'⟩
      rw [OrdMap.find?_modify]
      split
      · exact ⟨_, by rw [hb]; rfl⟩
      · exact ⟨b, hb'⟩
    · split
      · exact hQ _ _ hone fun _ hs => hs
      · rw [wp_bind]
        exact ih (fun t ht => hl t (List.mem_cons_of_mem s ht)) _ _ fun r dir' hr hdir' =>
          hQ _ dir' (hr.cons_cons s) hdir'

/-- Every directory opens, to segments that are there. -/
theorem wp_openLog_any {Q : Unit → LogDir → SegmentedLog → Prop} (hC : ∀ d, C d)
    (hQ : ∀ dir' log', log'.starts.Nodup →
      (∀ s ∈ log'.starts, ∃ bytes, dir'.find? s = some bytes) → Q () dir' log') :
    wp SegmentedLog.openLog Q E C dir log := by
  rw [SegmentedLog.openLog, SegmentedLog.openWithSegmentMax, wp_bind, wp_getDisk, wp_bind]
  have hkeys : ∀ s ∈ dir.keys, ∃ bytes, dir.find? s = some bytes := by
    intro s hs
    obtain ⟨p, hp, rfl⟩ := List.mem_map.mp hs
    exact ⟨p.2, OrdMap.find?_eq_some_iff.mpr hp⟩
  have hnd : dir.keys.Nodup := by
    rw [OrdMap.keys, List.Nodup, List.pairwise_map]
    exact dir.sorted.imp Nat.ne_of_lt
  refine wp_openSegments_listed hkeys hC fun r dir' hr hdir' => ?_
  exact hQ _ _ (hr.nodup hnd) fun s hs => hdir' s (hr.subset hs)

omit [Ext] in
/-- A purge unlinks files that are there. -/
theorem wp_purgeThrough_any {Q : Unit → LogDir → SegmentedLog → Prop} (index : Nat)
    (hnd : log.starts.Nodup) (hfiles : ∀ s ∈ log.starts, ∃ bytes, dir.find? s = some bytes)
    (hC : ∀ d, C d) (hQ : ∀ dir' log', Q () dir' log') :
    wp (SegmentedLog.purgeThrough index) Q E C dir log := by
  rw [SegmentedLog.purgeThrough]
  simp only [wp_bind, wp_modifyMem, wp_getMem]
  exact wp_purgeFiles_unlinked hnd hfiles hC fun dir' _ => hQ dir' _

end

/-! ## the log store -/

section
variable [Ext] {d d' : StoreDir} {m : LogStore} {t : Meta} {α : Type}
  {Q : α → StoreDir → LogStore → Prop} {E : StorageError → StoreDir → LogStore → Prop}
  {C : StoreDir → Prop}

theorem loadMeta_congr (h : d'.metaPb = d.metaPb) : LogStore.loadMeta d' = LogStore.loadMeta d := by
  rw [LogStore.loadMeta, LogStore.loadMeta, h]

omit [Ext] in
/-- A log operation touches neither the metadata file nor its copy in
memory. -/
theorem wp_onLog_any (wrap : Cause → StorageError) (p : LogM α)
    (hQ : ∀ a l lg, Q a { d with log := l } { m with log := lg })
    (hE : ∀ e l lg, E e { d with log := l } { m with log := lg })
    (hC : ∀ l, C { d with log := l }) : wp (LogStore.onLog wrap p) Q E C d m :=
  wp_onLog wrap p (wp_mono p (wp_trivial p) (fun _ _ _ _ => hQ _ _ _) (fun _ _ _ _ => hE _ _ _)
    fun _ _ => hC _)

/-- The store opens whatever its log directory holds, and reads the metadata
file. -/
theorem wp_openStore_any {Q : Unit → StoreDir → LogStore → Prop}
    (h : LogStore.loadMeta d = .ok t) (hC : ∀ l, C { d with log := l })
    (hQ : ∀ l lg, Q () { d with log := l } ⟨lg, t⟩) : wp LogStore.openStore Q E C d m := by
  rw [LogStore.openStore, wp_bind]
  refine wp_onLog _ _ (wp_openLog_any (fun _ => hC _) fun dir' log' hnd hfiles => ?_)
  have hload : LogStore.loadMeta { d with log := dir' } = .ok t := (loadMeta_congr rfl).trans h
  simp only [wp_bind, wp_getDisk, hload, wp_ofExcept_ok, wp_modifyMem]
  cases t.lastPurged with
  | none => exact hQ dir' log'
  | some purged =>
    exact wp_onLog _ _ (wp_purgeThrough_any purged.index hnd hfiles (fun _ => hC _)
      fun l lg => hQ l lg)

/-- What a call makes of the metadata. -/
def StoreOp.save : StoreOp → Meta → Meta
  | .purge logId, t => { t with lastPurged := some logId }
  | .saveVote vote, t => { t with vote := some vote }
  | .saveCommitted committed, t => { t with committed := committed }
  | _, t => t

def StoreOp.saveVoteOnly : StoreOp → Option Vote → Option Vote
  | .saveVote vote, _ => some vote
  | _, vote => vote

def StoreOp.saveCommittedOnly : StoreOp → Option LogId → Option LogId
  | .saveCommitted committed, _ => committed
  | _, committed => committed

def StoreOp.savePurgedOnly : StoreOp → Option LogId → Option LogId
  | .purge logId, _ => some logId
  | _, purged => purged

/-- The log store as a process that keeps its metadata.  A failed call has
saved: what can fail comes after the file is in place. -/
def storeKeeper : Keeper StoreDir LogStore StorageError StoreOp Meta where
  fresh := default
  Boot b := b = LogStore.openStore
  call := StoreOp.exec
  save := StoreOp.save
  fail := StoreOp.save
  Left d d' := d'.metaPb = d.metaPb

/-- One save: the file holds the old metadata until it holds the new. -/
theorem wp_save {Q : Unit → StoreDir → LogStore → Prop} (h : LogStore.loadMeta d = .ok t)
    (x : Meta) (hC : ∀ d', LogStore.loadMeta d' = .ok t ∨ LogStore.loadMeta d' = .ok x → C d')
    (hQ : ∀ d', LogStore.loadMeta d' = .ok x → Q () d' m) :
    wp (LogStore.persistMeta x) Q E C d m :=
  wp_persistMeta x (fun _ => hC _ (.inl ((loadMeta_congr rfl).trans h)))
    (hC _ (.inr (loadMeta_of_metaPb rfl))) (hQ _ (loadMeta_of_metaPb rfl))

theorem storeKeeper_sound :
    storeKeeper.Sound (fun d t => LogStore.loadMeta d = .ok t) (fun m t => m.metadata = t) where
  boot := by
    rintro _ d t rfl h
    exact wp_openStore_any h (fun _ => (loadMeta_congr rfl).trans h)
      fun _ _ => ⟨(loadMeta_congr rfl).trans h, rfl⟩
  left hl h := (loadMeta_congr hl).trans h
  call := by
    intro d m t op h hm
    have hlog : ∀ l, LogStore.loadMeta { d with log := l } = .ok t := fun _ =>
      (loadMeta_congr rfl).trans h
    cases op with
    | append entries =>
      let I : StoreDir → LogStore → Prop := fun d' m' =>
        LogStore.loadMeta d' = .ok t ∧ m'.metadata = t
      refine wp_forEach (fun _ => I) (fun e _ d' m' hI => ?_) entries ⟨h, hm⟩
      have hstay : ∀ l, LogStore.loadMeta { d' with log := l } = .ok t := fun _ =>
        (loadMeta_congr rfl).trans hI.1
      exact wp_onLog_any _ _ (fun _ _ _ => ⟨hstay _, hI.2⟩) (fun _ _ _ => ⟨hstay _, hI.2⟩)
        fun _ => .inl (hstay _)
    | truncate logId =>
      exact wp_onLog_any _ _ (fun _ _ _ => ⟨hlog _, hm⟩) (fun _ _ _ => ⟨hlog _, hm⟩)
        fun _ => .inl (hlog _)
    | purge logId =>
      show wp (LogStore.purge logId) _ _ _ _ _
      simp only [LogStore.purge, wp_bind, wp_modifyMem, wp_getMem, hm]
      refine wp_save h _ (fun _ hd => hd) fun d' hd' => ?_
      exact wp_onLog_any _ _ (fun _ _ _ => ⟨(loadMeta_congr rfl).trans hd', rfl⟩)
        (fun _ _ _ => ⟨(loadMeta_congr rfl).trans hd', rfl⟩)
        fun _ => .inr ((loadMeta_congr rfl).trans hd')
    | saveVote vote =>
      show wp (LogStore.saveVote vote) _ _ _ _ _
      simp only [LogStore.saveVote, wp_bind, wp_modifyMem, wp_getMem, hm]
      exact wp_save h _ (fun _ hd => hd) fun d' hd' => ⟨hd', rfl⟩
    | saveCommitted committed =>
      show wp (LogStore.saveCommitted committed) _ _ _ _ _
      simp only [LogStore.saveCommitted, wp_bind, wp_modifyMem, wp_getMem, hm]
      exact wp_save h _ (fun _ hd => hd) fun d' hd' => ⟨hd', rfl⟩
    | reopen => exact wp_openStore_any h (fun _ => .inl (hlog _)) fun _ _ => ⟨hlog _, rfl⟩

end

/-! ## the state machine -/

section
variable [Ext] {d d' : NodeDisk} {m : StateMachine} {s : StoredMembership} {α : Type}
  {Q : α → NodeDisk → StateMachine → Prop} {E : StorageError → NodeDisk → StateMachine → Prop}
  {C : NodeDisk → Prop}

/-- The calls of the state machine: an entry of a batch is applied, a snapshot
is installed or built, and anything is done with the catalog alone. -/
inductive NodeOp where
  | applyEntry (ord : IterOrder) (entry : Raft.Entry)
  | installSnapshot (ord : IterOrder) (info : SnapshotMeta) (archive : Archive)
  | buildSnapshot (ord : IterOrder)
  | onCatalog (wrap : Error → StorageError) (p : CatalogM Unit)

def NodeOp.exec : NodeOp → NodeM Unit
  | .applyEntry ord entry => do
    let _ ← StateMachine.applyEntry ord entry
  | .installSnapshot ord info archive => StateMachine.installSnapshot ord info archive
  | .buildSnapshot ord => do
    let _ ← StateMachine.buildSnapshot ord
  | .onCatalog wrap p => StateMachine.onCatalog wrap p

/-- The membership of a call that returns. -/
def NodeOp.save : NodeOp → StoredMembership → StoredMembership
  | .applyEntry _ entry, s =>
    match entry.payload with
    | .membership membership => ⟨some entry.logId, membership⟩
    | _ => s
  | .installSnapshot _ info _, _ => info.lastMembership
  | _, s => s

/-- The state machine as a process that keeps the membership.  A call that
fails has not come to the file. -/
def nodeKeeper : Keeper NodeDisk StateMachine StorageError NodeOp StoredMembership where
  fresh := default
  Boot b := ∃ ord, b = StateMachine.restart ord
  call := NodeOp.exec
  save := NodeOp.save
  fail _ s := s
  Left d d' := d'.membershipPb = d.membershipPb

theorem loadMembership_congr (h : d'.membershipPb = d.membershipPb) :
    StateMachine.loadMembership d' = StateMachine.loadMembership d := by
  rw [StateMachine.loadMembership, StateMachine.loadMembership, h]

theorem loadMembership_of_membershipPb
    (h : d.membershipPb = some (Ext.storedMembership.encode s.toProto)) :
    StateMachine.loadMembership d = .ok s := by
  simp only [StateMachine.loadMembership, h, Codec.decode_encode, StoredMembership.tryFrom_toProto]

omit [Ext] in
theorem wp_onCatalog_any (wrap : Error → StorageError) (p : CatalogM α)
    (hQ : ∀ a x y, Q a { d with data := x } { m with catalog := y })
    (hE : ∀ e x y, E e { d with data := x } { m with catalog := y })
    (hC : ∀ x, C { d with data := x }) : wp (StateMachine.onCatalog wrap p) Q E C d m :=
  wp_onCatalog wrap p (wp_mono p (wp_trivial p) (fun _ _ _ _ => hQ _ _ _)
    (fun _ _ _ _ => hE _ _ _) fun _ _ => hC _)

theorem wp_saveMembership {Q : Unit → NodeDisk → StateMachine → Prop}
    (h : StateMachine.loadMembership d = .ok s) (x : StoredMembership)
    (hC : ∀ d', StateMachine.loadMembership d' = .ok s ∨ StateMachine.loadMembership d' = .ok x →
      C d')
    (hQ : ∀ d', StateMachine.loadMembership d' = .ok x → Q () d' m) :
    wp (StateMachine.persistMembership x) Q E C d m :=
  wp_persistMembership x (fun _ => hC _ (.inl ((loadMembership_congr rfl).trans h)))
    (hC _ (.inr (loadMembership_of_membershipPb rfl))) (hQ _ (loadMembership_of_membershipPb rfl))

/-- `StateMachine::open` reads the membership file. -/
theorem wp_openStateMachine {Q : Unit → NodeDisk → StateMachine → Prop}
    (h : StateMachine.loadMembership d = .ok s) (hQ : Q () d ⟨m.catalog, none, s, none⟩) :
    wp StateMachine.openStateMachine Q E C d m := by
  rw [StateMachine.openStateMachine, wp_bind, wp_getDisk, wp_bind, h, wp_ofExcept_ok, wp_modifyMem]
  exact hQ

theorem nodeKeeper_sound :
    nodeKeeper.Sound (fun d s => StateMachine.loadMembership d = .ok s)
      (fun m s => m.lastMembership = s) where
  boot := by
    rintro _ d s ⟨ord, rfl⟩ h
    have hdata : ∀ x, StateMachine.loadMembership { d with data := x } = .ok s := fun _ =>
      (loadMembership_congr rfl).trans h
    rw [StateMachine.restart, wp_bind]
    exact wp_onCatalog_any _ _
      (fun _ _ _ => wp_openStateMachine (hdata _) ⟨hdata _, rfl⟩) (fun _ _ _ => hdata _)
      fun _ => hdata _
  left hl h := (loadMembership_congr hl).trans h
  call := by
    intro d m s op h hm
    have hdata : ∀ x, StateMachine.loadMembership { d with data := x } = .ok s := fun _ =>
      (loadMembership_congr rfl).trans h
    cases op with
    | applyEntry ord entry =>
      show wp (NodeOp.applyEntry ord entry).exec _ _ _ _ _
      rw [NodeOp.exec, wp_bind, StateMachine.applyEntry, wp_bind, wp_modifyMem]
      simp only [nodeKeeper, NodeOp.save]
      cases entry.payload with
      | blank => exact ⟨h, hm⟩
      | membership membership =>
        rw [StateMachine.applyPayload, wp_bind]
        exact wp_saveMembership h _ (fun _ hd => hd) fun d' hd' => ⟨hd', rfl⟩
      | normal command =>
        rw [StateMachine.applyPayload, wp_bind]
        exact wp_onCatalog_any _ _ (fun _ _ _ => ⟨hdata _, hm⟩) (fun _ _ _ => ⟨hdata _, hm⟩)
          fun _ => .inl (hdata _)
    | installSnapshot ord info archive =>
      show wp (StateMachine.installSnapshot ord info archive) _ _ _ _ _
      rw [StateMachine.installSnapshot, wp_bind]
      refine wp_onCatalog_any _ _ (fun _ x y => ?_) (fun _ _ _ => ⟨hdata _, hm⟩)
        fun _ => .inl (hdata _)
      rw [wp_bind]
      exact wp_saveMembership (hdata x) _ (fun _ hd => hd) fun d' hd' => ⟨hd', rfl⟩
    | buildSnapshot ord =>
      show wp (NodeOp.buildSnapshot ord).exec _ _ _ _ _
      rw [NodeOp.exec, wp_bind, StateMachine.buildSnapshot, wp_bind]
      refine wp_onCatalog_any _ _ (fun _ x y => ?_) (fun _ _ _ => ⟨hdata _, hm⟩)
        fun _ => .inl (hdata _)
      rw [StateMachine.snapshotMeta, wp_bind, StateMachine.appliedLogId, wp_bind]
      exact wp_onCatalog_any _ _ (fun _ x' _ => ⟨hdata x', hm⟩) (fun _ x' _ => ⟨hdata x', hm⟩)
        fun x' => .inl (hdata x')
    | onCatalog wrap p =>
      exact wp_onCatalog_any _ _ (fun _ _ _ => ⟨hdata _, hm⟩) (fun _ _ _ => ⟨hdata _, hm⟩)
        fun _ => .inl (hdata _)

/-! ## batches -/

variable {d₀ : NodeDisk} {evs : List (Keeper.Event NodeOp)} {ord : IterOrder}
  {entries : List Raft.Entry} {m' : StateMachine}

theorem nodeKeeper_applyEntry {e : Raft.Entry} {r : Response}
    (h : nodeKeeper.Run d₀ evs d (some m))
    (hrun : (StateMachine.applyEntry ord e).run d m = (.ok r, d', m')) :
    nodeKeeper.Run d₀ (evs ++ [.done (.applyEntry ord e)]) d' (some m') :=
  h.done (.applyEntry ord e) (run_bind_ok hrun)

/-- A batch that returns has applied its entries one after the other. -/
theorem nodeKeeper_apply {rs : List Response} (h : nodeKeeper.Run d₀ evs d (some m))
    (hrun : (StateMachine.apply ord entries).run d m = (.ok rs, d', m')) :
    nodeKeeper.Run d₀ (evs ++ entries.map fun e => .done (.applyEntry ord e)) d' (some m') := by
  induction entries generalizing evs d m rs with
  | nil =>
    cases hrun
    rw [List.map_nil, List.append_nil]
    exact h
  | cons e entries ih =>
    rw [StateMachine.apply] at hrun
    cases he : (StateMachine.applyEntry ord e).run d m with
    | mk r x =>
      obtain ⟨d₁, m₁⟩ := x
      cases r with
      | error err =>
        rw [run_bind_error he] at hrun
        cases hrun
      | ok r =>
        rw [run_bind_ok he] at hrun
        cases hrest : (StateMachine.apply ord entries).run d₁ m₁ with
        | mk r' x' =>
          cases r' with
          | error err =>
            rw [run_bind_error hrest] at hrun
            cases hrun
          | ok rs' =>
            rw [run_bind_ok hrest] at hrun
            cases hrun
            rw [List.map_cons, List.append_cons]
            exact ih (nodeKeeper_applyEntry h he) hrest

/-- A batch that stops on the way has applied the entries before the one it
stopped in. -/
theorem nodeKeeper_apply_cut {x : NodeDisk} (h : nodeKeeper.Run d₀ evs d (some m))
    (hx : x ∈ (StateMachine.apply ord entries).crashes d m)
    (hleft : d'.membershipPb = x.membershipPb) :
    ∃ pre e post, entries = pre ++ e :: post ∧
      nodeKeeper.Run d₀ (evs ++ pre.map (fun e => .done (.applyEntry ord e)) ++
        [.cut (.applyEntry ord e)]) d' none := by
  induction entries generalizing evs d m with
  | nil => contradiction
  | cons e entries ih =>
    rw [StateMachine.apply, mem_crashes_bind] at hx
    rcases hx with hx | ⟨r, d₁, m₁, he, hx⟩
    · refine ⟨[], e, entries, rfl, ?_⟩
      rw [List.map_nil, List.append_nil]
      exact h.cut (.applyEntry ord e) (mem_crashes_bind.mpr (.inl hx)) hleft
    · have hx : x ∈ (StateMachine.apply ord entries).crashes d₁ m₁ := by
        rcases mem_crashes_bind.mp hx with hx | ⟨_, _, _, _, hx⟩
        · exact hx
        · contradiction
      obtain ⟨pre, e', post, rfl, hrun⟩ := ih (nodeKeeper_applyEntry h he) hx
      refine ⟨e :: pre, e', post, rfl, ?_⟩
      rw [List.map_cons, List.append_cons evs]
      exact hrun

end

/-! ## the result -/

/-- **Raft metadata survives crashes whole.**  From any directory whose
metadata reads `t₀`, after any run of saves, purges and other calls with
crashes at any step, the store opens, and reads one triple that the history
allows: that of the last save, or that of a save that was cut off.  Each of its
fields is what the saves of that field alone allow.  The membership file is the
same. -/
theorem raft_metadata_survives_crashes [Ext] {d₀ d : StoreDir} {t₀ : Meta}
    {evs : List (Keeper.Event StoreOp)} {p : Option LogStore} (hd₀ : LogStore.loadMeta d₀ = .ok t₀)
    (hstore : storeKeeper.Run d₀ evs d p) {n₀ n : NodeDisk} {s₀ : StoredMembership}
    {nevs : List (Keeper.Event NodeOp)} {q : Option StateMachine}
    (hn₀ : StateMachine.loadMembership n₀ = .ok s₀) (hnode : nodeKeeper.Run n₀ nevs n q) :
    (∃ t, Keeper.Reads StoreOp.save StoreOp.save t₀ evs t ∧
      Keeper.Reads StoreOp.saveVoteOnly StoreOp.saveVoteOnly t₀.vote evs t.vote ∧
      Keeper.Reads StoreOp.saveCommittedOnly StoreOp.saveCommittedOnly t₀.committed evs
        t.committed ∧
      Keeper.Reads StoreOp.savePurgedOnly StoreOp.savePurgedOnly t₀.lastPurged evs t.lastPurged ∧
      (∀ m, p = some m → m.metadata = t) ∧
      ∀ m, ∃ d' lg, LogStore.openStore.run d m = (.ok (), d', ⟨lg, t⟩)) ∧
    ∃ s, Keeper.Reads NodeOp.save (fun _ s => s) s₀ nevs s ∧
      (∀ m, q = some m → m.lastMembership = s) ∧
      ∀ m, StateMachine.openStateMachine.run n m = (.ok (), n, ⟨m.catalog, none, s, none⟩) := by
  constructor
  · obtain ⟨t, hr, hd, hm⟩ := hstore.reads storeKeeper_sound hd₀
    have hvote : ∀ (op : StoreOp) (t : Meta), (op.save t).vote = op.saveVoteOnly t.vote := by
      rintro (_ | _) _ <;> rfl
    have hcommitted : ∀ (op : StoreOp) (t : Meta),
        (op.save t).committed = op.saveCommittedOnly t.committed := by
      rintro (_ | _) _ <;> rfl
    have hpurged : ∀ (op : StoreOp) (t : Meta),
        (op.save t).lastPurged = op.savePurgedOnly t.lastPurged := by
      rintro (_ | _) _ <;> rfl
    refine ⟨t, hr, hr.map Meta.vote hvote hvote, hr.map Meta.committed hcommitted hcommitted,
      hr.map Meta.lastPurged hpurged hpurged, hm, fun m => ?_⟩
    have hw : wp LogStore.openStore (fun _ _ m' => ∃ lg, m' = ⟨lg, t⟩) (fun _ _ _ => False)
        (fun _ => True) d m :=
      wp_openStore_any hd (fun _ => trivial) fun _ lg => ⟨lg, rfl⟩
    obtain ⟨_, d', _, hrun, lg, rfl⟩ := run_ok_of_wp hw
    exact ⟨d', lg, hrun⟩
  · obtain ⟨s, hr, hn, hm⟩ := hnode.reads nodeKeeper_sound hn₀
    refine ⟨s, hr, hm, fun m => ?_⟩
    have hw : wp StateMachine.openStateMachine
        (fun x d' m' => x = () ∧ d' = n ∧ m' = ⟨m.catalog, none, s, none⟩) (fun _ _ _ => False)
        (fun _ => True) n m :=
      wp_openStateMachine hn ⟨rfl, rfl, rfl⟩
    exact run_eq_ok_of_wp hw

section
open Reference

/-- A vote is saved, the process dies while it saves the committed id, and
the temporary file is torn. -/
def tornCommit (vote : Vote) : StoreDir :=
  { ((StoreOp.saveVote vote).after openedStore).1 with metaTmp := some [1] }

theorem tornCommit_run (vote : Vote) (committed : LogId) :
    storeKeeper.Run .empty [.done (.saveVote vote), .cut (.saveCommitted (some committed))]
      (tornCommit vote) none := by
  have hopen : storeKeeper.Run .empty [] openedStore.1 (some openedStore.2) :=
    .boot rfl .start (Prod.ext (by decide +kernel) rfl)
  have hsave : (StoreOp.saveVote vote).exec.run openedStore.1 openedStore.2 =
      (.ok (), (StoreOp.saveVote vote).after openedStore) := rfl
  have hleft : storeKeeper.Left
      { ((StoreOp.saveVote vote).after openedStore).1 with metaTmp := some [] }
      (tornCommit vote) := rfl
  exact (hopen.done (StoreOp.saveVote vote) hsave).cut (StoreOp.saveCommitted (some committed))
    List.mem_cons_self hleft

/-- The entry that makes a node a voter. -/
def voterEntry (index id : Nat) : Raft.Entry :=
  ⟨⟨⟨1, 1⟩, index⟩, .membership (.new [NodeSet.ofList [id]] ∅)⟩

/-- A node that has applied a membership. -/
def joinedNode : NodeDisk × StateMachine :=
  (NodeOp.applyEntry .stored (voterEntry 1 1)).exec.after <|
    (StateMachine.restart .stored).after (.empty, default)

theorem joinedNode_run : nodeKeeper.Run .empty [.done (.applyEntry .stored (voterEntry 1 1))]
    joinedNode.1 (some joinedNode.2) := by
  have hboot : nodeKeeper.Run .empty [] ((StateMachine.restart .stored).after (.empty, default)).1
      (some ((StateMachine.restart .stored).after (.empty, default)).2) :=
    .boot ⟨.stored, rfl⟩ .start (Prod.ext (by decide +kernel) rfl)
  exact hboot.done (.applyEntry .stored (voterEntry 1 1)) (run_eq_after (by decide +kernel))

/-- The triple is whole after the cut, and so is the membership of a node wherever it is
cut while it applies the next one. -/
theorem raft_metadata_survives_crashes_tornCommit :
    (∃ t, Keeper.Reads StoreOp.save StoreOp.save default
        [.done (.saveVote ⟨⟨1, 1⟩, true⟩), .cut (.saveCommitted (some ⟨⟨1, 1⟩, 0⟩))] t ∧
      ∀ m, ∃ d' lg,
        LogStore.openStore.run (tornCommit ⟨⟨1, 1⟩, true⟩) m = (.ok (), d', ⟨lg, t⟩)) ∧
    (NodeOp.applyEntry .stored (voterEntry 2 2)).exec.crashes joinedNode.1 joinedNode.2 ≠ [] ∧
    ∀ n ∈ (NodeOp.applyEntry .stored (voterEntry 2 2)).exec.crashes joinedNode.1 joinedNode.2,
      ∃ s, Keeper.Reads NodeOp.save (fun _ s => s) default
          [.done (.applyEntry .stored (voterEntry 1 1)),
            .cut (.applyEntry .stored (voterEntry 2 2))] s ∧
        ∀ m, StateMachine.openStateMachine.run n m = (.ok (), n, ⟨m.catalog, none, s, none⟩) := by
  have hstore := tornCommit_run ⟨⟨1, 1⟩, true⟩ ⟨⟨1, 1⟩, 0⟩
  have hd₀ : LogStore.loadMeta .empty = .ok default := rfl
  have hn₀ : StateMachine.loadMembership .empty = .ok default := rfl
  obtain ⟨⟨t, hr, _, _, _, _, hopen⟩, _⟩ :=
    raft_metadata_survives_crashes hd₀ hstore hn₀ joinedNode_run
  refine ⟨⟨t, hr, hopen⟩, by decide +kernel, fun n hn => ?_⟩
  have hleft : nodeKeeper.Left n n := rfl
  obtain ⟨_, s, hs, _, hread⟩ := raft_metadata_survives_crashes hd₀ hstore hn₀
    (joinedNode_run.cut (.applyEntry .stored (voterEntry 2 2)) hn hleft)
  exact ⟨s, hs, hread⟩

end

end Lumen
