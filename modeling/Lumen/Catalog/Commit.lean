import Lumen.Catalog.Step

/-!
# Lumen.Catalog.Commit

Commits: what committing one collection does to its slot and to the others,
the loop over all collections under an invariant of the caller, and the lowest
committed mark.
-/

namespace Lumen

open Lib Prog Replay

/-! ## one collection -/

/-- The index a commit writes. -/
def Index.committed (ix : Index) (c : Collection) (mark : LogMark) : Index :=
  { ix with docs := WriterOp.execAll c.writer ix.docs, payload := some mark }

/-- The collection after its commit. -/
def Collection.committed (c : Collection) (ix : Index) : Collection :=
  { c with writer := [], searcher := WriterOp.execAll c.writer ix.docs }

/-- The disk after the commit of a map entry. -/
def Disk.committed (d : Disk) (e : Catalog.Entry) (ix : Index) (mark : LogMark) : Disk :=
  d.setDir e.uuid (.index (ix.committed e.collection mark))

/-- The mark a collection has committed, the default one if it has none. -/
def Disk.mark (d : Disk) (u : Uuid) : LogMark := ((d.index u).bind Index.payload).getD default

theorem Disk.mark_of_index {d : Disk} {u : Uuid} {ix : Index} (h : d.index u = some ix) :
    (d.mark u).index = ix.mark := by
  simp [Disk.mark, h, Index.mark]

/-- The map after the commit of an entry. -/
def Catalog.committed (m : Catalog) (name : String) (e : Catalog.Entry) (ix : Index) : Catalog :=
  m.store name (e.collection.committed ix)

section
variable {d : Disk} {m : Catalog} {name : String} {e : Catalog.Entry} {ix : Index} {mark : LogMark}
  {E : Error → Disk → Catalog → Prop} {C : Disk → Prop}

theorem Catalog.wp_commit {Q : Unit → Disk → Catalog → Prop} {target : Collection}
    (hs : Based d m) (hf : m.collections.find? name = some e) (ht : target.uuid = e.uuid)
    (hix : d.index e.uuid = some ix) (hC : C (d.committed e ix mark))
    (hQ : Q () (d.committed e ix mark) (m.committed name e ix)) :
    wp (Catalog.commit name target mark) Q E C d m := by
  have hderef := Catalog.deref_of_uuid hf ht
  have hu := (hs.entry name e hf).uuid
  rw [← hu] at hix
  rw [Disk.committed, ← hu] at hC hQ
  rw [Catalog.commit, wp_bind, wp_getDisk, wp_bind, wp_getMem]
  simp only [hderef, hix, wp_bind, wp_step, wp_modifyMem]
  exact ⟨hC, hQ⟩

variable (hs : Sound d m) (hf : m.collections.find? name = some e)
include hs hf

theorem Catalog.find?_committed (ix : Index) (n : String) :
    (m.committed name e ix).collections.find? n =
      if n = name then some { e with collection := e.collection.committed ix }
      else m.collections.find? n :=
  Catalog.find?_store_self (c := e.collection.committed ix) hf (hs.entry name e hf).uuid n

variable (hix : d.index e.uuid = some ix)
include hix

theorem Sound.committed (mark : LogMark) : Sound (d.committed e ix mark) (m.committed name e ix) := by
  have hfind := Catalog.find?_committed hs hf ix
  have he := hs.entry name e hf
  constructor
  · intro n e' hn
    rw [hfind] at hn
    split at hn
    · injection hn with hn
      subst hn
      obtain ⟨ix', hix', hschema, _⟩ := he.index
      rw [hix] at hix'
      injection hix' with hix'
      subst hix'
      exact ⟨he.uuid, he.schema, ix.committed e.collection mark,
        by simp [Disk.committed, Disk.index_setDir], hschema, rfl⟩
    · rename_i hne
      refine (hs.entry n e' hn).congr ?_
      rw [Disk.committed, Disk.index_setDir, if_neg fun hu => hne (hs.inj n name e' e hn hf hu)]
  · intro n n' e₁ e₂ h1 h2 hu
    rw [hfind] at h1 h2
    split at h1 <;> split at h2
    · simp_all
    · rename_i hn _
      injection h1 with h1
      subst h1 hn
      exact hs.inj n n' e e₂ hf h2 hu
    · rename_i hn
      injection h2 with h2
      subst h2 hn
      exact hs.inj n n' e₁ e h1 hf hu
    · exact hs.inj n n' e₁ e₂ h1 h2 hu

/-- The slot of the committed collection. -/
theorem slotOf_committed (mark : LogMark) :
    slotOf (d.committed e ix mark) (m.committed name e ix) name =
      (slotOf d m name).commit mark.index := by
  have he := hs.entry name e hf
  have hlive : (slotOf d m name).live = some (e.toGen d) := by rw [slotOf_live, hf]; rfl
  have hdocs : (e.toGen d).docs = view (WriterOp.execAll e.collection.writer ix.docs) := by
    simp [Catalog.Entry.toGen, Collection.pending, he.uuid, hix]
  have hstores : (fun u => ((d.committed e ix mark).index u).map Index.toStore) =
      Function.update (slotOf d m name).stores e.uuid (some ⟨mark.index, (e.toGen d).docs⟩) := by
    funext u
    rw [Disk.committed, Disk.index_setDir, Function.update_apply, hdocs]
    split <;> rfl
  have hgen : ({ e with collection := e.collection.committed ix } : Catalog.Entry).toGen
      (d.committed e ix mark) = e.toGen d := by
    ext1
    · rfl
    · rfl
    · rw [hdocs]
      simp [Catalog.Entry.toGen, Collection.pending, he.uuid, Disk.committed, Disk.index_setDir,
        WriterOp.execAll, Collection.committed, Index.committed]
  simp only [Slot.commit, hlive]
  rw [slotOf, Catalog.find?_committed hs hf ix, if_pos rfl, Option.map_some, hgen, hstores]
  rfl

/-- A commit does not change what any collection will have. -/
theorem slotOf_committed_live (mark : LogMark) (n : String) :
    (slotOf (d.committed e ix mark) (m.committed name e ix) n).live = (slotOf d m n).live := by
  by_cases hn : n = name
  · subst hn
    rw [slotOf_committed hs hf hix, Slot.commit]
    have hlive : (slotOf d m n).live = some (e.toGen d) := by rw [slotOf_live, hf]; rfl
    simp only [hlive]
  · refine slotOf_live_congr hs.based ?_ fun e' he' => ?_
    · rw [Catalog.find?_committed hs hf ix, if_neg hn]
    · rw [Disk.committed, Disk.index_setDir, if_neg fun hu => hn (hs.inj n name e' e he' hf hu)]

omit hix in
/-- A property of map entries and their directories holds of every entry after
a commit, if it holds of the committed one and of those that stay. -/
theorem entries_committed {P : Disk → String → Catalog.Entry → Prop} {mark : LogMark}
    (hself : P (d.committed e ix mark) name { e with collection := e.collection.committed ix })
    (hkeep : ∀ n e' d', m.collections.find? n = some e' → d'.index e'.uuid = d.index e'.uuid →
      P d' n e') :
    ∀ n e', (m.committed name e ix).collections.find? n = some e' →
      P (d.committed e ix mark) n e' := by
  intro n e' hf'
  rw [Catalog.find?_committed hs hf ix] at hf'
  split at hf'
  · rename_i hn
    injection hf' with hf'
    subst hf' hn
    exact hself
  · rename_i hn
    refine hkeep n e' _ hf' ?_
    rw [Disk.committed, Disk.index_setDir, if_neg fun hu => hn (hs.inj n name e' e hf' hf hu)]

variable [Ext] {cmds : Nat → Proto.Command} {top : Nat}

omit hix in
/-- The slots of the other names. -/
theorem slotOf_committed_ne (ho : Owned cmds top d m) (hd : DistinctUuids cmds) (mark : LogMark)
    {n : String} (hne : n ≠ name) :
    (slotOf d m n).Agree (logOf cmds n) top
      (slotOf (d.committed e ix mark) (m.committed name e ix) n) := by
  refine slotOf_agree (u := e.uuid) hs.based ?_ (fun u' hu' => ?_)
    (fun e' hn hu => hne (hs.inj n name e' e hn hf hu)) fun j y hj hcr => ?_
  · rw [Catalog.find?_committed hs hf ix, if_neg hne]
  · rw [Disk.committed, Disk.index_setDir, if_neg hu']
  · obtain ⟨_, k, _, hk⟩ := ho.live name e hf
    exact hne (hd.eq hk hcr).2.1.symm

theorem Owned.committed (ho : Owned cmds top d m) (mark : LogMark) :
    Owned cmds top (d.committed e ix mark) (m.committed name e ix) := by
  constructor
  · intro u ix' hu
    rw [Disk.committed, Disk.index_setDir] at hu
    split at hu
    · rename_i hue
      injection hu with hu
      subst hue hu
      exact ho.dir _ ix hix
    · exact ho.dir u ix' hu
  · intro n e' hn
    rw [Catalog.find?_committed hs hf ix] at hn
    split at hn
    · rename_i hne
      injection hn with hn
      subst hn hne
      exact ho.live n e hf
    · exact ho.live n e' hn

end

/-! ## all collections -/

/-- Nothing is buffered, and the index says which mark it was committed at. -/
structure Catalog.Entry.Committed (d : Disk) (mark : LogMark) (e : Catalog.Entry) : Prop where
  writer : e.collection.writer = []
  payload : (d.index e.uuid).bind Index.payload = some mark

section
variable {d : Disk} {m : Catalog} {mark : LogMark} {E : Error → Disk → Catalog → Prop}
  {C : Disk → Prop}

/-- A loop over commits keeps what each commit keeps, and leaves every
collection committed. -/
theorem Catalog.wp_commitLoop (I : Disk → Catalog → Prop) (hsound : ∀ d m, I d m → Sound d m)
    (hstep : ∀ d m name e ix, I d m → m.collections.find? name = some e →
      d.index e.uuid = some ix → I (d.committed e ix mark) (m.committed name e ix))
    (hC : ∀ d m, I d m → C d) {l : List (String × Catalog.Entry)} (hl : l.Perm m.collections.toList)
    (h : I d m) :
    wp (forEach l fun p => Catalog.commit p.1 p.2.collection mark)
      (fun _ d' m' => I d' m' ∧
        ∀ n e, m'.collections.find? n = some e → e.Committed d' mark) E C d m := by
  -- what is still to be committed has kept its identity; everything else is committed
  let J : List (String × Catalog.Entry) → Disk → Catalog → Prop := fun rest d m =>
    I d m ∧ (∀ p ∈ rest, ∃ e, m.collections.find? p.1 = some e ∧ p.2.collection.uuid = e.uuid) ∧
      ∀ n e, m.collections.find? n = some e → e.Committed d mark ∨ ∃ p ∈ rest, p.1 = n
  have hstart : J l d m := by
    refine ⟨h, fun p hp => ?_, fun n e hn => ?_⟩
    · have hfind := OrdMap.find?_eq_some_iff.mpr (hl.mem_iff.mp hp)
      exact ⟨p.2, hfind, ((hsound d m h).entry p.1 p.2 hfind).uuid⟩
    · exact .inr ⟨(n, e), hl.mem_iff.mpr (OrdMap.find?_eq_some_iff.mp hn), rfl⟩
  refine wp_imp (wp_forEach J (fun p rest d m hJ => ?_) l hstart)
    fun _ d m hJ => ⟨hJ.1, fun n e hn => (hJ.2.2 n e hn).resolve_right (by simp)⟩
  obtain ⟨hI, hrest, hdone⟩ := hJ
  have hs := hsound d m hI
  obtain ⟨e, hf, hu⟩ := hrest p List.mem_cons_self
  obtain ⟨ix, hix, _⟩ := (hs.entry p.1 e hf).index
  have hI' := hstep d m p.1 e ix hI hf hix
  have hfind := Catalog.find?_committed hs hf ix
  refine Catalog.wp_commit hs.based hf hu hix (hC _ _ hI') ⟨hI', fun q hq => ?_, fun n e' hn => ?_⟩
  · obtain ⟨e', hf', hu'⟩ := hrest q (List.mem_cons_of_mem p hq)
    rw [hfind]
    split
    · rename_i hqp
      rw [hqp, hf] at hf'
      injection hf' with hf'
      exact ⟨_, rfl, by rw [hu', ← hf']⟩
    · exact ⟨e', hf', hu'⟩
  · rw [hfind] at hn
    split at hn
    · injection hn with hn
      subst hn
      exact .inl ⟨rfl, by simp [Disk.committed, Disk.index_setDir, Index.committed]⟩
    · rename_i hne
      rcases hdone n e' hn with hw | ⟨q, hq, hqn⟩
      · refine .inl ⟨hw.writer, ?_⟩
        rw [Disk.committed, Disk.index_setDir,
          if_neg fun hu => hne (hs.inj n p.1 e' e hn hf hu)]
        exact hw.payload
      · rcases List.mem_cons.mp hq with rfl | hq
        · exact absurd hqn.symm hne
        · exact .inr ⟨q, hq, hqn⟩

/-! ## the lowest mark -/

/-- The loop over the marks only reads; it fails where an index is missing. -/
theorem Catalog.wp_minMark {Q : Option LogMark → Disk → Catalog → Prop} (us : List Uuid)
    (hE : ∀ u ∈ us, d.index u = none → ∀ e, E e d m) (min : Option LogMark)
    (hQ : Q (us.foldl (fun min u => some (Catalog.lowerMark min (d.mark u))) min) d m) :
    wp (Catalog.minMark min us) Q E C d m := by
  induction us generalizing min with
  | nil => exact hQ
  | cons u us ih =>
    rw [Catalog.minMark, wp_bind]
    cases hix : d.index u with
    | none =>
      rw [Catalog.committedMark, wp_bind, wp_getDisk, hix]
      exact hE u List.mem_cons_self hix _
    | some ix =>
      refine Catalog.wp_committedMark hix
        (ih (fun u' h => hE u' (List.mem_cons_of_mem u h)) _ ?_)
      have hmark : d.mark u = ix.payload.getD default := by simp [Disk.mark, hix]
      rwa [List.foldl_cons, hmark] at hQ

/-- The result of the loop is the mark of one of the collections, and none is
lower. -/
theorem Catalog.foldl_lowerMark (f : Uuid → LogMark) (us : List Uuid) (min : Option LogMark) :
    match us.foldl (fun min u => some (Catalog.lowerMark min (f u))) min with
    | none => us = [] ∧ min = none
    | some mark => (min = some mark ∨ ∃ u ∈ us, f u = mark) ∧ (∀ u ∈ us, mark.index ≤ (f u).index) ∧
        ∀ m, min = some m → mark.index ≤ m.index := by
  induction us generalizing min with
  | nil => cases min <;> simp
  | cons u us ih =>
    have h := ih (some (Catalog.lowerMark min (f u)))
    rw [List.foldl_cons]
    cases hr : us.foldl (fun min u => some (Catalog.lowerMark min (f u)))
        (some (Catalog.lowerMark min (f u))) with
    | none => simp [hr] at h
    | some mark =>
      rw [hr] at h
      obtain ⟨hmem, hle, hmin⟩ := h
      have hlow := hmin _ rfl
      have hcases : Catalog.lowerMark min (f u) = f u ∨ min = some (Catalog.lowerMark min (f u)) := by
        cases min with
        | none => exact .inl rfl
        | some c =>
          simp only [Catalog.lowerMark]
          split
          · exact .inr rfl
          · exact .inl rfl
      have hlowu : (Catalog.lowerMark min (f u)).index ≤ (f u).index := by
        cases min with
        | none => exact Nat.le_refl _
        | some c =>
          simp only [Catalog.lowerMark]
          split
          · assumption
          · exact Nat.le_refl _
      have hlowm : ∀ c, min = some c → (Catalog.lowerMark min (f u)).index ≤ c.index := by
        rintro c rfl
        simp only [Catalog.lowerMark]
        split
        · exact Nat.le_refl _
        · omega
      refine ⟨?_, ?_, fun c hc => hlow.trans (hlowm c hc)⟩
      · rcases hmem with hm | ⟨u', hu', hm⟩
        · injection hm with hm
          rcases hcases with hc | hc
          · exact .inr ⟨u, List.mem_cons_self, by rw [← hm, hc]⟩
          · exact .inl (by rw [hc, hm])
        · exact .inr ⟨u', List.mem_cons_of_mem u hu', hm⟩
      · intro u' hu'
        rcases List.mem_cons.mp hu' with rfl | hu'
        · exact hlow.trans hlowu
        · exact hle u' hu'

/-- Every collection in the map has an index. -/
def Indexed (d : Disk) (m : Catalog) : Prop :=
  ∀ n e, m.collections.find? n = some e → d.index e.uuid ≠ none

theorem Based.indexed (hs : Based d m) : Indexed d m := by
  intro n e hf hnone
  obtain ⟨ix, hix, _⟩ := (hs.entry n e hf).index
  rw [hnone] at hix
  contradiction

/-- `min_committed_mark`: nothing for an empty catalog, otherwise the mark of
one of the collections, and none is lower.  It fails only where a collection
has no index. -/
theorem Catalog.wp_minCommittedMark {Q : Option LogMark → Disk → Catalog → Prop} (ord : IterOrder)
    (hE : ¬ Indexed d m → ∀ e, E e d m) (hnone : (∀ n, m.collections.find? n = none) → Q none d m)
    (hsome : ∀ mark, (∃ n e, m.collections.find? n = some e ∧ d.mark e.uuid = mark) →
      (∀ n e, m.collections.find? n = some e → mark.index ≤ (d.mark e.uuid).index) →
      Q (some mark) d m) :
    wp (Catalog.minCommittedMark ord) Q E C d m := by
  rw [Catalog.minCommittedMark, wp_bind, wp_getMem]
  have hmem : ∀ u, u ∈ ord.order (m.collections.toList.map fun p => p.2.uuid) ↔
      ∃ n e, m.collections.find? n = some e ∧ e.uuid = u := by
    intro u
    rw [ord.mem, List.mem_map]
    constructor
    · rintro ⟨p, hp, hu⟩
      exact ⟨p.1, p.2, OrdMap.find?_eq_some_iff.mpr hp, hu⟩
    · rintro ⟨n, e, hf, hu⟩
      exact ⟨(n, e), OrdMap.find?_eq_some_iff.mp hf, hu⟩
  refine Catalog.wp_minMark _ (fun u hu hno => hE fun hidx => ?_) none ?_
  · obtain ⟨n, e, hf, rfl⟩ := (hmem u).mp hu
    exact hidx n e hf hno
  · have h := Catalog.foldl_lowerMark d.mark
      (ord.order (m.collections.toList.map fun p => p.2.uuid)) none
    cases hr : (ord.order (m.collections.toList.map fun p => p.2.uuid)).foldl
        (fun min u => some (Catalog.lowerMark min (d.mark u))) none with
    | none =>
      rw [hr] at h
      refine hnone fun n => ?_
      cases hf : m.collections.find? n with
      | none => rfl
      | some e =>
        have := (hmem e.uuid).mpr ⟨n, e, hf, rfl⟩
        rw [h.1] at this
        contradiction
    | some mark =>
      rw [hr] at h
      obtain ⟨hin, hle, _⟩ := h
      refine hsome mark ?_ fun n e hf => hle e.uuid ((hmem e.uuid).mpr ⟨n, e, hf, rfl⟩)
      rcases hin with hin | ⟨u, hu, hmark⟩
      · contradiction
      · obtain ⟨n, e, hf, rfl⟩ := (hmem u).mp hu
        exact ⟨n, e, hf, hmark⟩

end

end Lumen
