import Lumen.Mapping
import Mathlib.Data.List.Sort

/-!
# Lumen.Mapping.Codec

The protobuf mappings that `Mapping::try_from` accepts, and what it makes of them.

* `Mapping.tryFrom_isOk_iff` — the wire fields that are accepted.
* `mapping_codec` — decoding an encoded mapping gives it back; encoding a decoded
  one gives the wire fields back in the order of their names, so their order on the
  wire does not matter.
-/

namespace Lumen

open Lib

/-- What `Mapping::try_from` asks of a wire field. -/
structure Proto.Field.Admissible (f : Proto.Field) : Prop where
  known : ∃ ty : FieldType, f.type = ty.toProto
  nonempty : f.name ≠ ""
  unreserved : f.name.toList.head? ≠ some '_'
  notFast : ¬ (f.type = FieldType.text.toProto ∧ f.fast = true)

structure Proto.Mapping.Admissible (p : Proto.Mapping) : Prop where
  distinct : (p.fields.map Proto.Field.name).Nodup
  fields : ∀ f ∈ p.fields, f.Admissible

theorem Proto.Mapping.Admissible.perm {p q : Proto.Mapping} (h : p.Admissible)
    (hpq : p.fields.Perm q.fields) : q.Admissible :=
  ⟨(hpq.map Proto.Field.name).nodup_iff.mp h.distinct, fun f hf => h.fields f (hpq.mem_iff.mpr hf)⟩

theorem FieldType.tryFrom_eq_ok_iff {code : Int32} {name : String} {ty : FieldType} :
    FieldType.tryFrom code name = .ok ty ↔ code = ty.toProto := by
  constructor
  · intro h
    unfold FieldType.tryFrom at h
    repeat' split at h
    all_goals first
      | contradiction
      | (injection h with h; subst h; assumption)
  · rintro rfl
    exact FieldType.tryFrom_toProto ty name

theorem FieldType.toProto_injective : Function.Injective FieldType.toProto := by
  intro a b h
  have ha := FieldType.tryFrom_toProto a ""
  rw [h, FieldType.tryFrom_toProto b ""] at ha
  injection ha with ha
  exact ha.symm

theorem validateField_eq_ok_iff {name : String} {spec : FieldSpec} :
    validateField name spec = .ok () ↔
      name ≠ "" ∧ name.toList.head? ≠ some '_' ∧ ¬ (spec.ty = .text ∧ spec.fast = true) := by
  unfold validateField
  by_cases hname : name = ""
  · simp [hname]
  · by_cases hhead : name.toList.head? = some '_'
    · simp [hname, hhead, startsWithUnderscore]
    · by_cases htext : spec.ty = .text ∧ spec.fast = true
      · simp [hname, hhead, startsWithUnderscore, htext]
      · simp [hname, hhead, startsWithUnderscore, htext]

namespace Mapping

theorem new_isOk_iff {fields : OrdMap String FieldSpec} :
    (∃ m, new fields = .ok m) ↔ ∀ p ∈ fields.toList, validateField p.1 p.2 = .ok () := by
  rw [← validateFields_ok_iff]
  constructor
  · rintro ⟨m, h⟩
    unfold new at h
    split at h
    · assumption
    · contradiction
  · intro h
    exact ⟨⟨fields, h⟩, new_fields ⟨fields, h⟩⟩

theorem fields_of_new {fields : OrdMap String FieldSpec} {m : Mapping}
    (h : new fields = .ok m) : m.fields = fields := by
  unfold new at h
  split at h
  · injection h with h
    rw [← h]
  · contradiction

/-- One step of the decoding loop. -/
theorem decodeFields_cons_eq_ok {f : Proto.Field} {l : List Proto.Field}
    {acc r : OrdMap String FieldSpec} (h : decodeFields (f :: l) acc = .ok r) :
    ∃ ty : FieldType, f.type = ty.toProto ∧ acc.find? f.name = none ∧
      decodeFields l (acc.insert f.name ⟨ty, f.indexed, f.fast⟩) = .ok r := by
  rw [decodeFields] at h
  split at h
  · contradiction
  · rename_i ty hty
    split at h
    · contradiction
    · rename_i hno
      exact ⟨ty, FieldType.tryFrom_eq_ok_iff.mp hty,
        OrdMap.contains_eq_false_iff.mp (Bool.eq_false_iff.mpr hno), h⟩

/-- The decoded fields are the wire fields. -/
theorem decodeFields_perm {l : List Proto.Field} {acc r : OrdMap String FieldSpec}
    (h : decodeFields l acc = .ok r) :
    (r.toList.map protoField).Perm (acc.toList.map protoField ++ l) := by
  induction l generalizing acc with
  | nil =>
    rw [decodeFields, Except.ok.injEq] at h
    rw [h, List.append_nil]
  | cons f l ih =>
    obtain ⟨ty, hty, hno, hrest⟩ := decodeFields_cons_eq_ok h
    have hf : protoField (f.name, ⟨ty, f.indexed, f.fast⟩) = f := by
      rw [protoField, ← hty]
    have hins := (OrdMap.toList_insert_perm ⟨ty, f.indexed, f.fast⟩ hno).map protoField
    rw [List.map_cons, hf] at hins
    exact (ih hrest).trans ((hins.append_right l).trans List.perm_middle.symm)

/-- Known types and distinct new names are decoded. -/
theorem decodeFields_isOk {l : List Proto.Field} {acc : OrdMap String FieldSpec}
    (hknown : ∀ f ∈ l, ∃ ty : FieldType, f.type = ty.toProto)
    (hdistinct : (l.map Proto.Field.name).Nodup) (hnew : ∀ f ∈ l, acc.find? f.name = none) :
    ∃ r, decodeFields l acc = .ok r := by
  induction l generalizing acc with
  | nil => exact ⟨acc, rfl⟩
  | cons f l ih =>
    obtain ⟨⟨ty, hty⟩, hknown⟩ := List.forall_mem_cons.mp hknown
    obtain ⟨hno, hnew⟩ := List.forall_mem_cons.mp hnew
    rw [List.map_cons, List.nodup_cons] at hdistinct
    have hrest : ∀ g ∈ l, (acc.insert f.name ⟨ty, f.indexed, f.fast⟩).find? g.name = none := by
      intro g hg
      have hne : g.name ≠ f.name := fun heq => hdistinct.1 (heq ▸ List.mem_map_of_mem hg)
      rw [OrdMap.find?_insert_ne hne]
      exact hnew g hg
    obtain ⟨r, hr⟩ := ih hknown hdistinct.2 hrest
    refine ⟨r, ?_⟩
    rw [decodeFields, FieldType.tryFrom_eq_ok_iff.mpr hty]
    simp only [OrdMap.contains_eq_false_iff.mpr hno]
    exact hr

theorem tryFrom_eq_ok {p : Proto.Mapping} {m : Mapping} (h : tryFrom p = .ok m) :
    decodeFields p.fields ∅ = .ok m.fields := by
  unfold tryFrom at h
  split at h
  · contradiction
  · rename_i fields hfields
    rw [hfields, fields_of_new h]

/-- The fields of a decoded mapping are the wire fields. -/
theorem toProto_perm {p : Proto.Mapping} {m : Mapping} (h : tryFrom p = .ok m) :
    m.toProto.fields.Perm p.fields := decodeFields_perm (tryFrom_eq_ok h)

theorem toProto_sorted (m : Mapping) :
    m.toProto.fields.Pairwise fun f g => f.name < g.name :=
  List.pairwise_map.mpr m.fields.sorted

theorem admissible_toProto (m : Mapping) : m.toProto.Admissible := by
  refine ⟨?_, fun f hf => ?_⟩
  · rw [List.Nodup, List.pairwise_map]
    exact m.toProto_sorted.imp ne_of_lt
  · obtain ⟨q, hq, rfl⟩ := List.mem_map.mp hf
    obtain ⟨hne, hhead, htext⟩ :=
      validateField_eq_ok_iff.mp (validateFields_ok_iff.mp m.valid q hq)
    exact ⟨⟨q.2.ty, rfl⟩, hne, hhead, fun ⟨hty, hfast⟩ =>
      htext ⟨FieldType.toProto_injective hty, hfast⟩⟩

/-- **The wire mappings that are accepted.** -/
theorem tryFrom_isOk_iff {p : Proto.Mapping} : (∃ m, tryFrom p = .ok m) ↔ p.Admissible := by
  constructor
  · rintro ⟨m, h⟩
    exact m.admissible_toProto.perm (toProto_perm h)
  · intro h
    obtain ⟨r, hr⟩ : ∃ r, decodeFields p.fields ∅ = .ok r :=
      decodeFields_isOk (fun f hf => (h.fields f hf).known) h.distinct
        fun f _ => OrdMap.find?_empty f.name
    rw [tryFrom, hr]
    refine new_isOk_iff.mpr fun q hq => validateField_eq_ok_iff.mpr ?_
    have hmem : protoField q ∈ p.fields :=
      (decodeFields_perm hr).subset (List.mem_map_of_mem hq)
    have hf := h.fields _ hmem
    refine ⟨hf.nonempty, hf.unreserved, ?_⟩
    rintro ⟨hty, hfast⟩
    exact hf.notFast ⟨congrArg FieldType.toProto hty, hfast⟩

/-- Two lists of the same fields in the order of their names, which differ. -/
theorem eq_of_perm_of_sorted {l l' : List Proto.Field} (h : l.Perm l')
    (hl : l.Pairwise fun f g => f.name < g.name) (hl' : l'.Pairwise fun f g => f.name ≤ g.name) :
    l = l' := by
  have hinj : ∀ f ∈ l, ∀ g ∈ l, f.name = g.name → f = g := fun f hf g hg =>
    List.inj_on_of_nodup_map (List.Pairwise.map _ (fun _ _ => ne_of_lt) hl) hf hg
  refine h.eq_of_pairwise (fun f g hf hg hle hge => ?_) (hl.imp le_of_lt) hl'
  exact hinj f hf g (h.mem_iff.mpr hg) (le_antisymm hle hge)

theorem toProto_eq_mergeSort {p : Proto.Mapping} {m : Mapping} (h : tryFrom p = .ok m) :
    m.toProto.fields = p.fields.mergeSort fun f g => f.name ≤ g.name := by
  refine eq_of_perm_of_sorted ((toProto_perm h).trans (List.mergeSort_perm _ _).symm)
    m.toProto_sorted ?_
  have hsorted : (p.fields.mergeSort fun f g => f.name ≤ g.name).Pairwise
      fun f g => decide (f.name ≤ g.name) = true :=
    List.pairwise_mergeSort
      (fun f g k hfg hgk => by simpa using le_trans (of_decide_eq_true hfg) (of_decide_eq_true hgk))
      (fun f g => by simpa using le_total f.name g.name) p.fields
  exact hsorted.imp of_decide_eq_true

theorem tryFrom_of_perm {p q : Proto.Mapping} (hpq : p.fields.Perm q.fields) {m : Mapping}
    (h : tryFrom p = .ok m) : tryFrom q = .ok m := by
  obtain ⟨m', h'⟩ := tryFrom_isOk_iff.mpr ((tryFrom_isOk_iff.mp ⟨m, h⟩).perm hpq)
  have hfields : m.toProto.fields = m'.toProto.fields :=
    eq_of_perm_of_sorted ((toProto_perm h).trans (hpq.trans (toProto_perm h').symm))
      m.toProto_sorted (m'.toProto_sorted.imp le_of_lt)
  have hproto : m.toProto = m'.toProto := congrArg Proto.Mapping.mk hfields
  have hm : tryFrom m.toProto = .ok m' := hproto ▸ tryFrom_toProto m'
  rw [tryFrom_toProto] at hm
  rw [h', hm]

/-- **Mapping codec**: a mapping is decoded from its own encoding; a wire mapping is
decoded if its fields are admissible, and encoding what was decoded gives its fields
in the order of their names; so permuted wire mappings decode alike. -/
theorem mapping_codec :
    (∀ m : Mapping, tryFrom m.toProto = .ok m) ∧
    (∀ p, (∃ m, tryFrom p = .ok m) ↔ p.Admissible) ∧
    (∀ p m, tryFrom p = .ok m →
      m.toProto.fields = p.fields.mergeSort fun f g => f.name ≤ g.name) ∧
    ∀ p q : Proto.Mapping, p.fields.Perm q.fields →
      ∀ m, tryFrom p = .ok m ↔ tryFrom q = .ok m :=
  ⟨tryFrom_toProto, fun _ => tryFrom_isOk_iff, fun _ _ => toProto_eq_mergeSort,
    fun _ _ hpq _ => ⟨tryFrom_of_perm hpq, tryFrom_of_perm hpq.symm⟩⟩

end Mapping

end Lumen
