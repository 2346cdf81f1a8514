import Mathlib.Data.List.Basic
import Mathlib.Order.Lattice

/-!
# Lib.OrdMap

Finite maps kept in key order: an association list whose keys strictly
increase, with the order carried as a field, so a value of the type is
always canonical and two maps with the same lookups are equal (`ext_find?`).

Iteration is `toList`, lookup is `find?`; the remaining operations are each
specified by what they do to `find?`.
-/

namespace Lib

/-- A finite map from `K` to `V`, stored in strictly increasing key order. -/
structure OrdMap (K V : Type) [LinearOrder K] where
  toList : List (K × V)
  sorted : toList.Pairwise (fun a b => a.1 < b.1)

namespace OrdMap

variable {K V : Type} [LinearOrder K]

/-! ## the underlying lists -/

/-- Insert into a key-ordered list, replacing the value of an equal key. -/
def insertList (k : K) (v : V) : List (K × V) → List (K × V)
  | [] => [(k, v)]
  | (k', v') :: l =>
    if k < k' then (k, v) :: (k', v') :: l
    else if k = k' then (k, v) :: l
    else (k', v') :: insertList k v l

theorem mem_insertList {k : K} {v : V} {l : List (K × V)} {p : K × V}
    (h : p ∈ insertList k v l) : p = (k, v) ∨ p ∈ l := by
  induction l with
  | nil => simpa [insertList] using h
  | cons q l ih =>
    simp only [insertList] at h
    split at h
    · simpa using h
    · split at h
      · simp only [List.mem_cons] at h ⊢
        exact h.imp_right Or.inr
      · simp only [List.mem_cons] at h ⊢
        rcases h with h | h
        · exact Or.inr (Or.inl h)
        · exact (ih h).imp_right Or.inr

/-- A new key adds one pair. -/
theorem insertList_perm {k : K} {v : V} {l : List (K × V)} (h : ∀ p ∈ l, p.1 ≠ k) :
    (insertList k v l).Perm ((k, v) :: l) := by
  induction l with
  | nil => exact .refl _
  | cons q l ih =>
    obtain ⟨hne, hl⟩ := List.forall_mem_cons.mp h
    rw [insertList]
    split
    · exact .refl _
    · rw [if_neg (Ne.symm hne)]
      exact ((ih hl).cons _).trans (.swap _ _ _)

theorem sorted_insertList (k : K) (v : V) {l : List (K × V)}
    (h : l.Pairwise (fun a b => a.1 < b.1)) :
    (insertList k v l).Pairwise (fun a b => a.1 < b.1) := by
  induction l with
  | nil => simp [insertList]
  | cons q l ih =>
    obtain ⟨hq, hl⟩ := List.pairwise_cons.mp h
    simp only [insertList]
    split
    · rename_i hlt
      refine List.pairwise_cons.mpr ⟨?_, h⟩
      intro p hp
      rcases List.mem_cons.mp hp with rfl | hp
      · exact hlt
      · exact hlt.trans (hq p hp)
    · split
      · rename_i heq
        subst heq
        exact List.pairwise_cons.mpr ⟨hq, hl⟩
      · rename_i hnlt hne
        refine List.pairwise_cons.mpr ⟨?_, ih hl⟩
        intro p hp
        rcases mem_insertList hp with rfl | hp
        · exact lt_of_le_of_ne (not_lt.mp hnlt) (Ne.symm hne)
        · exact hq p hp

/-- In a key-ordered list every key is found at its own value. -/
theorem lookup_eq_some_iff {l : List (K × V)} (h : l.Pairwise (fun a b => a.1 < b.1))
    {k : K} {v : V} : l.lookup k = some v ↔ (k, v) ∈ l := by
  induction l with
  | nil => simp
  | cons q l ih =>
    obtain ⟨k', v'⟩ := q
    obtain ⟨hq, hl⟩ := List.pairwise_cons.mp h
    rw [List.lookup_cons]
    by_cases hk : k = k'
    · subst hk
      simp only [beq_self_eq_true, Option.some.injEq, List.mem_cons, Prod.mk.injEq, true_and]
      refine ⟨fun e => Or.inl e.symm, ?_⟩
      rintro (e | hm)
      · exact e.symm
      · exact absurd (hq _ hm) (lt_irrefl k)
    · rw [beq_false_of_ne hk, ih hl]
      simp [hk]

/-! ## the map operations -/

def empty : OrdMap K V := ⟨[], List.Pairwise.nil⟩

instance : EmptyCollection (OrdMap K V) := ⟨empty⟩

def find? (m : OrdMap K V) (k : K) : Option V := m.toList.lookup k

def contains (m : OrdMap K V) (k : K) : Bool := (m.find? k).isSome

def insert (m : OrdMap K V) (k : K) (v : V) : OrdMap K V :=
  ⟨insertList k v m.toList, sorted_insertList k v m.sorted⟩

/-- Keep the entries that satisfy `p`. -/
def filter (m : OrdMap K V) (p : K → V → Bool) : OrdMap K V :=
  ⟨m.toList.filter (fun q => p q.1 q.2), m.sorted.filter _⟩

def erase (m : OrdMap K V) (k : K) : OrdMap K V := m.filter (fun k' _ => k' ≠ k)

/-- Change the value at `k`, when there is one. -/
def modify (m : OrdMap K V) (k : K) (f : V → V) : OrdMap K V :=
  match m.find? k with
  | some v => m.insert k (f v)
  | none => m

/-- Change every value. -/
def mapValues (f : K → V → V) (m : OrdMap K V) : OrdMap K V :=
  ⟨m.toList.map fun p => (p.1, f p.1 p.2), List.pairwise_map.mpr m.sorted⟩

def keys (m : OrdMap K V) : List K := m.toList.map Prod.fst

def lastKey? (m : OrdMap K V) : Option K := m.toList.getLast?.map Prod.fst

instance [DecidableEq V] : DecidableEq (OrdMap K V) := fun a b =>
  decidable_of_iff (a.toList = b.toList)
    ⟨fun h => by cases a; cases b; simpa using h, fun h => by rw [h]⟩

/-! ## lookups -/

@[simp] theorem find?_empty (k : K) : (∅ : OrdMap K V).find? k = none := rfl

@[simp] theorem toList_empty : (∅ : OrdMap K V).toList = [] := rfl

theorem find?_eq_some_iff {m : OrdMap K V} {k : K} {v : V} :
    m.find? k = some v ↔ (k, v) ∈ m.toList := lookup_eq_some_iff m.sorted

theorem nodup_keys (m : OrdMap K V) : m.keys.Nodup :=
  m.sorted.map _ fun _ _ h => ne_of_lt h

theorem contains_eq_true_iff {m : OrdMap K V} {k : K} :
    m.contains k = true ↔ ∃ v, m.find? k = some v := Option.isSome_iff_exists

theorem mem_keys_iff {m : OrdMap K V} {k : K} : k ∈ m.keys ↔ ∃ v, m.find? k = some v := by
  simp [keys, find?_eq_some_iff]

theorem find?_insert (m : OrdMap K V) (k k' : K) (v : V) :
    (m.insert k v).find? k' = if k' = k then some v else m.find? k' := by
  obtain ⟨l, hl⟩ := m
  show (insertList k v l).lookup k' = if k' = k then some v else l.lookup k'
  induction l with
  | nil => by_cases hk : k' = k <;> simp [insertList, hk]
  | cons q l ih =>
    obtain ⟨c, w⟩ := q
    have ih := ih (List.pairwise_cons.mp hl).2
    simp only [insertList]
    split
    · by_cases hk : k' = k <;> simp [List.lookup_cons, hk, beq_eq_decide]
    · split
      · rename_i heq
        subst heq
        by_cases hk : k' = k <;> simp [List.lookup_cons, hk, beq_eq_decide]
      · rename_i hne
        by_cases hc : k' = c
        · subst hc
          simp [Ne.symm hne]
        · simp [List.lookup_cons, beq_eq_decide, hc, ih]

@[simp] theorem find?_insert_self (m : OrdMap K V) (k : K) (v : V) :
    (m.insert k v).find? k = some v := by simp [find?_insert]

theorem find?_insert_ne {m : OrdMap K V} {k k' : K} {v : V} (h : k' ≠ k) :
    (m.insert k v).find? k' = m.find? k' := by simp [find?_insert, h]

theorem find?_filter (m : OrdMap K V) (p : K → V → Bool) (k : K) :
    (m.filter p).find? k = (m.find? k).filter (p k) := by
  apply Option.ext
  intro v
  rw [find?_eq_some_iff, Option.filter_eq_some_iff, find?_eq_some_iff]
  simp [filter]

theorem find?_erase (m : OrdMap K V) (k k' : K) :
    (m.erase k).find? k' = if k' = k then none else m.find? k' := by
  rw [erase, find?_filter]
  by_cases h : k' = k
  · simp [h]
  · cases m.find? k' <;> simp [h]

theorem find?_modify (m : OrdMap K V) (k k' : K) (f : V → V) :
    (m.modify k f).find? k' = if k' = k then (m.find? k).map f else m.find? k' := by
  unfold modify
  cases hv : m.find? k with
  | some v => simp [find?_insert]
  | none => by_cases h : k' = k <;> simp [h, hv]

/-! ## canonicity -/

/-- Two strictly ordered lists with the same members are equal. -/
theorem list_ext {l₁ l₂ : List (K × V)} (h₁ : l₁.Pairwise (fun a b => a.1 < b.1))
    (h₂ : l₂.Pairwise (fun a b => a.1 < b.1)) (h : ∀ p, p ∈ l₁ ↔ p ∈ l₂) : l₁ = l₂ := by
  have nodup : ∀ {l : List (K × V)}, l.Pairwise (fun a b => a.1 < b.1) → l.Nodup := fun hl =>
    hl.imp (fun hlt e => absurd hlt (by rw [e]; exact lt_irrefl _))
  have hp : l₁.Perm l₂ := (List.perm_ext_iff_of_nodup (nodup h₁) (nodup h₂)).mpr h
  exact hp.eq_of_pairwise (fun a b _ _ hab hba => absurd (hab.trans hba) (lt_irrefl _)) h₁ h₂

/-- Maps with the same lookups are equal. -/
theorem ext_find? {m₁ m₂ : OrdMap K V} (h : ∀ k, m₁.find? k = m₂.find? k) : m₁ = m₂ := by
  have hl : m₁.toList = m₂.toList := by
    refine list_ext m₁.sorted m₂.sorted (fun p => ?_)
    rw [← find?_eq_some_iff, ← find?_eq_some_iff, h]
  cases m₁; cases m₂; simpa using hl

theorem erase_of_find?_none {m : OrdMap K V} {k : K} (h : m.find? k = none) : m.erase k = m := by
  refine ext_find? fun k' => ?_
  rw [find?_erase]
  split
  · rename_i hk
    rw [hk, h]
  · rfl

theorem insert_of_find?_some {m : OrdMap K V} {k : K} {v : V} (h : m.find? k = some v) :
    m.insert k v = m := by
  refine ext_find? fun k' => ?_
  rw [find?_insert]
  split
  · rename_i hk
    rw [hk, h]
  · rfl

theorem modify_of_find?_some {m : OrdMap K V} {k : K} {v : V} (f : V → V)
    (h : m.find? k = some v) : m.modify k f = m.insert k (f v) := by
  refine ext_find? fun k' => ?_
  rw [find?_modify, find?_insert]
  by_cases hk : k' = k
  · simp [hk, h]
  · simp [hk]

theorem insert_insert (m : OrdMap K V) (k : K) (v v' : V) :
    (m.insert k v').insert k v = m.insert k v := by
  refine ext_find? fun k' => ?_
  simp only [find?_insert]
  split <;> rfl

theorem erase_insert (m : OrdMap K V) (k : K) (v : V) : (m.insert k v).erase k = m.erase k := by
  refine ext_find? fun k' => ?_
  simp only [find?_erase, find?_insert]
  split <;> rfl

theorem contains_eq_false_iff {m : OrdMap K V} {k : K} : m.contains k = false ↔ m.find? k = none := by
  rw [contains, Option.isSome_eq_false_iff, Option.isNone_iff_eq_none]

theorem toList_insert_perm {m : OrdMap K V} {k : K} (v : V) (h : m.find? k = none) :
    (m.insert k v).toList.Perm ((k, v) :: m.toList) := by
  refine insertList_perm fun p hp heq => ?_
  rw [find?_eq_some_iff.mpr (heq ▸ hp : (k, p.2) ∈ m.toList)] at h
  contradiction

/-- Inserting above every key appends. -/
theorem toList_insert_of_lt {m : OrdMap K V} {k : K} {v : V} (h : ∀ p ∈ m.toList, p.1 < k) :
    (m.insert k v).toList = m.toList ++ [(k, v)] := by
  refine list_ext (m.insert k v).sorted ?_ (fun p => ?_)
  · refine List.pairwise_append.mpr ⟨m.sorted, List.pairwise_singleton _ _, ?_⟩
    intro a ha b hb
    rw [List.mem_singleton] at hb
    rw [hb]; exact h a ha
  · obtain ⟨k', v'⟩ := p
    rw [← find?_eq_some_iff, find?_insert, List.mem_append, List.mem_singleton, Prod.mk.injEq]
    by_cases hk : k' = k
    · subst hk
      have hno : (k', v') ∉ m.toList := fun hm => lt_irrefl _ (h _ hm)
      simp [hno, eq_comm]
    · simp [hk, find?_eq_some_iff]

/-- Insert the entries of a list one by one, later ones replacing earlier. -/
def ofList (l : List (K × V)) : OrdMap K V := l.foldl (fun m p => m.insert p.1 p.2) ∅

/-- Inserting in key order, above everything already there, appends. -/
theorem toList_foldl_insert (l : List (K × V)) (acc : OrdMap K V)
    (h : (acc.toList ++ l).Pairwise (fun a b => a.1 < b.1)) :
    (l.foldl (fun m p => m.insert p.1 p.2) acc).toList = acc.toList ++ l := by
  induction l generalizing acc with
  | nil => simp
  | cons p l ih =>
    have hlt : ∀ q ∈ acc.toList, q.1 < p.1 := fun q hq =>
      (List.pairwise_append.mp h).2.2 q hq p List.mem_cons_self
    have happ : (acc.insert p.1 p.2).toList = acc.toList ++ [p] := toList_insert_of_lt hlt
    have hrec := ih (acc.insert p.1 p.2) (by rw [happ, List.append_assoc]; exact h)
    rw [happ, List.append_assoc] at hrec
    exact hrec

theorem toList_ofList {l : List (K × V)} (h : l.Pairwise fun a b => a.1 < b.1) :
    (ofList l).toList = l :=
  toList_foldl_insert l ∅ (by simpa using h)

@[simp] theorem ofList_toList (m : OrdMap K V) : ofList m.toList = m := by
  have hl := toList_foldl_insert m.toList ∅ (by simpa using m.sorted)
  exact ext_find? fun k => congrArg (List.lookup k) hl

/-- Insert the entries of a list one by one into a map. -/
def insertAll (m : OrdMap K V) (l : List (K × V)) : OrdMap K V :=
  l.foldl (fun m p => m.insert p.1 p.2) m

theorem ofList_append (l l' : List (K × V)) : ofList (l ++ l') = (ofList l).insertAll l' :=
  List.foldl_append

/-- Keys that are not in the list keep their value. -/
theorem find?_insertAll_of_notMem {m : OrdMap K V} {l : List (K × V)} {k : K}
    (h : ∀ p ∈ l, p.1 ≠ k) : (m.insertAll l).find? k = m.find? k := by
  induction l generalizing m with
  | nil => rfl
  | cons p l ih =>
    have hne := h p List.mem_cons_self
    exact (ih fun q hq => h q (List.mem_cons_of_mem p hq)).trans (find?_insert_ne hne.symm)

/-- A value comes from the list or from the map. -/
theorem mem_or_find?_of_insertAll {m : OrdMap K V} {l : List (K × V)} {k : K} {v : V}
    (h : (m.insertAll l).find? k = some v) : (k, v) ∈ l ∨ m.find? k = some v := by
  induction l generalizing m with
  | nil => exact Or.inr h
  | cons p l ih =>
    rcases ih h with hm | hm
    · exact Or.inl (List.mem_cons_of_mem p hm)
    · rw [find?_insert] at hm
      split at hm
      · rename_i hk
        exact Or.inl (by rw [hk, ← Option.some.inj hm]; exact List.mem_cons_self)
      · exact Or.inr hm

theorem exists_find?_insertAll_of_find? {m : OrdMap K V} {k : K} {v : V} (l : List (K × V))
    (h : m.find? k = some v) : ∃ v', (m.insertAll l).find? k = some v' := by
  induction l generalizing m v with
  | nil => exact ⟨v, h⟩
  | cons p l ih =>
    by_cases hk : k = p.1
    · exact ih (v := p.2) (by rw [hk, find?_insert_self])
    · exact ih ((find?_insert_ne hk).trans h)

/-- A key of the list is in the map. -/
theorem exists_find?_insertAll (m : OrdMap K V) {l : List (K × V)} {p : K × V} (h : p ∈ l) :
    ∃ v, (m.insertAll l).find? p.1 = some v := by
  induction l generalizing m with
  | nil => simp at h
  | cons q l ih =>
    rcases List.mem_cons.mp h with rfl | h
    · exact exists_find?_insertAll_of_find? l (find?_insert_self m p.1 p.2)
    · exact ih _ h

theorem insert_comm (m : OrdMap K V) {k k' : K} (h : k ≠ k') (v v' : V) :
    (m.insert k v).insert k' v' = (m.insert k' v').insert k v := by
  refine ext_find? fun x => ?_
  simp only [find?_insert]
  by_cases hx : x = k
  · simp [hx, h]
  · simp [hx]

/-- An entry of a key that is not in the list can be inserted before or after
it. -/
theorem insertAll_insert (m : OrdMap K V) {l : List (K × V)} {k : K} (v : V)
    (h : ∀ p ∈ l, p.1 ≠ k) : (m.insert k v).insertAll l = (m.insertAll l).insert k v := by
  induction l generalizing m with
  | nil => rfl
  | cons p l ih =>
    have hp := h p List.mem_cons_self
    have hrec := ih (m.insert p.1 p.2) fun q hq => h q (List.mem_cons_of_mem p hq)
    rw [insert_comm m hp] at hrec
    exact hrec

/-- With different keys every entry of the list keeps its value. -/
theorem find?_insertAll_of_mem (m : OrdMap K V) {l : List (K × V)} {p : K × V}
    (hl : l.Pairwise fun a b => a.1 ≠ b.1) (h : p ∈ l) :
    (m.insertAll l).find? p.1 = some p.2 := by
  induction l generalizing m with
  | nil => simp at h
  | cons q l ih =>
    obtain ⟨hq, hl⟩ := List.pairwise_cons.mp hl
    rcases List.mem_cons.mp h with rfl | h
    · exact (find?_insertAll_of_notMem fun r hr => (hq r hr).symm).trans (find?_insert_self m _ _)
    · exact ih _ hl h

/-- Changing one value leaves the keys and the order alone. -/
theorem toList_modify (m : OrdMap K V) (k : K) (f : V → V) :
    (m.modify k f).toList = m.toList.map fun p => if p.1 = k then (p.1, f p.2) else p := by
  refine list_ext (m.modify k f).sorted ?_ (fun p => ?_)
  · refine List.pairwise_map.mpr (m.sorted.imp fun {a b} hab => ?_)
    split <;> split <;> exact hab
  · obtain ⟨k', v'⟩ := p
    rw [← find?_eq_some_iff, find?_modify, List.mem_map]
    by_cases hk : k' = k
    · subst hk
      rw [if_pos rfl, Option.map_eq_some_iff]
      constructor
      · rintro ⟨v, hv, rfl⟩
        exact ⟨(k', v), find?_eq_some_iff.mp hv, if_pos rfl⟩
      · rintro ⟨⟨c, v⟩, hm, he⟩
        by_cases hc : c = k'
        · subst hc
          rw [if_pos rfl, Prod.mk.injEq] at he
          exact ⟨v, find?_eq_some_iff.mpr hm, he.2⟩
        · rw [if_neg hc, Prod.mk.injEq] at he
          exact absurd he.1 hc
    · rw [if_neg hk, find?_eq_some_iff]
      constructor
      · intro hm
        exact ⟨(k', v'), hm, if_neg hk⟩
      · rintro ⟨⟨c, v⟩, hm, he⟩
        by_cases hc : c = k
        · rw [if_pos hc, Prod.mk.injEq] at he
          exact absurd (he.1.symm.trans hc) hk
        · rw [if_neg hc] at he
          exact he ▸ hm

/-- Changing the value of one entry, by where it lies. -/
theorem toList_modify_of_split {m : OrdMap K V} {l r : List (K × V)} {k : K} {v : V}
    (h : m.toList = l ++ (k, v) :: r) (f : V → V) :
    (m.modify k f).toList = l ++ (k, f v) :: r := by
  have hs := m.sorted
  rw [h, List.pairwise_append, List.pairwise_cons] at hs
  have hkeep : ∀ l' : List (K × V), (∀ q ∈ l', q.1 ≠ k) →
      l'.map (fun p => if p.1 = k then (p.1, f p.2) else p) = l' := fun l' hl' => by
    conv_rhs => rw [← List.map_id l']
    exact List.map_congr_left fun q hq => if_neg (hl' q hq)
  rw [toList_modify, h, List.map_append, List.map_cons, if_pos rfl,
    hkeep l fun q hq => ne_of_lt (hs.2.2 q hq _ List.mem_cons_self),
    hkeep r fun q hq => ne_of_gt (hs.2.1.1 q hq)]

@[simp] theorem toList_filter (m : OrdMap K V) (p : K → V → Bool) :
    (m.filter p).toList = m.toList.filter (fun q => p q.1 q.2) := rfl

theorem filter_filter_self (m : OrdMap K V) (p : K → V → Bool) :
    (m.filter p).filter p = m.filter p := by
  refine ext_find? fun k => ?_
  rw [find?_filter, find?_filter]
  cases m.find? k with
  | none => rfl
  | some v => cases hp : p k v <;> simp [Option.filter, hp]

@[simp] theorem toList_mapValues (f : K → V → V) (m : OrdMap K V) :
    (m.mapValues f).toList = m.toList.map fun p => (p.1, f p.1 p.2) := rfl

theorem lastKey?_eq (m : OrdMap K V) : m.lastKey? = m.keys.getLast? := by
  simp [lastKey?, keys, List.getLast?_map]

theorem lastKey?_mem {m : OrdMap K V} {k : K} (h : m.lastKey? = some k) : k ∈ m.keys := by
  rw [lastKey?_eq] at h
  exact List.mem_of_getLast? h

theorem le_lastKey? {m : OrdMap K V} {k k' : K} (h : m.lastKey? = some k) (hk : k' ∈ m.keys) :
    k' ≤ k := by
  rw [lastKey?_eq] at h
  obtain ⟨pre, hpre⟩ := List.getLast?_eq_some_iff.mp h
  have hlt : m.keys.Pairwise (· < ·) := List.pairwise_map.mpr m.sorted
  rw [hpre] at hk hlt
  rcases List.mem_append.mp hk with hk | hk
  · exact le_of_lt ((List.pairwise_append.mp hlt).2.2 k' hk k (List.mem_singleton_self k))
  · exact le_of_eq (List.mem_singleton.mp hk)

end OrdMap

end Lib
