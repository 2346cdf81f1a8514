import Lumen.Document
import Lumen.Reference

/-!
# Lumen.Document.Dates

The order of indexed dates.  `DateTime::from_utc` casts the nanoseconds since the
epoch to a signed 64-bit integer, which reaches from September 1677 to April
2262; a date field takes the years 0000 to 9999.

* `dates_keep_order_iff` — a date compares as its instant with every date that is
  stored exactly, if and only if it is stored exactly itself: it is whole, and its
  nanoseconds are in range.
-/

namespace Lumen

open Lib Rfc3339

namespace Rfc3339

/-- The stored integer is the instant: nothing is lost and nothing wraps. -/
structure Fields.Exact (f : Fields) : Prop extends f.Whole where
  low : -2 ^ 63 ≤ f.nanos
  high : f.nanos < 2 ^ 63

theorem Fields.Exact.bmod_nanos {f : Fields} (h : f.Exact) : f.nanos.bmod (2 ^ 64) = f.nanos := by
  have hlow := h.low
  have hhigh := h.high
  exact Int.bmod_eq_of_le_mul_two (by omega) (by omega)

/-- A timestamp is whole when its nanoseconds are all there is to its seconds. -/
theorem Fields.Valid.whole {f : Fields} (h : f.Valid) (heq : 10 ^ 9 * f.seconds = f.minuteNanos) :
    f.Whole := by
  by_cases hsec : f.second = 60
  · have hnonneg := fractionValue_nonneg f.fraction
    rw [minuteNanos, if_pos hsec, seconds, hsec] at heq
    push_cast at heq
    linarith
  · have hle := h.second
    have hrest : fractionValue (f.fraction.drop 9) = 0 := by
      rw [seconds_eq hsec] at heq
      linarith
    exact ⟨by omega, fractionValue_eq_zero_iff.mp hrest⟩

/-! ## the nanosecond a timestamp is cut to -/

theorem leadingDigits_take (k : Nat) (ds : List Nat) :
    leadingDigits k (ds.take k) = leadingDigits k ds := by
  induction k generalizing ds with
  | zero => simp [leadingDigits]
  | succ k ih =>
    cases ds with
    | nil => simp
    | cons d ds => simp [leadingDigits, ih]

/-- The timestamp without what is lost. -/
def Fields.cut (f : Fields) : Fields :=
  if f.second = 60 then { f with second := 59, fraction := List.replicate 9 9 }
  else { f with fraction := f.fraction.take 9 }

theorem Fields.Valid.cut {f : Fields} (h : f.Valid) : f.cut.Valid := by
  unfold Fields.cut
  split
  · exact ⟨h.year, h.month, h.day, h.hour, h.minute, by norm_num, by simp, h.zone⟩
  · exact ⟨h.year, h.month, h.day, h.hour, h.minute, h.second,
      fun d hd => h.fraction d (List.mem_of_mem_take hd), h.zone⟩

theorem Fields.Valid.cut_whole {f : Fields} (h : f.Valid) : f.cut.Whole := by
  have hle := h.second
  unfold Fields.cut
  split
  · exact ⟨by norm_num, by simp⟩
  · exact ⟨by dsimp only; omega, by simp⟩

theorem Fields.cut_utcMinute (f : Fields) : f.cut.utcMinute = f.utcMinute := by
  unfold Fields.cut
  split <;> rfl

theorem Fields.cut_minuteNanos (f : Fields) : f.cut.minuteNanos = f.minuteNanos := by
  unfold Fields.cut
  split
  · rename_i hsec
    have hnines : 59 * 10 ^ 9 + leadingDigits 9 (List.replicate 9 9) = 59999999999 := by decide
    rw [minuteNanos, minuteNanos, if_pos hsec, if_neg (by simp), hnines]
  · simp [minuteNanos, leadingDigits_take]

theorem Fields.cut_nanos (f : Fields) : f.cut.nanos = f.nanos := by
  rw [nanos, nanos, cut_utcMinute, cut_minuteNanos]

def Timestamp.cut (t : Timestamp) : Timestamp := ⟨t.toFields.cut, t.valid.cut⟩

/-- The last nanosecond that is stored as itself. -/
def latest : Timestamp :=
  ⟨⟨2262, 4, 11, 23, 47, 16, [8, 5, 4, 7, 7, 5, 8, 0, 7], .utc⟩, by decide⟩

/-- The first one. -/
def earliest : Timestamp :=
  ⟨⟨1677, 9, 21, 0, 12, 43, [1, 4, 5, 2, 2, 4, 1, 9, 2], .utc⟩, by decide⟩

theorem nanos_latest : latest.nanos = 2 ^ 63 - 1 := by decide

theorem nanos_earliest : earliest.nanos = -2 ^ 63 := by decide

theorem exact_latest : latest.Exact :=
  ⟨⟨by decide, by decide⟩, by rw [nanos_latest]; decide, by rw [nanos_latest]; decide⟩

theorem exact_earliest : earliest.Exact :=
  ⟨⟨by decide, by decide⟩, by rw [nanos_earliest], by rw [nanos_earliest]; decide⟩

end Rfc3339

section
variable [Ext]

/-- `validate_document` accepts a document with this string in the date field. -/
def Mapping.AcceptsDate (m : Mapping) (name s : String) : Prop :=
  ∃ spec members, m.field name = some spec ∧ spec.ty = .date ∧ (name, .string s) ∈ members ∧
    m.validateDocument (.object members) = .ok ()

/-- The dates `add_value` makes of two strings compare as two instants do. -/
def KeepsOrder (s s' : String) (i i' : ℤ ×ₗ ℚ) : Prop :=
  ∃ v v', addValue (.string s) .date = .ok (.date v) ∧
    addValue (.string s') .date = .ok (.date v') ∧
    (v < v' ↔ i < i') ∧ (v = v' ↔ i = i') ∧ (v' < v ↔ i' < i)

variable {m : Mapping} {name s s' : String}

theorem Mapping.AcceptsDate.field (h : m.AcceptsDate name s) :
    ∃ spec, m.field name = some spec ∧ spec.ty = .date := by
  obtain ⟨spec, _, hfield, hty, _⟩ := h
  exact ⟨spec, hfield, hty⟩

theorem Mapping.acceptsDate_iff :
    m.AcceptsDate name s ↔
      (∃ spec, m.field name = some spec ∧ spec.ty = .date) ∧ (parseRfc3339 s).isSome = true := by
  constructor
  · intro h
    refine ⟨h.field, ?_⟩
    obtain ⟨spec, members, hfield, hty, hmem, hok⟩ := h
    obtain ⟨spec', hfield', hmatch⟩ := validateMembers_ok_iff.mp hok _ hmem
    rw [hfield, Option.some.injEq] at hfield'
    rw [← hfield', hty] at hmatch
    exact hmatch
  · rintro ⟨⟨spec, hfield, hty⟩, hsome⟩
    refine ⟨spec, [(name, .string s)], hfield, hty, List.mem_singleton_self _, ?_⟩
    refine validateMembers_ok_iff.mpr fun p hp => ⟨spec, ?_⟩
    obtain rfl := List.mem_singleton.mp hp
    rw [hty]
    exact ⟨hfield, hsome⟩

theorem addValue_date {n : Int} (h : parseRfc3339 s = some n) :
    addValue (.string s) .date = .ok (.date (n.bmod (2 ^ 64))) := by
  simp [addValue, Value.asStr, h]

variable [LawfulDates]

/-- An accepted date is stored as the nanoseconds of its timestamp. -/
theorem Mapping.AcceptsDate.addValue {t : Timestamp} (h : m.AcceptsDate name s) (ht : t.Writes s) :
    addValue (.string s) .date = .ok (.date (t.nanos.bmod (2 ^ 64))) := by
  obtain ⟨n, hn⟩ := Option.isSome_iff_exists.mp (acceptsDate_iff.mp h).2
  obtain ⟨t', ht', rfl⟩ := LawfulDates.sound s n hn
  rw [addValue_date hn, ht.unique t.valid t'.valid ht']

/-- Every timestamp without a leap second is accepted in its usual form. -/
theorem Mapping.AcceptsDate.render (h : m.AcceptsDate name s) {t : Timestamp} (ht : t.second < 60) :
    m.AcceptsDate name t.render :=
  acceptsDate_iff.mpr ⟨h.field, by rw [LawfulDates.complete t ht]; rfl⟩

variable {t t' : Timestamp}

/-- **Indexed dates keep their order** if and only if they are stored exactly: among
the dates that are, an accepted date compares as its instant precisely when it is
one of them. -/
theorem dates_keep_order_iff (hs : m.AcceptsDate name s) (ht : t.Writes s) :
    (∀ (s' : String) (t' : Timestamp), m.AcceptsDate name s' → t'.Writes s' → t'.Exact →
        KeepsOrder s s' t.instant t'.instant) ↔ t.Exact := by
  constructor
  · intro h
    -- what the hypothesis says of a timestamp in its usual form
    have hkeeps : ∀ t' : Timestamp, t'.Exact →
        (t.nanos.bmod (2 ^ 64) < t'.nanos ↔ t.instant < t'.instant) ∧
        (t.nanos.bmod (2 ^ 64) = t'.nanos ↔ t.instant = t'.instant) ∧
        (t'.nanos < t.nanos.bmod (2 ^ 64) ↔ t'.instant < t.instant) := by
      intro t' ht'
      have hs' := hs.render ht'.second
      obtain ⟨v, v', hv, hv', horder⟩ := h _ t' hs' t'.writes_render ht'
      rw [hs.addValue ht, Except.ok.injEq, FieldValue.date.injEq] at hv
      rw [hs'.addValue t'.writes_render, ht'.bmod_nanos, Except.ok.injEq, FieldValue.date.injEq]
        at hv'
      rwa [← hv, ← hv'] at horder
    have hhigh : t.nanos < 2 ^ 63 := by
      by_contra hover
      have hlt : latest.instant < t.instant :=
        Fields.instant_lt_of_nanos_lt latest.valid t.valid (by rw [nanos_latest]; omega)
      have hstored := (hkeeps latest exact_latest).2.2.mpr hlt
      have hbound := Int.bmod_lt (x := t.nanos) (m := 2 ^ 64) (by norm_num)
      rw [nanos_latest] at hstored
      omega
    have hlow : -2 ^ 63 ≤ t.nanos := by
      by_contra hunder
      have hlt : t.instant < earliest.instant :=
        Fields.instant_lt_of_nanos_lt t.valid earliest.valid (by rw [nanos_earliest]; omega)
      have hstored := (hkeeps earliest exact_earliest).1.mpr hlt
      have hbound := Int.le_bmod (x := t.nanos) (m := 2 ^ 64) (by norm_num)
      rw [nanos_earliest] at hstored
      omega
    -- the cut timestamp is stored as the same integer, so it is the same instant
    have hcut : t.cut.Exact :=
      ⟨t.valid.cut_whole, by rw [Timestamp.cut, Fields.cut_nanos]; exact hlow,
        by rw [Timestamp.cut, Fields.cut_nanos]; exact hhigh⟩
    have hsame : t.nanos.bmod (2 ^ 64) = t.cut.nanos := by
      rw [Timestamp.cut, Fields.cut_nanos]
      exact Int.bmod_eq_of_le_mul_two (by omega) (by omega)
    have hinstant := (hkeeps t.cut hcut).2.1.mp hsame
    have hseconds : t.seconds = t.cut.seconds :=
      congrArg Prod.snd (toLex.injective hinstant)
    have hwhole : t.Whole := by
      refine t.valid.whole ?_
      rw [hseconds, hcut.toWhole.seconds_eq, Timestamp.cut, Fields.cut_minuteNanos]
    exact ⟨hwhole, hlow, hhigh⟩
  · intro ht' s' t' hs' hw' hexact
    refine ⟨t.nanos, t'.nanos, ?_, ?_, ?_, ?_, ?_⟩
    · rw [hs.addValue ht, ht'.bmod_nanos]
    · rw [hs'.addValue hw', hexact.bmod_nanos]
    · exact (ht'.toWhole.instant_lt_iff t.valid t'.valid hexact.toWhole).symm
    · exact (ht'.toWhole.instant_eq_iff t.valid t'.valid hexact.toWhole).symm
    · exact (hexact.toWhole.instant_lt_iff t'.valid t.valid ht'.toWhole).symm

end

section
open Reference

/-- A mapping with one date field. -/
def dateMapping : Mapping := ⟨OrdMap.ofList [("at", ⟨.date, true, true⟩)], by decide +kernel⟩

theorem dateMapping_accepts {s : String} (h : (parseRfc3339 s).isSome = true) :
    dateMapping.AcceptsDate "at" s :=
  Mapping.acceptsDate_iff.mpr ⟨⟨⟨.date, true, true⟩, by decide +kernel⟩, h⟩

def newYear2000 : Timestamp := ⟨⟨2000, 1, 1, 0, 0, 0, [], .utc⟩, by decide⟩

/-- An hour ahead of UTC. -/
def newYear2300 : Timestamp := ⟨⟨2300, 1, 1, 0, 0, 0, [], .offset false 1 0⟩, by decide⟩

/-- The year 2000 keeps its order with every date that is stored exactly. -/
theorem dates_keep_order_newYear2000 :
    newYear2000.Exact ∧ ∀ (s' : String) (t' : Timestamp), dateMapping.AcceptsDate "at" s' →
      t'.Writes s' → t'.Exact →
      KeepsOrder "2000-01-01T00:00:00Z" s' newYear2000.instant t'.instant := by
  have hexact : newYear2000.Exact := ⟨⟨by decide, by decide⟩, by decide, by decide⟩
  exact ⟨hexact, (dates_keep_order_iff (dateMapping_accepts (by decide +kernel))
    ⟨'T', 'Z', .inl rfl, by decide⟩).mpr hexact⟩

/-- The year 2300 is stored before the year 2000. -/
theorem dates_out_of_order :
    dateMapping.AcceptsDate "at" "2000-01-01T00:00:00Z" ∧
      dateMapping.AcceptsDate "at" "2300-01-01T00:00:00+01:00" ∧
      newYear2000.Writes "2000-01-01T00:00:00Z" ∧
      newYear2300.Writes "2300-01-01T00:00:00+01:00" ∧
      newYear2000.instant < newYear2300.instant ∧
      addValue (.string "2000-01-01T00:00:00Z") .date = .ok (.date 946684800000000000) ∧
      addValue (.string "2300-01-01T00:00:00+01:00") .date = .ok (.date (-8032955673709551616)) :=
  ⟨dateMapping_accepts (by decide +kernel), dateMapping_accepts (by decide +kernel),
    ⟨'T', 'Z', .inl rfl, by decide⟩, ⟨'T', 'Z', .inl rfl, by decide⟩,
    Fields.instant_lt_of_nanos_lt newYear2000.valid newYear2300.valid (by decide),
    by decide +kernel, by decide +kernel⟩

end

end Lumen
