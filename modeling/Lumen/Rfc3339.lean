import Lumen.Basic
import Mathlib.Data.Prod.Lex
import Mathlib.Data.Rat.Floor
import Mathlib.Tactic.IntervalCases
import Mathlib.Tactic.Linarith
import Mathlib.Tactic.NormNum

/-!
# Lumen.Rfc3339

The timestamps a date field takes: RFC 3339, as `OffsetDateTime::parse` reads
it.

A `Timestamp` has the fields of the text, and denotes an instant: the minute in
UTC, and the seconds in that minute with all digits of the fraction.  The 61st
second of a minute comes after the others and before the next minute.

The crate keeps whole nanoseconds (`Timestamp.nanos`): it drops the digits of the
fraction behind the ninth, and takes a leap second for the last nanosecond of
the second before it.  So `nanos` follows the order of the instants weakly
(`nanos_le_of_instant_le`), and exactly on timestamps that are whole
(`instant_eq_of_nanos_eq`).

`LawfulDates` is what is assumed of the crate: whatever it accepts is the text of
a timestamp and comes out as its nanoseconds, and every timestamp without a leap
second is accepted in its usual form.  Which separators, and which leap seconds,
are accepted beyond that is left open.
-/

namespace Lumen.Rfc3339

/-! ## the calendar -/

def isLeapYear (year : Nat) : Bool :=
  year % 4 = 0 && (year % 100 ≠ 0 || year % 400 = 0)

def daysInMonth (year month : Nat) : Nat :=
  if month = 2 then (if isLeapYear year then 29 else 28)
  else if month = 4 ∨ month = 6 ∨ month = 9 ∨ month = 11 then 30
  else 31

/-- The days of the years from 0 up to `year`. -/
def daysBeforeYear (year : Nat) : Nat :=
  365 * year + (year + 3) / 4 - (year + 99) / 100 + (year + 399) / 400

/-- The days of the months of a year up to `month`. -/
def daysBeforeMonth (year month : Nat) : Nat :=
  ((List.range' 1 (month - 1)).map (daysInMonth year)).sum

/-- The days from 1970-01-01. -/
def dayNumber (year month day : Nat) : Int :=
  (daysBeforeYear year + daysBeforeMonth year month + day : Nat) - 719529

example : dayNumber 1970 1 1 = 0 := by decide

/-! ## timestamps -/

/-- The time zone of a timestamp: `Z`, or an offset from UTC. -/
inductive Zone where
  | utc
  | offset (west : Bool) (hours minutes : Nat)
  deriving DecidableEq, Repr

/-- The minutes a zone is ahead of UTC. -/
def Zone.minutesAhead : Zone → Int
  | utc => 0
  | offset west hours minutes =>
    if west then -(60 * hours + minutes : Nat) else (60 * hours + minutes : Nat)

def Zone.Valid : Zone → Prop
  | utc => True
  | offset _ hours minutes => hours < 24 ∧ minutes < 60

instance : (zone : Zone) → Decidable zone.Valid
  | .utc => inferInstanceAs (Decidable True)
  | .offset _ hours minutes => inferInstanceAs (Decidable (hours < 24 ∧ minutes < 60))

/-- What the text of a timestamp spells; `fraction` are the digits behind the
point. -/
structure Fields where
  year : Nat
  month : Nat
  day : Nat
  hour : Nat
  minute : Nat
  second : Nat
  fraction : List Nat
  zone : Zone
  deriving DecidableEq, Repr

structure Fields.Valid (f : Fields) : Prop where
  year : f.year < 10000
  month : 1 ≤ f.month ∧ f.month ≤ 12
  day : 1 ≤ f.day ∧ f.day ≤ daysInMonth f.year f.month
  hour : f.hour < 24
  minute : f.minute < 60
  second : f.second ≤ 60
  fraction : ∀ d ∈ f.fraction, d < 10
  zone : f.zone.Valid

instance (f : Fields) : Decidable f.Valid :=
  decidable_of_iff
    (f.year < 10000 ∧ (1 ≤ f.month ∧ f.month ≤ 12) ∧
      (1 ≤ f.day ∧ f.day ≤ daysInMonth f.year f.month) ∧ f.hour < 24 ∧ f.minute < 60 ∧
      f.second ≤ 60 ∧ (∀ d ∈ f.fraction, d < 10) ∧ f.zone.Valid)
    ⟨fun h => ⟨h.1, h.2.1, h.2.2.1, h.2.2.2.1, h.2.2.2.2.1, h.2.2.2.2.2.1, h.2.2.2.2.2.2.1,
        h.2.2.2.2.2.2.2⟩,
      fun h => ⟨h.year, h.month, h.day, h.hour, h.minute, h.second, h.fraction, h.zone⟩⟩

/-- A timestamp of the years 0000 to 9999. -/
structure Timestamp extends Fields where
  valid : toFields.Valid
  deriving DecidableEq

/-! ## the instant it denotes -/

/-- The number a fraction has behind the point. -/
def fractionValue : List Nat → ℚ
  | [] => 0
  | d :: ds => (d + fractionValue ds) / 10

/-- Minutes from the epoch, in UTC. -/
def Fields.utcMinute (f : Fields) : Int :=
  1440 * dayNumber f.year f.month f.day + 60 * f.hour + f.minute - f.zone.minutesAhead

/-- The seconds in the minute. -/
def Fields.seconds (f : Fields) : ℚ := f.second + fractionValue f.fraction

/-- The instant: one comes before another if its minute does, or in the same
minute its seconds do. -/
def Fields.instant (f : Fields) : ℤ ×ₗ ℚ := toLex (f.utcMinute, f.seconds)

/-! ## the nanoseconds the crate computes -/

/-- The first `k` digits as a number. -/
def leadingDigits : Nat → List Nat → Nat
  | 0, _ => 0
  | _ + 1, [] => 0
  | k + 1, d :: ds => d * 10 ^ k + leadingDigits k ds

/-- The nanoseconds in the minute. -/
def Fields.minuteNanos (f : Fields) : Nat :=
  if f.second = 60 then 59999999999 else f.second * 10 ^ 9 + leadingDigits 9 f.fraction

/-- `unix_timestamp_nanos`. -/
def Fields.nanos (f : Fields) : Int := f.utcMinute * (60 * 10 ^ 9) + f.minuteNanos

/-- No part of the timestamp is lost: it has no leap second, and nothing behind
the ninth digit. -/
structure Fields.Whole (f : Fields) : Prop where
  second : f.second < 60
  fraction : ∀ d ∈ f.fraction.drop 9, d = 0

theorem fractionValue_nonneg (ds : List Nat) : 0 ≤ fractionValue ds := by
  induction ds with
  | nil => simp [fractionValue]
  | cons d ds ih =>
    simp only [fractionValue]
    positivity

theorem fractionValue_lt_one {ds : List Nat} (h : ∀ d ∈ ds, d < 10) : fractionValue ds < 1 := by
  induction ds with
  | nil => simp [fractionValue]
  | cons d ds ih =>
    obtain ⟨hd, hds⟩ := List.forall_mem_cons.mp h
    have hd : (d : ℚ) + 1 ≤ 10 := by exact_mod_cast hd
    have hlt := ih hds
    simp only [fractionValue]
    linarith

theorem fractionValue_eq_zero_iff {ds : List Nat} : fractionValue ds = 0 ↔ ∀ d ∈ ds, d = 0 := by
  induction ds with
  | nil => simp [fractionValue]
  | cons d ds ih =>
    have hnonneg := fractionValue_nonneg ds
    rw [List.forall_mem_cons, ← ih, fractionValue, div_eq_zero_iff]
    constructor
    · rintro (h | h)
      · exact ⟨by exact_mod_cast (by linarith : (d : ℚ) = 0), by linarith⟩
      · norm_num at h
    · rintro ⟨rfl, h⟩
      simp [h]

/-- The first digits, and what is behind them. -/
theorem fractionValue_split (k : Nat) (ds : List Nat) :
    10 ^ k * fractionValue ds = leadingDigits k ds + fractionValue (ds.drop k) := by
  induction k generalizing ds with
  | zero => simp [leadingDigits]
  | succ k ih =>
    cases ds with
    | nil => simp [leadingDigits, fractionValue]
    | cons d ds =>
      have h := ih ds
      simp only [fractionValue, leadingDigits, List.drop_succ_cons, Nat.cast_add, Nat.cast_mul,
        Nat.cast_pow, Nat.cast_ofNat]
      rw [add_assoc, ← h, pow_succ]
      ring

theorem leadingDigits_lt {ds : List Nat} (h : ∀ d ∈ ds, d < 10) (k : Nat) :
    leadingDigits k ds < 10 ^ k := by
  induction k generalizing ds with
  | zero => simp [leadingDigits]
  | succ k ih =>
    cases ds with
    | nil => simp [leadingDigits]
    | cons d ds =>
      obtain ⟨hd, hds⟩ := List.forall_mem_cons.mp h
      have hlt := ih hds
      have hmul : d * 10 ^ k ≤ 9 * 10 ^ k := Nat.mul_le_mul_right _ (by omega)
      rw [leadingDigits, pow_succ]
      omega

namespace Fields

variable {f g : Fields}

theorem Valid.minuteNanos_lt (h : f.Valid) : f.minuteNanos < 60 * 10 ^ 9 := by
  have hlt := leadingDigits_lt h.fraction 9
  have hsec := h.second
  rw [minuteNanos]
  split
  · norm_num
  · omega

/-- The seconds with the lost digits. -/
theorem seconds_eq (hsec : f.second ≠ 60) :
    10 ^ 9 * f.seconds = f.minuteNanos + fractionValue (f.fraction.drop 9) := by
  have h := fractionValue_split 9 f.fraction
  rw [seconds, minuteNanos, if_neg hsec, mul_add, h]
  push_cast
  ring

theorem minuteNanos_le (f : Fields) : (f.minuteNanos : ℚ) ≤ 10 ^ 9 * f.seconds := by
  by_cases hsec : f.second = 60
  · have hnonneg := fractionValue_nonneg f.fraction
    rw [minuteNanos, if_pos hsec, seconds, hsec]
    push_cast
    linarith
  · have hnonneg := fractionValue_nonneg (f.fraction.drop 9)
    rw [seconds_eq hsec]
    linarith

theorem Valid.seconds_lt (h : f.Valid) :
    10 ^ 9 * f.seconds < f.minuteNanos + 1 ∨ f.minuteNanos = 59999999999 := by
  by_cases hsec : f.second = 60
  · exact .inr (by rw [minuteNanos, if_pos hsec])
  · have hlt : fractionValue (f.fraction.drop 9) < 1 :=
      fractionValue_lt_one fun d hd => h.fraction d (List.mem_of_mem_drop hd)
    refine .inl ?_
    rw [seconds_eq hsec]
    linarith

theorem instant_le_iff :
    f.instant ≤ g.instant ↔
      f.utcMinute < g.utcMinute ∨ f.utcMinute = g.utcMinute ∧ f.seconds ≤ g.seconds := by
  rw [instant, instant, Prod.Lex.toLex_le_toLex]

/-- A later instant has no fewer nanoseconds. -/
theorem nanos_le_of_instant_le (hf : f.Valid) (hg : g.Valid) (h : f.instant ≤ g.instant) :
    f.nanos ≤ g.nanos := by
  have hlt := hf.minuteNanos_lt
  rw [nanos, nanos]
  rcases instant_le_iff.mp h with hmin | ⟨hmin, hsec⟩
  · omega
  · have hle : f.minuteNanos ≤ g.minuteNanos := by
      by_contra hgt
      have hcast : (g.minuteNanos : ℚ) + 1 ≤ f.minuteNanos := by exact_mod_cast Nat.lt_of_not_le hgt
      have hfle := f.minuteNanos_le
      rcases hg.seconds_lt with hs | hs
      · linarith
      · omega
    omega

theorem instant_lt_of_nanos_lt (hf : f.Valid) (hg : g.Valid) (h : f.nanos < g.nanos) :
    f.instant < g.instant :=
  lt_of_not_ge fun hle => absurd (nanos_le_of_instant_le hg hf hle) (Int.not_le.mpr h)

theorem Whole.seconds_eq (h : f.Whole) : 10 ^ 9 * f.seconds = f.minuteNanos := by
  rw [Fields.seconds_eq h.second.ne, fractionValue_eq_zero_iff.mpr h.fraction, add_zero]

/-- Whole timestamps with the same nanoseconds are the same instant. -/
theorem instant_eq_of_nanos_eq (hf : f.Valid) (hg : g.Valid) (hwf : f.Whole) (hwg : g.Whole)
    (h : f.nanos = g.nanos) : f.instant = g.instant := by
  have hflt := hf.minuteNanos_lt
  have hglt := hg.minuteNanos_lt
  rw [nanos, nanos] at h
  have hmin : f.utcMinute = g.utcMinute := by omega
  have hnanos : f.minuteNanos = g.minuteNanos := by omega
  have hsec : f.seconds = g.seconds := by
    have h₁ := hwf.seconds_eq
    rw [hnanos, ← hwg.seconds_eq] at h₁
    linarith
  rw [instant, instant, hmin, hsec]

theorem Whole.instant_lt_iff (hf : f.Valid) (hg : g.Valid) (hwf : f.Whole) (hwg : g.Whole) :
    f.instant < g.instant ↔ f.nanos < g.nanos := by
  refine ⟨fun h => ?_, instant_lt_of_nanos_lt hf hg⟩
  refine lt_of_le_of_ne (nanos_le_of_instant_le hf hg h.le) fun heq => ?_
  exact h.ne (instant_eq_of_nanos_eq hf hg hwf hwg heq)

theorem Whole.instant_eq_iff (hf : f.Valid) (hg : g.Valid) (hwf : f.Whole) (hwg : g.Whole) :
    f.instant = g.instant ↔ f.nanos = g.nanos := by
  refine ⟨fun h => ?_, instant_eq_of_nanos_eq hf hg hwf hwg⟩
  exact le_antisymm (nanos_le_of_instant_le hf hg h.le) (nanos_le_of_instant_le hg hf h.ge)

end Fields

/-! ## the text -/

def digitChar (d : Nat) : Char := Char.ofNat (48 + d)

/-- The last `k` digits of a number. -/
def digitChars : Nat → Nat → List Char
  | 0, _ => []
  | k + 1, n => digitChars k (n / 10) ++ [digitChar (n % 10)]

def fractionChars (ds : List Nat) : List Char :=
  if ds = [] then [] else '.' :: ds.map digitChar

def Zone.chars (zulu : Char) : Zone → List Char
  | utc => [zulu]
  | offset west hours minutes =>
    (if west then '-' else '+') :: (digitChars 2 hours ++ ':' :: digitChars 2 minutes)

/-- The text of a timestamp, with a separator between date and time and a letter
for UTC. -/
def Fields.chars (f : Fields) (sep zulu : Char) : List Char :=
  digitChars 4 f.year ++ '-' :: (digitChars 2 f.month ++ '-' :: (digitChars 2 f.day ++ sep ::
    (digitChars 2 f.hour ++ ':' :: (digitChars 2 f.minute ++ ':' :: (digitChars 2 f.second ++
      (fractionChars f.fraction ++ f.zone.chars zulu))))))

/-- The timestamp is written so. -/
def Fields.Writes (f : Fields) (s : String) : Prop :=
  ∃ sep zulu, (zulu = 'Z' ∨ zulu = 'z') ∧ s.toList = f.chars sep zulu

/-- The usual form. -/
def Fields.render (f : Fields) : String := String.ofList (f.chars 'T' 'Z')

theorem Fields.writes_render (f : Fields) : f.Writes f.render :=
  ⟨'T', 'Z', .inl rfl, String.toList_ofList⟩

/-- What is assumed of `OffsetDateTime::parse` with the RFC 3339 format. -/
class LawfulDates [Ext] : Prop where
  sound : ∀ s n, parseRfc3339 s = some n → ∃ t : Timestamp, t.Writes s ∧ n = t.nanos
  complete : ∀ t : Timestamp, t.second < 60 → parseRfc3339 t.render = some t.nanos

/-! ## reading it -/

def charDigit (c : Char) : Option Nat :=
  if 48 ≤ c.toNat ∧ c.toNat ≤ 57 then some (c.toNat - 48) else none

/-- Read `k` digits. -/
def takeDigits : Nat → List Char → Option (Nat × List Char)
  | 0, cs => some (0, cs)
  | k + 1, cs =>
    match takeDigits k cs with
    | some (n, c :: rest) => (charDigit c).map fun d => (10 * n + d, rest)
    | _ => none

/-- Read one character. -/
def takeChar (c : Char) : List Char → Option (List Char)
  | [] => none
  | x :: rest => if x = c then some rest else none

/-- Read digits as long as there are some. -/
def spanDigits : List Char → List Nat × List Char
  | [] => ([], [])
  | c :: cs =>
    match charDigit c with
    | some d => (d :: (spanDigits cs).1, (spanDigits cs).2)
    | none => ([], c :: cs)

/-- Read a point with the digits behind it, if there is one. -/
def takeFraction : List Char → Option (List Nat × List Char)
  | '.' :: cs => if (spanDigits cs).1 = [] then none else some (spanDigits cs)
  | cs => some ([], cs)

/-- Read the zone; nothing follows it. -/
def takeZone : List Char → Option Zone
  | ['Z'] => some .utc
  | ['z'] => some .utc
  | c :: cs =>
    if c = '+' ∨ c = '-' then do
      let (hours, cs) ← takeDigits 2 cs
      let cs ← takeChar ':' cs
      let (minutes, cs) ← takeDigits 2 cs
      if cs = [] then some (.offset (c = '-') hours minutes) else none
    else none
  | [] => none

/-- The separator between date and time is any one byte. -/
def takeSeparator : List Char → Option (List Char)
  | c :: cs => if c.toNat < 128 then some cs else none
  | [] => none

def Fields.read (cs : List Char) : Option Fields := do
  let (year, cs) ← takeDigits 4 cs
  let cs ← takeChar '-' cs
  let (month, cs) ← takeDigits 2 cs
  let cs ← takeChar '-' cs
  let (day, cs) ← takeDigits 2 cs
  let cs ← takeSeparator cs
  let (hour, cs) ← takeDigits 2 cs
  let cs ← takeChar ':' cs
  let (minute, cs) ← takeDigits 2 cs
  let cs ← takeChar ':' cs
  let (second, cs) ← takeDigits 2 cs
  let (fraction, cs) ← takeFraction cs
  let zone ← takeZone cs
  pure ⟨year, month, day, hour, minute, second, fraction, zone⟩

/-- A leap second is the last second of a month in UTC. -/
def Fields.AtMonthEnd (f : Fields) : Prop :=
  f.utcMinute + 1 = 1440 * dayNumber f.year f.month 1 ∨
    f.utcMinute + 1 = 1440 * (dayNumber f.year f.month 1 + daysInMonth f.year f.month)

instance (f : Fields) : Decidable f.AtMonthEnd :=
  inferInstanceAs (Decidable (_ ∨ _))

/-- The nanoseconds of a text. -/
def Fields.parse (s : String) : Option Int :=
  match Fields.read s.toList with
  | some f => if f.Valid ∧ (f.second = 60 → f.AtMonthEnd) then some f.nanos else none
  | none => none

theorem charDigit_eq_some_iff {c : Char} {d : Nat} :
    charDigit c = some d ↔ d < 10 ∧ c = digitChar d := by
  unfold charDigit digitChar
  constructor
  · intro h
    split at h
    · rename_i hc
      obtain rfl := Option.some.inj h
      refine ⟨by omega, ?_⟩
      rw [Nat.add_sub_cancel' hc.1, Char.ofNat_toNat]
    · contradiction
  · rintro ⟨hd, rfl⟩
    interval_cases d <;> rfl

theorem takeDigits_eq_some_iff {k n : Nat} {cs rest : List Char} :
    takeDigits k cs = some (n, rest) ↔ n < 10 ^ k ∧ cs = digitChars k n ++ rest := by
  induction k generalizing n rest with
  | zero =>
    simp only [takeDigits, digitChars, Option.some.injEq, Prod.mk.injEq, List.nil_append, pow_zero,
      Nat.lt_one_iff]
    exact ⟨fun h => ⟨h.1.symm, h.2⟩, fun h => ⟨h.1.symm, h.2⟩⟩
  | succ k ih =>
    have hsplit : digitChars (k + 1) n ++ rest =
        digitChars k (n / 10) ++ digitChar (n % 10) :: rest := by
      simp [digitChars]
    rw [hsplit, takeDigits]
    constructor
    · intro h
      split at h
      · rename_i n' c rest' hk
        obtain ⟨d, hd, heq⟩ := Option.map_eq_some_iff.mp h
        obtain ⟨rfl, rfl⟩ := heq
        obtain ⟨hlt, rfl⟩ := charDigit_eq_some_iff.mp hd
        obtain ⟨hn, hcs⟩ := ih.mp hk
        have h₁ : (10 * n' + d) / 10 = n' := by omega
        have h₂ : (10 * n' + d) % 10 = d := by omega
        rw [h₁, h₂, pow_succ]
        exact ⟨by omega, hcs⟩
      · contradiction
    · rintro ⟨hn, hcs⟩
      have hk := ih.mpr ⟨(by omega : n / 10 < 10 ^ k), hcs⟩
      have hd : charDigit (digitChar (n % 10)) = some (n % 10) :=
        charDigit_eq_some_iff.mpr ⟨by omega, rfl⟩
      rw [hk]
      simp only [hd, Option.map_some, Option.some.injEq, Prod.mk.injEq, and_true]
      omega

theorem takeDigits_append {k n : Nat} (h : n < 10 ^ k) (rest : List Char) :
    takeDigits k (digitChars k n ++ rest) = some (n, rest) :=
  takeDigits_eq_some_iff.mpr ⟨h, rfl⟩

theorem spanDigits_spec (cs : List Char) :
    (∀ d ∈ (spanDigits cs).1, d < 10) ∧ cs = (spanDigits cs).1.map digitChar ++ (spanDigits cs).2 := by
  induction cs with
  | nil => simp [spanDigits]
  | cons c cs ih =>
    rw [spanDigits]
    cases hd : charDigit c with
    | none => simp
    | some d =>
      obtain ⟨hlt, rfl⟩ := charDigit_eq_some_iff.mp hd
      exact ⟨List.forall_mem_cons.mpr ⟨hlt, ih.1⟩, congrArg (digitChar d :: ·) ih.2⟩

/-- The digits are read up to the next character that is none. -/
theorem spanDigits_append {ds : List Nat} {c : Char} (rest : List Char) (h : ∀ d ∈ ds, d < 10)
    (hc : charDigit c = none) :
    spanDigits (ds.map digitChar ++ c :: rest) = (ds, c :: rest) := by
  induction ds with
  | nil => simp [spanDigits, hc]
  | cons d ds ih =>
    obtain ⟨hd, hds⟩ := List.forall_mem_cons.mp h
    have hdigit := charDigit_eq_some_iff.mpr ⟨hd, rfl⟩
    simp [spanDigits, hdigit, ih hds]

theorem takeFraction_spec {cs rest : List Char} {ds : List Nat}
    (h : takeFraction cs = some (ds, rest)) :
    (∀ d ∈ ds, d < 10) ∧ cs = fractionChars ds ++ rest := by
  unfold takeFraction at h
  split at h
  · rename_i cs
    obtain ⟨hlt, hcs⟩ := spanDigits_spec cs
    split at h
    · contradiction
    · rename_i hne
      rw [Option.some.injEq] at h
      rw [h] at hlt hcs hne
      exact ⟨hlt, by simp [fractionChars, hne, ← hcs]⟩
  · simp only [Option.some.injEq, Prod.mk.injEq] at h
    obtain ⟨rfl, rfl⟩ := h
    simp [fractionChars]

theorem takeFraction_append {ds : List Nat} {c : Char} (rest : List Char) (h : ∀ d ∈ ds, d < 10)
    (hc : charDigit c = none) (hdot : c ≠ '.') :
    takeFraction (fractionChars ds ++ c :: rest) = some (ds, c :: rest) := by
  unfold fractionChars
  split
  · rename_i hnil
    subst hnil
    unfold takeFraction
    split
    · rename_i heq
      exact absurd (List.cons.inj heq).1 hdot
    · rfl
  · rename_i hne
    simp [takeFraction, spanDigits_append rest h hc, hne]

theorem takeChar_eq_some_iff {c : Char} {cs rest : List Char} :
    takeChar c cs = some rest ↔ cs = c :: rest := by
  cases cs with
  | nil => simp [takeChar]
  | cons x cs =>
    by_cases hx : x = c
    · simp [takeChar, hx]
    · simp [takeChar, hx]

theorem takeZone_spec {cs : List Char} {zone : Zone} (h : takeZone cs = some zone) :
    ∃ zulu, (zulu = 'Z' ∨ zulu = 'z') ∧ cs = zone.chars zulu := by
  unfold takeZone at h
  split at h
  · obtain rfl := Option.some.inj h
    exact ⟨'Z', .inl rfl, rfl⟩
  · obtain rfl := Option.some.inj h
    exact ⟨'z', .inr rfl, rfl⟩
  · split at h
    · rename_i hsign
      simp only [bind, Option.bind_eq_some_iff, Prod.exists, takeDigits_eq_some_iff,
        takeChar_eq_some_iff] at h
      obtain ⟨hours, _, ⟨_, rfl⟩, _, rfl, minutes, rest, ⟨_, rfl⟩, h⟩ := h
      split at h
      · rename_i hnil
        obtain rfl := Option.some.inj h
        refine ⟨'Z', .inl rfl, ?_⟩
        rcases hsign with rfl | rfl <;> simp [Zone.chars, hnil]
      · contradiction
    · contradiction
  · contradiction

theorem takeZone_chars {zone : Zone} {zulu : Char} (h : zone.Valid) (hz : zulu = 'Z' ∨ zulu = 'z') :
    takeZone (zone.chars zulu) = some zone := by
  cases zone with
  | utc => rcases hz with rfl | rfl <;> rfl
  | offset west hours minutes =>
    obtain ⟨hh, hm⟩ := h
    have hhours := takeDigits_append (by omega : hours < 10 ^ 2) (':' :: digitChars 2 minutes)
    have hminutes := takeDigits_append (by omega : minutes < 10 ^ 2) []
    rw [List.append_nil] at hminutes
    cases west
    all_goals simp [Zone.chars, takeZone, hhours, hminutes, takeChar]

/-- A zone does not start with a digit or a point. -/
theorem Zone.chars_eq_cons (zone : Zone) {zulu : Char} (hz : zulu = 'Z' ∨ zulu = 'z') :
    ∃ c rest, zone.chars zulu = c :: rest ∧ charDigit c = none ∧ c ≠ '.' := by
  cases zone with
  | utc => exact ⟨zulu, [], rfl, by rcases hz with rfl | rfl <;> decide⟩
  | offset west hours minutes =>
    cases west
    · exact ⟨'+', _, rfl, by decide, by decide⟩
    · exact ⟨'-', _, rfl, by decide, by decide⟩

theorem takeFraction_chars {ds : List Nat} {zulu : Char} (zone : Zone) (h : ∀ d ∈ ds, d < 10)
    (hz : zulu = 'Z' ∨ zulu = 'z') :
    takeFraction (fractionChars ds ++ zone.chars zulu) = some (ds, zone.chars zulu) := by
  obtain ⟨c, rest, hchars, hdigit, hdot⟩ := zone.chars_eq_cons hz
  rw [hchars]
  exact takeFraction_append rest h hdigit hdot

theorem takeSeparator_spec {cs rest : List Char} (h : takeSeparator cs = some rest) :
    ∃ sep, cs = sep :: rest := by
  unfold takeSeparator at h
  grind

namespace Fields

theorem Valid.day_lt {f : Fields} (h : f.Valid) : f.day < 10 ^ 2 := by
  have hdays : daysInMonth f.year f.month ≤ 31 := by
    unfold daysInMonth
    grind
  exact Nat.lt_of_le_of_lt (h.day.2.trans hdays) (by norm_num)

/-- What is read was written so. -/
theorem read_spec {cs : List Char} {f : Fields} (h : read cs = some f) :
    ∃ sep zulu, (zulu = 'Z' ∨ zulu = 'z') ∧ cs = f.chars sep zulu := by
  simp only [read, bind, Option.bind_eq_some_iff, Prod.exists, takeDigits_eq_some_iff,
    takeChar_eq_some_iff] at h
  obtain ⟨year, _, ⟨_, rfl⟩, _, rfl, month, _, ⟨_, rfl⟩, _, rfl, day, _, ⟨_, rfl⟩, _, hsep, hour, _,
    ⟨_, rfl⟩, _, rfl, minute, _, ⟨_, rfl⟩, _, rfl, second, _, ⟨_, rfl⟩, fraction, _, hfrac, zone,
    hzone, heq⟩ := h
  obtain ⟨sep, rfl⟩ := takeSeparator_spec hsep
  obtain ⟨_, rfl⟩ := takeFraction_spec hfrac
  obtain ⟨zulu, hzulu, rfl⟩ := takeZone_spec hzone
  obtain rfl := Option.some.inj heq
  exact ⟨sep, zulu, hzulu, rfl⟩

/-- The usual form is read back. -/
theorem read_chars {f : Fields} (h : f.Valid) : read (f.chars 'T' 'Z') = some f := by
  have hyear := h.year
  have hmonth := h.month
  have hhour := h.hour
  have hminute := h.minute
  have hsecond := h.second
  have hfrac := takeFraction_chars f.zone h.fraction (.inl rfl)
  simp only [read, chars, bind, Option.bind_eq_some_iff, Prod.exists]
  exact ⟨_, _, takeDigits_append (by omega) _, _, takeChar_eq_some_iff.mpr rfl,
    _, _, takeDigits_append (by omega) _, _, takeChar_eq_some_iff.mpr rfl,
    _, _, takeDigits_append h.day_lt _, _, rfl,
    _, _, takeDigits_append (by omega) _, _, takeChar_eq_some_iff.mpr rfl,
    _, _, takeDigits_append (by omega) _, _, takeChar_eq_some_iff.mpr rfl,
    _, _, takeDigits_append (by omega) _, _, _, hfrac, _, takeZone_chars h.zone (.inl rfl), rfl⟩

/-- A text is that of one timestamp only. -/
theorem Writes.unique {f g : Fields} {s : String} (hf : f.Valid) (hg : g.Valid) (hfs : f.Writes s)
    (hgs : g.Writes s) : f = g := by
  obtain ⟨sep, zulu, hz, hchars⟩ := hfs
  obtain ⟨sep', zulu', hz', hchars'⟩ := hgs
  have hdigits : ∀ {k n n' : Nat} {rest rest' : List Char}, n < 10 ^ k → n' < 10 ^ k →
      digitChars k n ++ rest = digitChars k n' ++ rest' → n = n' ∧ rest = rest' := by
    intro k n n' rest rest' hn hn' h
    have hread := takeDigits_append hn rest
    rw [h, takeDigits_append hn' rest', Option.some.injEq, Prod.mk.injEq] at hread
    exact ⟨hread.1.symm, hread.2.symm⟩
  have hyear := hf.year
  have hyear' := hg.year
  have hmonth := hf.month
  have hmonth' := hg.month
  have hhour := hf.hour
  have hhour' := hg.hour
  have hminute := hf.minute
  have hminute' := hg.minute
  have hsecond := hf.second
  have hsecond' := hg.second
  rw [hchars, chars, chars] at hchars'
  obtain ⟨h₁, h⟩ := hdigits (by omega) (by omega) hchars'
  obtain ⟨h₂, h⟩ := hdigits (by omega) (by omega) (List.cons.inj h).2
  obtain ⟨h₃, h⟩ := hdigits hf.day_lt hg.day_lt (List.cons.inj h).2
  obtain ⟨h₄, h⟩ := hdigits (by omega) (by omega) (List.cons.inj h).2
  obtain ⟨h₅, h⟩ := hdigits (by omega) (by omega) (List.cons.inj h).2
  obtain ⟨h₆, h⟩ := hdigits (by omega) (by omega) (List.cons.inj h).2
  have hfrac := takeFraction_chars f.zone hf.fraction hz
  rw [h, takeFraction_chars g.zone hg.fraction hz', Option.some.injEq, Prod.mk.injEq] at hfrac
  have hzone := takeZone_chars hf.zone hz
  rw [← hfrac.2, takeZone_chars hg.zone hz', Option.some.injEq] at hzone
  cases f
  cases g
  simp_all

theorem parse_sound {s : String} {n : Int} (h : parse s = some n) :
    ∃ t : Timestamp, t.Writes s ∧ n = t.nanos := by
  unfold parse at h
  split at h
  · rename_i f hread
    split at h
    · rename_i hvalid
      exact ⟨⟨f, hvalid.1⟩, read_spec hread, (Option.some.inj h).symm⟩
    · contradiction
  · contradiction

theorem parse_render (t : Timestamp) (h : t.second < 60) : parse t.render = some t.nanos := by
  have hleap : t.second = 60 → t.AtMonthEnd := fun hsec => absurd hsec h.ne
  rw [parse, render, String.toList_ofList, read_chars t.valid]
  exact if_pos ⟨t.valid, hleap⟩

end Fields

end Lumen.Rfc3339
