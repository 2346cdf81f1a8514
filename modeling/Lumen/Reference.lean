import Lumen.Rfc3339
import Lumen.Wire
import Mathlib.Data.String.Basic
import Mathlib.Tactic.IntervalCases

/-!
# Lumen.Reference

The third-party functions, written out: CRC-32C, the hyphenated form of a
uuid, a JSON reader, RFC 3339 timestamps and the protobuf encodings.  They
behave as the crates do on the inputs the runs of this development use, and
satisfy the laws of `Ext`; the theorems hold for every `Ext`.

The JSON reader leaves out numbers with a fraction or an exponent and reports
them as errors.
-/

namespace Lumen.Reference

open Lib

/-! ## CRC-32C -/

/-- One bit of the reflected Castagnoli polynomial. -/
def crcBit (crc : UInt32) : UInt32 :=
  if crc &&& 1 = 1 then (crc >>> 1) ^^^ 0x82F63B78 else crc >>> 1

def crcByte (crc : UInt32) (b : UInt8) : UInt32 :=
  crcBit (crcBit (crcBit (crcBit (crcBit (crcBit (crcBit (crcBit (crc ^^^ b.toUInt32))))))))

def crc32c (bytes : Bytes) : UInt32 := bytes.foldl crcByte 0xFFFFFFFF ^^^ 0xFFFFFFFF

example : crc32c [0x31, 0x32, 0x33, 0x34, 0x35, 0x36, 0x37, 0x38, 0x39] = 0xE3069283 := by
  decide +kernel

/-! ## uuids -/

/-- The lowest `k` hexadecimal digits, the highest first. -/
def hexDigits : Nat → Nat → List Nat
  | 0, _ => []
  | k + 1, n => hexDigits k (n / 16) ++ [n % 16]

def ofHexDigits (l : List Nat) : Nat := l.foldl (fun n d => 16 * n + d) 0

theorem length_hexDigits (k n : Nat) : (hexDigits k n).length = k := by
  induction k generalizing n with
  | zero => rfl
  | succ k ih => rw [hexDigits, List.length_append, ih, List.length_singleton]

theorem hexDigits_lt {k n : Nat} {d : Nat} (h : d ∈ hexDigits k n) : d < 16 := by
  induction k generalizing n with
  | zero => simp [hexDigits] at h
  | succ k ih =>
    rw [hexDigits, List.mem_append, List.mem_singleton] at h
    rcases h with h | rfl
    · exact ih h
    · omega

theorem ofHexDigits_hexDigits (k n : Nat) : ofHexDigits (hexDigits k n) = n % 16 ^ k := by
  induction k generalizing n with
  | zero => simp [hexDigits, ofHexDigits, Nat.mod_one]
  | succ k ih =>
    have hfold : ofHexDigits (hexDigits k (n / 16) ++ [n % 16]) =
        16 * ofHexDigits (hexDigits k (n / 16)) + n % 16 := by
      simp [ofHexDigits, List.foldl_append]
    rw [hexDigits, hfold, ih, Nat.pow_succ, Nat.mul_comm (16 ^ k) 16, Nat.mod_mul]
    omega

def hexChar (d : Nat) : Char := if d < 10 then Char.ofNat (48 + d) else Char.ofNat (87 + d)

def hexVal (c : Char) : Option Nat :=
  let n := c.toNat
  if 48 ≤ n ∧ n ≤ 57 then some (n - 48)
  else if 97 ≤ n ∧ n ≤ 102 then some (n - 87)
  else if 65 ≤ n ∧ n ≤ 70 then some (n - 55)
  else none

theorem hexVal_hexChar {d : Nat} (h : d < 16) : hexVal (hexChar d) = some d := by
  interval_cases d <;> decide

def hexVals : List Char → Option (List Nat)
  | [] => some []
  | c :: cs =>
    match hexVal c, hexVals cs with
    | some d, some ds => some (d :: ds)
    | _, _ => none

theorem hexVals_map {l : List Nat} (h : ∀ d ∈ l, d < 16) : hexVals (l.map hexChar) = some l := by
  induction l with
  | nil => rfl
  | cons d l ih =>
    rw [List.map_cons, hexVals, hexVal_hexChar (h d List.mem_cons_self),
      ih fun x hx => h x (List.mem_cons_of_mem d hx)]

/-- Digits in groups of 8, 4, 4, 4 and 12. -/
def hyphenate (l : List Char) : List Char :=
  l.take 8 ++ '-' :: ((l.drop 8).take 4 ++ '-' :: ((l.drop 12).take 4 ++ '-' ::
    ((l.drop 16).take 4 ++ '-' :: l.drop 20)))

theorem filter_hyphenate {l : List Char} (h : ∀ c ∈ l, c ≠ '-') :
    (hyphenate l).filter (· ≠ '-') = l := by
  have hall : ∀ {l' : List Char}, l' ⊆ l → l'.filter (fun c => decide (c ≠ '-')) = l' := by
    intro l' hl'
    exact List.filter_eq_self.mpr fun c hc => by simpa using h c (hl' hc)
  have hdrop : ∀ n, l.drop n ⊆ l := fun n => List.drop_subset n l
  have htake : ∀ n k, (l.drop n).take k ⊆ l := fun n k _ hc =>
    hdrop n (List.take_subset k _ hc)
  have hsplit : ∀ n, (l.drop n).take 4 ++ l.drop (n + 4) = l.drop n := by
    intro n
    rw [← List.drop_drop, List.take_append_drop]
  simp only [hyphenate, List.filter_append, List.filter_cons, ne_eq, not_true_eq_false,
    decide_false, Bool.false_eq_true, if_false]
  simp only [ne_eq] at hall
  rw [hall (List.take_subset 8 l), hall (htake 8 4), hall (htake 12 4), hall (htake 16 4),
    hall (hdrop 20)]
  rw [hsplit 16, hsplit 12, hsplit 8, List.take_append_drop]

def fmtUuid (u : Uuid) : String :=
  String.ofList (hyphenate ((hexDigits 32 u.bits.toNat).map hexChar))

/-- `Uuid::parse_str` on the hyphenated and the plain form. -/
def parseUuid (s : String) : Option Uuid :=
  let digits := s.toList.filter (· ≠ '-')
  if s.toList = hyphenate digits ∨ s.toList = digits then
    match hexVals digits with
    | some ds => if ds.length = 32 then some ⟨BitVec.ofNat 128 (ofHexDigits ds)⟩ else none
    | none => none
  else none

theorem parseUuid_fmtUuid (u : Uuid) : parseUuid (fmtUuid u) = some u := by
  have hlt : ∀ d ∈ hexDigits 32 u.bits.toNat, d < 16 := fun _ hd => hexDigits_lt hd
  have hne : ∀ c ∈ (hexDigits 32 u.bits.toNat).map hexChar, c ≠ '-' := by
    intro c hc
    obtain ⟨d, hd, rfl⟩ := List.mem_map.mp hc
    have hd := hlt d hd
    interval_cases d <;> decide
  have hval : ofHexDigits (hexDigits 32 u.bits.toNat) = u.bits.toNat := by
    rw [ofHexDigits_hexDigits]
    exact Nat.mod_eq_of_lt (Nat.lt_of_lt_of_eq u.bits.isLt (by decide))
  rw [parseUuid, fmtUuid, String.toList_ofList]
  simp only [filter_hyphenate hne, true_or, if_true, hexVals_map hlt, length_hexDigits, hval,
    BitVec.ofNat_toNat, BitVec.setWidth_eq]

/-! ## JSON -/

def isSpace (b : UInt8) : Bool := b = 0x20 ∨ b = 0x0A ∨ b = 0x0D ∨ b = 0x09

def skipSpace : Bytes → Bytes
  | [] => []
  | b :: rest => if isSpace b then skipSpace rest else b :: rest

def isDigit (b : UInt8) : Bool := 0x30 ≤ b ∧ b ≤ 0x39

/-- The digits at the front, and what follows them. -/
def spanDigits : Bytes → Bytes × Bytes
  | [] => ([], [])
  | b :: rest => if isDigit b then let r := spanDigits rest; (b :: r.1, r.2) else ([], b :: rest)

def digitsNat (ds : Bytes) : Nat := ds.foldl (fun n d => 10 * n + (d.toNat - 48)) 0

/-- The character of a four-digit escape. -/
def unicodeEscape (a b c d : UInt8) : Option Bytes :=
  match hexVals ([a, b, c, d].map fun x => Char.ofNat x.toNat) with
  | some ds =>
    let n := ofHexDigits ds
    if 0xD800 ≤ n ∧ n ≤ 0xDFFF then none else some (String.utf8EncodeChar (Char.ofNat n))
  | none => none

/-- The bytes of a string after its opening quote, and what follows its
closing one. -/
def parseStringBytes : Bytes → Option (Bytes × Bytes)
  | [] => none
  | 0x22 :: rest => some ([], rest)
  | 0x5C :: 0x75 :: a :: b :: c :: d :: rest =>
    match unicodeEscape a b c d, parseStringBytes rest with
    | some e, some r => some (e ++ r.1, r.2)
    | _, _ => none
  | 0x5C :: e :: rest =>
    let plain := if e = 0x22 ∨ e = 0x5C ∨ e = 0x2F then some e
      else if e = 0x62 then some 0x08
      else if e = 0x66 then some 0x0C
      else if e = 0x6E then some 0x0A
      else if e = 0x72 then some 0x0D
      else if e = 0x74 then some 0x09
      else none
    match plain, parseStringBytes rest with
    | some x, some r => some (x :: r.1, r.2)
    | _, _ => none
  | b :: rest =>
    if b < 0x20 ∨ b = 0x5C then none
    else
      match parseStringBytes rest with
      | some r => some (b :: r.1, r.2)
      | none => none

def parseString (b : Bytes) : Option (String × Bytes) :=
  match parseStringBytes b with
  | some r => (Wire.getString r.1).map (·, r.2)
  | none => none

/-- An integer without leading zeros and without a fraction or an exponent. -/
def parseNumber (neg : Bool) (b : Bytes) : Option (Value × Bytes) :=
  let r := spanDigits b
  let ends : Bool := match r.2 with
    | x :: _ => x ≠ 0x2E ∧ x ≠ 0x65 ∧ x ≠ 0x45
    | [] => true
  if r.1 = [] ∨ (r.1.length ≠ 1 ∧ r.1.head? = some 0x30) ∨ ¬ ends then none
  else
    let n := digitsNat r.1
    if neg then (if n ≤ 2 ^ 63 then some (.number (.negInt (-n)), r.2) else none)
    else (if n < 2 ^ 64 then some (.number (.posInt n), r.2) else none)

/-- Strip a literal from the front. -/
def literal (word b : Bytes) (v : Value) : Option (Value × Bytes) :=
  if b.take word.length = word then some (v, b.drop word.length) else none

mutual
/-- A value, after any white space. -/
def parseValue : Nat → Bytes → Option (Value × Bytes)
  | 0, _ => none
  | fuel + 1, b =>
    match skipSpace b with
    | 0x7B :: rest =>
      match skipSpace rest with
      | 0x7D :: rest => some (.object [], rest)
      | rest =>
        match parseMembers fuel rest with
        | some (ms, rest) => some (.object (OrdMap.ofList ms).toList, rest)
        | none => none
    | 0x5B :: rest =>
      match skipSpace rest with
      | 0x5D :: rest => some (.array [], rest)
      | rest =>
        match parseItems fuel rest with
        | some (vs, rest) => some (.array vs, rest)
        | none => none
    | 0x22 :: rest =>
      match parseString rest with
      | some (s, rest) => some (.string s, rest)
      | none => none
    | 0x2D :: rest => parseNumber true rest
    | 0x74 :: rest => literal [0x72, 0x75, 0x65] rest (.bool true)
    | 0x66 :: rest => literal [0x61, 0x6C, 0x73, 0x65] rest (.bool false)
    | 0x6E :: rest => literal [0x75, 0x6C, 0x6C] rest .null
    | b => parseNumber false b

/-- The members of an object up to its closing brace. -/
def parseMembers : Nat → Bytes → Option (List (String × Value) × Bytes)
  | 0, _ => none
  | fuel + 1, b =>
    match skipSpace b with
    | 0x22 :: rest =>
      match parseString rest with
      | none => none
      | some (name, rest) =>
        match skipSpace rest with
        | 0x3A :: rest =>
          match parseValue fuel rest with
          | none => none
          | some (v, rest) =>
            match skipSpace rest with
            | 0x7D :: rest => some ([(name, v)], rest)
            | 0x2C :: rest =>
              match parseMembers fuel rest with
              | some (ms, rest) => some ((name, v) :: ms, rest)
              | none => none
            | _ => none
        | _ => none
    | _ => none

/-- The items of an array up to its closing bracket. -/
def parseItems : Nat → Bytes → Option (List Value × Bytes)
  | 0, _ => none
  | fuel + 1, b =>
    match parseValue fuel b with
    | none => none
    | some (v, rest) =>
      match skipSpace rest with
      | 0x5D :: rest => some ([v], rest)
      | 0x2C :: rest =>
        match parseItems fuel rest with
        | some (vs, rest) => some (v :: vs, rest)
        | none => none
      | _ => none
end

/-- `serde_json::from_slice`: one value and nothing but white space after it. -/
def fromSlice (b : Bytes) : Except String Value :=
  match parseValue (b.length + 1) b with
  | some (v, rest) => if skipSpace rest = [] then .ok v else .error "trailing characters"
  | none => .error "invalid JSON"

/-! ## timestamps -/

/-- `OffsetDateTime::parse` with the RFC 3339 format. -/
def parseRfc3339 (s : String) : Option Int := Rfc3339.Fields.parse s

example : parseRfc3339 "2024-02-29T00:00:01Z" = some 1709164801000000000 := by decide +kernel

/-! ## the instance -/

/-- The third-party functions the fixed runs use. -/
scoped instance ext : Ext where
  fromSlice := fromSlice
  parseRfc3339 := parseRfc3339
  parseUuid := parseUuid
  fmtUuid := fmtUuid
  parseUuid_fmtUuid := parseUuid_fmtUuid
  crc32c := crc32c
  crc32c_nil := rfl
  walEntry := Proto.walEntryMsg.codec
  catalogSnapshot := Proto.catalogSnapshotMsg.codec
  raftEntry := Proto.entryMsg.codec
  raftMeta := Proto.raftMetaMsg.codec
  storedMembership := Proto.storedMembershipMsg.codec

instance lawfulDates : Rfc3339.LawfulDates where
  sound _ _ h := Rfc3339.Fields.parse_sound h
  complete := Rfc3339.Fields.parse_render

/-! ## identities of the fixed runs -/

/-- An identity. -/
def exampleUuid (n : Nat) : Uuid := ⟨BitVec.ofNat 128 n⟩

end Lumen.Reference
