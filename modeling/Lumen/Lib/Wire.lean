import Lumen.Lib.Codec
import Mathlib.Algebra.Group.Nat.Defs

/-!
# Lib.Wire

The protobuf wire format: base-128 varints, tagged fields that hold a varint
or a length-delimited run of bytes, and messages as lists of fields.

`getFields_putFields` reads a written field list back.  The accessors (`nat`,
`blob`, `blob?`, `blobs`) look fields up by number, the last one winning, and
the writers leave out what proto3 leaves out; a message's codec is a
composition of the two, and its round trip follows from the lookup lemmas,
which are `simp` lemmas for that purpose.
-/

namespace Lib.Wire

/-! ## varints -/

/-- Seven bits a byte, the low ones first, the high bit set on all but the
last; `fuel` bounds the number of further bytes. -/
def putVarintAux : Nat → Nat → List UInt8
  | 0, n => [UInt8.ofNat n]
  | fuel + 1, n =>
    if n < 128 then [UInt8.ofNat n]
    else UInt8.ofNat (n % 128 + 128) :: putVarintAux fuel (n / 128)

def putVarint (n : Nat) : List UInt8 := putVarintAux n n

def getVarint : List UInt8 → Option (Nat × List UInt8)
  | [] => none
  | b :: rest =>
    if b.toNat < 128 then some (b.toNat, rest)
    else
      match getVarint rest with
      | none => none
      | some (n, rest) => some (b.toNat - 128 + 128 * n, rest)

theorem getVarint_putVarintAux {fuel n : Nat} (h : n ≤ fuel) (rest : List UInt8) :
    getVarint (putVarintAux fuel n ++ rest) = some (n, rest) := by
  induction fuel generalizing n with
  | zero =>
    have hn : n = 0 := by omega
    subst hn
    rfl
  | succ fuel ih =>
    rw [putVarintAux]
    split
    · have hb : (UInt8.ofNat n).toNat = n := by rw [UInt8.toNat_ofNat']; omega
      rw [List.singleton_append, getVarint, hb, if_pos (by assumption)]
    · have hb : (UInt8.ofNat (n % 128 + 128)).toNat = n % 128 + 128 := by
        rw [UInt8.toNat_ofNat']
        omega
      rw [List.cons_append, getVarint, hb, if_neg (by omega), ih (by omega)]
      have hn : n % 128 + 128 - 128 + 128 * (n / 128) = n := by omega
      show some (n % 128 + 128 - 128 + 128 * (n / 128), rest) = _
      rw [hn]

@[simp] theorem getVarint_putVarint (n : Nat) (rest : List UInt8) :
    getVarint (putVarint n ++ rest) = some (n, rest) :=
  getVarint_putVarintAux (Nat.le_refl n) rest

theorem putVarint_ne_nil (n : Nat) : putVarint n ≠ [] := by
  rw [putVarint]
  cases n with
  | zero => simp [putVarintAux]
  | succ n =>
    rw [putVarintAux]
    split <;> simp

theorem length_putVarintAux_le {fuel n k : Nat} (h : n < 128 ^ (k + 1)) :
    (putVarintAux fuel n).length ≤ k + 1 := by
  induction fuel generalizing n k with
  | zero => exact Nat.le_add_left 1 k
  | succ fuel ih =>
    rw [putVarintAux]
    split
    · exact Nat.le_add_left 1 k
    · cases k with
      | zero => omega
      | succ k =>
        have hdiv : n / 128 < 128 ^ (k + 1) :=
          Nat.div_lt_of_lt_mul (by rw [Nat.mul_comm, ← Nat.pow_succ]; exact h)
        exact Nat.succ_le_succ (ih hdiv)

/-- A number below `128 ^ (k + 1)` takes no more than `k + 1` bytes. -/
theorem length_putVarint_le {n k : Nat} (h : n < 128 ^ (k + 1)) : (putVarint n).length ≤ k + 1 :=
  length_putVarintAux_le h

/-! ## fields -/

inductive Val where
  | varint (n : Nat)
  | bytes (b : List UInt8)

structure Field where
  num : Nat
  val : Val

def putField (f : Field) : List UInt8 :=
  match f.val with
  | .varint n => putVarint (8 * f.num) ++ putVarint n
  | .bytes b => putVarint (8 * f.num + 2) ++ (putVarint b.length ++ b)

def putFields (fs : List Field) : List UInt8 := fs.flatMap putField

/-- Read fields to the end of the input; every field takes a byte, so `fuel`
bounds the rounds. -/
def getFields : Nat → List UInt8 → Option (List Field)
  | _, [] => some []
  | 0, _ :: _ => none
  | fuel + 1, b :: bs =>
    match getVarint (b :: bs) with
    | none => none
    | some (tag, rest) =>
      if tag % 8 = 0 then
        match getVarint rest with
        | none => none
        | some (n, rest) => (getFields fuel rest).map (⟨tag / 8, .varint n⟩ :: ·)
      else if tag % 8 = 2 then
        match getVarint rest with
        | none => none
        | some (len, rest) =>
          if rest.length < len then none
          else (getFields fuel (rest.drop len)).map (⟨tag / 8, .bytes (rest.take len)⟩ :: ·)
      else none

theorem getFields_putField (f : Field) (fuel : Nat) (rest : List UInt8) :
    getFields (fuel + 1) (putField f ++ rest) = (getFields fuel rest).map (f :: ·) := by
  have hcons : ∀ {a b : List UInt8}, a ≠ [] → ∃ x xs, a ++ b = x :: xs := by
    intro a b ha
    cases a with
    | nil => exact absurd rfl ha
    | cons x xs => exact ⟨x, xs ++ b, rfl⟩
  obtain ⟨num, val⟩ := f
  cases val with
  | varint n =>
    have happ : putField ⟨num, .varint n⟩ ++ rest =
        putVarint (8 * num) ++ (putVarint n ++ rest) := by simp [putField]
    have htag : 8 * num % 8 = 0 ∧ 8 * num / 8 = num := by omega
    obtain ⟨x, xs, hx⟩ := hcons (b := putVarint n ++ rest) (putVarint_ne_nil (8 * num))
    rw [happ, hx, getFields, ← hx, getVarint_putVarint]
    simp only [htag, if_true, getVarint_putVarint]
  | bytes b =>
    have happ : putField ⟨num, .bytes b⟩ ++ rest =
        putVarint (8 * num + 2) ++ (putVarint b.length ++ (b ++ rest)) := by simp [putField]
    have htag : (8 * num + 2) % 8 = 2 ∧ (8 * num + 2) / 8 = num := by omega
    obtain ⟨x, xs, hx⟩ := hcons (b := putVarint b.length ++ (b ++ rest))
      (putVarint_ne_nil (8 * num + 2))
    rw [happ, hx, getFields, ← hx, getVarint_putVarint]
    simp only [htag, if_neg (by decide : ¬ (2 = 0)), if_true, getVarint_putVarint]
    rw [if_neg (by simp), List.drop_left, List.take_left]

theorem getFields_putFields_aux {fs : List Field} {fuel : Nat} (h : fs.length ≤ fuel) :
    getFields fuel (putFields fs) = some fs := by
  induction fs generalizing fuel with
  | nil => cases fuel <;> rfl
  | cons f fs ih =>
    cases fuel with
    | zero => simp at h
    | succ fuel =>
      rw [List.length_cons] at h
      rw [putFields, List.flatMap_cons, getFields_putField]
      show (getFields fuel (putFields fs)).map _ = _
      rw [ih (by omega)]
      rfl

theorem length_le_length_putFields (fs : List Field) : fs.length ≤ (putFields fs).length := by
  induction fs with
  | nil => simp
  | cons f fs ih =>
    have hpos : 0 < (putField f).length := by
      have hv := fun n => List.length_pos_iff.mpr (putVarint_ne_nil n)
      rw [putField]
      split
      · rw [List.length_append]
        have := hv (8 * f.num)
        omega
      · rw [List.length_append]
        have := hv (8 * f.num + 2)
        omega
    rw [putFields, List.flatMap_cons, List.length_append, List.length_cons]
    show _ ≤ _ + (putFields fs).length
    omega

/-- A length-delimited field is no longer than the fields it stands among. -/
theorem length_le_length_putFields_of_mem {num : Nat} {b : List UInt8} {fs : List Field}
    (h : ⟨num, .bytes b⟩ ∈ fs) : b.length ≤ (putFields fs).length := by
  obtain ⟨fs₁, fs₂, rfl⟩ := List.append_of_mem h
  rw [putFields, List.flatMap_append, List.flatMap_cons, putField]
  simp only [List.length_append]
  omega

/-- What a length-delimited field takes beside its bytes. -/
theorem length_putField_le {num j k : Nat} {b : List UInt8} (hnum : 8 * num + 2 < 128 ^ (j + 1))
    (hb : b.length < 128 ^ (k + 1)) :
    (putField ⟨num, .bytes b⟩).length ≤ (j + 1) + (k + 1) + b.length := by
  have h₁ := length_putVarint_le hnum
  have h₂ := length_putVarint_le hb
  simp only [putField, List.length_append]
  omega

/-- Read a whole message. -/
def parse (b : List UInt8) : Option (List Field) := getFields b.length b

@[simp] theorem parse_putFields (fs : List Field) : parse (putFields fs) = some fs :=
  getFields_putFields_aux (length_le_length_putFields fs)

/-! ## looking fields up -/

/-- The values of the fields numbered `num`, in order. -/
def vals (num : Nat) (fs : List Field) : List Val :=
  fs.filterMap fun f => if f.num = num then some f.val else none

@[simp] theorem vals_nil (num : Nat) : vals num [] = [] := rfl

@[simp] theorem vals_append (num : Nat) (fs gs : List Field) :
    vals num (fs ++ gs) = vals num fs ++ vals num gs := List.filterMap_append

def Val.blob? : Val → Option (List UInt8)
  | .bytes b => some b
  | .varint _ => none

def lastNat (vs : List Val) : Nat :=
  match vs.getLast? with
  | some (.varint n) => n
  | _ => 0

def lastBlob? (vs : List Val) : Option (List UInt8) := vs.getLast?.bind Val.blob?

def allBlobs (vs : List Val) : List (List UInt8) := vs.filterMap Val.blob?

/-- A scalar field; absent is zero. -/
def nat (num : Nat) (fs : List Field) : Nat := lastNat (vals num fs)

/-- A sub-message field. -/
def blob? (num : Nat) (fs : List Field) : Option (List UInt8) := lastBlob? (vals num fs)

/-- A bytes field; absent is empty. -/
def blob (num : Nat) (fs : List Field) : List UInt8 := (lastBlob? (vals num fs)).getD []

/-- A repeated field of sub-messages. -/
def blobs (num : Nat) (fs : List Field) : List (List UInt8) := allBlobs (vals num fs)

/-! ## writing fields -/

/-- The values proto3 writes for a scalar, a run of bytes, an optional and a
repeated sub-message. -/
def natVals (n : Nat) : List Val := if n = 0 then [] else [.varint n]
def blobVals (b : List UInt8) : List Val := if b = [] then [] else [.bytes b]
def optVals (b : Option (List UInt8)) : List Val := b.toList.map .bytes
def manyVals (bs : List (List UInt8)) : List Val := bs.map .bytes

def fieldsOf (num : Nat) (vs : List Val) : List Field := vs.map fun v => ⟨num, v⟩

def natField (num n : Nat) : List Field := fieldsOf num (natVals n)
def blobField (num : Nat) (b : List UInt8) : List Field := fieldsOf num (blobVals b)
def optField (num : Nat) (b : Option (List UInt8)) : List Field := fieldsOf num (optVals b)
def blobsField (num : Nat) (bs : List (List UInt8)) : List Field := fieldsOf num (manyVals bs)

theorem mem_optField (num : Nat) (b : List UInt8) : ⟨num, .bytes b⟩ ∈ optField num (some b) :=
  List.mem_cons_self

theorem mem_blobField (num : Nat) {b : List UInt8} (h : b ≠ []) :
    ⟨num, .bytes b⟩ ∈ blobField num b := by
  rw [blobField, blobVals, if_neg h]
  exact List.mem_cons_self

theorem vals_fieldsOf (k num : Nat) (vs : List Val) :
    vals k (fieldsOf num vs) = if num = k then vs else [] := by
  induction vs with
  | nil => by_cases h : num = k <;> simp [fieldsOf, vals]
  | cons v vs ih =>
    have hcons : fieldsOf num (v :: vs) = [⟨num, v⟩] ++ fieldsOf num vs := rfl
    rw [hcons, vals_append, ih]
    by_cases h : num = k <;> simp [vals, h]

@[simp] theorem vals_natField (k num n : Nat) :
    vals k (natField num n) = if num = k then natVals n else [] := vals_fieldsOf k num _

@[simp] theorem vals_blobField (k num : Nat) (b : List UInt8) :
    vals k (blobField num b) = if num = k then blobVals b else [] := vals_fieldsOf k num _

@[simp] theorem vals_optField (k num : Nat) (b : Option (List UInt8)) :
    vals k (optField num b) = if num = k then optVals b else [] := vals_fieldsOf k num _

@[simp] theorem vals_blobsField (k num : Nat) (bs : List (List UInt8)) :
    vals k (blobsField num bs) = if num = k then manyVals bs else [] := vals_fieldsOf k num _

@[simp] theorem lastNat_natVals (n : Nat) : lastNat (natVals n) = n := by
  by_cases hn : n = 0 <;> simp [lastNat, natVals, hn]

@[simp] theorem lastBlob?_blobVals (b : List UInt8) : (lastBlob? (blobVals b)).getD [] = b := by
  by_cases hb : b = [] <;> simp [lastBlob?, blobVals, Val.blob?, hb]

@[simp] theorem lastBlob?_optVals (b : Option (List UInt8)) : lastBlob? (optVals b) = b := by
  cases b <;> rfl

@[simp] theorem lastBlob?_nil : lastBlob? [] = none := rfl

@[simp] theorem allBlobs_manyVals (bs : List (List UInt8)) : allBlobs (manyVals bs) = bs := by
  induction bs with
  | nil => rfl
  | cons b bs ih =>
    show b :: allBlobs (manyVals bs) = b :: bs
    rw [ih]

/-! ## repeated scalars -/

/-- A packed run of varints. -/
def putNats (ns : List Nat) : List UInt8 := ns.flatMap putVarint

def getNats : Nat → List UInt8 → Option (List Nat)
  | _, [] => some []
  | 0, _ :: _ => none
  | fuel + 1, b :: bs =>
    match getVarint (b :: bs) with
    | none => none
    | some (n, rest) => (getNats fuel rest).map (n :: ·)

theorem getNats_putNats_aux {ns : List Nat} {fuel : Nat} (h : ns.length ≤ fuel) :
    getNats fuel (putNats ns) = some ns := by
  induction ns generalizing fuel with
  | nil => cases fuel <;> rfl
  | cons n ns ih =>
    cases fuel with
    | zero => simp at h
    | succ fuel =>
      rw [List.length_cons] at h
      show getNats (fuel + 1) (putVarint n ++ putNats ns) = _
      cases hv : putVarint n with
      | nil => exact absurd hv (putVarint_ne_nil n)
      | cons b bs =>
        have hget := getVarint_putVarint n (putNats ns)
        rw [hv] at hget
        rw [List.cons_append, getNats, ← List.cons_append, hget]
        simp only [ih (show ns.length ≤ fuel by omega), Option.map_some]

theorem length_le_length_putNats (ns : List Nat) : ns.length ≤ (putNats ns).length := by
  induction ns with
  | nil => simp
  | cons n ns ih =>
    have hpos := List.length_pos_iff.mpr (putVarint_ne_nil n)
    rw [putNats, List.flatMap_cons, List.length_append, List.length_cons]
    show _ ≤ _ + (putNats ns).length
    omega

@[simp] theorem getNats_putNats (ns : List Nat) :
    getNats (putNats ns).length (putNats ns) = some ns :=
  getNats_putNats_aux (length_le_length_putNats ns)

/-! ## strings -/

/-- UTF-8. -/
def putString (s : String) : List UInt8 := s.toList.flatMap String.utf8EncodeChar

/-- Read UTF-8 characters to the end of the input. -/
def getChars : List UInt8 → Option (List Char)
  | [] => some []
  | a :: rest =>
    if a.toNat < 128 then (getChars rest).map (Char.ofNat a.toNat :: ·)
    else
      match rest with
      | [] => none
      | b :: rest =>
        if a.toNat < 224 then
          (getChars rest).map
            (Char.ofNat ((a.toNat - 192) * 64 + (b.toNat - 128)) :: ·)
        else
          match rest with
          | [] => none
          | c :: rest =>
            if a.toNat < 240 then
              (getChars rest).map (Char.ofNat
                ((a.toNat - 224) * 4096 + (b.toNat - 128) * 64 + (c.toNat - 128)) :: ·)
            else
              match rest with
              | [] => none
              | d :: rest =>
                (getChars rest).map (Char.ofNat ((a.toNat - 240) * 262144 +
                  (b.toNat - 128) * 4096 + (c.toNat - 128) * 64 + (d.toNat - 128)) :: ·)

theorem getChars_utf8EncodeChar (c : Char) (rest : List UInt8) :
    getChars (String.utf8EncodeChar c ++ rest) = (getChars rest).map (c :: ·) := by
  have hmax : c.val.toNat < 1114112 := by
    rcases c.valid with h | h
    · exact Nat.lt_trans h (by decide)
    · exact h.2
  have hof : ∀ {n : Nat}, n = c.val.toNat → Char.ofNat n = c := by
    intro n hn
    rw [hn]
    exact Char.ofNat_toNat c
  have hb : ∀ {n : Nat}, n < 256 → (UInt8.ofNat n).toNat = n := by
    intro n hn
    rw [UInt8.toNat_ofNat']
    omega
  rw [String.utf8EncodeChar]
  generalize c.val.toNat = v at hmax hof
  split
  · rw [List.singleton_append, getChars.eq_def]
    simp only [hb (show v < 256 by omega)]
    rw [if_pos (by omega), hof rfl]
  · split
    · rw [List.cons_append, List.singleton_append, getChars.eq_def]
      simp only [hb (show v / 64 % 32 + 192 < 256 by omega), hb (show v % 64 + 128 < 256 by omega)]
      rw [if_neg (by omega), if_pos (by omega), hof (by omega)]
    · split
      · rw [List.cons_append, List.cons_append, List.singleton_append, getChars.eq_def]
        simp only [hb (show v / 4096 % 16 + 224 < 256 by omega),
          hb (show v / 64 % 64 + 128 < 256 by omega), hb (show v % 64 + 128 < 256 by omega)]
        rw [if_neg (by omega), if_neg (by omega), if_pos (by omega), hof (by omega)]
      · rw [List.cons_append, List.cons_append, List.cons_append, List.singleton_append,
          getChars.eq_def]
        simp only [hb (show v / 262144 % 8 + 240 < 256 by omega),
          hb (show v / 4096 % 64 + 128 < 256 by omega),
          hb (show v / 64 % 64 + 128 < 256 by omega), hb (show v % 64 + 128 < 256 by omega)]
        rw [if_neg (by omega), if_neg (by omega), if_neg (by omega), hof (by omega)]

def getString (b : List UInt8) : Option String := (getChars b).map String.ofList

@[simp] theorem getString_putString (s : String) : getString (putString s) = some s := by
  have hchars : ∀ l : List Char, getChars (l.flatMap String.utf8EncodeChar) = some l := by
    intro l
    induction l with
    | nil => rfl
    | cons c l ih => rw [List.flatMap_cons, getChars_utf8EncodeChar, ih]; rfl
  rw [getString, putString, hchars, Option.map_some, String.ofList_toList]

/-! ## messages -/

/-- How a message type is written as fields and read from them. -/
structure Msg (α : Type) where
  put : α → List Field
  get : List Field → Option α
  get_put : ∀ a, get (put a) = some a

attribute [simp] Msg.get_put

namespace Msg

variable {α : Type}

def bytes (c : Msg α) (a : α) : List UInt8 := putFields (c.put a)

def read (c : Msg α) (b : List UInt8) : Option α := (parse b).bind c.get

@[simp] theorem read_bytes (c : Msg α) (a : α) : c.read (c.bytes a) = some a := by
  simp [read, bytes]

/-- A length-delimited field is no longer than its message. -/
theorem length_le_length_bytes (c : Msg α) {a : α} {num : Nat} {b : List UInt8}
    (h : ⟨num, .bytes b⟩ ∈ c.put a) : b.length ≤ (c.bytes a).length :=
  length_le_length_putFields_of_mem h

/-- The message as a byte codec. -/
def codec (c : Msg α) : Codec α where
  encode := c.bytes
  decode b :=
    match c.read b with
    | some a => .ok a
    | none => .error "failed to decode Protobuf message"
  decode_encode a := by simp

/-- An optional sub-message. -/
def readOpt (c : Msg α) (b : Option (List UInt8)) : Option (Option α) :=
  match b with
  | none => some none
  | some b => (c.read b).map some

@[simp] theorem readOpt_map (c : Msg α) (o : Option α) : c.readOpt (o.map c.bytes) = some o := by
  cases o <;> simp [readOpt]

/-- Repeated sub-messages. -/
def readAll (c : Msg α) : List (List UInt8) → Option (List α)
  | [] => some []
  | b :: bs =>
    match c.read b, c.readAll bs with
    | some a, some as => some (a :: as)
    | _, _ => none

@[simp] theorem readAll_map (c : Msg α) (l : List α) : c.readAll (l.map c.bytes) = some l := by
  induction l with
  | nil => rfl
  | cons a l ih => simp [readAll, ih]

end Msg

end Lib.Wire
