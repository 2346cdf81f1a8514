import Lumen.Lib.Codec
import Lumen.Proto
import Mathlib.Algebra.Group.Nat.Defs
import Mathlib.Data.Nat.Notation

/-!
# Lumen.Basic

What every layer of the core shares: errors, log marks, JSON values, and the
third-party functions the program calls (`Ext`).

Only the documented behaviour of those functions that the program relies on
is stated, as laws carried by the class; everything else about them is left
open.
-/

namespace Lumen

open Lib

abbrev Bytes := List UInt8

/-- A 128-bit collection identity. -/
structure Uuid where
  bits : BitVec 128
  deriving DecidableEq, Repr

/-! ## errors -/

inductive IoKind where
  | notFound
  | alreadyExists
  | directoryNotEmpty
  | unexpectedEof
  | other
  deriving DecidableEq, Repr

/-- `lumen_core::Error`, with a last case for a thread that panics. -/
inductive Error where
  | collectionNotFound (name : String)
  | schemaConflict (name : String)
  | mapping (msg : String)
  | validation (msg : String)
  | documentNotFound (id : String)
  | recovery (msg : String)
  | io (kind : IoKind)
  | tantivy (msg : String)
  | panicked (msg : String)
  deriving DecidableEq, Repr

/-- `{:?}` of a character inside a string: quotes, backslashes and control
characters are escaped. -/
def debugChar (c : Char) : String :=
  if c = '"' then "\\\""
  else if c = '\\' then "\\\\"
  else if c = '\n' then "\\n"
  else if c = '\r' then "\\r"
  else if c = '\t' then "\\t"
  else if c.toNat = 0 then "\\0"
  else if c.toNat < 32 ∨ c.toNat = 127 then
    "\\u\x7b" ++ String.ofList (Nat.toDigits 16 c.toNat) ++ "\x7d"
  else c.toString

/-- `{:?}` of a string. -/
def debugStr (s : String) : String :=
  "\"" ++ String.join (s.toList.map debugChar) ++ "\""

/-! ## log marks -/

/-- Log position a collection has committed, stored in the Tantivy commit
payload.  The single-node write path stores `0` for `term` and `node`. -/
structure LogMark where
  term : Nat := 0
  node : Nat := 0
  index : Nat := 0
  deriving DecidableEq, Repr, Inhabited

/-! ## JSON -/

/-- A `serde_json` number: an unsigned or a negative 64-bit integer, or a
float given by its bits. -/
inductive Number where
  | posInt (n : Nat)
  | negInt (n : Int)
  | float (bits : Nat)
  deriving DecidableEq, Repr

/-- A `serde_json` value; an object lists its members in key order. -/
inductive Value where
  | null
  | bool (b : Bool)
  | number (n : Number)
  | string (s : String)
  | array (items : List Value)
  | object (members : List (String × Value))

namespace Value

def asObject : Value → Option (List (String × Value))
  | object members => some members
  | _ => none

def asStr : Value → Option String
  | string s => some s
  | _ => none

def isString : Value → Bool
  | string _ => true
  | _ => false

def isNumber : Value → Bool
  | number _ => true
  | _ => false

/-- `as_i64`: integers between `i64::MIN` and `i64::MAX`. -/
def asI64 : Value → Option Int
  | number (.posInt n) => if n < 2 ^ 63 then some n else none
  | number (.negInt n) => some n
  | _ => none

def isI64 : Value → Bool
  | number (.posInt n) => n < 2 ^ 63
  | number (.negInt _) => true
  | _ => false

/-- `as_f64` accepts every number; the rounding to a double is left to the
number it is read from. -/
def asF64 : Value → Option Number
  | number n => some n
  | _ => none

theorem isSome_asI64 (v : Value) : v.asI64.isSome = v.isI64 := by
  cases v with
  | number n => cases n <;> simp [asI64, isI64] ; split <;> simp_all
  | _ => rfl

theorem isSome_asF64 (v : Value) : v.asF64.isSome = v.isNumber := by
  cases v <;> rfl

theorem isSome_asStr (v : Value) : v.asStr.isSome = v.isString := by
  cases v <;> rfl

end Value

/-! ## third-party code -/

/-- The third-party functions the core calls. -/
class Ext where
  /-- `serde_json::from_slice`. -/
  fromSlice : Bytes → Except String Value
  /-- `OffsetDateTime::parse(_, &Rfc3339)`, as nanoseconds since the epoch. -/
  parseRfc3339 : String → Option Int
  /-- `Uuid::parse_str`. -/
  parseUuid : String → Option Uuid
  /-- `Uuid::to_string`. -/
  fmtUuid : Uuid → String
  /-- A formatted uuid parses back. -/
  parseUuid_fmtUuid : ∀ u, parseUuid (fmtUuid u) = some u
  /-- `crc32c::crc32c`. -/
  crc32c : Bytes → UInt32
  /-- The checksum of no bytes is zero. -/
  crc32c_nil : crc32c [] = 0
  /-- `prost` on WAL entries. -/
  walEntry : Codec Proto.WalEntry
  /-- `prost` on `catalog.pb`. -/
  catalogSnapshot : Codec Proto.CatalogSnapshot
  /-- `prost` on Raft log entries. -/
  raftEntry : Codec Proto.Entry
  /-- `prost` on `raft-meta.pb`. -/
  raftMeta : Codec Proto.RaftMeta
  /-- `prost` on `membership.pb`. -/
  storedMembership : Codec Proto.StoredMembership

attribute [simp] Ext.parseUuid_fmtUuid

export Ext (fromSlice parseRfc3339 parseUuid fmtUuid crc32c)

end Lumen
