/-!
# Lib.Codec

A byte codec with the one law its users rely on: decoding what was encoded
gives the value back.
-/

namespace Lib

/-- An encoder and a decoder that reads every encoding back. -/
structure Codec (α : Type) where
  encode : α → List UInt8
  decode : List UInt8 → Except String α
  decode_encode : ∀ a, decode (encode a) = .ok a

namespace Codec

attribute [simp] decode_encode

end Codec

end Lib
