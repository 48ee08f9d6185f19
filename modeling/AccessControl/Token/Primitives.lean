import AccessControl.Crypto.Hmac
import AccessControl.Id
import AccessControl.Text.Utf8
import AccessControl.Token.Settings

/-!
# Primitives of the token formats

The keyed hash that signs a token and the digest that turns an opaque value into an identifier, as
parameters of everything that uses them, and the opaque values themselves.
-/

namespace AccessControl

structure Primitives where
  mac : SigningAlgorithm → (key message : List UInt8) → List UInt8
  digest : List UInt8 → String

def SigningAlgorithm.hash : SigningAlgorithm → HashFunction
  | .hs256 => .sha256
  | .hs384 => .sha384
  | .hs512 => .sha512

/-- HMAC under the named hash, and SHA-256 in hexadecimal digits. -/
def Primitives.standard : Primitives where
  mac a key message := a.hash.hmac key message
  digest bs := Sha2.hex (Sha2.sha256 bs)

namespace OpaqueValue

def size : Nat := 64

/-- The right number of letters and digits. -/
def isWellFormed (value : String) : Bool :=
  value.toList.length == size && value.toList.all Char.isAlphanum

def id (p : Primitives) (value : String) : TokenId := ⟨p.digest (Text.bytes value)⟩

end OpaqueValue

end AccessControl
