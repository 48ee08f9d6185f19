import AccessControl.Crypto.Sha2

/-!
# Keyed hashes

HMAC over a hash function with a given block size.
-/

namespace AccessControl

/-- A hash function and the size of its blocks in bytes. -/
structure HashFunction where
  blockSize : Nat
  hash : List UInt8 → List UInt8

namespace HashFunction

def sha256 : HashFunction := ⟨64, Sha2.sha256⟩
def sha384 : HashFunction := ⟨128, Sha2.sha384⟩
def sha512 : HashFunction := ⟨128, Sha2.sha512⟩

/-- The keyed hash of a message. A key longer than a block is hashed first. -/
def hmac (H : HashFunction) (key message : List UInt8) : List UInt8 :=
  let key := if H.blockSize < key.length then H.hash key else key
  let key := key ++ List.replicate (H.blockSize - key.length) 0
  H.hash (key.map (· ^^^ 0x5c) ++ H.hash (key.map (· ^^^ 0x36) ++ message))

end HashFunction

end AccessControl
