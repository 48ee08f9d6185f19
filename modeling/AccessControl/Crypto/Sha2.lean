/-!
# The SHA-2 hash functions

SHA-256, SHA-384 and SHA-512 of a list of bytes. All three run the same rounds on words of 32 or 64
bits; the constants are fractional parts of roots of the first primes and are computed as such.
-/

namespace AccessControl.Sha2

/-- The greatest `r` below `2 ^ bits` with `r ^ k ≤ n`. -/
def root (k n : Nat) : Nat → Nat
  | 0 => 0
  | bits + 1 => go bits 0
where
  go : Nat → Nat → Nat
    | 0, r => if Nat.pow (r + 1) k ≤ n then r + 1 else r
    | i + 1, r =>
      let next := r + Nat.pow 2 (i + 1)
      go i (if Nat.pow next k ≤ n then next else r)

def isPrime (n : Nat) : Bool := 2 ≤ n && (List.range n).all fun d => d < 2 || n % d != 0

/-- The primes below 410, of which there are eighty. -/
def primes : List Nat := (List.range 410).filter isPrime

/-- The first 64 bits of the fractional part of the `k`-th root of `p`. -/
def rootBits (k p : Nat) : Nat := root k (p * Nat.pow 2 (64 * k)) 70 % Nat.pow 2 64

def cubeRootBits : List Nat := primes.map (rootBits 3)

def squareRootBits : List Nat := (primes.take 16).map (rootBits 2)

/-- The functions and constants of one word size. -/
structure Rounds (w : Nat) where
  constants : List (BitVec w)
  big0 : BitVec w → BitVec w
  big1 : BitVec w → BitVec w
  small0 : BitVec w → BitVec w
  small1 : BitVec w → BitVec w

def rounds32 : Rounds 32 where
  constants := (cubeRootBits.take 64).map fun n => BitVec.ofNat 32 (n / Nat.pow 2 32)
  big0 x := x.rotateRight 2 ^^^ x.rotateRight 13 ^^^ x.rotateRight 22
  big1 x := x.rotateRight 6 ^^^ x.rotateRight 11 ^^^ x.rotateRight 25
  small0 x := x.rotateRight 7 ^^^ x.rotateRight 18 ^^^ x >>> 3
  small1 x := x.rotateRight 17 ^^^ x.rotateRight 19 ^^^ x >>> 10

def rounds64 : Rounds 64 where
  constants := cubeRootBits.map (BitVec.ofNat 64)
  big0 x := x.rotateRight 28 ^^^ x.rotateRight 34 ^^^ x.rotateRight 39
  big1 x := x.rotateRight 14 ^^^ x.rotateRight 18 ^^^ x.rotateRight 41
  small0 x := x.rotateRight 1 ^^^ x.rotateRight 8 ^^^ x >>> 7
  small1 x := x.rotateRight 19 ^^^ x.rotateRight 61 ^^^ x >>> 6

structure Registers (w : Nat) where
  (a b c d e f g h : BitVec w)

def Registers.add {w : Nat} (r s : Registers w) : Registers w :=
  ⟨r.a + s.a, r.b + s.b, r.c + s.c, r.d + s.d, r.e + s.e, r.f + s.f, r.g + s.g, r.h + s.h⟩

def Registers.ofList {w : Nat} : List (BitVec w) → Registers w
  | a :: b :: c :: d :: e :: f :: g :: h :: _ => ⟨a, b, c, d, e, f, g, h⟩
  | _ => ⟨0, 0, 0, 0, 0, 0, 0, 0⟩

def Registers.toList {w : Nat} (r : Registers w) : List (BitVec w) :=
  [r.a, r.b, r.c, r.d, r.e, r.f, r.g, r.h]

/-- One round with the schedule word `x` and the constant `k`. -/
def Rounds.step {w : Nat} (R : Rounds w) (r : Registers w) (x k : BitVec w) : Registers w :=
  let choice := (r.e &&& r.f) ^^^ (~~~r.e &&& r.g)
  let majority := (r.a &&& r.b) ^^^ (r.a &&& r.c) ^^^ (r.b &&& r.c)
  let t := r.h + R.big1 r.e + choice + k + x
  ⟨t + (R.big0 r.a + majority), r.a, r.b, r.c, r.d + t, r.e, r.f, r.g⟩

/-- All rounds over a window of sixteen schedule words; each round takes the first word and adds
the one that is sixteen places later. -/
def Rounds.run {w : Nat} (R : Rounds w) :
    List (BitVec w) → Registers w → List (BitVec w) → Registers w
  | [], r, _ => r
  | k :: ks, r, window =>
    let x := window.headD 0
    let next := R.small1 (window.getD 14 0) + window.getD 9 0 + R.small0 (window.getD 1 0) + x
    R.run ks (R.step r x k) (window.drop 1 ++ [next])

/-- The number that bytes stand for, the most significant first. -/
def ofBytes (bs : List UInt8) : Nat := bs.foldl (fun n b => n * 256 + b.toNat) 0

def toBytes : Nat → Nat → List UInt8
  | 0, _ => []
  | count + 1, n => UInt8.ofNat (n / Nat.pow 256 count % 256) :: toBytes count n

def chunks {α : Type} (n : Nat) (l : List α) : List (List α) :=
  (List.range (l.length / n)).map fun i => (l.drop (i * n)).take n

/-- The message with a one bit, zeros and its length in bits, in whole blocks of sixteen words. -/
def pad (w : Nat) (m : List UInt8) : List UInt8 :=
  let block := 2 * w
  let zeros := (block - (m.length + 1 + w / 4) % block) % block
  m ++ 0x80 :: List.replicate zeros 0 ++ toBytes (w / 4) (8 * m.length)

/-- The hash of a message, started from the given registers. -/
def Rounds.hash {w : Nat} (R : Rounds w) (start : Registers w) (m : List UInt8) : List UInt8 :=
  let block (r : Registers w) (bs : List UInt8) : Registers w :=
    let words := (chunks (w / 8) bs).map fun b => BitVec.ofNat w (ofBytes b)
    (R.run R.constants r words).add r
  ((chunks (2 * w) (pad w m)).foldl block start).toList.flatMap fun x => toBytes (w / 8) x.toNat

def start256 : Registers 32 :=
  .ofList ((squareRootBits.take 8).map fun n => BitVec.ofNat 32 (n / Nat.pow 2 32))
def start512 : Registers 64 := .ofList ((squareRootBits.take 8).map (BitVec.ofNat 64))
def start384 : Registers 64 := .ofList ((squareRootBits.drop 8).map (BitVec.ofNat 64))

def sha256 (m : List UInt8) : List UInt8 := rounds32.hash start256 m
def sha384 (m : List UInt8) : List UInt8 := (rounds64.hash start384 m).take 48
def sha512 (m : List UInt8) : List UInt8 := rounds64.hash start512 m

/-- Two lower-case hexadecimal digits a byte. -/
def hex (bs : List UInt8) : String :=
  String.ofList (bs.flatMap fun b => [Nat.digitChar (b.toNat / 16), Nat.digitChar (b.toNat % 16)])

end AccessControl.Sha2
