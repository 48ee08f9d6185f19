/-!
# Bytes in the URL-safe base64 alphabet

Six bits a character, without padding. `decode?` takes exactly what `encode` writes: bits that are
left over must be zero, and every other character is refused.
-/

namespace AccessControl.Base64Url

/-- The character for a six-bit number. -/
def letter (n : Nat) : Char :=
  if n < 26 then Char.ofNat ('A'.toNat + n)
  else if n < 52 then Char.ofNat ('a'.toNat + (n - 26))
  else if n < 62 then Char.ofNat ('0'.toNat + (n - 52))
  else if n = 62 then '-'
  else '_'

def value? (c : Char) : Option Nat :=
  if 'A' ≤ c ∧ c ≤ 'Z' then some (c.toNat - 'A'.toNat)
  else if 'a' ≤ c ∧ c ≤ 'z' then some (c.toNat - 'a'.toNat + 26)
  else if '0' ≤ c ∧ c ≤ '9' then some (c.toNat - '0'.toNat + 52)
  else if c = '-' then some 62
  else if c = '_' then some 63
  else none

def encode : List UInt8 → List Char
  | a :: b :: c :: bs =>
    let n := a.toNat * 65536 + b.toNat * 256 + c.toNat
    letter (n / 262144) :: letter (n / 4096 % 64) :: letter (n / 64 % 64) :: letter (n % 64) ::
      encode bs
  | [a, b] =>
    let n := a.toNat * 1024 + b.toNat * 4
    [letter (n / 4096), letter (n / 64 % 64), letter (n % 64)]
  | [a] =>
    let n := a.toNat * 16
    [letter (n / 64), letter (n % 64)]
  | [] => []

def decode? : List Char → Option (List UInt8)
  | a :: b :: c :: d :: cs => do
    let a ← value? a
    let b ← value? b
    let c ← value? c
    let d ← value? d
    let n := a * 262144 + b * 4096 + c * 64 + d
    let bs ← decode? cs
    return UInt8.ofNat (n / 65536) :: UInt8.ofNat (n / 256 % 256) :: UInt8.ofNat (n % 256) :: bs
  | [a, b, c] => do
    let a ← value? a
    let b ← value? b
    let c ← value? c
    let n := a * 4096 + b * 64 + c
    if n % 4 = 0 then return [UInt8.ofNat (n / 1024), UInt8.ofNat (n / 4 % 256)] else none
  | [a, b] => do
    let a ← value? a
    let b ← value? b
    let n := a * 64 + b
    if n % 16 = 0 then return [UInt8.ofNat (n / 16)] else none
  | [_] => none
  | [] => some []

theorem value?_letter : ∀ n < 64, value? (letter n) = some n := by decide

theorem decode?_encode (bs : List UInt8) : decode? (encode bs) = some bs := by
  have cut (x : UInt8) {m : Nat} (h : m = x.toNat) : UInt8.ofNat m = x := by simp [h]
  fun_induction encode bs with
  | case1 a b c bs n ih =>
    have ha := a.toNat_lt; have hb := b.toNat_lt; have hc := c.toNat_lt
    have hn : n = a.toNat * 65536 + b.toNat * 256 + c.toNat := rfl
    simp only [decode?, value?_letter (n / 262144) (by omega),
      value?_letter (n / 4096 % 64) (by omega), value?_letter (n / 64 % 64) (by omega),
      value?_letter (n % 64) (by omega), ih, Option.bind_eq_bind, Option.bind_some,
      Option.pure_def, Option.some.injEq, List.cons.injEq]
    exact ⟨cut a (by omega), cut b (by omega), cut c (by omega), trivial⟩
  | case2 a b n =>
    have ha := a.toNat_lt; have hb := b.toNat_lt
    have hn : n = a.toNat * 1024 + b.toNat * 4 := rfl
    simp only [decode?, value?_letter (n / 4096) (by omega),
      value?_letter (n / 64 % 64) (by omega), value?_letter (n % 64) (by omega),
      Option.bind_eq_bind, Option.bind_some, Option.pure_def]
    rw [if_pos (by omega)]
    simp only [Option.some.injEq, List.cons.injEq, and_true]
    exact ⟨cut a (by omega), cut b (by omega)⟩
  | case3 a n =>
    have ha := a.toNat_lt
    have hn : n = a.toNat * 16 := rfl
    simp only [decode?, value?_letter (n / 64) (by omega), value?_letter (n % 64) (by omega),
      Option.bind_eq_bind, Option.bind_some, Option.pure_def]
    rw [if_pos (by omega)]
    simp only [Option.some.injEq, List.cons.injEq, and_true]
    exact cut a (by omega)
  | case4 => rfl

end AccessControl.Base64Url
