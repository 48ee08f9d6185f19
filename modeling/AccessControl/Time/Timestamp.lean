import AccessControl.Number.Digits
import AccessControl.Text.Blank
import AccessControl.Time.Calendar
import AccessControl.Time.Instant

/-!
# Timestamps

The text of a moment, as RFC 3339 has it: `write` prints universal time with the fewest of 0, 3, 6
or 9 digits of fraction that lose nothing; `read?` takes any offset, a blank instead of the `T`, and
years of more than four digits with a sign. Second 60 is a leap second.
-/

namespace AccessControl.Timestamp

open Digits (digit value digits?)

/-- At least `width` digits, with zeros in front. -/
def padded (width n : Nat) : String :=
  let ds := Nat.repr n
  String.ofList (List.replicate (width - ds.length) '0') ++ ds

/-- Four digits for the years 0 to 9999, otherwise a sign and at least four digits. -/
def year (y : Int) : String :=
  if 0 ≤ y ∧ y ≤ 9999 then padded 4 y.toNat
  else (if y < 0 then "-" else "+") ++ padded 4 y.natAbs

def fraction (nanos : Nat) : String :=
  if nanos = 0 then ""
  else if nanos % 1000000 = 0 then "." ++ padded 3 (nanos / 1000000)
  else if nanos % 1000 = 0 then "." ++ padded 6 (nanos / 1000)
  else "." ++ padded 9 nanos

def write (a : Instant) : String :=
  let date := Calendar.Date.ofDays (a.seconds / Instant.secondsPerDay)
  let second := a.secondOfDay.toNat
  let (leap, nanos) := if 1000000000 ≤ a.nanos then (1, a.nanos - 1000000000) else (0, a.nanos)
  year date.year ++ "-" ++ padded 2 date.month ++ "-" ++ padded 2 date.day ++ "T" ++
    padded 2 (second / 3600) ++ ":" ++ padded 2 (second / 60 % 60) ++ ":" ++
    padded 2 (second % 60 + leap) ++ fraction nanos ++ "Z"

/-- One to `width` digits, after blanks. -/
def number? (width : Nat) (cs : List Char) : Option (Nat × List Char) :=
  let cs := Text.trimStart cs
  let ds := (cs.take width).takeWhile Char.isDigit
  if ds.isEmpty then none else some (value ds, cs.drop ds.length)

def year? (cs : List Char) : Option (Int × List Char) :=
  match Text.trimStart cs with
  | '-' :: cs => (digits? cs).map fun (ds, r) => (-(value ds : Int), r)
  | '+' :: cs => (digits? cs).map fun (ds, r) => ((value ds : Int), r)
  | cs => (number? 4 cs).map fun (n, r) => ((n : Int), r)

/-- The character `c`, after blanks. -/
def literal? (c : Char) (cs : List Char) : Option (List Char) :=
  match Text.trimStart cs with
  | x :: r => if x = c then some r else none
  | [] => none

/-- A fraction in nanoseconds; digits beyond the ninth are dropped. -/
def fraction? : List Char → Option (Nat × List Char)
  | '.' :: cs => do
    let (ds, r) ← digits? cs
    let kept := ds.take 9
    return (value kept * Nat.pow 10 (9 - kept.length), r)
  | cs => some (0, cs)

def isSeparator (c : Char) : Bool := c == ':' || Text.isSpace c

/-- An offset from universal time in seconds: `Z`, `UTC` in any case, or a sign with hours and
minutes. -/
def offset? (cs : List Char) : Option (Int × List Char) :=
  match cs with
  | u :: t :: c :: r =>
    if u.toUpper = 'U' ∧ t.toUpper = 'T' ∧ c.toUpper = 'C' then some (0, r) else signed? cs
  | _ => signed? cs
where
  signed? : List Char → Option (Int × List Char)
    | [] => none
    | s :: r =>
      if s = 'Z' ∨ s = 'z' then some (0, r)
      else if s = '+' then hoursMinutes? 1 r
      else if s = '-' ∨ s = '\u2212' then hoursMinutes? (-1) r
      else none
  hoursMinutes? (sign : Int) : List Char → Option (Int × List Char)
    | h :: h' :: r =>
      if h.isDigit && h'.isDigit then
        match r.dropWhile isSeparator with
        | m :: m' :: r =>
          if m.isDigit && m'.isDigit && digit m < 6 then
            let seconds := (digit h * 10 + digit h') * 3600 + (digit m * 10 + digit m') * 60
            if seconds < 86400 then some (sign * (seconds : Int), r) else none
          else none
        | _ => none
      else none
    | _ => none

/-- The moment that a text stands for. -/
def read? (s : String) : Option Instant := do
  let (y, cs) ← year? s.toList
  let cs ← literal? '-' cs
  let (m, cs) ← number? 2 cs
  let cs ← literal? '-' cs
  let (d, cs) ← number? 2 cs
  let cs ← match cs with
    | c :: cs => if c = 'T' ∨ c = 't' ∨ c = ' ' then some cs else none
    | [] => none
  let (hour, cs) ← number? 2 cs
  let cs ← literal? ':' cs
  let (minute, cs) ← number? 2 cs
  let cs ← literal? ':' cs
  let (second, cs) ← number? 2 cs
  let (nanos, cs) ← fraction? cs
  let (offset, cs) ← offset? (Text.trimStart cs)
  let date : Calendar.Date := ⟨y, m, d⟩
  if (Text.trimStart cs).isEmpty && date.valid && hour ≤ 23 && minute ≤ 59 && second ≤ 60 then
    let (second, nanos) := if second = 60 then (59, nanos + 1000000000) else (second, nanos)
    let seconds := date.toDays * Instant.secondsPerDay +
      ((hour * 60 + minute) * 60 + second : Nat) - offset
    if Instant.minSeconds ≤ seconds ∧ seconds ≤ Instant.maxSeconds then some ⟨seconds, nanos⟩
    else none
  else none

end AccessControl.Timestamp
