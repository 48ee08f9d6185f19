import AccessControl.Text.Utf8

/-!
# Globs

Patterns over whole texts, matched byte by byte in UTF-8: `?` is one byte, `*` any bytes, `[…]` one
byte of a class, `{…,…}` a choice, and `**` as a whole name between slashes any names. `Glob.parse`
tells why a text is no pattern; `Glob.matches?` runs a pattern over the set of all ends of the text
that its tokens so far can have left.
-/

namespace AccessControl

inductive GlobError
  | unclosedClass
  | unclosedGroup
  | unopenedGroup
  | invalidRange (low high : Char)
  | danglingEscape
  deriving DecidableEq, Repr

def GlobError.message : GlobError → String
  | .unclosedClass => "unclosed character class; missing ']'"
  | .unclosedGroup => "unclosed alternate group; missing '\x7d' (maybe escape '\x7b' with '[\x7b]'?)"
  | .unopenedGroup => "unopened alternate group; missing '\x7b' (maybe escape '\x7d' with '[\x7d]'?)"
  | .invalidRange a b =>
    "invalid range; '" ++ String.singleton a ++ "' > '" ++ String.singleton b ++ "'"
  | .danglingEscape => "dangling '\\'"

namespace Glob

inductive Token
  | literal (c : Char)
  | one
  | many
  /-- Nothing, a slash, or anything that ends in a slash. -/
  | leading
  /-- A slash and anything after it. -/
  | trailing
  /-- A slash, or two with anything between them. -/
  | inner
  | oneOf (negated : Bool) (ranges : List (Char × Char))
  | choice (alternatives : List (List Token))

def bytesOf (c : Char) : List UInt8 := Text.bytes (String.singleton c)

def slash : UInt8 := 47

def ends : List UInt8 → List (List UInt8)
  | [] => [[]]
  | b :: bs => (b :: bs) :: ends bs

def behindSlashes : List UInt8 → List (List UInt8)
  | [] => []
  | b :: bs => if b = slash then bs :: behindSlashes bs else behindSlashes bs

/-- A byte is one of those that the bytes of a range's two characters name: the bytes of the first,
of which the last begins a range of bytes up to the first byte of the second, and its other bytes. -/
def inRange (b : UInt8) (r : Char × Char) : Bool :=
  if r.1 = r.2 then (bytesOf r.1).contains b
  else
    let low := bytesOf r.1
    let high := bytesOf r.2
    low.contains b || high.contains b || (low.getLastD 0 ≤ b && b ≤ high.headD 0)

def inClass (negated : Bool) (ranges : List (Char × Char)) (b : UInt8) : Bool :=
  ranges.any (inRange b) != negated

/-- The text without `p` at its front. -/
def strip (p : List UInt8) (s : List UInt8) : Option (List UInt8) :=
  if p.isPrefixOf s then some (s.drop p.length) else none

mutual

/-- Stands for the empty text alone and is left out of a choice. -/
def Token.isVoid : Token → Bool
  | .choice alternatives => allVoid alternatives
  | _ => false

def sequenceVoid : List Token → Bool
  | [] => true
  | t :: ts => t.isVoid && sequenceVoid ts

def allVoid : List (List Token) → Bool
  | [] => true
  | ts :: rest => sequenceVoid ts && allVoid rest

end

/-- A set of ends of one text, each once; ends of the same length are equal. -/
def dedup (l : List (List UInt8)) : List (List UInt8) :=
  let add (acc : List (Nat × List UInt8)) (s : List UInt8) : List (Nat × List UInt8) :=
    let n := s.length
    if acc.any (·.1 == n) then acc else (n, s) :: acc
  (l.foldl add []).map (·.2)

mutual

/-- What can be left of a text once a token has matched at its front. -/
def Token.rests : Token → List UInt8 → List (List UInt8)
  | .literal c, s => (strip (bytesOf c) s).toList
  | .one, s => match s with
    | [] => []
    | _ :: s => [s]
  | .many, s => ends s
  | .leading, s => match s with
    | [] => [[]]
    | _ :: _ => s :: behindSlashes s
  | .trailing, s => match s with
    | [] => []
    | b :: s => if b = slash then ends s else []
  | .inner, s => match s with
    | [] => []
    | b :: s => if b = slash then s :: behindSlashes s else []
  | .oneOf negated ranges, s => match s with
    | [] => []
    | b :: s => if inClass negated ranges b then [s] else []
  | .choice alternatives, s => if allVoid alternatives then [s] else choiceRests alternatives s

def choiceRests : List (List Token) → List UInt8 → List (List UInt8)
  | [], _ => []
  | ts :: rest, s =>
    (if sequenceVoid ts then [] else sequenceRests ts [s]) ++ choiceRests rest s

def sequenceRests : List Token → List (List UInt8) → List (List UInt8)
  | [], l => l
  | t :: ts, l => sequenceRests ts (dedup (l.flatMap t.rests))

end

end Glob

structure Glob where
  tokens : List Glob.Token

namespace Glob

def matches? (g : Glob) (s : String) : Bool :=
  match g.tokens with
  | [.leading] => true
  | ts => (sequenceRests ts [Text.bytes s]).any List.isEmpty

/-- A choice that is not closed yet: its complete alternatives, last first, and the tokens before it
in reverse. -/
structure OpenGroup where
  done : List (List Token)
  before : List Token

/-- How far a pattern is read: the tokens of the current alternative in reverse, the open choices
from the inside out, and the character read last. -/
structure ReadState where
  tokens : List Token
  groups : List OpenGroup
  last : Option Char

/-- The ranges of a class, from behind its `[` and `!`, and what follows the class. The ranges are
collected in reverse; `pending` says that a dash waits for the end of a range. -/
def readClass : Bool → Bool → List (Char × Char) → List Char →
    Except GlobError (List (Char × Char) × List Char)
  | _, _, _, [] => .error .unclosedClass
  | first, pending, ranges, c :: cs =>
    if c = ']' ∧ ¬first then
      .ok ((if pending then ('-', '-') :: ranges else ranges).reverse, cs)
    else if c = '-' ∧ ¬first ∧ ¬pending then readClass false true ranges cs
    else match pending, ranges with
      | true, (low, _) :: ranges =>
        if c < low then .error (.invalidRange low c)
        else readClass false false ((low, c) :: ranges) cs
      | _, ranges => readClass false false ((c, c) :: ranges) cs

def readClassToken : List Char → Except GlobError (Token × List Char)
  | c :: cs =>
    if c = '!' ∨ c = '^' then do
      let (ranges, r) ← readClass true false [] cs
      return (.oneOf true ranges, r)
    else do
      let (ranges, r) ← readClass true false [] (c :: cs)
      return (.oneOf false ranges, r)
  | [] => .error .unclosedClass

/-- Two stars, from behind the second one. They stand for whole names if a slash or an end of the
pattern or alternative is on either side, and then take the place of the slash before them. -/
def readDoubleStar (st : ReadState) (cs : List Char) : ReadState × List Char :=
  let stars : ReadState := { st with tokens := .many :: .many :: st.tokens, last := some '*' }
  let inGroup := !st.groups.isEmpty
  match st.tokens with
  | [] => match cs with
    | [] => ({ st with tokens := [.leading], last := none }, [])
    | '/' :: cs => ({ st with tokens := [.leading], last := some '/' }, cs)
    | cs => (stars, cs)
  | before :: rest =>
    let afterBreak := st.last == some '/' ||
      (inGroup && (st.last == some ',' || st.last == some '\x7b'))
    if !afterBreak then (stars, cs) else
    let place (t : Token) : List Token := match before with
      | .leading => .leading :: rest
      | .trailing => .trailing :: rest
      | _ => t :: rest
    match cs with
    | [] => ({ st with tokens := place .trailing, last := none }, [])
    | c :: cs =>
      if inGroup && (c == ',' || c == '\x7d') then
        ({ st with tokens := place .trailing, last := some '*' }, c :: cs)
      else if c == '/' then ({ st with tokens := place .inner, last := some '/' }, cs)
      else (stars, c :: cs)

/-- Reads a pattern; the first argument bounds the steps, of which there is at most one for each
character. -/
def readTokens : Nat → ReadState → List Char → Except GlobError (List Token)
  | _, st, [] => if st.groups.isEmpty then .ok st.tokens.reverse else .error .unclosedGroup
  | 0, _, _ :: _ => .ok []
  | n + 1, st, c :: cs =>
    let add (t : Token) : ReadState := { st with tokens := t :: st.tokens, last := some c }
    if c = '?' then readTokens n (add .one) cs
    else if c = '*' then match cs with
      | '*' :: cs =>
        let (st, cs) := readDoubleStar st cs
        readTokens n st cs
      | cs => readTokens n (add .many) cs
    else if c = '[' then do
      let (t, cs) ← readClassToken cs
      readTokens n { add t with last := some ']' } cs
    else if c = '\x7b' then
      readTokens n { tokens := [], groups := ⟨[], st.tokens⟩ :: st.groups, last := some c } cs
    else if c = '\x7d' then match st.groups with
      | [] => .error .unopenedGroup
      | g :: groups =>
        let t : Token := .choice ((st.tokens :: g.done).map List.reverse)
        readTokens n { tokens := t :: g.before, groups, last := some c } cs
    else if c = ',' then match st.groups with
      | [] => readTokens n (add (.literal c)) cs
      | g :: groups =>
        readTokens n
          { tokens := [], groups := { g with done := st.tokens :: g.done } :: groups,
            last := some c } cs
    else if c = '\\' then match cs with
      | [] => .error .danglingEscape
      | x :: cs => readTokens n { add (.literal x) with last := some x } cs
    else readTokens n (add (.literal c)) cs

def parse (s : String) : Except GlobError Glob :=
  (readTokens s.length ⟨[], [], none⟩ s.toList).map Glob.mk

end Glob

end AccessControl
