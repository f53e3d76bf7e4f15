import Interleaving.Json.Value

/-!
# Reading JSON text

The grammar is the strict one: no comments, no superfluous commas, no leading zeros, no control
characters inside strings, and nothing but blanks after the value. There is no limit on nesting.
-/

namespace Interleaving
namespace Json

/-- The blanks of JSON. -/
def isBlank (c : Char) : Bool := c == ' ' || c == '\t' || c == '\n' || c == '\r'

/-- The text after its leading blanks. -/
def skipBlanks (cs : List Char) : List Char := cs.dropWhile isBlank

/-! ## Strings -/

/-- The value of a hexadecimal digit of either case. -/
def hexDigit? (c : Char) : Option Nat :=
  if '0' ≤ c ∧ c ≤ '9' then some (c.toNat - '0'.toNat)
  else if 'a' ≤ c ∧ c ≤ 'f' then some (c.toNat - 'a'.toNat + 10)
  else if 'A' ≤ c ∧ c ≤ 'F' then some (c.toNat - 'A'.toNat + 10)
  else none

/-- The number of four hexadecimal digits. -/
def hex4? (a b c d : Char) : Option Nat :=
  [a, b, c, d].foldlM (fun n digit => (hexDigit? digit).map (n * 16 + ·)) 0

/-- The character of an escape of one letter. -/
def shortEscape? : Char → Option Char
  | '"' => some '"'
  | '\\' => some '\\'
  | '/' => some '/'
  | 'b' => some '\x08'
  | 'f' => some '\x0c'
  | 'n' => some '\n'
  | 'r' => some '\r'
  | 't' => some '\t'
  | _ => none

/-- Whether a number is the first half of a surrogate pair. -/
def isHighSurrogate (n : Nat) : Bool := 0xd800 ≤ n && n < 0xdc00

/-- Whether a number is the second half of a surrogate pair. -/
def isLowSurrogate (n : Nat) : Bool := 0xdc00 ≤ n && n < 0xe000

/-- The character of a number: half of a surrogate pair on its own counts as none. -/
def scalar? (n : Nat) : Option Char :=
  if isHighSurrogate n || isLowSurrogate n then none else some (Char.ofNat n)

/-- The character that two halves of a surrogate pair make. -/
def pairedScalar (high low : Nat) : Char :=
  Char.ofNat (0x10000 + (high - 0xd800) * 0x400 + (low - 0xdc00))

/-- The character of an escape by number, given what follows its letter, and the rest. The second half
of a surrogate pair is part of it. -/
def readNumbered : List Char → Option (Option Char × List Char)
  | a :: b :: c :: d :: rest => do
    let n ← hex4? a b c d
    match rest with
    | '\\' :: 'u' :: a :: b :: c :: d :: rest' =>
      let m ← hex4? a b c d
      if isHighSurrogate n && isLowSurrogate m then pure (some (pairedScalar n m), rest')
      else pure (scalar? n, rest)
    | rest => pure (scalar? n, rest)
  | _ => none

/-- The first character of a text inside a string, which may be an escape, and the rest. -/
def readCharacter : List Char → Option (Option Char × List Char)
  | [] => none
  | '\\' :: 'u' :: rest => readNumbered rest
  | '\\' :: c :: rest => (shortEscape? c).map (some ·, rest)
  | c :: rest => if c.toNat < 0x20 then none else some (some c, rest)

/-- The characters of a string up to its closing quote after those read before, the last of these
first, and the rest. A half of a surrogate pair on its own counts as no character: `none` stands in
its place. -/
def readString : Nat → List (Option Char) → List Char → Option (List (Option Char) × List Char)
  | 0, _, _ => none
  | _ + 1, before, '"' :: rest => some (before.reverse, rest)
  | fuel + 1, before, cs =>
    match readCharacter cs with
    | none => none
    | some (c, rest) => readString fuel (c :: before) rest

/-- The text of characters that are all there. -/
def wholeText? (s : List (Option Char)) : Option String := (s.mapM id).map String.ofList

/-! ## Numbers -/

/-- The value of decimal digits. -/
def digitsValue (ds : List Char) : Nat := ds.foldl (fun n d => n * 10 + (d.toNat - '0'.toNat)) 0

/-- Drops one or more digits. -/
def skipDigits? : List Char → Option (List Char)
  | c :: rest => if c.isDigit then some (rest.dropWhile Char.isDigit) else none
  | [] => none

/-- Drops a fraction, if there is one; the flag tells. -/
def skipFraction? : List Char → Option (Bool × List Char)
  | '.' :: rest => (skipDigits? rest).map (true, ·)
  | rest => some (false, rest)

/-- Drops an exponent, if there is one; the flag tells. -/
def skipExponent? : List Char → Option (Bool × List Char)
  | c :: rest =>
    if c == 'e' || c == 'E' then
      let digits := match rest with
        | '+' :: ds => ds
        | '-' :: ds => ds
        | ds => ds
      (skipDigits? digits).map (true, ·)
    else some (false, c :: rest)
  | [] => some (false, [])

/-- The digits before fraction and exponent: a zero, or digits that do not start with a zero. -/
def integerDigits? : List Char → Option (List Char × List Char)
  | '0' :: rest => if rest.head?.any Char.isDigit then none else some (['0'], rest)
  | c :: rest =>
    if c.isDigit then some ((c :: rest).takeWhile Char.isDigit, (c :: rest).dropWhile Char.isDigit)
    else none
  | [] => none

/-- A number after its sign. -/
def readNumber (negative : Bool) (cs : List Char) : Option (Json × List Char) := do
  let (digits, rest) ← integerDigits? cs
  let (fraction, rest) ← skipFraction? rest
  let (exponent, rest) ← skipExponent? rest
  let n := digitsValue digits
  if fraction || exponent || (negative && n == 0) then pure (unsupported, rest)
  else pure (int (if negative then -n else n), rest)

/-! ## Values -/

/-- The name of a field with the colon after it, and the rest without leading blanks. -/
def readName (fuel : Nat) : List Char → Option (Option String × List Char)
  | '"' :: rest => do
    let (name, rest) ← readString fuel [] rest
    match skipBlanks rest with
    | ':' :: rest => pure (wholeText? name, skipBlanks rest)
    | _ => none
  | _ => none

/-- A field whose name is a text. -/
def whole? : Option String × Json → Option (String × Json)
  | (name, value) => name.map (·, value)

/-- The object of fields, if all their names are texts. -/
def objectOf (fields : List (Option String × Json)) : Json :=
  ((fields.mapM whole?).map obj).getD unsupported

mutual

/-- The value at the start of a text without leading blanks, and the rest. -/
def readValue : Nat → List Char → Option (Json × List Char)
  | 0, _ => none
  | fuel + 1, cs =>
    match cs with
    | 'n' :: 'u' :: 'l' :: 'l' :: rest => some (null, rest)
    | 't' :: 'r' :: 'u' :: 'e' :: rest => some (bool true, rest)
    | 'f' :: 'a' :: 'l' :: 's' :: 'e' :: rest => some (bool false, rest)
    | '"' :: rest => do
      let (s, rest) ← readString fuel [] rest
      pure (((wholeText? s).map str).getD unsupported, rest)
    | '[' :: rest =>
      match skipBlanks rest with
      | ']' :: rest => some (arr [], rest)
      | rest => readItems fuel [] rest
    | '\x7b' :: rest =>
      match skipBlanks rest with
      | '\x7d' :: rest => some (obj [], rest)
      | rest => readFields fuel [] rest
    | '-' :: rest => readNumber true rest
    | rest => readNumber false rest

/-- The array of the items read before, the last of these first, and of those up to the closing
bracket, and the rest. -/
def readItems : Nat → List Json → List Char → Option (Json × List Char)
  | 0, _, _ => none
  | fuel + 1, before, cs =>
    match readValue fuel cs with
    | none => none
    | some (item, rest) =>
      match skipBlanks rest with
      | ',' :: rest => readItems fuel (item :: before) (skipBlanks rest)
      | ']' :: rest => some (arr (item :: before).reverse, rest)
      | _ => none

/-- The object of the fields read before, the last of these first, and of those up to the closing
brace, and the rest. -/
def readFields : Nat → List (Option String × Json) → List Char → Option (Json × List Char)
  | 0, _, _ => none
  | fuel + 1, before, cs =>
    match readName fuel cs with
    | none => none
    | some (name, rest) =>
      match readValue fuel rest with
      | none => none
      | some (value, rest) =>
        match skipBlanks rest with
        | ',' :: rest => readFields fuel ((name, value) :: before) (skipBlanks rest)
        | '\x7d' :: rest => some (objectOf ((name, value) :: before).reverse, rest)
        | _ => none

end

/-- The value that a text holds, with blanks around it. Each value, item, field and character of a
string takes at least one character of the text, so twice its length is fuel enough for all of them. -/
def ofText? (text : String) : Option Json :=
  let cs := text.toList
  match readValue (2 * cs.length + 2) (skipBlanks cs) with
  | some (value, rest) => if (skipBlanks rest).isEmpty then some value else none
  | none => none

end Json
end Interleaving
