/-!
# TOML documents of keys and values

The documents read here have one `key = value` to a line, with comments and empty lines between. A
key may have up to 80 parts with dots between; all but the last are names of tables. The values are
integers, floating point numbers, booleans and strings on one line; headers of tables, arrays, dates
and strings over several lines are not among them. No key may be given twice, nor as a value and a
table.
-/

namespace Interleaving
namespace Toml

/-- A value. Of a floating point number only the fact is kept that it is one. -/
inductive Value where
  | int (n : Int)
  | float
  | bool (b : Bool)
  | str (s : String)
  /-- What a key with several parts makes of its first one. -/
  | table
deriving DecidableEq, Inhabited

namespace Value

/-- A number below `bound`. -/
def nat? (bound : Nat) : Value → Option Nat
  | int n => if 0 ≤ n ∧ n < bound then some n.toNat else none
  | _ => none

/-- A boolean. -/
def bool? : Value → Option Bool
  | bool b => some b
  | _ => none

end Value

/-! ## Blanks and comments -/

/-- The blanks inside a line. -/
def isBlank (c : Char) : Bool := c == ' ' || c == '\t'

/-- The rest of a line after its leading blanks. -/
def skipBlanks (cs : List Char) : List Char := cs.dropWhile isBlank

/-- The control characters, which may not stand in a line; a tab may. -/
def isControl (c : Char) : Bool := (c.toNat < 0x20 && c != '\t') || c.toNat == 0x7f

/-- Whether a line ends here: only blanks follow, and perhaps a comment. -/
def endsLine (cs : List Char) : Bool :=
  match skipBlanks cs with
  | [] => true
  | '#' :: comment => !comment.any isControl
  | _ => false

/-! ## Numbers -/

/-- The value of a digit in a base of at most 16. -/
def digit? (base : Nat) (c : Char) : Option Nat :=
  let value :=
    if '0' ≤ c ∧ c ≤ '9' then c.toNat - '0'.toNat
    else if 'a' ≤ c ∧ c ≤ 'f' then c.toNat - 'a'.toNat + 10
    else if 'A' ≤ c ∧ c ≤ 'F' then c.toNat - 'A'.toNat + 10
    else 16
  if value < base then some value else none

/-- The number of digits in a base; between two of them a single underscore may stand. -/
def digits? (base : Nat) : List Char → Option Nat
  | [] => none
  | first :: rest => do
    let rec go (n : Nat) : List Char → Option Nat
      | [] => some n
      | '_' :: d :: rest => do go (n * base + (← digit? base d)) rest
      | d :: rest => do go (n * base + (← digit? base d)) rest
    go (← digit? base first) rest

/-- A decimal number without superfluous zeros. -/
def decimal? (cs : List Char) : Option Nat :=
  match cs with
  | '0' :: _ :: _ => none
  | _ => digits? 10 cs

/-- Splits a sign off. -/
def splitSign : List Char → Int × List Char
  | '+' :: rest => (1, rest)
  | '-' :: rest => (-1, rest)
  | rest => (1, rest)

/-- The integers of 128 bits, with or without a sign. -/
def fits (n : Int) : Bool :=
  -0x80000000000000000000000000000000 ≤ n && n ≤ 0xffffffffffffffffffffffffffffffff

/-- An integer: decimal with an optional sign, or with a base and without a sign. -/
def integer? (cs : List Char) : Option Int := do
  let n : Int ← match cs with
    | '0' :: 'x' :: ds => (digits? 16 ds).map Int.ofNat
    | '0' :: 'o' :: ds => (digits? 8 ds).map Int.ofNat
    | '0' :: 'b' :: ds => (digits? 2 ds).map Int.ofNat
    | _ =>
      let (sign, ds) := splitSign cs
      (decimal? ds).map (sign * Int.ofNat ·)
  if fits n then pure n else none

/-- A number with a fraction or an exponent: `digits` times ten to the power of `exponent`, apart from
its sign. -/
structure Scaled where
  digits : Nat
  exponent : Int
deriving DecidableEq, Inhabited

/-- Whether the nearest floating point number of 64 bits is infinite. That is so from halfway between
the largest finite one and the next power of two on. -/
def Scaled.overflows (x : Scaled) : Bool :=
  let limit := (Nat.pow 2 54 - 1) * Nat.pow 2 970
  if x.digits = 0 then false
  else if 400 < x.exponent then true
  else if 0 ≤ x.exponent then limit ≤ x.digits * Nat.pow 10 x.exponent.toNat
  -- a value below one, whose power of ten could be too large to be written down
  else if x.digits.log2 < -x.exponent then false
  else limit * Nat.pow 10 (-x.exponent).toNat ≤ x.digits

/-- Whether a letter starts an exponent. -/
def isExponentLetter (c : Char) : Bool := c == 'e' || c == 'E'

/-- The value of an exponent after its letter. -/
def exponent? (cs : List Char) : Option Int :=
  let (sign, ds) := splitSign cs
  (digits? 10 ds).map (sign * Int.ofNat ·)

/-- A fraction, an exponent or both after a decimal number. -/
def scaled? (cs : List Char) : Option Scaled := do
  let (_, ds) := splitSign cs
  let whole := ds.takeWhile fun c => c != '.' && !isExponentLetter c
  let n ← decimal? whole
  match ds.drop whole.length with
  | '.' :: rest =>
    let fraction := rest.takeWhile fun c => !isExponentLetter c
    let _ ← digits? 10 fraction
    let n ← digits? 10 (whole ++ fraction)
    let places : Nat := (fraction.filter (· != '_')).length
    match rest.drop fraction.length with
    | [] => pure ⟨n, -places⟩
    | _ :: exponent => pure ⟨n, (← exponent? exponent) - places⟩
  | _ :: exponent => pure ⟨n, ← exponent? exponent⟩
  | [] => none

/-- Whether a text is a floating point number that does not overflow, or one of the special values. -/
def isFloat (cs : List Char) : Bool :=
  let (_, ds) := splitSign cs
  ds == ['i', 'n', 'f'] || ds == ['n', 'a', 'n'] || (scaled? cs).any fun x => !x.overflows

/-! ## Strings -/

/-- The character of an escape of one letter. -/
def shortEscape? : Char → Option Char
  | 'b' => some '\x08'
  | 't' => some '\t'
  | 'n' => some '\n'
  | 'f' => some '\x0c'
  | 'r' => some '\r'
  | 'e' => some '\x1b'
  | '"' => some '"'
  | '\\' => some '\\'
  | _ => none

/-- The character of a number in hexadecimal digits. -/
def scalar? (ds : List Char) : Option Char := do
  let n ← ds.foldlM (fun n d => (digit? 16 d).map (n * 16 + ·)) 0
  if n.isValidChar then pure (Char.ofNat n) else none

/-- The character of an escape after its backslash, and the rest. -/
def escape? : List Char → Option (Char × List Char)
  | 'x' :: a :: b :: rest => (scalar? [a, b]).map (·, rest)
  | 'u' :: a :: b :: c :: d :: rest => (scalar? [a, b, c, d]).map (·, rest)
  | 'U' :: a :: b :: c :: d :: e :: f :: g :: h :: rest =>
    (scalar? [a, b, c, d, e, f, g, h]).map (·, rest)
  | c :: rest => (shortEscape? c).map (·, rest)
  | [] => none

/-- The text up to the closing quote after the characters read before, the last of these first, and
the rest. -/
def quoted? : Nat → List Char → List Char → Option (String × List Char)
  | 0, _, _ => none
  | _ + 1, _, [] => none
  | _ + 1, before, '"' :: rest => some (String.ofList before.reverse, rest)
  | fuel + 1, before, '\\' :: rest =>
    match escape? rest with
    | none => none
    | some (c, rest) => quoted? fuel (c :: before) rest
  | fuel + 1, before, c :: rest => if isControl c then none else quoted? fuel (c :: before) rest

/-- The text up to the closing quote, and the rest. -/
def basicString? (cs : List Char) : Option (String × List Char) := quoted? (cs.length + 1) [] cs

/-- The text up to the closing apostrophe, in which nothing is an escape, and the rest. -/
def literalString? (cs : List Char) : Option (String × List Char) :=
  let s := cs.takeWhile (· != '\'')
  match cs.drop s.length with
  | _ :: rest => if s.any isControl then none else some (String.ofList s, rest)
  | [] => none

/-! ## Lines -/

/-- The characters of a key without quotes. -/
def isBare (c : Char) : Bool := c.isAlphanum || c == '_' || c == '-'

/-- The part of a key at the start of a text, and the rest. -/
def key? : List Char → Option (String × List Char)
  | '"' :: rest => basicString? rest
  | '\'' :: rest => literalString? rest
  | cs =>
    let bare := cs.takeWhile isBare
    if bare.isEmpty then none else some (String.ofList bare, cs.drop bare.length)

/-- How many parts a key may have. -/
def maxKeyParts : Nat := 80

/-- The parts of a key, at most as many as given, and the rest after the blanks that follow. -/
def keyParts? : Nat → List Char → Option (List String × List Char)
  | 0, _ => none
  | limit + 1, cs => do
    let (part, rest) ← key? cs
    match skipBlanks rest with
    | '.' :: rest =>
      let (parts, rest) ← keyParts? limit (skipBlanks rest)
      pure (part :: parts, rest)
    | rest => pure ([part], rest)

/-- A value without quotes. -/
def plain? (cs : List Char) : Option Value :=
  if cs == ['t', 'r', 'u', 'e'] then some (.bool true)
  else if cs == ['f', 'a', 'l', 's', 'e'] then some (.bool false)
  else match integer? cs with
    | some n => some (.int n)
    | none => if isFloat cs then some .float else none

/-- The value at the start of a text, and the rest. -/
def value? : List Char → Option (Value × List Char)
  | '"' :: rest => (basicString? rest).map fun (s, rest) => (.str s, rest)
  | '\'' :: rest => (literalString? rest).map fun (s, rest) => (.str s, rest)
  | cs =>
    let word := cs.takeWhile fun c => !isBlank c && c != '#'
    (plain? word).map (·, cs.drop word.length)

/-- An entry: the parts of its key, and its value. -/
abbrev Entry : Type := List String × Value

/-- The entry of a line; nothing, if the line has none. -/
def line? (line : List Char) : Option (Option Entry) :=
  let cs := skipBlanks line
  if endsLine cs then some none
  else do
    let (key, rest) ← keyParts? maxKeyParts cs
    match rest with
    | '=' :: rest =>
      let (value, rest) ← value? (skipBlanks rest)
      if endsLine rest then pure (some (key, value)) else none
    | _ => none

/-- Splits a text at its line feeds; a carriage return before one belongs to it. -/
def lines (cs : List Char) : List (List Char) :=
  match cs.splitOn '\n' with
  | [] => []
  | l :: ls =>
    let all := l :: ls
    let strip (l : List Char) := if l.getLast? == some '\r' then l.dropLast else l
    all.dropLast.map strip ++ all.getLast?.toList

/-- Whether two keys name the same value, or one of them a table with the other in it. -/
def clash (key key' : List String) : Bool := key.isPrefixOf key' || key'.isPrefixOf key

/-- Adds an entry, whose key may not clash with an earlier one. -/
def addEntry? (entries : List Entry) (entry : Entry) : Option (List Entry) :=
  if entries.any fun e => clash e.1 entry.1 then none else some (entries ++ [entry])

/-- The value of a name; a name of a table stands for one. -/
def lookup (entries : List Entry) (name : String) : Option Value :=
  (entries.find? fun e => e.1.head? == some name).map fun e =>
    if e.1.length == 1 then e.2 else .table

/-- The text without a byte order mark at its start. -/
def skipMark : List Char → List Char
  | '\ufeff' :: rest => rest
  | cs => cs

/-- The entries of a document, in order. -/
def ofText? (text : String) : Option (List Entry) := do
  let entries ← (lines (skipMark text.toList)).mapM line?
  (entries.filterMap id).foldlM addEntry? []

end Toml
end Interleaving
