/-!
# JSON values

The values that texts of this library are read into and written from. Numbers are integers; what
else JSON can say is kept apart in `unsupported`, so that it can be skipped but never read.
-/

namespace Interleaving

/-- A JSON value. -/
inductive Json where
  | null
  | bool (b : Bool)
  /-- A number written without fraction and exponent. -/
  | int (n : Int)
  | str (s : String)
  | arr (items : List Json)
  /-- The fields in the order of the text; a name may occur more than once. -/
  | obj (fields : List (String × Json))
  /-- A well-formed value that nothing is read from: a number with a fraction or an exponent, minus
  zero, a string with half of a surrogate pair, or an object with such a string as a name. -/
  | unsupported
deriving Inhabited

namespace Json

/-- The number `n`. -/
def nat (n : Nat) : Json := .int n

/-- The value that an optional one stands for: `null` if there is none. -/
def ofOption {α : Type} (f : α → Json) : Option α → Json
  | none => null
  | some a => f a

/-- The array of a list. -/
def ofList {α : Type} (f : α → Json) (l : List α) : Json := arr (l.map f)

/-! ## Reading a value as something -/

/-- The truth value of a boolean. -/
def bool? : Json → Option Bool
  | bool b => some b
  | _ => none

/-- The text of a string. -/
def str? : Json → Option String
  | str s => some s
  | _ => none

/-- A number in `low … high`. -/
def int? (low high : Int) : Json → Option Int
  | int n => if low ≤ n ∧ n ≤ high then some n else none
  | _ => none

/-- A number below `bound`. -/
def nat? (bound : Nat) (j : Json) : Option Nat := (j.int? 0 (bound - 1)).map Int.toNat

/-- A number that fits into 64 bits with a sign. -/
def signed? (j : Json) : Option Int := j.int? Int64.minValue.toInt Int64.maxValue.toInt

/-- The list of an array whose items can all be read. -/
def list? {α : Type} (f : Json → Option α) : Json → Option (List α)
  | arr items => items.mapM f
  | _ => none

/-- `null` as nothing, all else as something. -/
def option? {α : Type} (f : Json → Option α) : Json → Option (Option α)
  | null => some none
  | j => (f j).map some

/-- The fields of an object. -/
def fields? : Json → Option (List (String × Json))
  | obj fields => some fields
  | _ => none

/-- What a list of fields says of one name. -/
inductive Lookup where
  | absent
  | once (value : Json)
  | repeated

/-- Looks for the fields of a name. -/
def lookup (fields : List (String × Json)) (name : String) : Lookup :=
  match fields.filter (·.1 == name) with
  | [] => .absent
  | [(_, value)] => .once value
  | _ => .repeated

/-- The field of a name, which has to be there once. -/
def required? {α : Type} (fields : List (String × Json)) (name : String) (f : Json → Option α) :
    Option α :=
  match lookup fields name with
  | .once value => f value
  | _ => none

/-- The field of a name, or `default` if it is missing; it may not be there twice. -/
def optional? {α : Type} (fields : List (String × Json)) (name : String) (default : α)
    (f : Json → Option α) : Option α :=
  match lookup fields name with
  | .absent => some default
  | .once value => f value
  | .repeated => none

end Json

end Interleaving
