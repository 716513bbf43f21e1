/-!
# JSON values

The values of the format and the questions that a reader of typed data asks of them. Integers are
kept apart from other numbers: `1.0` is a number but not an integer, and neither is `-0`.

A structure is written as an object or, by position, as a list of its fields in order; the name of
a case is written as a string or as an object that maps it to `null`.
-/

namespace SourceChunks

inductive Json
  | null
  | bool (b : Bool)
  | int (n : Int)
  /-- A number that is not an integer, by its literal. -/
  | real (literal : String)
  | str (s : String)
  | arr (items : List Json)
  | obj (members : List (String × Json))
deriving Inhabited

namespace Json

/-! ## Typed readings -/

/-- An unsigned number of 64 bits. -/
def nat? : Json → Option Nat
  | int n => if 0 ≤ n && n < UInt64.size then some n.toNat else none
  | _ => none

def bool? : Json → Option Bool
  | bool b => some b
  | _ => none

def str? : Json → Option String
  | str s => some s
  | _ => none

/-- A list, each item read the same way. -/
def list? {α : Type} (read : Json → Option α) : Json → Option (List α)
  | arr items => items.mapM read
  | _ => none

/-- A value or `null`. -/
def orNull? {α : Type} (read : Json → Option α) : Json → Option (Option α)
  | null => some none
  | v => (read v).map some

/-- One of the named cases. -/
def case? {α : Type} (cases : List (String × α)) : Json → Option α
  | str s => cases.lookup s
  | obj [(s, null)] => cases.lookup s
  | _ => none

/-! ## Structures -/

/-- The members of a structure whose fields have these names in this order. -/
def members? (names : List String) : Json → Option (List (String × Json))
  | obj ms => some ms
  | arr items => if items.length ≤ names.length then some (names.zip items) else none
  | _ => none

/-- The value of a key; the last one counts. -/
def get? (ms : List (String × Json)) (key : String) : Option Json := ms.reverse.lookup key

/-- A member that has to be there. -/
def field? {α : Type} (ms : List (String × Json)) (key : String) (read : Json → Option α) :
    Option α :=
  (get? ms key).bind read

/-- A member that may be left out. -/
def fieldD? {α : Type} (ms : List (String × Json)) (key : String) (default : α)
    (read : Json → Option α) : Option α :=
  match get? ms key with
  | none => some default
  | some v => read v

/-! ## Writing -/

def ofNat (n : Nat) : Json := int n

def ofOption {α : Type} (write : α → Json) : Option α → Json
  | none => null
  | some a => write a

def strs (ss : List String) : Json := arr (ss.map str)

end Json

end SourceChunks
