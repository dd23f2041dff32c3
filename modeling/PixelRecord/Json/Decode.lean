import PixelRecord.Json.Reader

/-!
What parts of a JSON document mean: texts, numbers of bounded size, names of
alternatives, and the fields of a record. A name may stand alone or as the key
of an object whose only member is null. The fields of a record come either by
name, in any order, or as an array in the order of declaration.
-/

namespace PixelRecord.Json

/-- A part of a string literal: a character, or a 16-bit unit of UTF-16. -/
inductive Piece where
  | char (c : Char)
  | unit (n : Nat)
  deriving DecidableEq, Repr

def hexValue (c : Char) : Nat :=
  if c.isDigit then c.toNat - 48 else if 'a' ≤ c then c.toNat - 87 else c.toNat - 55

def escaped (c : Char) : Char :=
  match c with
  | 'b' => '\x08'
  | 'f' => '\x0c'
  | 'n' => '\n'
  | 'r' => '\r'
  | 't' => '\t'
  | c => c

def pieces : List Char → List Piece
  | [] => []
  | '\\' :: 'u' :: a :: b :: c :: d :: rest =>
    .unit (((hexValue a * 16 + hexValue b) * 16 + hexValue c) * 16 + hexValue d) :: pieces rest
  | '\\' :: e :: rest => .char (escaped e) :: pieces rest
  | c :: rest => .char c :: pieces rest

def isHigh (n : Nat) : Bool := 0xD800 ≤ n && n < 0xDC00

def isLow (n : Nat) : Bool := 0xDC00 ≤ n && n < 0xE000

/-- The characters that some parts spell; a half of a surrogate pair spells none. -/
def spell : List Piece → Option (List Char)
  | [] => some []
  | .char c :: rest => (spell rest).map (c :: ·)
  | .unit n :: .unit m :: rest =>
    if isHigh n && isLow m then
      (spell rest).map (Char.ofNat (0x10000 + (n - 0xD800) * 0x400 + (m - 0xDC00)) :: ·)
    else if isHigh n || isLow n then none
    else (spell (.unit m :: rest)).map (Char.ofNat n :: ·)
  | .unit n :: rest =>
    if isHigh n || isLow n then none else (spell rest).map (Char.ofNat n :: ·)

/-- The text that a string literal stands for, if it stands for one. -/
def unescape (literal : List Char) : Option (List Char) := spell (pieces literal)

def decimalValue (ds : List Char) : Nat := ds.foldl (fun n c => 10 * n + (c.toNat - 48)) 0

def bool? : Json → Option Bool
  | .bool b => some b
  | _ => none

/-- An integer below a bound, written as digits alone. -/
def nat? (bound : Nat) : Json → Option Nat
  | .number text =>
    if text.all Char.isDigit && decimalValue text < bound then some (decimalValue text) else none
  | _ => none

def byName? {α : Type} (all : List α) (name : α → String) (text : List Char) : Option α :=
  all.find? fun a => (name a).toList = text

def named? {α : Type} (all : List α) (name : α → String) : Json → Option α
  | .string literal => (unescape literal).bind (byName? all name)
  | .object [(key, .null)] => (unescape key).bind (byName? all name)
  | _ => none

/-- The members of an object with their keys as texts. -/
def keyed : List (List Char × Json) → Option (List (List Char × Json))
  | [] => some []
  | (key, value) :: rest =>
    match unescape key, keyed rest with
    | some key, some rest => some ((key, value) :: rest)
    | _, _ => none

/-- The value of a field: the first one given under its name. -/
def field (members : List (List Char × Json)) (name : String) : Option Json :=
  (members.find? fun (key, _) => key = name.toList).map (·.2)

/-- Whether no name is given twice, and, if `strict`, every key is one of the names. -/
def wellKeyed (strict : Bool) (names : List String) (members : List (List Char × Json)) : Bool :=
  names.all (fun name => (members.countP fun (key, _) => key = name.toList) ≤ 1) &&
    (!strict || members.all fun (key, _) => names.any fun name => name.toList = key)

/-- What a document gives for each of some field names, in their order. Keys
that are no field name are passed over unless `strict`. -/
def fields? (strict : Bool) (names : List String) : Json → Option (List (Option Json))
  | .array items =>
    if items.length ≤ names.length then
      some (items.map some ++ List.replicate (names.length - items.length) none)
    else none
  | .object members =>
    match keyed members with
    | some members =>
      if wellKeyed strict names members then some (names.map (field members)) else none
    | none => none
  | _ => none

/-- The value of a field that may be left out. -/
def orElse {α : Type} (absent : α) (read : Json → Option α) : Option Json → Option α
  | none => some absent
  | some j => read j

def nullable? {α : Type} (read : Json → Option α) : Json → Option (Option α)
  | .null => some none
  | j => (read j).map some

end PixelRecord.Json
