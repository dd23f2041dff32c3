import PixelRecord.Json

/-!
Reading JSON text. The grammar is the strict one: no comments, no trailing
commas, no leading zeros, and only four characters of white space. Reading looks
at the form of numbers and strings and not at their meaning.
-/

namespace PixelRecord.Json

def isBlank (c : Char) : Bool := c = ' ' || c = '\t' || c = '\n' || c = '\r'

def skipBlank (cs : List Char) : List Char := cs.dropWhile isBlank

def isHexDigit (c : Char) : Bool :=
  c.isDigit || ('a' ≤ c && c ≤ 'f') || ('A' ≤ c && c ≤ 'F')

/-- The characters that may follow a backslash on their own. -/
def isEscape (c : Char) : Bool := ['"', '\\', '/', 'b', 'f', 'n', 'r', 't'].contains c

/-- The rest of a string literal up to its closing quote, and what follows it. -/
def literal : List Char → Option (List Char × List Char)
  | [] => none
  | '"' :: rest => some ([], rest)
  | '\\' :: 'u' :: a :: b :: c :: d :: rest =>
    if isHexDigit a && isHexDigit b && isHexDigit c && isHexDigit d then
      (literal rest).map fun (l, rest) => ('\\' :: 'u' :: a :: b :: c :: d :: l, rest)
    else none
  | '\\' :: e :: rest =>
    if isEscape e then (literal rest).map fun (l, rest) => ('\\' :: e :: l, rest) else none
  | c :: rest =>
    if c.toNat < 0x20 || c = '\\' then none
    else (literal rest).map fun (l, rest) => (c :: l, rest)

def digits (cs : List Char) : Option (List Char × List Char) :=
  match cs.takeWhile Char.isDigit with
  | [] => none
  | ds => some (ds, cs.dropWhile Char.isDigit)

/-- The integer part of a number, without a sign. -/
def integerPart : List Char → Option (List Char × List Char)
  | '0' :: rest => some (['0'], rest)
  | cs => digits cs

def fractionPart : List Char → Option (List Char × List Char)
  | '.' :: rest => (digits rest).map fun (ds, rest) => ('.' :: ds, rest)
  | cs => some ([], cs)

/-- The digits of an exponent, with the sign that may stand before them. -/
def signedDigits : List Char → Option (List Char × List Char)
  | '+' :: rest => (digits rest).map fun (ds, rest) => ('+' :: ds, rest)
  | '-' :: rest => (digits rest).map fun (ds, rest) => ('-' :: ds, rest)
  | cs => digits cs

def exponentPart : List Char → Option (List Char × List Char)
  | 'e' :: rest => (signedDigits rest).map fun (ds, rest) => ('e' :: ds, rest)
  | 'E' :: rest => (signedDigits rest).map fun (ds, rest) => ('E' :: ds, rest)
  | cs => some ([], cs)

def unsignedNumber (cs : List Char) : Option (List Char × List Char) := do
  let (whole, rest) ← integerPart cs
  let (fraction, rest) ← fractionPart rest
  let (exponent, rest) ← exponentPart rest
  return (whole ++ fraction ++ exponent, rest)

def numberText : List Char → Option (List Char × List Char)
  | '-' :: rest => (unsignedNumber rest).map fun (text, rest) => ('-' :: text, rest)
  | cs => unsignedNumber cs

mutual

/-- A value at the start of a text, and what follows it. Each level of nesting
takes two units of fuel, and so does each item and member. -/
def value : Nat → List Char → Option (Json × List Char)
  | 0, _ => none
  | fuel + 1, cs =>
    match skipBlank cs with
    | 'n' :: 'u' :: 'l' :: 'l' :: rest => some (.null, rest)
    | 't' :: 'r' :: 'u' :: 'e' :: rest => some (.bool true, rest)
    | 'f' :: 'a' :: 'l' :: 's' :: 'e' :: rest => some (.bool false, rest)
    | '"' :: rest => (literal rest).map fun (l, rest) => (.string l, rest)
    | '[' :: rest =>
      match skipBlank rest with
      | ']' :: rest => some (.array [], rest)
      | rest => (items fuel rest).map fun (items, rest) => (.array items, rest)
    | '\x7b' :: rest =>
      match skipBlank rest with
      | '\x7d' :: rest => some (.object [], rest)
      | rest => (members fuel rest).map fun (members, rest) => (.object members, rest)
    | cs => (numberText cs).map fun (text, rest) => (.number text, rest)

def items : Nat → List Char → Option (List Json × List Char)
  | 0, _ => none
  | fuel + 1, cs =>
    match value fuel cs with
    | none => none
    | some (item, rest) =>
      match skipBlank rest with
      | ',' :: rest => (items fuel rest).map fun (more, rest) => (item :: more, rest)
      | ']' :: rest => some ([item], rest)
      | _ => none

def members : Nat → List Char → Option (List (List Char × Json) × List Char)
  | 0, _ => none
  | fuel + 1, cs =>
    match skipBlank cs with
    | '"' :: rest =>
      match literal rest with
      | none => none
      | some (key, rest) =>
        match skipBlank rest with
        | ':' :: rest =>
          match value fuel rest with
          | none => none
          | some (val, rest) =>
            match skipBlank rest with
            | ',' :: rest => (members fuel rest).map fun (more, rest) => ((key, val) :: more, rest)
            | '\x7d' :: rest => some ([(key, val)], rest)
            | _ => none
        | _ => none
    | _ => none

end

/-- The document that a text holds, with nothing but white space around it. -/
def read? (cs : List Char) : Option Json :=
  match value (2 * cs.length + 2) cs with
  | some (j, rest) => if (skipBlank rest).isEmpty then some j else none
  | none => none

end PixelRecord.Json
