/-!
Reading JSON. The grammar is the strict one: no comments, no trailing commas, no leading zeros, no
raw control characters in strings, and nothing but blanks around the value.
-/
namespace InductiveTerms.Text

/-- A JSON value as far as a reader of settings needs it. -/
inductive Json where
  | null
  | bool (value : Bool)
  /-- The value of a number that is written with decimal digits alone. -/
  | number (natural? : Option Nat)
  /-- The text, unless an escape in it names half of a surrogate pair without the other half. -/
  | string (text? : Option String)
  | array (items : List Json)
  | object (fields : List (Option String × Json))

namespace Json

def isBlank (c : Char) : Bool := c = ' ' || c = '\n' || c = '\t' || c = '\r'

def skipBlanks (cs : List Char) : List Char := cs.dropWhile isBlank

def hexDigit? (c : Char) : Option Nat :=
  if '0' ≤ c ∧ c ≤ '9' then some (c.toNat - '0'.toNat)
  else if 'a' ≤ c ∧ c ≤ 'f' then some (c.toNat - 'a'.toNat + 10)
  else if 'A' ≤ c ∧ c ≤ 'F' then some (c.toNat - 'A'.toNat + 10)
  else none

def hexUnit? (a b c d : Char) : Option Nat := do
  return (((← hexDigit? a) * 16 + (← hexDigit? b)) * 16 + (← hexDigit? c)) * 16 + (← hexDigit? d)

def shortEscape? : Char → Option Char
  | '"' => some '"'
  | '\\' => some '\\'
  | '/' => some '/'
  | 'b' => some '\x08'
  | 'f' => some '\x0c'
  | 'n' => some '\n'
  | 'r' => some '\r'
  | 't' => some '\t'
  | _ => none

/-- A piece of a string: a character or a unit of 16 bits. -/
inductive Piece where
  | char (c : Char)
  | unit (n : Nat)

/-- The pieces of a string after its opening quote, and what follows the closing one. -/
def pieces? : List Char → Option (List Piece × List Char)
  | [] => none
  | '"' :: rest => some ([], rest)
  | '\\' :: 'u' :: a :: b :: c :: d :: rest => do
      let n ← hexUnit? a b c d
      let (ps, after) ← pieces? rest
      return (.unit n :: ps, after)
  | '\\' :: e :: rest => do
      let c ← shortEscape? e
      let (ps, after) ← pieces? rest
      return (.char c :: ps, after)
  | c :: rest =>
      if c.toNat < 0x20 || c = '\\' then
        none
      else do
        let (ps, after) ← pieces? rest
        return (.char c :: ps, after)

def isHighSurrogate (n : Nat) : Bool := 0xD800 ≤ n && n ≤ 0xDBFF

def isLowSurrogate (n : Nat) : Bool := 0xDC00 ≤ n && n ≤ 0xDFFF

/-- The characters that the pieces make up, if every surrogate belongs to a pair. -/
def assemble? : List Piece → Option (List Char)
  | [] => some []
  | .char c :: rest => (assemble? rest).map (c :: ·)
  | .unit n :: .unit k :: rest =>
      if isHighSurrogate n then
        if isLowSurrogate k then
          (assemble? rest).map (Char.ofNat (0x10000 + (n - 0xD800) * 0x400 + (k - 0xDC00)) :: ·)
        else
          none
      else if isLowSurrogate n then
        none
      else
        (assemble? (.unit k :: rest)).map (Char.ofNat n :: ·)
  | .unit n :: rest =>
      if isHighSurrogate n || isLowSurrogate n then none
      else (assemble? rest).map (Char.ofNat n :: ·)

/-- A string after its opening quote. -/
def text? (cs : List Char) : Option (Option String × List Char) :=
  (pieces? cs).map fun (ps, after) => ((assemble? ps).map String.ofList, after)

def isDigit (c : Char) : Bool := '0' ≤ c && c ≤ '9'

def digits (cs : List Char) : List Char × List Char := (cs.takeWhile isDigit, cs.dropWhile isDigit)

def decimal (ds : List Char) : Nat := ds.foldl (fun n c => n * 10 + (c.toNat - '0'.toNat)) 0

/-- The digits before the point: a single zero, or digits that do not begin with one. -/
def whole? : List Char → Option (List Char × List Char)
  | '0' :: rest => some (['0'], rest)
  | cs => if (digits cs).1.isEmpty then none else some (digits cs)

/-- Whether there is a fraction, and what follows it; there is no result if it has no digits. -/
def fraction? : List Char → Option (Bool × List Char)
  | '.' :: rest => if (digits rest).1.isEmpty then none else some (true, (digits rest).2)
  | cs => some (false, cs)

def skipSign : List Char → List Char
  | '+' :: rest => rest
  | '-' :: rest => rest
  | cs => cs

/-- Whether there is an exponent, and what follows it; there is no result if it has no digits. -/
def exponent? : List Char → Option (Bool × List Char)
  | [] => some (false, [])
  | c :: rest =>
      if c = 'e' || c = 'E' then
        let ds := digits (skipSign rest)
        if ds.1.isEmpty then none else some (true, ds.2)
      else
        some (false, c :: rest)

/-- A number without its sign. -/
def unsigned? (cs : List Char) : Option (Option Nat × List Char) := do
  let (ds, afterWhole) ← whole? cs
  let (hasFraction, afterFraction) ← fraction? afterWhole
  let (hasExponent, after) ← exponent? afterFraction
  return (if hasFraction || hasExponent then none else some (decimal ds), after)

mutual
/-- Reads a value that begins with the first character; `depth` bounds the number of nested
calls. -/
def value? : Nat → List Char → Option (Json × List Char)
  | 0, _ => none
  | depth + 1, cs =>
      match cs with
      | 'n' :: 'u' :: 'l' :: 'l' :: rest => some (.null, rest)
      | 't' :: 'r' :: 'u' :: 'e' :: rest => some (.bool true, rest)
      | 'f' :: 'a' :: 'l' :: 's' :: 'e' :: rest => some (.bool false, rest)
      | '"' :: rest => (text? rest).map fun (s, after) => (.string s, after)
      | '-' :: rest => (unsigned? rest).map fun (_, after) => (.number none, after)
      | '[' :: rest =>
          match skipBlanks rest with
          | ']' :: after => some (.array [], after)
          | more => (items? depth more).map fun (items, after) => (.array items, after)
      | '\x7b' :: rest =>
          match skipBlanks rest with
          | '\x7d' :: after => some (.object [], after)
          | more => (fields? depth more).map fun (fields, after) => (.object fields, after)
      | _ => (unsigned? cs).map fun (n, after) => (.number n, after)

/-- Reads the items of an array that is not empty, and its closing bracket. -/
def items? : Nat → List Char → Option (List Json × List Char)
  | 0, _ => none
  | depth + 1, cs => do
      let (item, afterItem) ← value? depth cs
      match skipBlanks afterItem with
      | ']' :: after => some ([item], after)
      | ',' :: more => do
          let (items, after) ← items? depth (skipBlanks more)
          return (item :: items, after)
      | _ => none

/-- Reads the fields of an object that is not empty, and its closing brace. -/
def fields? : Nat → List Char → Option (List (Option String × Json) × List Char)
  | 0, _ => none
  | depth + 1, cs =>
      match cs with
      | '"' :: rest => do
          let (key, afterKey) ← text? rest
          match skipBlanks afterKey with
          | ':' :: more => do
              let (item, afterItem) ← value? depth (skipBlanks more)
              match skipBlanks afterItem with
              | '\x7d' :: after => some ([(key, item)], after)
              | ',' :: more => do
                  let (fields, after) ← fields? depth (skipBlanks more)
                  return ((key, item) :: fields, after)
              | _ => none
          | _ => none
      | _ => none
end

/-- The value that a text consists of. Of two nested calls at least one reads a character, so twice
the length of the text bounds their number. -/
def parse? (s : String) : Option Json := do
  let (value, after) ← value? (2 * s.length + 2) (skipBlanks s.toList)
  if (skipBlanks after).isEmpty then some value else none

end Json
end InductiveTerms.Text
