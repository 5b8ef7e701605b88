import Matching.Lib.Digits
import Mathlib.Data.List.Lex

/-! `json.h` and `json.cpp`: values, the text that `operator <<` writes of them, and the parser
    `operator >>`. Characters are bytes. The type of floating point numbers, with what the standard
    library makes of their texts, is a parameter. -/

namespace Matching.Common.Json

/-! ### Characters -/

def quotationMark : UInt8 := 0x22
def comma : UInt8 := 0x2C
def minus : UInt8 := 0x2D
def plus : UInt8 := 0x2B
def dot : UInt8 := 0x2E
def colon : UInt8 := 0x3A
def leftBracket : UInt8 := 0x5B
def reverseSolidus : UInt8 := 0x5C
def rightBracket : UInt8 := 0x5D
def leftBrace : UInt8 := 0x7B
def rightBrace : UInt8 := 0x7D

def ascii (s : List Char) : List UInt8 := s.map Char.toUInt8

/-- `std::isdigit`. -/
def isDigit (c : UInt8) : Bool := 0x30 ≤ c ∧ c ≤ 0x39

/-- `std::isspace`. -/
def isSpace (c : UInt8) : Bool := c = 0x20 ∨ 0x09 ≤ c ∧ c ≤ 0x0D

/-! ### Values -/

/-- A `ValuePtr`: a null pointer, or a `Value` of one of the classes. The entries of an object are
    those of its map, in its order; the map and the order are in `Built`. -/
inductive Value (ρ : Type) where
  | null
  | boolean (value : Bool)
  | integer (value : Int64)
  | real (value : ρ)
  | string (string : List UInt8)
  | array (vector : List (Value ρ))
  | object (map : List (List UInt8 × Value ρ))

/-- The order of `std::string`: bytes compare as unsigned. -/
def Before (a b : List UInt8) : Prop := a.map UInt8.toNat < b.map UInt8.toNat

instance (a b : List UInt8) : Decidable (Before a b) :=
  inferInstanceAs (Decidable (a.map UInt8.toNat < b.map UInt8.toNat))

/-- `std::map::emplace`: a key that is there keeps its value. -/
def emplace {α : Type} (key : List UInt8) (value : α) :
    List (List UInt8 × α) → List (List UInt8 × α)
  | [] => [(key, value)]
  | e :: map =>
    if Before key e.1 then (key, value) :: e :: map
    else if Before e.1 key then e :: emplace key value map
    else e :: map

/-- Floating point numbers: the text that is written, and the number and whether reading failed. -/
structure Doubles (ρ : Type) where
  format : ρ → List UInt8
  parse : List UInt8 → ρ × Bool

variable {ρ : Type}

/-! ### Writing -/

/-- The table `HEX`. -/
def hex : List UInt8 :=
  ascii ['0', '1', '2', '3', '4', '5', '6', '7', '8', '9', 'A', 'B', 'C', 'D', 'E', 'F']

/-- A character inside quotation marks. -/
def escape (c : UInt8) : List UInt8 :=
  if c = 0x08 then reverseSolidus :: ascii ['b']
  else if c = 0x09 then reverseSolidus :: ascii ['t']
  else if c = 0x0A then reverseSolidus :: ascii ['n']
  else if c = 0x0C then reverseSolidus :: ascii ['f']
  else if c = 0x0D then reverseSolidus :: ascii ['r']
  else if c = quotationMark then [reverseSolidus, quotationMark]
  else if c = reverseSolidus then [reverseSolidus, reverseSolidus]
  else if c ≤ 0x1F then
    reverseSolidus :: ascii ['u', '0', '0'] ++
      [hex.getD (c.toNat >>> 4) 0, hex.getD (c.toNat &&& (1 <<< 4 - 1)) 0]
  else [c]

def formatString (str : List UInt8) : List UInt8 :=
  quotationMark :: str.flatMap escape ++ [quotationMark]

/-- The decimal digits of a number. -/
def decimal (n : ℕ) : List UInt8 :=
  if n = 0 then [0x30] else (Nat.digits 10 n).reverse.map (fun d => UInt8.ofNat (0x30 + d))

/-- `os << value` for an `intmax_t`. -/
def formatInteger (value : Int64) : List UInt8 :=
  if value.toInt < 0 then minus :: decimal value.toInt.natAbs else decimal value.toInt.natAbs

mutual

/-- `operator <<`. -/
def format (d : Doubles ρ) : Value ρ → List UInt8
  | .null => ascii ['n', 'u', 'l', 'l']
  | .boolean value => if value then ascii ['t', 'r', 'u', 'e'] else ascii ['f', 'a', 'l', 's', 'e']
  | .integer value => formatInteger value
  | .real value => d.format value
  | .string string => formatString string
  | .array vector => leftBracket :: formatVector d vector ++ [rightBracket]
  | .object map => leftBrace :: formatMap d map ++ [rightBrace]

/-- The loop of `Array::format`. -/
def formatVector (d : Doubles ρ) : List (Value ρ) → List UInt8
  | [] => []
  | value :: vector =>
    format d value ++ if vector.isEmpty then [] else comma :: formatVector d vector

/-- The loop of `Object::format`. -/
def formatMap (d : Doubles ρ) : List (List UInt8 × Value ρ) → List UInt8
  | [] => []
  | (key, value) :: map =>
    formatString key ++ colon :: format d value ++
      if map.isEmpty then [] else comma :: formatMap d map

end

/-! ### Reading -/

/-- The exceptions of the parser, and the fuel of the model. -/
inductive ParseError where
  | failure (what : String)
  | outOfFuel
  deriving DecidableEq, Repr

/-- `std::istream`: what is left of it, and `failbit`. -/
structure IStream where
  rest : List UInt8
  fail : Bool
  deriving DecidableEq, Repr

namespace IStream

/-- `is >> std::ws`. -/
def ws (is : IStream) : IStream :=
  if is.fail then is else { is with rest := is.rest.dropWhile isSpace }

/-- `is.peek()`, with `none` for the end. -/
def peek (is : IStream) : Option UInt8 := if is.fail then none else is.rest.head?

/-- `is.get()`, which fails at the end. -/
def get (is : IStream) : Option UInt8 × IStream :=
  if is.fail then (none, is)
  else match is.rest with
    | [] => (none, { is with fail := true })
    | c :: rest => (some c, { is with rest })

/-- `if (is.peek() != c) throw …; is.get();`. -/
def expect (is : IStream) (c : UInt8) (what : String) : Except ParseError IStream :=
  if is.peek = some c then .ok is.get.2 else .error (.failure what)

end IStream

/-- The table `UNHEX`, from `'0'` on. -/
def unhex : List ℤ := [
  0, 1, 2, 3, 4, 5, 6, 7, 8, 9, -1, -1, -1, -1, -1, -1, -1, 10, 11, 12, 13, 14, 15, -1, -1, -1, -1,
  -1, -1, -1, -1, -1,
  -1, -1, -1, -1, -1, -1, -1, -1, -1, -1, -1, -1, -1, -1, -1, -1, -1, 10, 11, 12, 13, 14, 15]

/-- The digit that `from_hex` makes of a character. -/
def fromHex (c : UInt8) : Except ParseError ℕ :=
  if c.toNat < 0x30 ∨ c.toNat > 0x66 ∨ unhex.getD (c.toNat - 0x30) (-1) < 0 then
    .error (.failure "invalid hex digit")
  else .ok (unhex.getD (c.toNat - 0x30) (-1)).toNat

/-- The bytes of a code unit. -/
def utf8 (cu : ℕ) : List UInt8 :=
  if cu ≤ 0x7F then [UInt8.ofNat cu]
  else if cu ≤ 0x07FF then
    [UInt8.ofNat (0xC0 ||| cu >>> 6), UInt8.ofNat (0x80 ||| cu &&& (1 <<< 6 - 1))]
  else [UInt8.ofNat (0xE0 ||| cu >>> 12), UInt8.ofNat (0x80 ||| cu >>> 6 &&& (1 <<< 6 - 1)),
    UInt8.ofNat (0x80 ||| cu &&& (1 <<< 6 - 1))]

/-- The escapes of one character. -/
def unescape (c : UInt8) : Option UInt8 :=
  if c = Char.toUInt8 'b' then some 0x08
  else if c = Char.toUInt8 't' then some 0x09
  else if c = Char.toUInt8 'n' then some 0x0A
  else if c = Char.toUInt8 'f' then some 0x0C
  else if c = Char.toUInt8 'r' then some 0x0D
  else if c = quotationMark then some quotationMark
  else if c = Char.toUInt8 '/' then some (Char.toUInt8 '/')
  else if c = reverseSolidus then some reverseSolidus
  else none

/-- The loop of `parse_string`: the string and what follows the closing quotation mark. The digits
    of an escape are read from left to right. -/
def stringLoop : List UInt8 → List UInt8 → Except ParseError (List UInt8 × List UInt8)
  | [], _ => .error (.failure "unterminated string")
  | c :: rest, string =>
    if c = quotationMark then .ok (string, rest)
    else if c = reverseSolidus then
      match rest with
      | [] => .error (.failure "invalid escape sequence")
      | e :: rest =>
        match unescape e with
        | some c => stringLoop rest (string ++ [c])
        | none =>
          if e = Char.toUInt8 'u' then
            match rest with
            | h3 :: h2 :: h1 :: h0 :: rest => do
              let cu :=
                (← fromHex h3) <<< 12 ||| (← fromHex h2) <<< 8 ||| (← fromHex h1) <<< 4 |||
                  (← fromHex h0)
              stringLoop rest (string ++ utf8 cu)
            | _ => .error (.failure "invalid hex digit")
          else .error (.failure "invalid escape sequence")
    else stringLoop rest (string ++ [c])

/-- `parse_string`. -/
def parseString (is : IStream) : Except ParseError (List UInt8 × IStream) := do
  let is ← is.ws.expect quotationMark "expected string"
  let (string, rest) ← stringLoop is.rest []
  return (string, { is with rest })

/-- `copy_digits`: the digits that are copied, and what follows them. -/
def copyDigits (rest : List UInt8) (limit : ℕ) : Except ParseError (List UInt8 × List UInt8) :=
  if (rest.takeWhile isDigit).length = 0 then .error (.failure "expected digit")
  else if (rest.takeWhile isDigit).length > limit then .error (.failure "too many digits")
  else .ok (rest.takeWhile isDigit, rest.dropWhile isDigit)

/-- The value of a text of digits. -/
def digitsValue (ds : List UInt8) : ℕ := readDigits 10 0 (ds.map fun c => c.toNat - 0x30)

/-- `ss >> value` for an `intmax_t`: the nearest value, and whether it is another one. -/
def parseInteger (negative : Bool) (ds : List UInt8) : Int64 × Bool :=
  let x : ℤ := if negative then -(digitsValue ds : ℤ) else digitsValue ds
  if x < -2 ^ 63 then (Int64.ofInt (-2 ^ 63), true)
  else if x ≥ 2 ^ 63 then (Int64.ofInt (2 ^ 63 - 1), true)
  else (Int64.ofInt x, false)

/-- An optional character. -/
def optional (c : UInt8 → Bool) (rest : List UInt8) : List UInt8 × List UInt8 :=
  match rest with
  | [] => ([], [])
  | a :: rest => if c a then ([a], rest) else ([], a :: rest)

/-- The case of a number in `operator >>`. -/
def parseNumber (d : Doubles ρ) (is : IStream) : Except ParseError (Value ρ × IStream) := do
  let (sign, rest) := optional (· = minus) is.rest
  let (zero, rest) := optional (· = 0x30) rest
  let (int, rest) ← if zero = [] then copyDigits rest 32 else .ok (zero, rest)
  let (point, rest) := optional (· = dot) rest
  let (fraction, rest) ← if point = [] then .ok ([], rest) else copyDigits rest 32
  let (e, rest) := optional (fun c => c ||| 0x20 = Char.toUInt8 'e') rest
  let (expSign, rest) :=
    if e = [] then ([], rest) else optional (fun c => c = minus ∨ c = plus) rest
  let (exponent, rest) ← if e = [] then .ok ([], rest) else copyDigits rest 32
  if point ≠ [] ∨ e ≠ [] then
    let (value, fail) := d.parse (sign ++ int ++ point ++ fraction ++ e ++ expSign ++ exponent)
    return (.real value, ⟨rest, is.fail || fail⟩)
  else
    let (value, fail) := parseInteger (sign ≠ []) int
    return (.integer value, ⟨rest, is.fail || fail⟩)

/-- The rest of `true`, `false` or `null` behind the first letter. -/
def parseWord (word : List Char) (value : Value ρ) (is : IStream) :
    Except ParseError (Value ρ × IStream) :=
  if (ascii word).isPrefixOf is.rest then .ok (value, { is with rest := is.rest.drop word.length })
  else .error (.failure "expected object, array, number, string, boolean, or null")

mutual

/-- `operator >>`. -/
def parseValue (d : Doubles ρ) : ℕ → IStream → Except ParseError (Value ρ × IStream)
  | 0, _ => .error .outOfFuel
  | fuel + 1, is =>
    match is.ws.peek with
    | none => .error (.failure "expected object, array, number, string, boolean, or null")
    | some c =>
      if c = leftBrace then do
        let (map, is) ← parseMap d fuel is.ws.get.2 []
        return (.object map, is)
      else if c = leftBracket then do
        let (vector, is) ← parseVector d fuel is.ws.get.2 []
        return (.array vector, is)
      else if c = minus ∨ isDigit c then parseNumber d is.ws
      else if c = quotationMark then do
        let (string, is) ← parseString is.ws
        return (.string string, is)
      else if c = Char.toUInt8 't' then parseWord ['r', 'u', 'e'] (.boolean true) is.ws.get.2
      else if c = Char.toUInt8 'f' then parseWord ['a', 'l', 's', 'e'] (.boolean false) is.ws.get.2
      else if c = Char.toUInt8 'n' then parseWord ['u', 'l', 'l'] .null is.ws.get.2
      else .error (.failure "expected object, array, number, string, boolean, or null")

/-- The loop of `parse_object`. -/
def parseMap (d : Doubles ρ) :
    ℕ → IStream → List (List UInt8 × Value ρ) →
      Except ParseError (List (List UInt8 × Value ρ) × IStream)
  | 0, _, _ => .error .outOfFuel
  | fuel + 1, is, map =>
    if is.ws.peek = some rightBrace then .ok (map, is.ws.get.2)
    else do
      let is ←
        if map.isEmpty then
          if is.ws.peek = some quotationMark then .ok is.ws
          else .error (.failure "expected string or closing brace")
        else is.ws.expect comma "expected comma or closing brace"
      let (key, is) ← parseString is
      let is ← is.ws.expect colon "expected colon"
      let (value, is) ← parseValue d fuel is
      parseMap d fuel is (emplace key value map)

/-- The loop of `parse_array`. -/
def parseVector (d : Doubles ρ) :
    ℕ → IStream → List (Value ρ) → Except ParseError (List (Value ρ) × IStream)
  | 0, _, _ => .error .outOfFuel
  | fuel + 1, is, vector =>
    if is.ws.peek = some rightBracket then .ok (vector, is.ws.get.2)
    else do
      let is ← if vector.isEmpty then .ok is.ws
        else is.ws.expect comma "expected comma or closing bracket"
      let (value, is) ← parseValue d fuel is
      parseVector d fuel is (vector ++ [value])

end

/-- `is >> value`, with fuel for a call for each character. -/
def parse (d : Doubles ρ) (is : IStream) : Except ParseError (Value ρ × IStream) :=
  parseValue d (is.rest.length + 1) is

end Matching.Common.Json
