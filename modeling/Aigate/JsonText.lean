import Aigate.JsonTree

/-!
# Compact JSON text

The serialiser writes a tree without white space, the parser reads any JSON text.
Reading back what was written gives the tree that was written, and every tree that is
read has distinct keys and no zero byte.
-/
namespace Aigate.JsonText
open Text JsonTree

/-- Nesting beyond this depth is rejected by the parser. -/
def maxDepth : ℕ := 2048

/-- Upper-case hexadecimal digit. -/
def hexDigit (n : ℕ) : Char := if n < 10 then Char.ofNat (48 + n) else Char.ofNat (55 + n)

def hexValue (c : Char) : Option ℕ :=
  if '0' ≤ c ∧ c ≤ '9' then some (c.toNat - 48)
  else if 'A' ≤ c ∧ c ≤ 'F' then some (c.toNat - 55)
  else if 'a' ≤ c ∧ c ≤ 'f' then some (c.toNat - 87)
  else none

/-- One byte inside a quoted string. -/
def escapeChar (c : Char) : Bytes :=
  if c = '"' then ['\\', '"']
  else if c = '\\' then ['\\', '\\']
  else if c.toNat = 8 then ['\\', 'b']
  else if c.toNat = 12 then ['\\', 'f']
  else if c.toNat = 10 then ['\\', 'n']
  else if c.toNat = 13 then ['\\', 'r']
  else if c.toNat = 9 then ['\\', 't']
  else if c.toNat < 32 then ['\\', 'u', '0', '0', hexDigit (c.toNat / 16), hexDigit (c.toNat % 16)]
  else [c]

def quoted (s : Bytes) : Bytes := '"' :: s.flatMap escapeChar ++ ['"']

def integerText (n : Int64) : Bytes :=
  if n.toInt < 0 then '-' :: decimal n.toInt.natAbs else decimal n.toInt.natAbs

def realText (x : Decimal) : Bytes :=
  (if x.negative then ['-'] else []) ++ decimal x.whole ++ '.' :: x.fraction

mutual

/-- `json_dumps` with the compact flag. -/
def dumps : Json → Bytes
  | .null => ['n', 'u', 'l', 'l']
  | .bool true => ['t', 'r', 'u', 'e']
  | .bool false => ['f', 'a', 'l', 's', 'e']
  | .integer n => integerText n
  | .real x => realText x
  | .string s => quoted s
  | .array items => '[' :: dumpsItems items ++ [']']
  | .object members => '{' :: dumpsMembers members ++ ['}']

def dumpsItems : List Json → Bytes
  | [] => []
  | [x] => dumps x
  | x :: y :: rest => dumps x ++ ',' :: dumpsItems (y :: rest)

def dumpsMembers : List (Bytes × Json) → Bytes
  | [] => []
  | [(k, v)] => quoted k ++ ':' :: dumps v
  | (k, v) :: m :: rest => quoted k ++ ':' :: dumps v ++ ',' :: dumpsMembers (m :: rest)

end

def isSpace (c : Char) : Bool := c = ' ' || c = '\t' || c = '\n' || c = '\r'

def skipSpace (t : Bytes) : Bytes := t.dropWhile isSpace

/-- The UTF-8 bytes of a code point. -/
def utf8Encode (n : ℕ) : Bytes :=
  if n < 0x80 then [Char.ofNat n]
  else if n < 0x800 then [Char.ofNat (0xC0 + n / 64), Char.ofNat (0x80 + n % 64)]
  else if n < 0x10000 then
    [Char.ofNat (0xE0 + n / 4096), Char.ofNat (0x80 + n / 64 % 64), Char.ofNat (0x80 + n % 64)]
  else
    [Char.ofNat (0xF0 + n / 262144), Char.ofNat (0x80 + n / 4096 % 64),
      Char.ofNat (0x80 + n / 64 % 64), Char.ofNat (0x80 + n % 64)]

def hexFour (a b c d : Char) : Option ℕ := do
  let w ← hexValue a
  let x ← hexValue b
  let y ← hexValue c
  let z ← hexValue d
  return ((w * 16 + x) * 16 + y) * 16 + z

def simpleEscape (c : Char) : Option Bytes :=
  if c = '"' then some ['"']
  else if c = '\\' then some ['\\']
  else if c = '/' then some ['/']
  else if c = 'b' then some [Char.ofNat 8]
  else if c = 'f' then some [Char.ofNat 12]
  else if c = 'n' then some ['\n']
  else if c = 'r' then some ['\r']
  else if c = 't' then some ['\t']
  else none

/-- The second half of a surrogate pair. -/
def lowSurrogate (high : ℕ) : Bytes → Option (Bytes × Bytes)
  | '\\' :: 'u' :: a :: b :: c :: d :: t => do
    let low ← hexFour a b c d
    if 0xDC00 ≤ low ∧ low ≤ 0xDFFF then
      some (utf8Encode (0x10000 + (high - 0xD800) * 1024 + (low - 0xDC00)), t)
    else none
  | _ => none

/-- What a backslash introduces: the bytes it stands for and the text after it. A zero
code point and a lone surrogate are rejected. -/
def unescape : Bytes → Option (Bytes × Bytes)
  | 'u' :: a :: b :: c :: d :: t => do
    let n ← hexFour a b c d
    if n = 0 then none
    else if 0xD800 ≤ n ∧ n ≤ 0xDBFF then lowSurrogate n t
    else if 0xDC00 ≤ n ∧ n ≤ 0xDFFF then none
    else some (utf8Encode n, t)
  | c :: t => (simpleEscape c).map fun s => (s, t)
  | [] => none

/-- The rest of a string literal, after its opening quote. -/
def parseString : ℕ → Bytes → Option (Bytes × Bytes)
  | 0, _ => none
  | _ + 1, [] => none
  | fuel + 1, c :: t =>
    if c = '"' then some ([], t)
    else if c = '\\' then
      (unescape t).bind fun u => (parseString fuel u.2).map fun r => (u.1 ++ r.1, r.2)
    else if c.toNat < 32 then none
    else (parseString fuel t).map fun r => (c :: r.1, r.2)

def parseFraction (t : Bytes) : Option (Bytes × Bytes) :=
  match t with
  | '.' :: t =>
    if t.takeWhile Char.isDigit = [] then none
    else some (t.takeWhile Char.isDigit, t.dropWhile Char.isDigit)
  | t => some ([], t)

def parseExponent (t : Bytes) : Option (Option ℤ × Bytes) :=
  match t with
  | e :: t =>
    if e = 'e' ∨ e = 'E' then
      let negative := t.head? = some '-'
      let t := if t.head? = some '-' ∨ t.head? = some '+' then t.tail else t
      if t.takeWhile Char.isDigit = [] then none
      else
        let n : ℤ := ofDecimal (t.takeWhile Char.isDigit)
        some (some (if negative then -n else n), t.dropWhile Char.isDigit)
    else some (none, e :: t)
  | [] => some (none, [])

/-- The real written with these digits and its decimal point after the first `point` of them. -/
def makeReal (negative : Bool) (ds : Bytes) (point : ℤ) : Option Json :=
  let ds := List.replicate (-point).toNat '0' ++ ds ++
    List.replicate (point - ds.length).toNat '0'
  let whole := ofDecimal (ds.take point.toNat)
  let fraction := if ds.drop point.toNat = [] then ['0'] else ds.drop point.toNat
  if h : fraction.all Char.isDigit = true ∧ fraction ≠ [] ∧ whole.log2 < 1024 then
    some (.real ⟨negative, whole, fraction, h.1, h.2.1, h.2.2⟩)
  else none

def makeInteger (negative : Bool) (ds : Bytes) : Option Json :=
  let n : ℤ := if negative then -(ofDecimal ds : ℤ) else ofDecimal ds
  if -2 ^ 63 ≤ n ∧ n < 2 ^ 63 then some (.integer (Int64.ofInt n)) else none

/-- Without a fraction and an exponent the number is an integer. -/
def makeNumber (negative : Bool) (whole fraction : Bytes) (exponent : Option ℤ) : Option Json :=
  match fraction, exponent with
  | [], none => makeInteger negative whole
  | fs, e => makeReal negative (whole ++ fs) (whole.length + e.getD 0)

def parseNumber (t : Bytes) : Option (Json × Bytes) :=
  let negative : Bool := t.head? = some '-'
  let t := if negative then t.tail else t
  let whole := t.takeWhile Char.isDigit
  if whole = [] ∨ (1 < whole.length ∧ whole.head? = some '0') then none
  else
    (parseFraction (t.dropWhile Char.isDigit)).bind fun f =>
      (parseExponent f.2).bind fun e =>
        (makeNumber negative whole f.1 e.1).map fun j => (j, e.2)

/-- The text after a fixed prefix. -/
def expect (word t : Bytes) : Option Bytes :=
  if word.isPrefixOf t then some (t.drop word.length) else none

mutual

/-- One value and the text after it. Each nested call reads at least one byte, so the
length of the text is enough fuel. -/
def parseValue : ℕ → Bytes → Option (Json × Bytes)
  | 0, _ => none
  | fuel + 1, t =>
    match skipSpace t with
    | [] => none
    | c :: t =>
      if c = '{' then
        match skipSpace t with
        | '}' :: rest => some (.object [], rest)
        | _ => (parseMembers fuel [] t).map fun r => (.object r.1, r.2)
      else if c = '[' then
        match skipSpace t with
        | ']' :: rest => some (.array [], rest)
        | _ => (parseItems fuel t).map fun r => (.array r.1, r.2)
      else if c = '"' then (parseString (t.length + 1) t).map fun r => (.string r.1, r.2)
      else if c = 'n' then (expect ['u', 'l', 'l'] t).map fun rest => (.null, rest)
      else if c = 't' then (expect ['r', 'u', 'e'] t).map fun rest => (.bool true, rest)
      else if c = 'f' then (expect ['a', 'l', 's', 'e'] t).map fun rest => (.bool false, rest)
      else parseNumber (c :: t)

/-- The items of a non-empty array, up to its closing bracket. -/
def parseItems : ℕ → Bytes → Option (List Json × Bytes)
  | 0, _ => none
  | fuel + 1, t => do
    let (x, t) ← parseValue fuel t
    match skipSpace t with
    | ',' :: t => (parseItems fuel t).map fun r => (x :: r.1, r.2)
    | ']' :: t => some ([x], t)
    | _ => none

/-- The members of a non-empty object, up to its closing brace; a repeated key replaces
the value it had. -/
def parseMembers : ℕ → List (Bytes × Json) → Bytes → Option (List (Bytes × Json) × Bytes)
  | 0, _, _ => none
  | fuel + 1, seen, t =>
    match skipSpace t with
    | '"' :: t => do
      let (k, t) ← parseString (t.length + 1) t
      match skipSpace t with
      | ':' :: t => do
        let (v, t) ← parseValue fuel t
        match skipSpace t with
        | ',' :: t => parseMembers fuel (assign seen k v) t
        | '}' :: t => some (assign seen k v, t)
        | _ => none
      | _ => none
    | _ => none

end

mutual

def depth : Json → ℕ
  | .array items => depthItems items + 1
  | .object members => depthMembers members + 1
  | _ => 1

def depthItems : List Json → ℕ
  | [] => 0
  | x :: rest => max (depth x) (depthItems rest)

def depthMembers : List (Bytes × Json) → ℕ
  | [] => 0
  | (_, v) :: rest => max (depth v) (depthMembers rest)

end

/-- A document is an array or an object. -/
def isDocument : Json → Bool
  | .array _ => true
  | .object _ => true
  | _ => false

/-- `json_loads`: the whole text is one document of bounded depth. -/
def loads (t : Bytes) : Option Json :=
  match parseValue (t.length + 1) t with
  | some (j, rest) =>
    if isDocument j && (skipSpace rest).isEmpty && depth j ≤ maxDepth then some j else none
  | none => none

end Aigate.JsonText
