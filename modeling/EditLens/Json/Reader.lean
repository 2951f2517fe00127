import EditLens.Json.Basic

/-!
Reading JSON text. A member that is given twice keeps its first place and takes the last value; a
number with a point or an exponent is binary64, and the words for the infinities and for no number
are read too. Control characters stand in no string.
-/
namespace EditLens.Json

inductive Token where
  | openArr
  | closeArr
  | openObj
  | closeObj
  | colon
  | comma
  | leaf (s : Scalar)
  deriving DecidableEq, Inhabited

namespace Token

def isBlank (c : Char) : Bool := c = ' ' || c = '\t' || c = '\n' || c = '\r'

def hexDigit? (c : Char) : Option Nat :=
  if '0' ≤ c && c ≤ '9' then some (c.toNat - '0'.toNat)
  else if 'a' ≤ c && c ≤ 'f' then some (c.toNat - 'a'.toNat + 10)
  else if 'A' ≤ c && c ≤ 'F' then some (c.toNat - 'A'.toNat + 10)
  else none

def hex4? : List Char → Option Nat
  | [a, b, c, d] => do
    let a ← hexDigit? a
    let b ← hexDigit? b
    let c ← hexDigit? c
    let d ← hexDigit? d
    some (((a * 16 + b) * 16 + c) * 16 + d)
  | _ => none

def escape? : Char → Option Char
  | '"' => some '"'
  | '\\' => some '\\'
  | '/' => some '/'
  | 'b' => some '\x08'
  | 'f' => some '\x0c'
  | 'n' => some '\n'
  | 'r' => some '\r'
  | 't' => some '\t'
  | _ => none

/-- The code units of a string up to its closing quote, and the text behind it. Units above 16 bits
come from characters that stand unescaped. -/
def units? : List Char → Option (List Nat × List Char)
  | [] => none
  | '"' :: rest => some ([], rest)
  | '\\' :: 'u' :: a :: b :: c :: d :: rest => do
    let unit ← hex4? [a, b, c, d]
    let (more, rest) ← units? rest
    some (unit :: more, rest)
  | '\\' :: e :: rest => do
    let c ← escape? e
    let (more, rest) ← units? rest
    some (c.toNat :: more, rest)
  | c :: rest =>
    if c.toNat < 0x20 then none
    else do
      let (more, rest) ← units? rest
      some (c.toNat :: more, rest)

/-- The characters of code units: a high surrogate before a low one makes one character, and a lone
surrogate becomes the replacement character. -/
def ofUnits : List Nat → List Char
  | [] => []
  | [unit] => [if 0xd800 ≤ unit && unit < 0xe000 then '\ufffd' else .ofNat unit]
  | high :: low :: rest =>
    if 0xd800 ≤ high && high < 0xdc00 && 0xdc00 ≤ low && low < 0xe000 then
      .ofNat (0x10000 + (high - 0xd800) * 0x400 + (low - 0xdc00)) :: ofUnits rest
    else
      (if 0xd800 ≤ high && high < 0xe000 then '\ufffd' else .ofNat high) :: ofUnits (low :: rest)

def digitsValue (ds : List Char) : Nat := ds.foldl (fun n d => n * 10 + (d.toNat - 48)) 0

/-- The whole part of a number: no digit stands behind a leading zero. -/
def whole? (cs : List Char) : Option (List Char × List Char) :=
  match cs with
  | '0' :: rest => some (['0'], rest)
  | _ =>
    let ds := cs.takeWhile Char.isDigit
    if ds.isEmpty then none else some (ds, cs.drop ds.length)

def fractional (cs : List Char) : List Char × List Char :=
  match cs with
  | '.' :: rest =>
    let ds := rest.takeWhile Char.isDigit
    if ds.isEmpty then ([], cs) else (ds, rest.drop ds.length)
  | _ => ([], cs)

def exponential (cs : List Char) : Option Int × List Char :=
  match cs with
  | e :: rest =>
    if e = 'e' || e = 'E' then
      let (negative, rest) := match rest with
        | '-' :: r => (true, r)
        | '+' :: r => (false, r)
        | r => (false, r)
      let ds := rest.takeWhile Char.isDigit
      if ds.isEmpty then (none, cs)
      else
        let n : Int := digitsValue ds
        (some (if negative then -n else n), rest.drop ds.length)
    else (none, cs)
  | [] => (none, cs)

def number? (negative : Bool) (cs : List Char) : Option (Scalar × List Char) := do
  let (ds, rest) ← whole? cs
  let (fs, rest) := fractional rest
  let (exponent, rest) := exponential rest
  if fs.isEmpty && exponent.isNone then
    let n : Int := digitsValue ds
    some (.int (if negative then -n else n), rest)
  else
    let point : Int := exponent.getD 0 - fs.length
    some (.float (.ofDecimal negative (digitsValue (ds ++ fs)) point), rest)

def words : List (String × Scalar) :=
  [("null", .null), ("true", .bool true), ("false", .bool false), ("NaN", .float .nan),
    ("Infinity", .float (.infinity false)), ("-Infinity", .float (.infinity true))]

def next? (cs : List Char) : Option (Token × List Char) :=
  match cs with
  | '[' :: rest => some (.openArr, rest)
  | ']' :: rest => some (.closeArr, rest)
  | '\x7b' :: rest => some (.openObj, rest)
  | '\x7d' :: rest => some (.closeObj, rest)
  | ':' :: rest => some (.colon, rest)
  | ',' :: rest => some (.comma, rest)
  | '"' :: rest => do
    let (units, rest) ← units? rest
    some (.leaf (.str (.ofList (ofUnits units))), rest)
  | _ =>
    match words.find? fun (word, _) => word.toList.isPrefixOf cs with
    | some (word, s) => some (.leaf s, cs.drop word.length)
    | none => do
      let (s, rest) ← match cs with
        | '-' :: rest => number? true rest
        | _ => number? false cs
      some (.leaf s, rest)

/-- The tokens of a text. Each step takes at least a character, so the length of the text bounds
their number. -/
def scan : Nat → List Char → Option (List Token)
  | 0, _ => none
  | fuel + 1, cs =>
    match cs.dropWhile isBlank with
    | [] => some []
    | cs => do
      let (token, rest) ← next? cs
      let more ← scan fuel rest
      some (token :: more)

end Token

/-- A container that is still open: an array with its elements so far, the last one first, an object
with its members so far, or an object with the key whose value comes next. -/
inductive Frame where
  | elements (reversed : List Json)
  | members (done : Members)
  | member (done : Members) (key : Scalar)
  deriving Inhabited

inductive Expected where
  | value
  | valueOrClose
  | key
  | keyOrClose
  | colon (key : Scalar)
  | behind (last : Json)
  deriving Inhabited

/-- Reads the tokens one by one; the frames are the open containers, the innermost one first. -/
def build : List Token → Expected → List Frame → Option Json
  | [], .behind last, [] => some last
  | .leaf s :: rest, .value, frames => build rest (.behind (.scalar s)) frames
  | .leaf s :: rest, .valueOrClose, frames => build rest (.behind (.scalar s)) frames
  | .openArr :: rest, .value, frames => build rest .valueOrClose (.elements [] :: frames)
  | .openArr :: rest, .valueOrClose, frames => build rest .valueOrClose (.elements [] :: frames)
  | .openObj :: rest, .value, frames => build rest .keyOrClose (.members [] :: frames)
  | .openObj :: rest, .valueOrClose, frames => build rest .keyOrClose (.members [] :: frames)
  | .closeArr :: rest, .valueOrClose, .elements _ :: frames => build rest (.behind (.arr [])) frames
  | .closeObj :: rest, .keyOrClose, .members _ :: frames => build rest (.behind (.obj [])) frames
  | .leaf (.str s) :: rest, .key, frames => build rest (.colon (.str s)) frames
  | .leaf (.str s) :: rest, .keyOrClose, frames => build rest (.colon (.str s)) frames
  | .colon :: rest, .colon key, .members done :: frames =>
    build rest .value (.member done key :: frames)
  | .comma :: rest, .behind last, .elements done :: frames =>
    build rest .value (.elements (last :: done) :: frames)
  | .closeArr :: rest, .behind last, .elements done :: frames =>
    build rest (.behind (.arr (last :: done).reverse)) frames
  | .comma :: rest, .behind last, .member done key :: frames =>
    build rest .key (.members (Members.put done key last) :: frames)
  | .closeObj :: rest, .behind last, .member done key :: frames =>
    build rest (.behind (.obj (Members.put done key last))) frames
  | _, _, _ => none

def parse? (text : String) : Option Json := do
  let tokens ← Token.scan (text.length + 1) text.toList
  build tokens .value []

end EditLens.Json
