import EditLens.Json.Access

/-!
JSON pointers. A path is the list of its tokens; its text puts a slash before each token, and writes
a tilde in a token as `~0` and a slash as `~1`.
-/
namespace EditLens

abbrev Path := List String

namespace Pointer

def escape : List Char → List Char
  | [] => []
  | '~' :: rest => '~' :: '0' :: escape rest
  | '/' :: rest => '~' :: '1' :: escape rest
  | c :: rest => c :: escape rest

def tokens? : List Char → Option (List Char × List (List Char))
  | [] => some ([], [])
  | '/' :: rest => (tokens? rest).map fun (t, ts) => ([], t :: ts)
  | '~' :: '0' :: rest => (tokens? rest).map fun (t, ts) => ('~' :: t, ts)
  | '~' :: '1' :: rest => (tokens? rest).map fun (t, ts) => ('/' :: t, ts)
  | '~' :: _ => none
  | c :: rest => (tokens? rest).map fun (t, ts) => (c :: t, ts)

/-- Takes a path apart. The empty text is the path to the whole document; any other path starts with
a slash, and each tilde in it is part of an escape. -/
def split? (text : String) : Option Path :=
  match text.toList with
  | [] => some []
  | '/' :: rest => (tokens? rest).map fun (t, ts) => (t :: ts).map String.ofList
  | _ => none

def joinChars : Path → List Char
  | [] => []
  | t :: ts => '/' :: escape t.toList ++ joinChars ts

def join (path : Path) : String := .ofList (joinChars path)

def ofJson : Json → Except Fault Path
  | .str s =>
    match split? s with
    | some path => .ok path
    | none => .error .badPointer
  | _ => .error .wrongKind

def through (v : Json) : Except Fault Path := do
  return (← v.asList).map Json.plain

/-- Whether a token counts elements: ASCII digits, and possibly one line break behind them. -/
def isIndex (token : String) : Bool :=
  let cs := token.toList
  let digits := if cs.getLast? = some '\n' then cs.dropLast else cs
  !digits.isEmpty && digits.all Char.isDigit

/-- The position in an array that a token gives: digits without a leading zero. -/
def position? (token : String) : Option Nat :=
  match token.toList with
  | [] => none
  | ['0'] => some 0
  | '0' :: _ => none
  | ds =>
    if ds.all Char.isDigit then some (ds.foldl (fun n d => n * 10 + (d.toNat - 48)) 0) else none

end Pointer

end EditLens
