import EditLens.Json.Basic

/-!
Writing JSON text: members in their order, no blanks, and characters outside ASCII as they are. A
key that is no string is written like the scalar, in quotes.
-/
namespace EditLens

namespace Text

def unitDigits (n : Nat) : List Char :=
  let digits := Nat.toDigits 16 n
  List.replicate (4 - digits.length) '0' ++ digits

def escaped (c : Char) : List Char :=
  match c with
  | '"' => ['\\', '"']
  | '\\' => ['\\', '\\']
  | '\n' => ['\\', 'n']
  | '\r' => ['\\', 'r']
  | '\t' => ['\\', 't']
  | c => if c.toNat < 0x20 then '\\' :: 'u' :: unitDigits c.toNat else [c]

def inDoubleQuotes (s : String) : String :=
  .ofList ('"' :: s.toList.flatMap escaped ++ ['"'])

end Text

def Scalar.spelled : Scalar → String
  | .null => "null"
  | .bool b => if b then "true" else "false"
  | .int n => toString n
  | .float x => x.text
  | .str s => s

namespace Json

mutual

def write : Json → String
  | .str s => Text.inDoubleQuotes s
  | .scalar s => s.spelled
  | .arr es => "[" ++ ",".intercalate (writeElements es) ++ "]"
  | .obj ms => "\x7b" ++ ",".intercalate (writeMembers ms) ++ "\x7d"

def writeElements : List Json → List String
  | [] => []
  | e :: rest => write e :: writeElements rest

def writeMembers : List (Scalar × Json) → List String
  | [] => []
  | (k, v) :: rest => (Text.inDoubleQuotes k.spelled ++ ":" ++ write v) :: writeMembers rest

end

end Json

end EditLens
