import EditLens.Number.Binary64

/-!
The shortest decimal that reads back as a given binary64 number, and the text of a number in it.
-/
namespace EditLens

structure Decimal where
  digits : Nat
  exponent : Int
  deriving DecidableEq, Inhabited, Repr

namespace Decimal

def leading (num den : Nat) : Int :=
  if den ≤ num then (Nat.toDigits 10 (num / den)).length - 1
  else
    let places := (Nat.toDigits 10 ((den + num - 1) / num - 1)).length
    Int.neg places

/-- The neighbours of `value / den` on the grid of multiples of `10 ^ exponent`, kept if they lie
between `low / den` and `high / den`; of two, the nearer one, and of equally near ones the even. -/
def onGrid? (inclusive : Bool) (low value high den : Nat) (exponent : Int) : Option Decimal :=
  let scale := Nat.pow 10 (-exponent).toNat
  let step := den * Nat.pow 10 exponent.toNat
  let below := value * scale / step
  let above := below + 1
  let lowKept := if inclusive then low * scale ≤ below * step else low * scale < below * step
  let highKept := if inclusive then above * step ≤ high * scale else above * step < high * scale
  let downward := value * scale - below * step
  let upward := above * step - value * scale
  if lowKept && (!highKept || downward < upward || (downward == upward && below % 2 == 0)) then
    some ⟨below, exponent⟩
  else if highKept then some ⟨above, exponent⟩
  else none

/-- The decimal of fewest digits that rounds to a finite positive number, and the nearest of those.
Four times the significand makes the ends of the rounding interval whole; below a power of two it
reaches only half as far, and its ends belong to it if the significand is even. -/
def shortest (x : Binary64) : Decimal :=
  let num := 4 * x.significand
  let narrow := x.fraction == 0 && 1 < x.biased
  let power := x.exponent - 2
  let up := Nat.pow 2 power.toNat
  let den := Nat.pow 2 (-power).toNat
  let low := (num - if narrow then 1 else 2) * up
  let high := (num + 2) * up
  let inclusive := x.significand % 2 == 0
  let lead := leading (num * up) den
  let found := (List.range 17).findSome? fun (n : Nat) =>
    onGrid? inclusive low (num * up) high den (lead - n)
  found.getD ⟨num * up, 0⟩

def trimZeros : List Char → List Char × Nat := fun ds =>
  let zeros := (ds.reverse.takeWhile (· == '0')).length
  (ds.take (ds.length - zeros), zeros)

/-- A decimal is written out if its point falls from three places before the digits to sixteen
behind the first one, and otherwise with a signed exponent of at least two digits. -/
def text (d : Decimal) : String :=
  let (ds, zeros) := trimZeros (Nat.toDigits 10 d.digits)
  let point := d.exponent + zeros + ds.length
  let chars :=
    if point ≤ -4 || 16 < point then
      let mantissa := match ds with
        | c :: rest@(_ :: _) => c :: '.' :: rest
        | short => short
      let shown := Nat.toDigits 10 (point - 1).natAbs
      mantissa ++ ['e', if point ≤ 0 then '-' else '+'] ++
        List.replicate (2 - shown.length) '0' ++ shown
    else if point ≤ 0 then ['0', '.'] ++ List.replicate (-point).toNat '0' ++ ds
    else if point < ds.length then ds.take point.toNat ++ '.' :: ds.drop point.toNat
    else ds ++ List.replicate (point.toNat - ds.length) '0' ++ ['.', '0']
  String.ofList chars

end Decimal

def Binary64.text (x : Binary64) : String :=
  if x.isNaN then "nan"
  else
    let body :=
      if x.isInfinite then "inf"
      else if x.significand = 0 then "0.0"
      else (Decimal.shortest x).text
    if x.negative then "-" ++ body else body

end EditLens
