/-!
# Floating-point numbers in decimal

A finite floating-point number stands for all reals that round to it. `shortest` finds the decimal
with the fewest digits among them, and of several with as few the one nearest to the number. It works
on naturals throughout. `numeral` lays the digits out.
-/

namespace Pegboard.Text

/-- The number `m * 2 ^ q`. -/
structure Binary where
  m : Nat
  q : Int
  /-- Whether the next number below is half as far away as the next one above. -/
  narrow : Bool
  deriving DecidableEq, Repr

namespace Binary

/-- The bit in front of the 52 bits that are stored of a number. -/
def hidden : Nat := 1 <<< 52

/-- The absolute value of the number with these bits, which has to be finite. -/
def ofBits (bits : UInt64) : Binary :=
  let exponent := (bits >>> 52).toNat % 2048
  let fraction := bits.toNat % hidden
  if exponent = 0 then ⟨fraction, -1074, false⟩
  else ⟨hidden + fraction, (exponent : Int) - 1075, fraction = 0 && 1 < exponent⟩

end Binary

/-- The number `digits * 10 ^ exponent`. -/
structure Decimal where
  digits : Nat
  exponent : Int
  deriving DecidableEq, Repr

namespace Decimal

/-- The power of ten with an exponent, or one if that is negative. -/
def power (exponent : Int) : Nat := Nat.pow 10 exponent.toNat

/-- Compares the decimal with `n * 2 ^ j`. -/
def compareBinary (d : Decimal) (n : Nat) (j : Int) : Ordering :=
  compare ((d.digits * power d.exponent) <<< (-j).toNat)
    ((n * power (-d.exponent)) <<< j.toNat)

/-- Whether the decimal rounds to the number. A decimal halfway to a neighbour does if `m` is even. -/
def roundsTo (d : Decimal) (x : Binary) : Bool :=
  let below := d.compareBinary (4 * x.m - if x.narrow then 1 else 2) (x.q - 2)
  let above := d.compareBinary (4 * x.m + 2) (x.q - 2)
  if x.m % 2 = 0 then below != .lt && above != .gt else below == .gt && above == .lt

/-- The decimal without zeros at its end, of which at most `n` are taken away. -/
def stripped : Nat → Decimal → Decimal
  | 0, d => d
  | n + 1, d =>
    if d.digits ≠ 0 ∧ d.digits % 10 = 0 then stripped n ⟨d.digits / 10, d.exponent + 1⟩ else d

end Decimal

namespace Binary

/-- The whole multiples of `10 ^ k` in the number. -/
def multiples (x : Binary) (k : Int) : Nat :=
  ((x.m * Decimal.power (-k)) <<< x.q.toNat) / (Decimal.power k <<< (-x.q).toNat)

/-- The decimal exponent of the first digit. No number is below `10 ^ -400`. -/
def leading (x : Binary) : Int :=
  ((Nat.toDigits 10 (x.multiples (-400))).length : Int) - 401

/-- The better one of the two neighbours on the grid of `10 ^ k` that round to the number, if either
does: the nearer one, and of two as near the even one. -/
def onGrid? (x : Binary) (k : Int) : Option Decimal :=
  let n := x.multiples k
  let (down, up) : Decimal × Decimal := (⟨n, k⟩, ⟨n + 1, k⟩)
  if !up.roundsTo x then if down.roundsTo x then some down else none
  else if !down.roundsTo x then some up
  else
    match Decimal.compareBinary ⟨2 * n + 1, k⟩ (2 * x.m) x.q with
    | .gt => some down
    | .lt => some up
    | .eq => some (if n % 2 = 0 then down else up)

/-- The decimal with the fewest digits that rounds to the number. Seventeen are always enough. -/
def shortest (x : Binary) : Decimal :=
  match (List.range 17).findSome? fun (n : Nat) => x.onGrid? (x.leading - n) with
  | some d => d.stripped 17
  | none => ⟨x.multiples (x.leading - 16), x.leading - 16⟩

end Binary

/-! ### Layout -/

/-- The digits with the point behind the first of them and an exponent, of at least two digits, with
its sign. -/
def scientific (digits : List Char) (exponent : Int) : List Char :=
  let size := Nat.toDigits 10 exponent.natAbs
  digits.take 1 ++ (if digits.length = 1 then [] else '.' :: digits.drop 1)
    ++ ['e', if exponent < 0 then '-' else '+']
    ++ (if size.length = 1 then '0' :: size else size)

/-- The digits with the point in its place, and at least one digit on either side of it. -/
def positional (digits : List Char) (exponent : Int) : List Char :=
  if exponent < 0 then
    '0' :: '.' :: (List.replicate (exponent.natAbs - 1) '0' ++ digits)
  else
    let whole := exponent.toNat + 1
    let fraction := digits.drop whole
    digits.take whole ++ List.replicate (whole - digits.length) '0'
      ++ '.' :: (if fraction.isEmpty then ['0'] else fraction)

/-- The shortest text of a finite number. Exponents of the first digit from -5 to 15 are not
written. -/
def numeral (x : Float) : String :=
  let b := Binary.ofBits x.toBits
  let d := if b.m = 0 then ⟨0, 0⟩ else b.shortest
  let digits := Nat.toDigits 10 d.digits
  let exponent := d.exponent + digits.length - 1
  let text :=
    if -5 ≤ exponent ∧ exponent ≤ 15 then positional digits exponent
    else scientific digits exponent
  String.ofList (if x.toBits >>> 63 = 1 then '-' :: text else text)

end Pegboard.Text
