/-!
# Shortest decimals

The text of a floating point number: as few digits as tell it apart from its neighbours, and of
those the nearest. The search is the definition: on each decimal grid, coarsest first, it tests the
two points around the value, in exact arithmetic.
-/

set_option autoImplicit false

namespace AmdModules.Decimal

/-- A finite value that is not negative: `m * 2 ^ q`. -/
structure Binary where
  m : Nat
  q : Int
  /-- Whether the gap to the value below is half the gap to the value above. -/
  narrowBelow : Bool

/-- The value of the bits of a finite number, its sign left out. -/
def Binary.ofBits (b : UInt64) : Binary :=
  let e := ((b >>> 52) &&& 0x7FF).toNat
  let f := (b &&& 0xFFFFFFFFFFFFF).toNat
  if e == 0 then ⟨f, -1074, false⟩ else ⟨0x10000000000000 + f, (e : Int) - 1075, f == 0 && e > 1⟩

/-- The number `digits * 10 ^ exponent`. -/
structure Scaled where
  digits : Nat
  exponent : Int
deriving DecidableEq, Repr

/-- Compares `a * 10 ^ i` with `n * 2 ^ j`. -/
def compareScaled (a : Nat) (i : Int) (n : Nat) (j : Int) : Ordering :=
  compare (a * Nat.pow 10 i.toNat * Nat.pow 2 (-j).toNat)
    (n * Nat.pow 2 j.toNat * Nat.pow 10 (-i).toNat)

/-- Whether a decimal is nearer to the value than to its neighbours; halfway counts for a value with
an even `m`. -/
def Binary.readsBack (x : Binary) (d : Scaled) : Bool :=
  let low := compareScaled d.digits d.exponent (4 * x.m - if x.narrowBelow then 1 else 2) (x.q - 2)
  let high := compareScaled d.digits d.exponent (4 * x.m + 2) (x.q - 2)
  let even := x.m % 2 == 0
  (low == .gt || (even && low == .eq)) && (high == .lt || (even && high == .eq))

/-- The least `k` from `start` on, within `steps`, with the value below `10 ^ k`. -/
def Binary.scaleFrom (x : Binary) (start : Int) : Nat → Int
  | 0 => start
  | steps + 1 =>
    if compareScaled 1 start x.m x.q == .gt then start else x.scaleFrom (start + 1) steps

/-- The point of the grid `10 ^ exponent` just below the value. -/
def Binary.floorOn (x : Binary) (exponent : Int) : Nat :=
  (x.m * Nat.pow 2 x.q.toNat * Nat.pow 10 (-exponent).toNat)
    / (Nat.pow 2 (-x.q).toNat * Nat.pow 10 exponent.toNat)

/-- The decimal on one grid, if one of the two points around the value reads back; the nearer of
two, and at equal distance the even one. -/
def Binary.onGrid? (x : Binary) (exponent : Int) : Option Scaled :=
  let below : Scaled := ⟨x.floorOn exponent, exponent⟩
  let above : Scaled := ⟨below.digits + 1, exponent⟩
  match x.readsBack below, x.readsBack above with
  | true, true =>
    match compareScaled (2 * below.digits + 1) exponent (2 * x.m) x.q with
    | .gt => some below
    | .lt => some above
    | .eq => some (if below.digits % 2 == 0 then below else above)
  | true, false => some below
  | false, true => some above
  | false, false => none

/-- Moves trailing zeros into the exponent. -/
def Scaled.strip : Nat → Scaled → Scaled
  | 0, d => d
  | steps + 1, d =>
    if d.digits % 10 == 0 && d.digits != 0 then strip steps ⟨d.digits / 10, d.exponent + 1⟩ else d

/-- The shortest decimal of a value that is not zero. Seventeen digits always suffice. -/
def Binary.shortest (x : Binary) : Scaled :=
  let scale := x.scaleFrom (-330) 700
  let found := (List.range 17).findSome? fun (n : Nat) => x.onGrid? (scale - (n + 1 : Nat))
  (found.getD ⟨x.floorOn (scale - 17), scale - 17⟩).strip 20

/-- The text of a decimal. With up to sixteen digits before the point, or up to four zeros behind
it, the number is written out; beyond, with an exponent. -/
def Scaled.text (d : Scaled) : String :=
  let digits := Nat.toDigits 10 d.digits
  let length : Int := digits.length
  let point := length + d.exponent
  let zeros (n : Int) := List.replicate n.toNat '0'
  let spelled : List Char :=
    if 0 ≤ d.exponent && point ≤ 16 then digits ++ zeros d.exponent ++ ['.', '0']
    else if 0 < point && point ≤ 16 then
      digits.take point.toNat ++ ['.'] ++ digits.drop point.toNat
    else if -5 < point && point ≤ 0 then ['0', '.'] ++ zeros (-point) ++ digits
    else
      let mantissa := match digits with
        | [] | [_] => digits
        | first :: others => first :: '.' :: others
      mantissa ++ ['e'] ++ (toString (point - 1)).toList
  String.ofList spelled

/-- The text of a finite floating point number. -/
def floatText (f : Float) : String :=
  let bits := f.toBits
  let x := Binary.ofBits bits
  let sign := if bits >>> 63 == 1 then "-" else ""
  sign ++ if x.m == 0 then "0.0" else x.shortest.text

end AmdModules.Decimal
