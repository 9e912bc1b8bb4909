/-!
Decimal text of binary floating-point numbers: the fewest digits that read back as the same
number. A finite number is decoded to a natural mantissa and a power of two. It stands for the
interval of all reals that are rounded to it, and a decimal is tried on ever finer grids until
one of the two grid points beside the number lies in that interval. All comparisons are between
natural numbers.
-/
namespace InfraLint.Decimal

/-- The number `mantissa * 2 ^ exponent`. The number below it is only half as far away as the
one above if `narrowBelow` is set. -/
structure Binary where
  mantissa : Nat
  exponent : Int
  narrowBelow : Bool
  deriving DecidableEq, Repr

structure Digits where
  digits : Nat
  exponent : Int
  deriving DecidableEq, Repr

def Binary.ofBits (bits : UInt64) : Binary :=
  let biased := ((bits >>> 52) &&& 0x7FF).toNat
  let fraction := (bits &&& 0xFFFFFFFFFFFFF).toNat
  if biased = 0 then ⟨fraction, -1074, false⟩
  else ⟨Nat.pow 2 52 + fraction, (biased : Int) - 1075, fraction == 0 && biased > 1⟩

def compareScaled (n : Nat) (i : Int) (m : Nat) (j : Int) : Ordering :=
  compare (n * Nat.pow 10 i.toNat * Nat.pow 2 (-j).toNat)
    (m * Nat.pow 2 j.toNat * Nat.pow 10 (-i).toNat)

/-- Whether `d` is rounded to `x`. The ends of the interval belong to the even mantissa. -/
def Binary.readsBack (x : Binary) (d : Digits) : Bool :=
  let low := if x.narrowBelow then 4 * x.mantissa - 1 else 4 * x.mantissa - 2
  let high := 4 * x.mantissa + 2
  let closed := x.mantissa % 2 == 0
  let below := compareScaled d.digits d.exponent low (x.exponent - 2)
  let above := compareScaled d.digits d.exponent high (x.exponent - 2)
  (below == .gt || (closed && below == .eq)) && (above == .lt || (closed && above == .eq))

def Binary.scale (x : Binary) : Int :=
  let ks := (List.range 640).map fun (i : Nat) => (i : Int) - 330
  (ks.find? fun k => compareScaled 1 k x.mantissa x.exponent == .gt).getD 310

def Binary.floorOn (x : Binary) (k : Int) : Nat :=
  (x.mantissa * Nat.pow 2 x.exponent.toNat * Nat.pow 10 (-k).toNat) /
    (Nat.pow 10 k.toNat * Nat.pow 2 (-x.exponent).toNat)

/-- The grid point beside `x` that reads back; of two the nearer, and of two equally near the
even one. -/
def Binary.candidate (x : Binary) (k : Int) : Option Digits :=
  let n := x.floorOn k
  let lower : Digits := ⟨n, k⟩
  let upper : Digits := ⟨n + 1, k⟩
  match x.readsBack lower, x.readsBack upper with
  | false, false => none
  | true, false => some lower
  | false, true => some upper
  | true, true =>
    match compareScaled (2 * n + 1) k (2 * x.mantissa) x.exponent with
    | .gt => some lower
    | .lt => some upper
    | .eq => some (if n % 2 = 0 then lower else upper)

/-- The first grid with a point that reads back, from the coarsest. Seventeen digits are enough
for every finite number; the exact value stands behind them all the same. -/
def Binary.shortest (x : Binary) : Digits :=
  let grids := (List.range 17).map fun (n : Nat) => x.scale - (n : Int) - 1
  (grids.findSome? x.candidate).getD
    ⟨x.mantissa * Nat.pow 2 x.exponent.toNat * Nat.pow 5 (-x.exponent).toNat,
      -(-x.exponent).toNat⟩

def stripZeros : List Char → List Char
  | [] => []
  | c :: rest =>
    match c, stripZeros rest with
    | '0', [] => []
    | c, stripped => c :: stripped

/-- Significant digits with the exponent of the first one. Numbers from `10 ^ -4` up to below
`10 ^ 16` are written positionally, with at least one digit behind the point. -/
def layOut (digits : List Char) (leading : Int) : String :=
  if -4 ≤ leading ∧ leading < 16 then
    if leading < 0 then
      "0." ++ String.ofList (List.replicate ((-leading).toNat - 1) '0' ++ digits)
    else
      let whole := leading.toNat + 1
      let before := digits.take whole ++ List.replicate (whole - digits.length) '0'
      let after := if digits.length ≤ whole then ['0'] else digits.drop whole
      String.ofList (before ++ '.' :: after)
  else
    let point := if digits.length = 1 then [] else '.' :: digits.drop 1
    let size := toString leading.natAbs
    String.ofList (digits.take 1 ++ point) ++ (if leading < 0 then "e-" else "e+") ++
      (if size.length < 2 then "0" ++ size else size)

def Binary.render (x : Binary) : String :=
  if x.mantissa = 0 then "0.0"
  else
    let d := x.shortest
    let digits := Nat.toDigits 10 d.digits
    layOut (stripZeros digits) (d.exponent + digits.length - 1)

structure SpecialTexts where
  notANumber : String
  infinite : String
  negativeInfinite : String

def render (special : SpecialTexts) (x : Float) : String :=
  let bits := x.toBits
  let negative := bits >>> 63 != 0
  if (bits >>> 52) &&& 0x7FF == 0x7FF then
    if bits &&& 0xFFFFFFFFFFFFF != 0 then special.notANumber
    else if negative then special.negativeInfinite else special.infinite
  else (if negative then "-" else "") ++ (Binary.ofBits bits).render

/-- The number nearest to `digits * 10 ^ exponent`. Far outside the range of finite numbers the
digits no longer matter. -/
def toFloat (negative : Bool) (digits : Nat) (exponent : Int) : Float :=
  let leading := exponent + (toString digits).length
  let magnitude :=
    if digits = 0 ∨ leading < -400 then 0.0
    else if leading > 400 then 1.0 / 0.0
    else if exponent < 0 then Float.ofScientific digits true exponent.natAbs
    else Float.ofScientific digits false exponent.natAbs
  if negative then -magnitude else magnitude

end InfraLint.Decimal
