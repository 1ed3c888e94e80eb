/-!
# Shortest decimal text of binary floating point numbers

A finite number is written with the fewest decimal digits that read back as the same number, and
of those with the digits nearest to it. Such a text is a point of the coarsest power-of-ten grid
that meets the interval of the reals which round to the number: a coarser grid has no point there,
so no shorter text reads back. The text is positional throughout and has no fraction when the
number is an integer.
-/

namespace BytecodeFlow.Text

/-- The layout of a binary floating point format, below its sign bit. -/
structure FloatFormat where
  /-- stored bits of the significand -/
  fractionBits : Nat
  /-- bits of the biased exponent -/
  exponentBits : Nat
deriving DecidableEq, Repr

/-- The 32-bit format. -/
def FloatFormat.single : FloatFormat := ⟨23, 8⟩

/-- The 64-bit format. -/
def FloatFormat.double : FloatFormat := ⟨52, 11⟩

/-- The magnitude `significand * 2 ^ exponent` of a finite number. -/
structure Magnitude where
  significand : Nat
  exponent : Int
  /-- whether the next smaller number is half as far away as the next larger one -/
  atBinade : Bool
deriving DecidableEq, Repr

/-- What a bit pattern of a floating point format stands for. -/
inductive FloatValue where
  | nan
  | infinite (negative : Bool)
  | finite (negative : Bool) (magnitude : Magnitude)
deriving DecidableEq, Repr

/-- Reads a bit pattern. -/
def FloatFormat.decode (format : FloatFormat) (bits : Nat) : FloatValue :=
  let fraction := bits % Nat.pow 2 format.fractionBits
  let biased := bits / Nat.pow 2 format.fractionBits % Nat.pow 2 format.exponentBits
  let negative := bits / Nat.pow 2 (format.fractionBits + format.exponentBits) % 2 == 1
  let bias : Int := (Nat.pow 2 (format.exponentBits - 1) - 1 + format.fractionBits : Nat)
  if biased = Nat.pow 2 format.exponentBits - 1 then
    if fraction = 0 then .infinite negative else .nan
  else if biased = 0 then
    .finite negative ⟨fraction, 1 - bias, false⟩
  else
    .finite negative
      ⟨Nat.pow 2 format.fractionBits + fraction, biased - bias, fraction = 0 && 1 < biased⟩

/-- The multiple of `10 ^ scale`, if there is one, that rounds to `m` and is nearest to it. Of two
equally near multiples the larger one is taken. The ends of the rounding interval belong to it
exactly if the significand is even. -/
def Magnitude.gridPoint? (m : Magnitude) (scale : Int) : Option Nat :=
  let twos := Nat.pow 2 (m.exponent - 2).toNat * Nat.pow 10 (-scale).toNat
  let unit := Nat.pow 10 scale.toNat * Nat.pow 2 (2 - m.exponent).toNat
  let value := 4 * m.significand * twos
  let low := (4 * m.significand - if m.atBinade then 1 else 2) * twos
  let high := (4 * m.significand + 2) * twos
  let inside (d : Nat) : Bool :=
    0 < d && if m.significand % 2 = 0 then low ≤ d * unit && d * unit ≤ high
      else low < d * unit && d * unit < high
  let below := value / unit
  match inside below, inside (below + 1) with
  | true, true => some (if value - below * unit < (below + 1) * unit - value then below else below + 1)
  | true, false => some below
  | false, true => some (below + 1)
  | false, false => none

/-- The coarsest grid point that rounds to `m`, with the scale of its grid. The scales tried cover
every finite number of at most 64 bits. -/
def Magnitude.shortest? (m : Magnitude) : Option (Nat × Int) :=
  (List.range 640).findSome? fun (step : Nat) =>
    let scale : Int := 310 - (step : Int)
    (m.gridPoint? scale).map fun digits => (digits, scale)

/-- The number `digits * 10 ^ scale` in positional notation. -/
def positional (digits : Nat) (scale : Int) : String :=
  let text := Nat.toDigits 10 digits
  let places := (-scale).toNat
  let padded := List.replicate (places + 1 - text.length) '0' ++ text ++ List.replicate scale.toNat '0'
  let whole := padded.length - places
  String.ofList (if places = 0 then padded else padded.take whole ++ '.' :: padded.drop whole)

/-- The text of a magnitude. Zero is written as one digit, since it lies on every grid. -/
def Magnitude.text (m : Magnitude) : String :=
  if m.significand = 0 then "0"
  else match m.shortest? with
    | some (digits, scale) => positional digits scale
    | none => "0"

/-- The text of the number with the given bit pattern. -/
def FloatFormat.text (format : FloatFormat) (bits : Nat) : String :=
  match format.decode bits with
  | .nan => "NaN"
  | .infinite negative => if negative then "-inf" else "inf"
  | .finite negative magnitude => if negative then "-" ++ magnitude.text else magnitude.text

end BytecodeFlow.Text
