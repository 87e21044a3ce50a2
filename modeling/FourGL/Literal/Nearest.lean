/-!
# Nearest binary floating point number

A decimal number `mantissa · 10 ^ exponent` is rounded to the nearest binary number with 53
significant bits and exponents from -1074 on, a tie to the one with an even last bit; what is too
large becomes infinity. The result is the 64-bit pattern: exponent field and significand are added
as integers, so a significand that rounds up to the next power of two carries into the exponent.
-/

namespace FourGL.Nearest

/-- The quotient rounded to the nearest integer, a tie to the even one. -/
def divRound (num den : Nat) : Nat :=
  let q := num / den
  let twice := 2 * (num % den)
  if twice < den ∨ (twice = den ∧ q % 2 = 0) then q else q + 1

/-- The bit pattern of infinity. -/
def infinityBits : Nat := 0x7ff <<< 52

/-- The bit pattern of the quiet number that is none. -/
def nanBits : Nat := 0x7ff8 <<< 48

/-- The bit that makes a number negative. -/
def signBit : Nat := 1 <<< 63

/-- The number of units of size `2 ^ scale` in `num / den`, as a fraction. -/
def inUnits (num den : Nat) (scale : Int) : Nat × Nat :=
  match scale with
  | .ofNat s => (num, den <<< s)
  | .negSucc s => (num <<< (s + 1), den)

/-- The bit pattern nearest to the positive fraction `num / den`. -/
def ofFraction (num den : Nat) : Nat :=
  let guess := max ((num.log2 : Int) - den.log2 - 52) (-1074)
  let (n, d) := inUnits num den guess
  let scale := if n / d < 1 <<< 52 ∧ -1074 < guess then guess - 1 else guess
  let (n, d) := inUnits num den scale
  let significand := divRound n d
  let bits :=
    if significand < 1 <<< 52 then significand
    else ((scale + 1074).toNat <<< 52) + significand
  min bits infinityBits

/-- The bit pattern nearest to `mantissa · 10 ^ exponent`, where the mantissa has the given number
of decimal digits. Numbers far outside the range are not computed out. -/
def ofDecimal (mantissa digits : Nat) (exponent : Int) : Nat :=
  if mantissa = 0 then 0
  else if 310 < digits + exponent then infinityBits
  else if digits + exponent < -330 then 0
  else match exponent with
    | .ofNat e => ofFraction (mantissa * Nat.pow 10 e) 1
    | .negSucc e => ofFraction mantissa (Nat.pow 10 (e + 1))

end FourGL.Nearest
