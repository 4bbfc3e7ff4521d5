/-!
# Scientific notation

A binary floating-point number is a sign, a natural mantissa and a power of two. `Scientific.text` writes it
with one digit before the point and `Scientific.places` behind it, taken from the exact value and rounded to
nearest, a tie to the even neighbour; the exponent has neither a plus sign nor leading zeros.
-/
namespace BlockElimination

/-- The value of a binary floating-point number: `finite s m q` is `± m · 2^q`, negative iff `s`. -/
inductive BinaryValue
  | nan
  | infinite (negative : Bool)
  | finite (negative : Bool) (mantissa : Nat) (exponent : Int)
  deriving DecidableEq

namespace BinaryValue

/-- Decodes an interchange format with `e` exponent bits and `p` fraction bits. -/
def ofBits (e p : Nat) (bits : Nat) : BinaryValue :=
  let negative := bits / Nat.pow 2 (e + p) % 2 == 1
  let biased := bits / Nat.pow 2 p % Nat.pow 2 e
  let fraction := bits % Nat.pow 2 p
  let lowest : Int := 2 - Int.pow 2 (e - 1) - p
  if biased = Nat.pow 2 e - 1 then
    if fraction = 0 then infinite negative else nan
  else if biased = 0 then finite negative fraction lowest
  else finite negative (Nat.pow 2 p + fraction) (lowest + (biased - 1))

end BinaryValue

/-- Scalars whose exact binary value is known. -/
class HasBinaryValue (F : Type) where
  binaryValue : F → BinaryValue

instance : HasBinaryValue Float := ⟨fun x => .ofBits 11 52 x.toBits.toNat⟩
instance : HasBinaryValue Float32 := ⟨fun x => .ofBits 8 23 x.toBits.toNat⟩

namespace Scientific

/-- The integer nearest to `num / den`, a tie going to the even one. -/
def roundDiv (num den : Nat) : Nat :=
  let q := num / den
  let r := num % den
  if den < 2 * r ∨ (2 * r = den ∧ q % 2 = 1) then q + 1 else q

/-- The number of decimal digits, one for zero. -/
def digitCount (n : Nat) : Nat := (Nat.toDigits 10 n).length

/-- The exponent `e` with `10^e ≤ num / den < 10^(e+1)`, for a positive quotient. -/
def magnitude (num den : Nat) : Int :=
  if den ≤ num then (digitCount (num / den) : Int) - 1
  else -(digitCount ((den - 1) / num) : Int)

def places : Nat := 3

/-- The leading digits of `num / den` as one integer, and the exponent of the first of them. -/
def leading (num den : Nat) : Nat × Int :=
  let e := magnitude num den
  let shift : Int := places - e
  let n :=
    if 0 ≤ shift then roundDiv (num * Nat.pow 10 shift.toNat) den else roundDiv num (den * Nat.pow 10 (-shift).toNat)
  if n = Nat.pow 10 (places + 1) then (Nat.pow 10 places, e + 1) else (n, e)

/-- The text of a nonnegative finite value `m · 2^q`. -/
def magnitudeText (m : Nat) (q : Int) : String :=
  let (n, e) :=
    if m = 0 then (0, 0)
    else if 0 ≤ q then leading (m * Nat.pow 2 q.toNat) 1
    else leading m (Nat.pow 2 (-q).toNat)
  let fraction := Nat.toDigits 10 (n % Nat.pow 10 places)
  let zeros := List.replicate (places - fraction.length) '0'
  s!"{n / Nat.pow 10 places}." ++ String.ofList (zeros ++ fraction) ++ s!"e{e}"

def ofValue : BinaryValue → String
  | .nan => "NaN"
  | .infinite negative => if negative then "-inf" else "inf"
  | .finite negative m q => if negative then "-" ++ magnitudeText m q else magnitudeText m q

def text {F : Type} [HasBinaryValue F] (x : F) : String := ofValue (HasBinaryValue.binaryValue x)

end Scientific

end BlockElimination
