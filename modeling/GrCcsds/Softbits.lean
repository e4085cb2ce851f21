import GrCcsds.Ambiguity.Constellation

/-! # Soft bits

The conversions of `softbits` between samples, log likelihood ratios and bytes,
for any arithmetic with an exponential function.
-/

namespace GrCcsds.Softbits

open Utils Ambiguity

variable {R : Type} [Arithmetic R]

def probabilityOne (exp : R → R) (llrOne : R) : R :=
  if llrOne < 0 then exp llrOne / (1 + exp llrOne) else 1 / (exp (-llrOne) + 1)

/-- `floor_to` an `unsigned int` -/
def floorTo (x : R) : Nat :=
  let converted := Arithmetic.toUInt64 x % size32
  if (converted : R) ≤ x ∧ x ≤ (converted : R) then converted
  else if 0 < x then converted
  else (converted + size32 - 1) % size32

def mapToUInt8 (exp : R → R) (llrOne : R) : UInt8 :=
  UInt8.ofNat (floorTo (probabilityOne exp llrOne * (255 : Nat)))

def hardDecision (llrOne : R) : Bool := 0 ≤ llrOne

/-- `create_from_sample` with the default noise power of a thousandth. -/
def createFromSample (symbol : R) : R := (2 : Nat) * symbol / (1 / (1000 : Nat))

end GrCcsds.Softbits
