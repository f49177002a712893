import ArrowScript.Decimal.Shortest

/-!
Decimals in positional form, never with an exponent.
-/

namespace ArrowScript.Decimal

def digits (n : Nat) : List Char := Nat.toDigits 10 n

def ofDigits (cs : List Char) : Nat :=
  cs.foldl (fun n c => 10 * n + (c.toNat - '0'.toNat)) 0

/-- Moves trailing zeros of the digits, at most `limit` of them, into the exponent. -/
def Scaled.dropZeros (d : Scaled) : Nat → Scaled
  | 0 => d
  | limit + 1 =>
    if d.coeff % 10 = 0 ∧ d.exp < 0 then Scaled.dropZeros ⟨d.coeff / 10, d.exp + 1⟩ limit else d

/-- The decimal written out, with zeros before or behind the digits as far as its place needs. -/
def Scaled.positional (d : Scaled) : List Char :=
  let d := d.dropZeros (-d.exp).toNat
  let ds := digits d.coeff
  if 0 ≤ d.exp then ds ++ List.replicate d.exp.toNat '0'
  else
    let places := (-d.exp).toNat
    let padded := List.replicate (places + 1 - ds.length) '0' ++ ds
    padded.take (padded.length - places) ++ '.' :: padded.drop (padded.length - places)

/-- The texts of a floating-point number that is not finite, and the sign of one that is. -/
def signed (negative : Bool) (cs : List Char) : List Char :=
  if negative then '-' :: cs else cs

/-- A floating-point number with the fewest digits that identify it. -/
def plain (x : Float) : String :=
  match shape x with
  | .nan => "NaN"
  | .infinite negative => String.ofList (signed negative ['i', 'n', 'f'])
  | .finite negative b =>
    String.ofList (signed negative (if b.m = 0 then ['0'] else b.shortest.positional))

/-- As `plain`, but a number without a fractional part is written exactly and ends in `.0`. -/
def pointed (x : Float) : String :=
  match shape x with
  | .finite negative b =>
    if b.isIntegral then String.ofList (signed negative (digits b.floor ++ ['.', '0']))
    else plain x
  | _ => plain x

end ArrowScript.Decimal
