import TypedTree.Number.Shortest

/-!
How a double is written: the shortest digits that read back, positionally or with an exponent. The decisions of
one format (when an exponent is used, the sign of a positive exponent, how ties are rounded, the text of the
numbers that are not finite) are the fields of a `Layout`.
-/

namespace TypedTree

/-- The decisions of one number format. -/
structure Layout where
  tie : Tie
  /-- The least decimal exponent that is written positionally. -/
  leastPositional : Int
  /-- The least decimal exponent above it that is not. -/
  firstScientific : Int
  /-- What stands before a positive exponent. -/
  plus : List Char
  nan : List Char
  infinity : List Char
  negativeInfinity : List Char

namespace Layout

def digits (n : Nat) : List Char := Nat.toDigits 10 n

/-- Digits with the point after the first `k` of them, zeros filled in where there are too few, and at least
    one digit on either side. -/
def positional (ds : List Char) (k : Int) : List Char :=
  if k ≤ 0 then '0' :: '.' :: (List.replicate (-k).toNat '0' ++ ds)
  else
    let padded := ds ++ List.replicate (k.toNat - ds.length) '0'
    let fraction := padded.drop k.toNat
    padded.take k.toNat ++ '.' :: if fraction.isEmpty then ['0'] else fraction

/-- The first digit, the others behind a point if there are any, and the exponent. -/
def scientific (plus : List Char) (ds : List Char) (e : Int) : List Char :=
  let mantissa := match ds with
    | [] => []
    | [d] => [d]
    | d :: rest => d :: '.' :: rest
  let sign := if e < 0 then ['-'] else plus
  mantissa ++ 'e' :: (sign ++ digits e.natAbs)

/-- A finite nonzero magnitude. -/
def magnitude (l : Layout) (d : Decimal) : List Char :=
  let all := digits d.digits
  let e : Int := d.exponent + all.length - 1
  let ds := (all.reverse.dropWhile (· == '0')).reverse
  if l.leastPositional ≤ e ∧ e < l.firstScientific then positional ds (e + 1) else scientific l.plus ds e

def write (l : Layout) (x : Binary64) : List Char :=
  if x.isNaN then l.nan
  else if !x.isFinite then if x.isNegative then l.negativeInfinity else l.infinity
  else
    let text := if x.isZero then ['0', '.', '0'] else l.magnitude (x.shortest l.tie)
    if x.isNegative then '-' :: text else text

end Layout

end TypedTree
