import TypedTree.Number.Binary64

/-!
The shortest decimal that reads back as a given double. A double stands for every real that rounds to it, an
interval around `m · 2 ^ e` that reaches half way to either neighbour and contains its ends when `m` is even.
Of the grids of multiples of a power of ten the coarsest one that meets the interval is taken, and on it the
point nearest to the double. If a point of a grid lies in the interval then so does one of the two points next
to the double, so only these are tested, in exact arithmetic.
-/

namespace TypedTree

/-- The number `digits · 10 ^ exponent`. -/
structure Decimal where
  digits : Nat
  exponent : Int
deriving DecidableEq, Repr

/-- Which of two equally near points is taken. -/
inductive Tie where
  | up
  | even
deriving DecidableEq, Repr

namespace Binary64

/-- The reals that round to a positive double, in units of `2 ^ power`. -/
structure Reach where
  low : Nat
  centre : Nat
  high : Nat
  power : Int
  /-- Whether the ends belong to the interval. -/
  closed : Bool
deriving DecidableEq, Repr

/-- The interval of `x`. Below a power of two the doubles lie twice as dense, so the lower half is halved there. -/
def reach (x : Binary64) : Reach where
  low := 4 * x.significand - if x.fractionBits = 0 ∧ 1 < x.exponentBits then 1 else 2
  centre := 4 * x.significand
  high := 4 * x.significand + 2
  power := x.power - 2
  closed := x.significand % 2 == 0

end Binary64

namespace Binary64.Reach

/-- One step of the grid `10 ^ p`, in units that `unit` of the interval shares. -/
def step (r : Reach) (p : Int) : Nat := Nat.pow 10 p.toNat * Nat.pow 2 (-r.power).toNat

/-- One unit of the interval, in units that `step` of the grid shares. -/
def unit (r : Reach) (p : Int) : Nat := Nat.pow 2 r.power.toNat * Nat.pow 10 (-p).toNat

/-- Whether `c · 10 ^ p` lies in the interval. -/
def contains (r : Reach) (p : Int) (c : Nat) : Bool :=
  if r.closed then
    decide (r.low * r.unit p ≤ c * r.step p) && decide (c * r.step p ≤ r.high * r.unit p)
  else
    decide (r.low * r.unit p < c * r.step p) && decide (c * r.step p < r.high * r.unit p)

/-- The nearest point of the grid `10 ^ p` to the centre, if a point of the grid lies in the interval. -/
def nearest? (r : Reach) (tie : Tie) (p : Int) : Option Nat :=
  let below := r.centre * r.unit p / r.step p
  let rest := r.centre * r.unit p % r.step p
  match r.contains p below, r.contains p (below + 1) with
  | false, false => none
  | true, false => some below
  | false, true => some (below + 1)
  | true, true =>
    if 2 * rest < r.step p then some below
    else if r.step p < 2 * rest then some (below + 1)
    else match tie with
      | .up => some (below + 1)
      | .even => some (below + below % 2)

def exact (r : Reach) : Decimal :=
  if 0 ≤ r.power then ⟨r.centre * Nat.pow 2 r.power.toNat, 0⟩
  else ⟨r.centre * Nat.pow 5 (-r.power).toNat, r.power⟩

/-- The coarsest of the grids `10 ^ p`, `10 ^ (p - 1)`, … that meets the interval; the centre if `fuel` grids
    miss it. -/
def search (r : Reach) (tie : Tie) : Nat → Int → Decimal
  | 0, _ => r.exact
  | fuel + 1, p =>
    match r.nearest? tie p with
    | some c => ⟨c, p⟩
    | none => search r tie fuel (p - 1)

/-- The exponent of a power of ten above the centre: a number of `k` bits is below `10 ^ (0.30103 · k + 1)`. -/
def top (r : Reach) : Int := ((r.high.log2 + 1 : Nat) + r.power) * 30103 / 100000 + 1

end Binary64.Reach

/-- The shortest decimal that rounds to the magnitude of the finite nonzero number `x`. Seventeen digits always
    do, and the search starts at most two powers of ten too high. -/
def Binary64.shortest (x : Binary64) (tie : Tie) : Decimal :=
  x.reach.search tie 20 x.reach.top

end TypedTree
