import MutationTest.Ast
import MutationTest.Theory.BinaryFloat

/-! # Which mutants are run, and how they are scored

The arithmetic of `main`. Floats are doubles: rationals rounded to 53 binary digits after every
operation. The numbers come from lengths of lists, so the exponent stays far from its bounds. -/

namespace MutationTest

/-- The double nearest to a number. -/
def double (x : ℚ) : ℚ := BinaryFloat.round 53 x

/-- `sorted({int(product(i)) for i in range(count)})`. The products are not negative, so `int`
rounds down. -/
def sampled (product : ℕ → ℚ) (count : ℕ) : List ℕ :=
  ((List.range count).map fun i => ⌊product i⌋₊).dedup.mergeSort

/-- The list `indices` before it is cut by `--start-at`. -/
def indices (totalSites : ℕ) (maxMutants : ℤ) : Except PyExc (List ℕ) :=
  if (totalSites : ℤ) > maxMutants then
    if maxMutants = 0 then .error .zeroDivisionError
    else
      let step := double (totalSites / maxMutants)
      .ok (sampled (fun i => double (double i * step)) maxMutants.toNat)
  else .ok (List.range totalSites)

/-- `l[k:]`. -/
def sliceFrom {α : Type} (l : List α) (k : ℤ) : List α :=
  if k < 0 then l.drop (l.length - k.natAbs) else l.drop k.toNat

/-- `(mortos / gerados * 100) if gerados else 0.0`. -/
def score (mortos gerados : ℕ) : ℚ :=
  if gerados = 0 then 0 else double (double (mortos / gerados) * 100)

/-- `round(x, 1)`. -/
def round1 (x : ℚ) : ℚ := double (BinaryFloat.roundHalfEven (x * 10) / 10)

end MutationTest
