import MutationTest.Main
import MutationTest.Theory.SlotCache

/-! # The bytecode cache

The test process imports the mutated module. The import system keeps the compiled code in a `.pyc`
file with the modification time, in whole seconds, and the size of the source that it was compiled
from, and reuses it while these two fit. `run_tests` leaves this default in place: it passes on the
environment as it is. -/

namespace MutationTest

/-- What the import system sees of a source file: `mtime` counts seconds. -/
structure SourceFile where
  mtime : ℕ
  content : ByteArray
  deriving DecidableEq

/-- What is compared with the `.pyc` file. -/
def SourceFile.key (f : SourceFile) : ℕ × ℕ := (f.mtime, f.content.size)

/-- The interpreter of the test processes, and the seconds in which the source file was modified:
`found` is the `.pyc` file before the run. A source that does not compile is not cached. -/
structure Interpreter (Code : Type) where
  compile : ByteArray → Option Code
  found : Option ((ℕ × ℕ) × Code)
  imports : Execution → Bool
  mtime : ℕ
  written : ℕ → ℕ

namespace Interpreter

variable {Code : Type} (I : Interpreter Code)

/-- The modification time at a run of the tests: before the tests of the `n`-th mutant, that mutant
has been written. -/
def mtimeAt : Execution → ℕ
  | .baseline => I.mtime
  | .mutant n => I.written n

/-- The import in a run of the tests, if there is one. -/
def imported? : Event → Option (Execution × SourceFile)
  | .tested x content => if I.imports x then some (x, ⟨I.mtimeAt x, content⟩) else none
  | .restored _ => none

/-- The imports in the order of the log, each with the code that it executes. -/
def executed (log : List Event) : List ((Execution × SourceFile) × Option Code) :=
  SlotCache.replay (fun i => i.2.key) (fun i => I.compile i.2.content) I.found
    (log.filterMap I.imported?)

/-- The tests of every mutant execute the code of that mutant. -/
def OwnCode (log : List Event) : Prop :=
  ∀ x ∈ I.executed log, x.1.1 ≠ .baseline → x.2 = I.compile x.1.2.content

instance [DecidableEq Code] (log : List Event) : Decidable (I.OwnCode log) :=
  inferInstanceAs (Decidable (∀ x ∈ _, _))

end Interpreter

/-- The events of a run. -/
def runLog (host : Host) (args : Args) (w : World) : List Event :=
  (main host args w).2.log.drop w.log.length

end MutationTest
