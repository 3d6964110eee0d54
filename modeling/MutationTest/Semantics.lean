import MutationTest.Ast

/-! # What a program means

A semantics gives a meaning to every node: a function of its label, of its docstring and of the
meanings of its children. What the meanings are is left open; they may be functions of states. -/

namespace MutationTest
open FieldTree

/-! ## Docstrings -/

def Cls.constant? : Cls → Option Const
  | .constant value _ => some value
  | _ => none

def Cls.hasDocstring : Cls → Bool
  | .module | .functionDef _ | .asyncFunctionDef _ | .classDef _ => true
  | _ => false

def Const.str? : Const → Option String
  | .str s => some s
  | _ => Option.none

namespace Node

/-- The literal that an expression statement consists of. -/
def literal? (stmt : Node) : Option Const :=
  if stmt.cls = .expr then (stmt.child? .value).bind fun v => v.cls.constant? else none

/-- The text of an expression statement that is a string. -/
def text? (stmt : Node) : Option String := stmt.literal?.bind Const.str?

/-- The statements in a list of the node at a path. -/
def stmtsAt (t : Node) (p : Path) (f : FieldName) : List Node :=
  (t.get? p).elim [] fun n => Node.getList n f

/-- `ast.get_docstring(node, clean=False)`: the text of the first statement of the body. -/
def docstring? (n : Node) : Option String :=
  if n.cls.hasDocstring then (n.getList .body).head?.bind text? else none

end Node

/-! ## Meanings -/

structure Semantics (δ : Type) where
  node : Label → Option String → List (FieldName × δ) → δ

namespace Semantics

variable {δ : Type} (S : Semantics δ)

def meaning (t : Node) : δ := t.fold fun n values => S.node n.label (Node.docstring? n) values

/-- Evaluating a constant has no effect: as a statement, it does what `pass` does. -/
def ConstantsInert : Prop :=
  ∀ pos pos' value kind,
    S.node ⟨.expr, pos⟩ none [(.value, S.node ⟨.constant value kind, pos'⟩ none [])] =
      S.node ⟨.pass, pos⟩ none []

/-- Nothing reads `__doc__`. -/
def IgnoresDocstrings : Prop := ∀ a doc doc' values, S.node a doc values = S.node a doc' values

end Semantics

end MutationTest
