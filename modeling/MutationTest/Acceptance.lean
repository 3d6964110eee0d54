import MutationTest.Ast

/-! # What Python accepts

A source text is accepted when the parser makes a tree of it and the tree obeys the static rules of
the language. Three of the rules are spelled out, those on the operators in the literals of a
pattern, on the keys of a mapping pattern and on the binding that a `nonlocal` refers to. The other
rules are a parameter: they look neither at positions nor at operators. -/

namespace MutationTest
open FieldTree

/-! ## Patterns -/

/-- The node at `p` is the literal of a value pattern or a key of a mapping pattern. -/
def Node.isPatternLiteral (t : Node) (p : Path) : Bool :=
  (t.slot? p).any fun x => match x.1.1.cls with
    | .matchValue => x.2 = .value
    | .matchMapping _ => x.2 = .keys
    | _ => false

def Cls.isOperation : Cls → Bool
  | .compare _ | .binOp _ | .boolOp _ => true
  | _ => false

/-- A real and an imaginary literal are joined by `+` or `-`. -/
def Cls.joinsComplex : Cls → Bool
  | .binOp .add | .binOp .sub => true
  | _ => false

/-- The only operation in the literal of a pattern is the sum or the difference at its root. -/
def Node.patternOperators (t : Node) : Bool :=
  t.nodes.all fun e => !e.2.label.cls.isOperation ||
    e.1.inits.all fun q => !t.isPatternLiteral q || (q = e.1 && e.2.label.cls.joinsComplex)

/-! ## Scopes -/

/-- How a node below the definition that opens a scope belongs to the scope. -/
inductive Role where
  | opening | typeParam | param | code | comprehension
  deriving DecidableEq

/-- How a name occurs in a scope. -/
inductive Mention where
  | bound | typeParam | global | nonlocal
  deriving DecidableEq

def Cls.isFunction : Cls → Bool
  | .functionDef _ | .asyncFunctionDef _ => true
  | _ => false

def Cls.className? : Cls → Option String
  | .classDef n => some n
  | _ => none

def Cls.opensScope (c : Cls) : Bool := c.isFunction || c.className?.isSome

/-- The role of the children in field `f` of a node of class `c` that has children in `fields`, from
the role of the node: nothing where they belong to another scope. The defaults, decorators and
annotations of an inner definition belong to the outer scope; of a comprehension only the targets of
`:=` do. `(x): int` without a value binds nothing. -/
def Cls.enter (c : Cls) (fields : List FieldName) (f : FieldName) : Role → Option Role
  | .opening => match f with
    | .typeParams => some .typeParam
    | .args => some .param
    | .body => some .code
    | _ => none
  | .typeParam => none
  | .param => match c with
    | .arguments _ => if f = .kwDefaults ∨ f = .defaults then none else some .param
    | _ => none
  | r => match c with
    | .functionDef _ | .asyncFunctionDef _ | .classDef _ | .lambda =>
      if f = .body ∨ f = .typeParams then none else some r
    | .typeAlias => if f = .name then some r else none
    | .listComp | .setComp | .dictComp | .generatorExp => some .comprehension
    | .namedExpr => if f = .target then some .code else some r
    | .annAssign simple => if f = .target ∧ !simple ∧ .value ∉ fields then none else some r
    | _ => some r

/-- The names that a node of class `c` mentions in its scope. An import binds the first component of
a dotted name. -/
def Cls.mentions (c : Cls) : Role → List (Mention × String)
  | .typeParam => match c with
    | .typeVar n | .paramSpec n | .typeVarTuple n => [(.typeParam, n)]
    | _ => []
  | .param => match c with
    | .arg n => [(.bound, n)]
    | _ => []
  | .code => match c with
    | .name n .store | .name n .del | .functionDef n | .asyncFunctionDef n | .classDef n
    | .alias _ (some n) | .exceptHandler (some n) | .matchAs (some n) | .matchStar (some n)
    | .matchMapping (some n) => [(.bound, n)]
    | .alias n none => [(.bound, String.ofList (n.toList.takeWhile (· ≠ '.')))]
    | .global names => names.map (.global, ·)
    | .nonlocal names => names.map (.nonlocal, ·)
    | _ => []
  | _ => []

/-- The name that `x` stands for in the body of class `c`. -/
def mangle (c : Option String) (x : String) : String :=
  let stem := (c.map fun c => c.toList.dropWhile (· = '_')).getD []
  if stem = [] ∨ ¬['_', '_'] <+: x.toList ∨ ['_', '_'] <:+ x.toList ∨
      '.' ∈ x.toList then x
  else String.ofList ('_' :: stem ++ x.toList)

/-- A function or class definition. -/
structure Scope where
  path : Path
  cls : Cls
  deriving DecidableEq

/-- The class whose name the names in the innermost scope are mangled with. -/
def enclosingClass (scopes : List Scope) : Option String :=
  scopes.findSome? fun S => S.cls.className?

namespace Node

/-- The definitions whose bodies hold the node at `p`, innermost first. -/
def scopes (t : Node) (p : Path) : List Scope :=
  (p.inits.filterMap fun q => (t.slot? q).bind fun x =>
    if x.1.1.cls.opensScope ∧ x.2 = .body then some ⟨q.dropLast, x.1.1.cls⟩ else none).reverse

/-- The role at `q ++ p` from the role at `q`. -/
def roleFrom (t : Node) : Role → Path → Path → Option Role
  | r, _, [] => some r
  | r, q, i :: p => (t.slot? (q ++ [i])).bind fun x =>
    (x.1.1.cls.enter x.1.2 x.2 r).bind fun r => t.roleFrom r (q ++ [i]) p

/-- What the node at `p` mentions in the scope opened at `q`. -/
def mentionsAt (t : Node) (q p : Path) : List (Mention × String) :=
  if q <+: p then
    ((t.roleFrom .opening q (p.drop q.length)).bind fun r =>
      (t.cls? p).map fun c => c.mentions r).getD []
  else []

/-- The innermost scope mentions the (mangled) name `x` at a node that `keep` retains. -/
def mentions (t : Node) (keep : Path → Bool) (scopes : List Scope) (m : Mention) (x : String) :
    Bool :=
  scopes.head?.any fun S => t.nodes.any fun e => keep e.1 &&
    (t.mentionsAt S.path e.1).any fun y => y.1 = m && mangle (enclosingClass scopes) y.2 = x

/-- The names that every class body binds for the functions in it; `__classdict__` only from Python
3.12 on. -/
def classCells : List String := ["__class__", "__classdict__"]

/-- Code directly inside these scopes sees a binding of `x` in a function. -/
def seesBinding (t : Node) (keep : Path → Bool) (x : String) : List Scope → Bool
  | [] => false
  | S :: outer =>
    let has m := t.mentions keep (S :: outer) m x
    (if S.cls.isFunction then has .bound && !has .global && !has .nonlocal else x ∈ classCells) ||
      (!has .typeParam && !(S.cls.isFunction && has .global) && t.seesBinding keep x outer)

/-- A `nonlocal` skips its own scope. -/
def findsBinding (t : Node) (keep : Path → Bool) (x : String) : List Scope → Bool
  | [] => false
  | S :: outer => !t.mentions keep (S :: outer) .typeParam x && t.seesBinding keep x outer

/-- Every `nonlocal` finds a binding, nodes that `keep` leaves out aside. -/
def nonlocalsBound (t : Node) (keep : Path → Bool) : Bool :=
  t.nodes.all fun e => !keep e.1 || match t.cls? e.1 with
    | some (.nonlocal names) => names.all fun x =>
      t.findsBinding keep (mangle (enclosingClass (t.scopes e.1)) x) (t.scopes e.1)
    | _ => true

end Node

/-! ## All rules -/

/-- The class with its operators forgotten. -/
def Cls.plain : Cls → Cls
  | .compare ops => .compare (ops.map fun _ => .eq)
  | .binOp _ => .binOp .add
  | .boolOp _ => .boolOp .and
  | c => c

def Node.plain (t : Node) : Node := t.map fun a => { a with cls := a.cls.plain }

structure StaticRules where
  /-- The compiler folds both keys to the same constant. -/
  sameKey : Node → Node → Bool
  /-- The rules that are not spelled out. -/
  others : Node → Bool

namespace StaticRules

/-- The keys of a mapping pattern are distinct. -/
def distinctKeys (R : StaticRules) (n : Node) : Bool :=
  match n.cls with
  | .matchMapping _ => decide ((n.getList .keys).Pairwise fun k k' => !R.sameKey k k')
  | _ => true

/-- The tree of a program, without its positions, obeys the rules. -/
def hold (R : StaticRules) (t : Node) : Bool :=
  t.patternOperators && t.nodes.all (fun e => R.distinctKeys e.2) &&
    t.plain.nonlocalsBound (fun _ => true) && R.others t.plain

end StaticRules

def PyAst.Accepts (py : PyAst) (R : StaticRules) (source : String) : Prop :=
  ∃ m, py.parse source = .ok m ∧ R.hold m.root.strip

end MutationTest
