import MutationTest.Theory.FieldTree

/-! # Python syntax trees

The node classes of Python's abstract grammar, as the `ast` module has them. A node is a class, a
position and its child nodes, each under the name of the field that holds it. The values of a class
that are no nodes (identifiers, constants, operators and contexts, which have no fields of their
own) are arguments of its constructor. -/

namespace MutationTest
open FieldTree

/-! ## Operators -/

inductive CmpOp where
  | eq | notEq | lt | ltE | gt | gtE | is | isNot | in | notIn
  deriving DecidableEq

inductive Operator where
  | add | sub | mult | matMult | div | mod | pow | lShift | rShift | bitOr | bitXor | bitAnd
  | floorDiv
  deriving DecidableEq

inductive BoolOp where
  | and | or
  deriving DecidableEq

inductive UnaryOp where
  | invert | not | uAdd | uSub
  deriving DecidableEq

/-- `type(op).__name__`. -/
def CmpOp.name : CmpOp → String
  | .eq => "Eq" | .notEq => "NotEq" | .lt => "Lt" | .ltE => "LtE" | .gt => "Gt" | .gtE => "GtE"
  | .is => "Is" | .isNot => "IsNot" | .in => "In" | .notIn => "NotIn"

def Operator.name : Operator → String
  | .add => "Add" | .sub => "Sub" | .mult => "Mult" | .matMult => "MatMult" | .div => "Div"
  | .mod => "Mod" | .pow => "Pow" | .lShift => "LShift" | .rShift => "RShift"
  | .bitOr => "BitOr" | .bitXor => "BitXor" | .bitAnd => "BitAnd" | .floorDiv => "FloorDiv"

def BoolOp.name : BoolOp → String
  | .and => "And" | .or => "Or"

/-! ## Node classes -/

inductive ExprContext where
  | load | store | del
  deriving DecidableEq

/-- The value of a literal. Floats and imaginary literals are doubles, held as their bits. -/
inductive Const where
  | none
  | bool (b : Bool)
  | str (s : String)
  | bytes (b : List UInt8)
  | int (n : Nat)
  | float (bits : BitVec 64)
  | imag (bits : BitVec 64)
  | ellipsis
  deriving DecidableEq

/-- The classes of the abstract grammar. `dict` and `arguments` record which entries of `keys`, and
of `kw_defaults`, are `None`: those have no node. -/
inductive Cls where
  | module
  | functionDef (name : String) | asyncFunctionDef (name : String) | classDef (name : String)
  | return | delete | assign | typeAlias | augAssign (op : Operator) | annAssign (simple : Bool)
  | for | asyncFor | while | if | with | asyncWith | match
  | raise | try | tryStar | assert
  | import | importFrom (module : Option String) (level : Nat)
  | global (names : List String) | nonlocal (names : List String)
  | expr | pass | break | continue
  | boolOp (op : BoolOp) | namedExpr | binOp (op : Operator) | unaryOp (op : UnaryOp)
  | lambda | ifExp | dict (unpacked : List Bool) | set
  | listComp | setComp | dictComp | generatorExp
  | await | yield | yieldFrom | compare (ops : List CmpOp) | call
  | formattedValue (conversion : Int) | joinedStr | constant (value : Const) (kind : Option String)
  | attribute (attr : String) (ctx : ExprContext) | subscript (ctx : ExprContext)
  | starred (ctx : ExprContext) | name (id : String) (ctx : ExprContext)
  | list (ctx : ExprContext) | tuple (ctx : ExprContext) | slice
  | comprehension (isAsync : Bool) | exceptHandler (name : Option String)
  | arguments (required : List Bool) | arg (arg : String) | keyword (arg : Option String)
  | alias (name : String) (asname : Option String) | withitem | matchCase
  | matchValue | matchSingleton (value : Const) | matchSequence
  | matchMapping (rest : Option String) | matchClass (kwdAttrs : List String)
  | matchStar (name : Option String) | matchAs (name : Option String) | matchOr
  | typeVar (name : String) | paramSpec (name : String) | typeVarTuple (name : String)
  deriving DecidableEq

/-- The fields that hold nodes or lists of nodes. -/
inductive FieldName where
  | annotation | args | bases | body | bound | cases | cause | cls | comparators | contextExpr
  | decoratorList | defaultValue | defaults | elt | elts | exc | finalbody | formatSpec | func
  | generators | guard | handlers | ifs | items | iter | key | keys | keywords | kwDefaults | kwarg
  | kwdPatterns | kwonlyargs | left | lower | msg | name | names | operand | optionalVars | orelse
  | pattern | patterns | posonlyargs | returns | right | slice | step | subject | target | targets
  | test | type | typeParams | upper | value | values | vararg
  deriving DecidableEq

/-- `type(node).__name__`. -/
def Cls.typeName : Cls → String
  | module => "Module" | functionDef _ => "FunctionDef" | asyncFunctionDef _ => "AsyncFunctionDef"
  | classDef _ => "ClassDef" | .return => "Return" | delete => "Delete" | assign => "Assign"
  | typeAlias => "TypeAlias" | augAssign _ => "AugAssign" | annAssign _ => "AnnAssign"
  | .for => "For" | asyncFor => "AsyncFor" | .while => "While" | .if => "If" | .with => "With"
  | asyncWith => "AsyncWith" | .match => "Match" | raise => "Raise" | .try => "Try"
  | tryStar => "TryStar" | assert => "Assert" | .import => "Import" | importFrom .. => "ImportFrom"
  | global _ => "Global" | nonlocal _ => "Nonlocal" | expr => "Expr" | pass => "Pass"
  | .break => "Break" | .continue => "Continue" | boolOp _ => "BoolOp" | namedExpr => "NamedExpr"
  | binOp _ => "BinOp" | unaryOp _ => "UnaryOp" | lambda => "Lambda" | ifExp => "IfExp"
  | dict _ => "Dict" | set => "Set" | listComp => "ListComp" | setComp => "SetComp"
  | dictComp => "DictComp" | generatorExp => "GeneratorExp" | await => "Await" | yield => "Yield"
  | yieldFrom => "YieldFrom" | compare _ => "Compare" | call => "Call"
  | formattedValue _ => "FormattedValue" | joinedStr => "JoinedStr" | constant .. => "Constant"
  | .attribute .. => "Attribute" | subscript _ => "Subscript" | starred _ => "Starred"
  | name .. => "Name" | list _ => "List" | tuple _ => "Tuple" | slice => "Slice"
  | comprehension _ => "comprehension" | exceptHandler _ => "ExceptHandler"
  | arguments _ => "arguments" | arg _ => "arg" | keyword _ => "keyword" | .alias .. => "alias"
  | withitem => "withitem" | matchCase => "match_case" | matchValue => "MatchValue"
  | matchSingleton _ => "MatchSingleton" | matchSequence => "MatchSequence"
  | matchMapping _ => "MatchMapping" | matchClass _ => "MatchClass" | matchStar _ => "MatchStar"
  | matchAs _ => "MatchAs" | matchOr => "MatchOr" | typeVar _ => "TypeVar"
  | paramSpec _ => "ParamSpec" | typeVarTuple _ => "TypeVarTuple"

/-! ## The grammar -/

/-- The nonterminals of the grammar. -/
inductive Nonterminal where
  | mod | stmt | expr | comprehension | exceptHandler | arguments | arg | keyword | alias | withitem
  | matchCase | pattern | typeParam
  deriving DecidableEq

def Cls.nonterminal : Cls → Nonterminal
  | module => .mod
  | functionDef _ | asyncFunctionDef _ | classDef _ | .return | delete | assign | typeAlias
  | augAssign _ | annAssign _ | .for | asyncFor | .while | .if | .with | asyncWith | .match | raise
  | .try | tryStar | assert | .import | importFrom .. | global _ | nonlocal _ | expr | pass | .break
  | .continue => .stmt
  | boolOp _ | namedExpr | binOp _ | unaryOp _ | lambda | ifExp | dict _ | set | listComp | setComp
  | dictComp | generatorExp | await | yield | yieldFrom | compare _ | call | formattedValue _
  | joinedStr | constant .. | .attribute .. | subscript _ | starred _ | name .. | list _ | tuple _
  | slice => .expr
  | comprehension _ => .comprehension
  | exceptHandler _ => .exceptHandler
  | arguments _ => .arguments
  | arg _ => .arg
  | keyword _ => .keyword
  | .alias .. => .alias
  | withitem => .withitem
  | matchCase => .matchCase
  | matchValue | matchSingleton _ | matchSequence | matchMapping _ | matchClass _ | matchStar _
  | matchAs _ | matchOr => .pattern
  | typeVar _ | paramSpec _ | typeVarTuple _ => .typeParam

inductive Multiplicity where
  | one | opt | many
  deriving DecidableEq

/-- A field of a class: its name, how many nodes it holds and of which nonterminal. -/
structure FieldSpec where
  name : FieldName
  mult : Multiplicity
  nonterminal : Nonterminal
  deriving DecidableEq

private def functionFields : List FieldSpec :=
  [⟨.args, .one, .arguments⟩, ⟨.body, .many, .stmt⟩, ⟨.decoratorList, .many, .expr⟩,
    ⟨.returns, .opt, .expr⟩, ⟨.typeParams, .many, .typeParam⟩]

private def forFields : List FieldSpec :=
  [⟨.target, .one, .expr⟩, ⟨.iter, .one, .expr⟩, ⟨.body, .many, .stmt⟩, ⟨.orelse, .many, .stmt⟩]

private def tryFields : List FieldSpec :=
  [⟨.body, .many, .stmt⟩, ⟨.handlers, .many, .exceptHandler⟩, ⟨.orelse, .many, .stmt⟩,
    ⟨.finalbody, .many, .stmt⟩]

private def compFields : List FieldSpec :=
  [⟨.elt, .one, .expr⟩, ⟨.generators, .many, .comprehension⟩]

/-- The fields of a class that hold nodes, in the order of `_fields`. -/
def Cls.fields : Cls → List FieldSpec
  | module => [⟨.body, .many, .stmt⟩]
  | functionDef _ | asyncFunctionDef _ => functionFields
  | classDef _ => [⟨.bases, .many, .expr⟩, ⟨.keywords, .many, .keyword⟩, ⟨.body, .many, .stmt⟩,
      ⟨.decoratorList, .many, .expr⟩, ⟨.typeParams, .many, .typeParam⟩]
  | .return => [⟨.value, .opt, .expr⟩]
  | delete => [⟨.targets, .many, .expr⟩]
  | assign => [⟨.targets, .many, .expr⟩, ⟨.value, .one, .expr⟩]
  | typeAlias => [⟨.name, .one, .expr⟩, ⟨.typeParams, .many, .typeParam⟩, ⟨.value, .one, .expr⟩]
  | augAssign _ => [⟨.target, .one, .expr⟩, ⟨.value, .one, .expr⟩]
  | annAssign _ => [⟨.target, .one, .expr⟩,
      { name := FieldName.annotation, mult := .one, nonterminal := .expr }, ⟨.value, .opt, .expr⟩]
  | .for | asyncFor => forFields
  | .while | .if => [⟨.test, .one, .expr⟩, ⟨.body, .many, .stmt⟩, ⟨.orelse, .many, .stmt⟩]
  | .with | asyncWith => [⟨.items, .many, .withitem⟩, ⟨.body, .many, .stmt⟩]
  | .match => [⟨.subject, .one, .expr⟩, ⟨.cases, .many, .matchCase⟩]
  | raise => [⟨.exc, .opt, .expr⟩, ⟨.cause, .opt, .expr⟩]
  | .try | tryStar => tryFields
  | assert => [⟨.test, .one, .expr⟩, ⟨.msg, .opt, .expr⟩]
  | .import | importFrom .. => [⟨.names, .many, .alias⟩]
  | global _ | nonlocal _ | pass | .break | .continue => []
  | expr => [⟨.value, .one, .expr⟩]
  | boolOp _ => [⟨.values, .many, .expr⟩]
  | namedExpr => [⟨.target, .one, .expr⟩, ⟨.value, .one, .expr⟩]
  | binOp _ => [⟨.left, .one, .expr⟩, ⟨.right, .one, .expr⟩]
  | unaryOp _ => [⟨.operand, .one, .expr⟩]
  | lambda => [⟨.args, .one, .arguments⟩, ⟨.body, .one, .expr⟩]
  | ifExp => [⟨.test, .one, .expr⟩, ⟨.body, .one, .expr⟩, ⟨.orelse, .one, .expr⟩]
  | dict _ => [⟨.keys, .many, .expr⟩, ⟨.values, .many, .expr⟩]
  | set | list _ | tuple _ => [⟨.elts, .many, .expr⟩]
  | listComp | setComp | generatorExp => compFields
  | dictComp => [⟨.key, .one, .expr⟩, ⟨.value, .one, .expr⟩, ⟨.generators, .many, .comprehension⟩]
  | await | yieldFrom => [⟨.value, .one, .expr⟩]
  | yield => [⟨.value, .opt, .expr⟩]
  | compare _ => [⟨.left, .one, .expr⟩, ⟨.comparators, .many, .expr⟩]
  | call => [⟨.func, .one, .expr⟩, ⟨.args, .many, .expr⟩, ⟨.keywords, .many, .keyword⟩]
  | formattedValue _ => [⟨.value, .one, .expr⟩, ⟨.formatSpec, .opt, .expr⟩]
  | joinedStr => [⟨.values, .many, .expr⟩]
  | constant .. | name .. => []
  | .attribute .. | starred _ => [⟨.value, .one, .expr⟩]
  | subscript _ => [⟨.value, .one, .expr⟩, ⟨.slice, .one, .expr⟩]
  | slice => [⟨.lower, .opt, .expr⟩, ⟨.upper, .opt, .expr⟩, ⟨.step, .opt, .expr⟩]
  | comprehension _ => [⟨.target, .one, .expr⟩, ⟨.iter, .one, .expr⟩, ⟨.ifs, .many, .expr⟩]
  | exceptHandler _ => [⟨.type, .opt, .expr⟩, ⟨.body, .many, .stmt⟩]
  | arguments _ => [⟨.posonlyargs, .many, .arg⟩, ⟨.args, .many, .arg⟩, ⟨.vararg, .opt, .arg⟩,
      ⟨.kwonlyargs, .many, .arg⟩, ⟨.kwDefaults, .many, .expr⟩, ⟨.kwarg, .opt, .arg⟩,
      ⟨.defaults, .many, .expr⟩]
  | arg _ => [{ name := FieldName.annotation, mult := .opt, nonterminal := .expr }]
  | keyword _ => [⟨.value, .one, .expr⟩]
  | .alias .. => []
  | withitem => [⟨.contextExpr, .one, .expr⟩, ⟨.optionalVars, .opt, .expr⟩]
  | matchCase => [⟨.pattern, .one, .pattern⟩, ⟨.guard, .opt, .expr⟩, ⟨.body, .many, .stmt⟩]
  | matchValue => [⟨.value, .one, .expr⟩]
  | matchSingleton _ | matchStar _ => []
  | matchSequence | matchOr => [⟨.patterns, .many, .pattern⟩]
  | matchMapping _ => [⟨.keys, .many, .expr⟩, ⟨.patterns, .many, .pattern⟩]
  | matchClass _ => [⟨.cls, .one, .expr⟩, ⟨.patterns, .many, .pattern⟩,
      ⟨.kwdPatterns, .many, .pattern⟩]
  | matchAs _ => [⟨.pattern, .opt, .pattern⟩]
  | typeVar _ => [⟨.bound, .opt, .expr⟩, ⟨.defaultValue, .opt, .expr⟩]
  | paramSpec _ | typeVarTuple _ => [⟨.defaultValue, .opt, .expr⟩]

/-- Whether the attribute `f` of a node is a list: that of a `Lambda` named `body` is not. -/
def Cls.isListField (c : Cls) (f : FieldName) : Bool :=
  c.fields.any fun s => s.name == f && s.mult == .many

/-! ## Nodes -/

/-- `lineno` and `col_offset`. The grammar gives them to statements and expressions, but not to
`Module`, `arguments`, `comprehension` and the like: theirs is never read. -/
structure Pos where
  lineno : Nat
  colOffset : Nat
  deriving DecidableEq

structure Label where
  cls : Cls
  pos : Pos
  deriving DecidableEq

abbrev Node := FTree FieldName Label
abbrev Children := Forest FieldName Label

namespace Node

abbrev cls (n : Node) : Cls := n.label.cls
abbrev pos (n : Node) : Pos := n.label.pos

/-- The class of the node at a path. -/
def cls? (t : Node) (p : Path) : Option Cls := (t.label? p).map (·.cls)

/-- The node held by a field that is no list. -/
def child? (n : Node) (f : FieldName) : Option Node :=
  (n.children.entries.find? (·.1 = f)).map (·.2)

/-- `getattr(node, f)` where it is a list, and nothing elsewhere. -/
def getList (n : Node) (f : FieldName) : List Node :=
  if n.cls.isListField f then (n.children.entries.filter (·.1 = f)).map (·.2) else []

/-- The tree without its positions. -/
def strip (n : Node) : Node := n.map fun a => { a with pos := ⟨0, 0⟩ }

/-- Read the fields of a class off the children of a node: each field takes the children that hang
under its name. -/
def conforms : List FieldSpec → List (FieldName × Nonterminal) → Bool
  | [], es => es.isEmpty
  | s :: specs, es => match s.mult with
    | .one => match es with
      | [] => false
      | e :: es => e == (s.name, s.nonterminal) && conforms specs es
    | .opt => match es with
      | [] => conforms specs []
      | e :: es =>
        if e.1 = s.name then e.2 == s.nonterminal && conforms specs es
        else conforms specs (e :: es)
    | .many =>
      (es.takeWhile (·.1 = s.name)).all (·.2 == s.nonterminal) &&
        conforms specs (es.dropWhile (·.1 = s.name))

/-- A node whose children are those its class asks for. -/
def localWF (n : Node) : Bool :=
  conforms n.cls.fields (n.children.entries.map fun e => (e.1, e.2.label.cls.nonterminal))

/-- A tree of the abstract grammar. -/
def WF (n : Node) : Prop := ∀ e ∈ n.nodes, localWF e.2

instance (n : Node) : Decidable n.WF := inferInstanceAs (Decidable (∀ e ∈ n.nodes, _))

/-- The statements of a tree, at any depth. -/
def statements (n : Node) : List (Path × Node) :=
  n.nodes.filter fun e => e.2.label.cls.nonterminal = .stmt

/-- Two distinct statements never share both line and column. -/
def DistinctPositions (n : Node) : Prop := (n.statements.map fun e => e.2.pos).Nodup

instance (n : Node) : Decidable n.DistinctPositions := inferInstanceAs (Decidable (List.Nodup _))

end Node

/-- What `ast.parse` returns: a module of the abstract grammar. -/
structure Module where
  root : Node
  isModule : root.cls = .module
  wf : root.WF

/-! ## The interpreter -/

/-- The exceptions that matter to the tool. `other` stands for the subclasses of `Exception` that it
does not tell apart. -/
inductive PyExc where
  | keyboardInterrupt
  | systemExit (code : Int)
  | syntaxError
  | unicodeDecodeError
  | zeroDivisionError
  | osError
  | other (name : String)
  deriving DecidableEq

/-- `isinstance(e, Exception)`. -/
def PyExc.isException : PyExc → Bool
  | keyboardInterrupt | systemExit _ => false
  | _ => true

/-- The functions of the `ast` module that the tool calls and that are not traversals. Here
`unparse` is total; where `ast.unparse` raises (a literal too long to be printed, a tree nested too
deep), so does the function that calls it. -/
structure PyAst where
  parse : String → Except PyExc Module
  unparse : Node → String

/-- The output of `ast.unparse` depends on the structure of the tree only. -/
def PyAst.UnparseStructural (py : PyAst) : Prop :=
  ∀ t t' : Node, t.strip = t'.strip → py.unparse t = py.unparse t'

/-- Distinct statements of a file have distinct positions. -/
def PyAst.PositionsDistinct (py : PyAst) : Prop :=
  ∀ s m, py.parse s = .ok m → m.root.DistinctPositions

/-- Where the output of `ast.unparse` for the tree `t` parses, it gives back `t`. -/
def PyAst.RoundTrips (py : PyAst) (t : Node) : Prop :=
  ∀ m, py.parse (py.unparse t) = .ok m → m.root.strip = t.strip

end MutationTest
