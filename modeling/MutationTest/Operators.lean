import MutationTest.Ast

/-! # Operator mutants

The two passes over the tree that replace operators: `SiteCollector` lists the mutable operators in
the order of its traversal, and `MutationApplier` counts them again in a traversal of its own and
replaces the one whose number it was given. -/

namespace MutationTest
open FieldTree

def relCycle : List CmpOp := [.lt, .ltE, .gt, .gtE, .eq, .notEq]
def identityCycle : List CmpOp := [.is, .isNot]
def membershipCycle : List CmpOp := [.in, .notIn]
def arithCycle : List Operator := [.add, .sub, .mult, .div, .floorDiv, .mod]

/-- `CYCLE[(CYCLE.index(op) + 1) % len(CYCLE)]`. -/
def nextIn {α : Type} [DecidableEq α] (cycle : List α) (op : α) : α :=
  cycle.getD ((cycle.idxOf op + 1) % cycle.length) op

/-- `ast.Or if isinstance(op, ast.And) else ast.And`. -/
def BoolOp.swap : BoolOp → BoolOp
  | .and => .or
  | .or => .and

inductive Kind where
  | ror | ior | mor | aor | cor
  deriving DecidableEq

def Kind.name : Kind → String
  | .ror => "ROR" | .ior => "IOR" | .mor => "MOR" | .aor => "AOR" | .cor => "COR"

structure Site where
  kind : Kind
  lineno : Nat
  description : String
  deriving DecidableEq

def siteDescription (lineno : Nat) (old new : String) : String := s!"linha {lineno}: {old} -> {new}"

def mutantDescription (lineno : Nat) (kind old new : String) : String :=
  s!"linha {lineno}: {kind} {old} -> {new}"

/-! ## First pass -/

namespace SiteCollector

def record (sites : List Site) (kind : Kind) (lineno : Nat) (old new : String) : List Site :=
  sites ++ [⟨kind, lineno, siteDescription lineno old new⟩]

/-- The loop of `visit_Compare`. -/
def visitCompare (lineno : Nat) : List Site → List CmpOp → List Site
  | sites, [] => sites
  | sites, op :: ops =>
    if op ∈ relCycle then
      visitCompare lineno (record sites .ror lineno op.name (nextIn relCycle op).name) ops
    else if op ∈ identityCycle then
      visitCompare lineno (record sites .ior lineno op.name (nextIn identityCycle op).name) ops
    else if op ∈ membershipCycle then
      visitCompare lineno (record sites .mor lineno op.name (nextIn membershipCycle op).name) ops
    else visitCompare lineno sites ops

def visitBinOp (lineno : Nat) (sites : List Site) (op : Operator) : List Site :=
  if op ∈ arithCycle then record sites .aor lineno op.name (nextIn arithCycle op).name else sites

def visitBoolOp (lineno : Nat) (sites : List Site) (op : BoolOp) : List Site :=
  record sites .cor lineno op.name op.swap.name

/-- What a `visit_` method does before its `generic_visit`. -/
def visitLabel (sites : List Site) (a : Label) : List Site :=
  match a.cls with
  | .compare ops => visitCompare a.pos.lineno sites ops
  | .binOp op => visitBinOp a.pos.lineno sites op
  | .boolOp op => visitBoolOp a.pos.lineno sites op
  | _ => sites

def genericVisit : List Site → Children → List Site
  | sites, .nil => sites
  | sites, .cons _ a ks rest => genericVisit (genericVisit (visitLabel sites a) ks) rest

def visit (n : Node) : List Site := genericVisit (visitLabel [] n.label) n.children

end SiteCollector

def collectSites (py : PyAst) (source : String) : Except PyExc (List Site) := do
  let tree ← py.parse source
  return SiteCollector.visit tree.root

/-! ## Second pass -/

structure MutationApplier where
  targetIndex : Int
  counter : Int := -1
  applied : Bool := false
  description : Option String := none
  deriving DecidableEq

namespace MutationApplier

def isTarget (s : MutationApplier) : Bool × MutationApplier :=
  let s := { s with counter := s.counter + 1 }
  (s.counter == s.targetIndex, s)

/-- Count a mutable operator, and replace it if it is the target. -/
def replace {α : Type} (s : MutationApplier) (lineno : Nat) (kind : Kind) (name : α → String)
    (old new : α) : α × MutationApplier :=
  let (hit, s) := s.isTarget
  if hit then
    (new, { s with
      description := some (mutantDescription lineno kind.name (name old) (name new))
      applied := true })
  else (old, s)

/-- The loop of `visit_Compare`. -/
def visitCompare (lineno : Nat) : MutationApplier → List CmpOp → List CmpOp × MutationApplier
  | s, [] => ([], s)
  | s, op :: ops =>
    let (op, s) :=
      if op ∈ relCycle then s.replace lineno .ror CmpOp.name op (nextIn relCycle op)
      else if op ∈ identityCycle then
        s.replace lineno .ior CmpOp.name op (nextIn identityCycle op)
      else if op ∈ membershipCycle then
        s.replace lineno .mor CmpOp.name op (nextIn membershipCycle op)
      else (op, s)
    let (ops, s) := visitCompare lineno s ops
    (op :: ops, s)

def visitBinOp (lineno : Nat) (s : MutationApplier) (op : Operator) : Operator × MutationApplier :=
  if op ∈ arithCycle then s.replace lineno .aor Operator.name op (nextIn arithCycle op) else (op, s)

def visitBoolOp (lineno : Nat) (s : MutationApplier) (op : BoolOp) : BoolOp × MutationApplier :=
  s.replace lineno .cor BoolOp.name op op.swap

/-- What a `visit_` method does before its `generic_visit`. -/
def visitLabel (s : MutationApplier) (a : Label) : Label × MutationApplier :=
  match a.cls with
  | .compare ops =>
    let (ops, s) := visitCompare a.pos.lineno s ops
    ({ a with cls := .compare ops }, s)
  | .binOp op =>
    let (op, s) := visitBinOp a.pos.lineno s op
    ({ a with cls := .binOp op }, s)
  | .boolOp op =>
    let (op, s) := visitBoolOp a.pos.lineno s op
    ({ a with cls := .boolOp op }, s)
  | _ => (a, s)

def genericVisit : MutationApplier → Children → Children × MutationApplier
  | s, .nil => (.nil, s)
  | s, .cons f a ks rest =>
    let (a, s) := visitLabel s a
    let (ks, s) := genericVisit s ks
    let (rest, s) := genericVisit s rest
    (.cons f a ks rest, s)

def visit (s : MutationApplier) (n : Node) : Node × MutationApplier :=
  let (a, s) := visitLabel s n.label
  let (ks, s) := genericVisit s n.children
  (⟨a, ks⟩, s)

end MutationApplier

/-- `(None, None)` is `none`. `fix_missing_locations` finds nothing to add: operators have no
position. -/
def makeMutantSource (py : PyAst) (source : String) (targetIndex : Nat) :
    Except PyExc (Option (String × Option String)) := do
  let tree ← py.parse source
  let (newTree, applier) := MutationApplier.visit { targetIndex := targetIndex } tree.root
  if applier.applied then
    return some (py.unparse newTree, applier.description)
  else return none

end MutationTest
