import MutationTest.Operators

/-! # Statement deletion

`collectSdlSites` lists the simple statements of a tree in the order of `ast.walk`, by position and
class; `SDLApplier` looks for a position and a class in a depth-first traversal and puts `pass`
there. The last definition glues the two kinds of mutants into one index space. -/

namespace MutationTest
open FieldTree

/-- `isinstance(stmt, SDL_ELIGIBLE)`. -/
def Cls.sdlEligible : Cls → Bool
  | .expr | .assign | .augAssign _ | .annAssign _ | .return | .delete | .raise | .assert | .break
  | .continue => true
  | _ => false

def stmtListFields : List FieldName := [.body, .orelse, .finalbody]

def isDocstringExpr (stmt : Node) : Bool :=
  stmt.cls == .expr && match (stmt.child? .value).map Node.cls with
    | some (.constant (.str _) _) => true
    | _ => false

structure SdlSite where
  lineno : Nat
  colOffset : Nat
  typeName : String
  deriving DecidableEq

def Node.sdlSite (stmt : Node) : SdlSite :=
  ⟨stmt.pos.lineno, stmt.pos.colOffset, stmt.cls.typeName⟩

/-- The sites that one node of the walk contributes. -/
def Node.sdlSites (node : Node) : List SdlSite :=
  stmtListFields.flatMap fun field =>
    ((node.getList field).filter fun stmt => stmt.cls.sdlEligible && !isDocstringExpr stmt).map
      Node.sdlSite

/-- `ast.walk(tree)`. -/
def astWalk (tree : Node) : List Node := (walk [([], tree)]).map (·.2)

def sdlSitesOf (tree : Node) : List SdlSite := (astWalk tree).flatMap Node.sdlSites

def collectSdlSites (py : PyAst) (source : String) : Except PyExc (List SdlSite) := do
  let tree ← py.parse source
  return sdlSitesOf tree.root

namespace SDLApplier

/-- `pass` at the position of the statement it replaces. -/
def passAt (a : Label) : Label := { a with cls := .pass }

/-- The loop over the list in field `f`; the flag is `state["done"]`. -/
def scanList (target : SdlSite) (f : FieldName) : Bool → Children → Children × Bool
  | done, .nil => (.nil, done)
  | done, .cons g a ks rest =>
    if g = f && !done && Node.sdlSite ⟨a, ks⟩ = target then
      let (rest, done) := scanList target f true rest
      (.cons g (passAt a) .nil rest, done)
    else
      let (rest, done) := scanList target f done rest
      (.cons g a ks rest, done)

/-- The loop over `STMT_LIST_FIELDS` for a node of class `c`. -/
def scan (target : SdlSite) (c : Cls) (done : Bool) (ks : Children) : Children × Bool :=
  stmtListFields.foldl (fun (ks, done) f =>
    if c.isListField f then scanList target f done ks else (ks, done)) (ks, done)

theorem size_scanList (target : SdlSite) (f : FieldName) (done : Bool) (ks : Children) :
    (scanList target f done ks).1.size ≤ ks.size := by
  fun_induction scanList target f done ks <;> simp_all [Forest.size]
  omega

theorem size_scan (target : SdlSite) (c : Cls) (done : Bool) (ks : Children) :
    (scan target c done ks).1.size ≤ ks.size := by
  have hstep : ∀ f (r : Children × Bool),
      (if c.isListField f then scanList target f r.2 r.1 else r).1.size ≤ r.1.size := by
    intro f r
    split
    · exact size_scanList ..
    · exact Nat.le_refl _
  exact Nat.le_trans (hstep _ _) (Nat.le_trans (hstep _ _) (hstep _ _))

/-- The recursion of `generic_visit`: the lists of a child are scanned before its own children are
visited. -/
def visitChildren (target : SdlSite) : Bool → Children → Children × Bool
  | done, .nil => (.nil, done)
  | done, .cons f a ks rest =>
    let (ks, done) := visitChildren target (scan target a.cls done ks).2
      (scan target a.cls done ks).1
    let (rest, done) := visitChildren target done rest
    (.cons f a ks rest, done)
termination_by _ ks => ks.size
decreasing_by
  · have := size_scan target a.cls done ks
    simp only [Forest.size]
    omega
  · simp only [Forest.size]
    omega

def visit (target : SdlSite) (n : Node) : Node × Bool :=
  let (ks, done) := scan target n.cls false n.children
  let (ks, done) := visitChildren target done ks
  (⟨n.label, ks⟩, done)

end SDLApplier

def sdlDescription (target : SdlSite) : String :=
  s!"linha {target.lineno}: SDL remove {target.typeName} -> pass"

def makeSdlMutantSource (py : PyAst) (source : String) (sdlIndex : Nat) :
    Except PyExc (Option (String × Option String)) := do
  let sites ← collectSdlSites py source
  match sites[sdlIndex]? with
  | none => return none
  | some target =>
    let tree ← py.parse source
    let (newTree, done) := SDLApplier.visit target tree.root
    if done then
      return some (py.unparse newTree, some (sdlDescription target))
    else return none

def makeMutantSourceUnified (py : PyAst) (source : String) (idx nExprSites : Nat) :
    Except PyExc (Option (String × Option String)) :=
  if idx < nExprSites then makeMutantSource py source idx
  else makeSdlMutantSource py source (idx - nExprSites)

end MutationTest
