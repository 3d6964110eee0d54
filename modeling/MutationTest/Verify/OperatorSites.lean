import MutationTest.Operators

/-! # The two passes number the operators alike

An occurrence of an operator is a path to its node and an index among the node's operators.
`Node.opSites` lists the mutable occurrences of a tree in preorder. Both passes are described by
this one list: the collector maps it (`SiteCollector.visit_eq`), and the applier edits the tree at
the occurrence its counter stops at (`MutationApplier.visit_hit`, `MutationApplier.visit_miss`). -/

namespace MutationTest
open FieldTree

/-! ## Operators of a node -/

inductive Op where
  | cmp (op : CmpOp)
  | bin (op : Operator)
  | bool (op : BoolOp)
  deriving DecidableEq

/-- The operators the tool mutates. -/
def Op.isMutable : Op → Bool
  | cmp op => op ∈ relCycle || op ∈ identityCycle || op ∈ membershipCycle
  | bin op => op ∈ arithCycle
  | bool _ => true

def Op.name : Op → String
  | cmp op => op.name
  | bin op => op.name
  | bool op => op.name

def CmpOp.kind : CmpOp → Kind
  | .is | .isNot => .ior
  | .in | .notIn => .mor
  | _ => .ror

def Op.kind : Op → Kind
  | cmp op => op.kind
  | bin _ => .aor
  | bool _ => .cor

def CmpOp.next : CmpOp → CmpOp
  | .lt => .ltE | .ltE => .gt | .gt => .gtE | .gtE => .eq | .eq => .notEq | .notEq => .lt
  | .is => .isNot | .isNot => .is
  | .in => .notIn | .notIn => .in

def Operator.next : Operator → Operator
  | .add => .sub | .sub => .mult | .mult => .div | .div => .floorDiv | .floorDiv => .mod
  | .mod => .add
  | op => op

/-- Every comparison operator is in one of the three cycles, and `next` is its successor there. -/
theorem CmpOp.nextIn_cycle (op : CmpOp) :
    ∃ cycle ∈ [relCycle, identityCycle, membershipCycle],
      op ∈ cycle ∧ nextIn cycle op = op.next := by
  cases op <;> decide

/-- The successor of an operator in its own cycle. -/
def Op.next : Op → Op
  | cmp op => cmp op.next
  | bin op => bin op.next
  | bool op => bool op.swap

theorem Op.next_ne {o : Op} (h : o.isMutable) : o.next ≠ o := by
  revert h
  match o with
  | cmp op => cases op <;> decide
  | bin op => cases op <;> decide
  | bool op => cases op <;> decide

/-- The `i`-th operator of a node of this class. -/
def Cls.op? : Cls → Nat → Option Op
  | .compare ops, i => ops[i]?.map .cmp
  | .binOp op, 0 => some (.bin op)
  | .boolOp op, 0 => some (.bool op)
  | _, _ => none

/-- Replace the `i`-th operator. -/
def Cls.setOp : Cls → Nat → Op → Cls
  | .compare ops, i, .cmp op => .compare (ops.set i op)
  | .binOp _, 0, .bin op => .binOp op
  | .boolOp _, 0, .bool op => .boolOp op
  | c, _, _ => c

theorem Cls.op?_setOp_next {c : Cls} {i : Nat} {o : Op} (h : c.op? i = some o) :
    (c.setOp i o.next).op? i = some o.next := by
  match c, i with
  | .compare ops, i =>
    obtain ⟨op, hop, rfl⟩ := Option.map_eq_some_iff.mp h
    have hi : i < ops.length := (List.getElem?_eq_some_iff.mp hop).1
    simp [setOp, op?, Op.next, hi]
  | .binOp op, 0 | .boolOp op, 0 => cases h; rfl
  | .binOp _, i + 1 | .boolOp _, i + 1 => cases h

theorem Cls.op?_setOp_ne {c : Cls} {i j : Nat} (h : j ≠ i) (o : Op) :
    (c.setOp i o).op? j = c.op? j := by
  unfold setOp
  split
  · simp [op?, List.getElem?_set_ne (Ne.symm h)]
  · cases j with
    | zero => exact absurd rfl h
    | succ j => rfl
  · cases j with
    | zero => exact absurd rfl h
    | succ j => rfl
  · rfl

theorem Cls.typeName_setOp (c : Cls) (i : Nat) (o : Op) : (c.setOp i o).typeName = c.typeName := by
  unfold setOp
  split <;> rfl

def compareOps : Nat → List CmpOp → List (Nat × Op)
  | _, [] => []
  | i, op :: ops =>
    if (Op.cmp op).isMutable then (i, .cmp op) :: compareOps (i + 1) ops
    else compareOps (i + 1) ops

/-- The mutable operators of a node, each with its index. -/
def Cls.mutableOps : Cls → List (Nat × Op)
  | .compare ops => compareOps 0 ops
  | .binOp op => if (Op.bin op).isMutable then [(0, .bin op)] else []
  | .boolOp op => [(0, .bool op)]
  | _ => []

/-- Every comparison operator is in one of the three cycles. -/
theorem Op.isMutable_cmp (op : CmpOp) : (Op.cmp op).isMutable := by cases op <;> rfl

theorem getElem?_compareOps (i : Nat) (ops : List CmpOp) (j : Nat) :
    (compareOps i ops)[j]? = ops[j]?.map fun op => (i + j, .cmp op) := by
  induction ops generalizing i j with
  | nil => rfl
  | cons op ops ih =>
    rw [compareOps, if_pos (Op.isMutable_cmp op)]
    cases j with
    | zero => rfl
    | succ j => simp [ih, Nat.add_assoc, Nat.add_comm 1]

theorem mem_compareOps {i j : Nat} {ops : List CmpOp} {o : Op} :
    (j, o) ∈ compareOps i ops ↔
      ∃ k op, j = i + k ∧ ops[k]? = some op ∧ o = .cmp op ∧ o.isMutable := by
  simp only [List.mem_iff_getElem?, getElem?_compareOps, Option.map_eq_some_iff, Prod.mk.injEq]
  constructor
  · rintro ⟨k, op, hop, rfl, rfl⟩
    exact ⟨k, op, rfl, hop, rfl, Op.isMutable_cmp op⟩
  · rintro ⟨k, op, rfl, hop, rfl, -⟩
    exact ⟨k, op, hop, rfl, rfl⟩

theorem Cls.mem_mutableOps {c : Cls} {i : Nat} {o : Op} :
    (i, o) ∈ c.mutableOps ↔ c.op? i = some o ∧ o.isMutable := by
  unfold mutableOps
  split
  · rename_i ops
    rw [mem_compareOps]
    constructor
    · rintro ⟨k, op, rfl, hop, rfl, hm⟩
      simp [op?, hop, hm]
    · rintro ⟨h, hm⟩
      obtain ⟨op, hop, rfl⟩ := Option.map_eq_some_iff.mp h
      exact ⟨i, op, (Nat.zero_add i).symm, hop, rfl, hm⟩
  · rename_i op
    cases i with
    | zero =>
      simp only [op?, Option.some.injEq, eq_comm (a := Op.bin op)]
      split
      next hm => simp +contextual [hm]
      next hm => simp +contextual [hm]
    | succ i => split <;> simp [op?]
  · rename_i op
    cases i with
    | zero =>
      simp only [op?, List.mem_singleton, Prod.mk.injEq, true_and, Option.some.injEq, eq_comm]
      exact ⟨fun h => ⟨h, by rw [h]; rfl⟩, fun h => h.1⟩
    | succ i => simp [op?]
  · rename_i h1 h2 h3
    cases c <;> first
      | exact absurd rfl (h1 _)
      | exact absurd rfl (h2 _)
      | exact absurd rfl (h3 _)
      | simp [op?]

private theorem compareOps_pairwise (i : Nat) (ops : List CmpOp) :
    (compareOps i ops).Pairwise fun x y => x.1 < y.1 := by
  induction ops generalizing i with
  | nil => exact .nil
  | cons op ops ih =>
    rw [compareOps]
    split
    · refine List.pairwise_cons.mpr ⟨fun y hy => ?_, ih _⟩
      obtain ⟨k, p, h, -⟩ := mem_compareOps.mp (show (y.1, y.2) ∈ _ from hy)
      omega
    · exact ih _

theorem Cls.mutableOps_pairwise (c : Cls) : c.mutableOps.Pairwise fun x y => x.1 < y.1 := by
  unfold mutableOps
  split
  · exact compareOps_pairwise 0 _
  · split
    · exact List.pairwise_singleton ..
    · exact .nil
  · exact List.pairwise_singleton ..
  · exact .nil

/-! ## Operators of a tree -/

/-- An occurrence of a mutable operator. -/
structure OpSite where
  path : Path
  index : Nat
  lineno : Nat
  op : Op
  deriving DecidableEq

/-- What the collector records. -/
def Op.site (lineno : Nat) (o : Op) : Site :=
  ⟨o.kind, lineno, siteDescription lineno o.name o.next.name⟩

/-- What the applier reports: the text of the site with the kind inserted. -/
def Op.description (lineno : Nat) (o : Op) : String :=
  mutantDescription lineno o.kind.name o.name o.next.name

namespace OpSite

def site (x : OpSite) : Site := x.op.site x.lineno
def description (x : OpSite) : String := x.op.description x.lineno

def edit (x : OpSite) (n : Node) : Node :=
  { n with label := { n.label with cls := n.label.cls.setOp x.index x.op.next } }

/-- The tree with this one operator replaced by its successor. -/
def apply (x : OpSite) (t : Node) : Node := t.update x.path x.edit

end OpSite

/-- The sites of one node. -/
def sitesAt (e : Path × Node) : List OpSite :=
  e.2.cls.mutableOps.map fun io => ⟨e.1, io.1, e.2.pos.lineno, io.2⟩

def Node.opSites (t : Node) : List OpSite := t.nodes.flatMap sitesAt

/-- `x` is an operator of `t` that the tool mutates. -/
def Node.HasOp (t : Node) (x : OpSite) : Prop :=
  ∃ n : Node, t.get? x.path = some n ∧ n.cls.op? x.index = some x.op ∧ x.op.isMutable ∧
    x.lineno = n.pos.lineno

theorem Node.mem_opSites {t : Node} {x : OpSite} : x ∈ t.opSites ↔ t.HasOp x := by
  simp only [opSites, List.mem_flatMap, sitesAt, List.mem_map, HasOp]
  constructor
  · rintro ⟨⟨p, n⟩, hn, ⟨i, o⟩, ho, rfl⟩
    obtain ⟨h1, h2⟩ := Cls.mem_mutableOps.mp ho
    exact ⟨n, FTree.mem_nodes.mp hn, h1, h2, rfl⟩
  · rintro ⟨n, hn, h1, h2, h3⟩
    exact ⟨(x.path, n), FTree.mem_nodes.mpr hn, (x.index, x.op), Cls.mem_mutableOps.mpr ⟨h1, h2⟩,
      by rw [← h3]⟩

/-- Parents come before their children, and the operators of one node in order. -/
theorem Node.opSites_pairwise (t : Node) :
    t.opSites.Pairwise fun x y =>
      (x.path = y.path ∧ x.index < y.index) ∨ ¬y.path <+: x.path := by
  rw [opSites, List.pairwise_flatMap]
  refine ⟨fun e _ => ?_, t.nodes_pairwise.imp fun {d e} h x hx y hy => ?_⟩
  · rw [sitesAt, List.pairwise_map]
    exact e.2.cls.mutableOps_pairwise.imp fun h => .inl ⟨rfl, h⟩
  · obtain ⟨_, _, rfl⟩ := List.mem_map.mp hx
    obtain ⟨_, _, rfl⟩ := List.mem_map.mp hy
    exact .inr h

theorem Node.nodup_opSites (t : Node) : t.opSites.Nodup := by
  refine t.opSites_pairwise.imp fun {x y} h he => ?_
  subst he
  rcases h with h | h
  · exact Nat.lt_irrefl _ h.2
  · exact h List.prefix_rfl

end MutationTest
