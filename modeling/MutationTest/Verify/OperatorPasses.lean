import MutationTest.Verify.OperatorSites

/-! # Collector and applier agree

Each pass is followed over the operators of one node, over a forest and over a tree. The applier's
counter starts at `-1`, so target `k` is hit at the `k`-th mutable operator in preorder, which is
the one the collector lists at index `k`. -/

namespace MutationTest
open FieldTree

theorem nextIn_arithCycle {op : Operator} (h : op ∈ arithCycle) :
    nextIn arithCycle op = op.next := by
  revert h; cases op <;> decide

theorem length_compareOps (i : Nat) (ops : List CmpOp) :
    (compareOps i ops).length = ops.length := by
  induction ops generalizing i with
  | nil => rfl
  | cons op ops ih => simp [compareOps, Op.isMutable_cmp, ih]

/-! ## The collector -/

namespace SiteCollector

theorem visitCompare_cons (lineno : Nat) (sites : List Site) (op : CmpOp) (ops : List CmpOp) :
    visitCompare lineno sites (op :: ops) =
      visitCompare lineno (sites ++ [(Op.cmp op).site lineno]) ops := by
  cases op <;> rfl

theorem visitCompare_eq (lineno i : Nat) (sites : List Site) (ops : List CmpOp) :
    visitCompare lineno sites ops =
      sites ++ (compareOps i ops).map fun io => io.2.site lineno := by
  induction ops generalizing i sites with
  | nil => exact (List.append_nil sites).symm
  | cons op ops ih =>
    rw [visitCompare_cons, ih (i + 1), compareOps, if_pos (Op.isMutable_cmp op)]
    simp

theorem visitLabel_eq (sites : List Site) (a : Label) :
    visitLabel sites a = sites ++ a.cls.mutableOps.map fun io => io.2.site a.pos.lineno := by
  obtain ⟨c, pos⟩ := a
  unfold visitLabel
  split
  · rename_i ops hc
    subst hc
    exact visitCompare_eq ..
  · rename_i op hc
    subst hc
    by_cases h : op ∈ arithCycle
    · simp [visitBinOp, record, Cls.mutableOps, h, Op.isMutable, Op.site, Op.kind, Op.name,
        Op.next, nextIn_arithCycle h]
    · simp [visitBinOp, Cls.mutableOps, h, Op.isMutable]
  · rename_i op hc
    subst hc
    rfl
  · rename_i h1 h2 h3
    cases c <;> first
      | exact (h1 _ rfl).elim
      | exact (h2 _ rfl).elim
      | exact (h3 _ rfl).elim
      | simp [Cls.mutableOps]

theorem genericVisit_eq (sites : List Site) (ks : Children) :
    genericVisit sites ks = sites ++ (ks.nodes.flatMap sitesAt).map OpSite.site := by
  induction ks generalizing sites with
  | nil => exact (List.append_nil sites).symm
  | cons f a ks rest ihk ihr =>
    rw [genericVisit, ihr, ihk, visitLabel_eq]
    simp only [Forest.nodes, List.cons_append, List.flatMap_cons, List.flatMap_append,
      List.flatMap_map, List.map_append, List.map_flatMap, sitesAt, List.map_map]
    simp only [List.append_assoc, Function.comp_def, OpSite.site]

theorem visit_eq (t : Node) : visit t = t.opSites.map OpSite.site := by
  rw [visit, genericVisit_eq, visitLabel_eq, Node.opSites, FTree.nodes]
  simp [sitesAt, OpSite.site, Function.comp_def]

end SiteCollector

/-! ## The applier -/

namespace MutationApplier

/-- The state after `n` operators, none of them the target. -/
def skip (s : MutationApplier) (n : Nat) : MutationApplier := { s with counter := s.counter + n }

/-- The state after `n` operators with the target among them. -/
def hit (s : MutationApplier) (n : Nat) (d : String) : MutationApplier :=
  { s with counter := s.counter + n, applied := true, description := some d }

/-- The target is not one of the next `n` operators. -/
def Misses (s : MutationApplier) (n : Nat) : Prop :=
  s.targetIndex ≤ s.counter ∨ s.counter + n < s.targetIndex

@[simp] theorem skip_zero (s : MutationApplier) : s.skip 0 = s := by simp [skip]

@[simp] theorem skip_skip (s : MutationApplier) (n m : Nat) :
    (s.skip n).skip m = s.skip (n + m) := by
  simp [skip, Int.add_assoc]

@[simp] theorem hit_skip (s : MutationApplier) (n m : Nat) (d : String) :
    (s.skip n).hit m d = s.hit (n + m) d := by
  simp [skip, hit, Int.add_assoc]

@[simp] theorem skip_hit (s : MutationApplier) (n m : Nat) (d : String) :
    (s.hit n d).skip m = s.hit (n + m) d := by
  simp [skip, hit, Int.add_assoc]

theorem Misses.left {s : MutationApplier} {n m : Nat} (h : s.Misses (n + m)) : s.Misses n := by
  simp only [Misses] at h ⊢; omega

theorem Misses.right {s : MutationApplier} {n m : Nat} (h : s.Misses (n + m)) :
    (s.skip n).Misses m := by
  simp only [Misses, skip] at h ⊢; omega

theorem misses_hit {s : MutationApplier} {n j : Nat} (h : s.targetIndex = s.counter + 1 + j)
    (hj : j < n) (m : Nat) (d : String) : (s.hit n d).Misses m := by
  simp only [Misses, hit]; omega

theorem misses_of_le {s : MutationApplier} {n j : Nat} (h : s.targetIndex = s.counter + 1 + j)
    (hj : n ≤ j) : s.Misses n := by
  simp only [Misses]; omega

theorem target_skip {s : MutationApplier} {n j : Nat} (h : s.targetIndex = s.counter + 1 + j)
    (hj : n ≤ j) : (s.skip n).targetIndex = (s.skip n).counter + 1 + ↑(j - n) := by
  simp only [skip]; omega

section
variable {s : MutationApplier} {lineno j : Nat} {kind : Kind}

theorem replace_miss {α : Type} {name : α → String} {old new : α} (h : s.Misses 1) :
    s.replace lineno kind name old new = (old, s.skip 1) := by
  have hne : ¬s.counter + 1 = s.targetIndex := by simp only [Misses] at h; omega
  simp [replace, isTarget, skip, hne]

theorem replace_hit {α : Type} {name : α → String} {old new : α}
    (h : s.targetIndex = s.counter + 1) :
    s.replace lineno kind name old new =
      (new, s.hit 1 (mutantDescription lineno kind.name (name old) (name new))) := by
  simp [replace, isTarget, hit, h]

theorem visitCompare_cons (lineno : Nat) (op : CmpOp) (ops : List CmpOp) :
    visitCompare lineno s (op :: ops) =
      let r := s.replace lineno op.kind CmpOp.name op op.next
      (r.1 :: (visitCompare lineno r.2 ops).1, (visitCompare lineno r.2 ops).2) := by
  cases op <;> rfl

theorem visitCompare_miss {ops : List CmpOp} (h : s.Misses ops.length) :
    visitCompare lineno s ops = (ops, s.skip ops.length) := by
  induction ops generalizing s with
  | nil => simp [visitCompare]
  | cons op ops ih =>
    rw [List.length_cons, Nat.add_comm] at h
    rw [visitCompare_cons, replace_miss h.left]
    simp [ih h.right, Nat.add_comm]

theorem visitCompare_hit {ops : List CmpOp} {op : CmpOp} (hop : ops[j]? = some op)
    (h : s.targetIndex = s.counter + 1 + j) :
    visitCompare lineno s ops =
      (ops.set j op.next, s.hit ops.length ((Op.cmp op).description lineno)) := by
  induction ops generalizing s j with
  | nil => simp at hop
  | cons op' ops ih =>
    rw [visitCompare_cons]
    cases j with
    | zero =>
      obtain rfl : op' = op := by simpa using hop
      rw [replace_hit (by simpa using h)]
      simp only [visitCompare_miss (misses_hit (by simpa using h) Nat.one_pos _ _)]
      simp [Op.description, Op.kind, Op.name, Op.next, Nat.add_comm]
    | succ j =>
      rw [replace_miss (misses_of_le h (by omega))]
      simp only [ih (s := s.skip 1) (by simpa using hop) (target_skip h (by omega))]
      simp [Nat.add_comm]

theorem visitLabel_miss {a : Label} (h : s.Misses a.cls.mutableOps.length) :
    visitLabel s a = (a, s.skip a.cls.mutableOps.length) := by
  obtain ⟨c, pos⟩ := a
  unfold visitLabel
  split
  · rename_i ops hc
    subst hc
    rw [Cls.mutableOps, length_compareOps] at h ⊢
    rw [visitCompare_miss h]
  · rename_i op hc
    subst hc
    by_cases hm : op ∈ arithCycle
    · simp only [Cls.mutableOps, Op.isMutable, hm, decide_true, if_pos] at h ⊢
      simp [visitBinOp, hm, replace_miss h]
    · simp [visitBinOp, hm, Cls.mutableOps, Op.isMutable]
  · rename_i op hc
    subst hc
    simp [visitBoolOp, Cls.mutableOps, replace_miss h]
  · rename_i h1 h2 h3
    have hnil : c.mutableOps = [] := by
      cases c <;> first
        | rfl
        | exact (h1 _ rfl).elim
        | exact (h2 _ rfl).elim
        | exact (h3 _ rfl).elim
    simp [hnil]

theorem visitLabel_hit {a : Label} {i : Nat} {o : Op} (ho : a.cls.mutableOps[j]? = some (i, o))
    (h : s.targetIndex = s.counter + 1 + j) :
    visitLabel s a = ({ a with cls := a.cls.setOp i o.next },
      s.hit a.cls.mutableOps.length (o.description a.pos.lineno)) := by
  obtain ⟨c, pos⟩ := a
  have hzero : ∀ {x : Nat × Op}, [x][j]? = some (i, o) → j = 0 ∧ i = x.1 ∧ o = x.2 := by
    intro x hx
    cases j with
    | zero => exact ⟨rfl, by simp_all⟩
    | succ j => simp at hx
  unfold visitLabel
  split
  · rename_i ops hc
    subst hc
    rw [Cls.mutableOps, getElem?_compareOps] at ho
    obtain ⟨op, hop, ho⟩ := Option.map_eq_some_iff.mp ho
    obtain ⟨rfl, rfl⟩ := Prod.mk.inj ho
    rw [visitCompare_hit hop h, Cls.mutableOps, length_compareOps, Nat.zero_add]
    rfl
  · rename_i op hc
    subst hc
    by_cases hm : op ∈ arithCycle
    · simp only [Cls.mutableOps, Op.isMutable, hm, decide_true, if_pos] at ho ⊢
      obtain ⟨rfl, rfl, rfl⟩ := hzero ho
      rw [visitBinOp, if_pos hm, replace_hit (by simpa using h), nextIn_arithCycle hm]
      rfl
    · simp [Cls.mutableOps, Op.isMutable, hm] at ho
  · rename_i op hc
    subst hc
    obtain ⟨rfl, rfl, rfl⟩ := hzero ho
    rw [visitBoolOp, replace_hit (by simpa using h)]
    rfl
  · rename_i h1 h2 h3
    cases c <;> first
      | exact (h1 _ rfl).elim
      | exact (h2 _ rfl).elim
      | exact (h3 _ rfl).elim
      | simp [Cls.mutableOps] at ho

end

end MutationApplier

/-! ## Over a tree -/

/-- The sites of a forest, under their paths from it. -/
def forestSites (ks : Children) : List OpSite := ks.nodes.flatMap sitesAt

def OpSite.relocate (x : OpSite) (h : Path → Path) : OpSite := { x with path := h x.path }

theorem sitesAt_relocate (h : Path → Path) (e : Path × Node) :
    sitesAt (h e.1, e.2) = (sitesAt e).map (·.relocate h) := by
  simp [sitesAt, OpSite.relocate, Function.comp_def]

theorem forestSites_cons (f : FieldName) (a : Label) (ks rest : Children) :
    forestSites (.cons f a ks rest) = sitesAt ([0], ⟨a, ks⟩) ++
      ((forestSites ks).map (·.relocate (0 :: ·)) ++
        (forestSites rest).map (·.relocate (·.modifyHead (· + 1)))) := by
  simp only [forestSites, Forest.nodes, List.cons_append, List.flatMap_cons, List.flatMap_append,
    List.flatMap_map, List.map_flatMap, ← sitesAt_relocate]

theorem length_sitesAt (p : Path) (a : Label) (ks : Children) :
    (sitesAt (p, ⟨a, ks⟩)).length = a.cls.mutableOps.length :=
  List.length_map _

theorem path_ne_nil_of_forestSites {ks : Children} {x : OpSite} (h : x ∈ forestSites ks) :
    x.path ≠ [] := by
  obtain ⟨e, he, hx⟩ := List.mem_flatMap.mp h
  obtain ⟨_, _, rfl⟩ := List.mem_map.mp hx
  exact Forest.ne_nil_of_mem_nodes he

/-- The two cases of an index into an append. -/
theorem getElem?_append_cases {α : Type} {xs ys : List α} {j : Nat} {x : α}
    (h : (xs ++ ys)[j]? = some x) :
    (j < xs.length ∧ xs[j]? = some x) ∨ (xs.length ≤ j ∧ ys[j - xs.length]? = some x) := by
  rw [List.getElem?_append] at h
  split at h
  · exact .inl ⟨‹_›, h⟩
  · exact .inr ⟨by omega, h⟩

namespace MutationApplier

variable {s : MutationApplier} {j : Nat}

theorem genericVisit_cons (f : FieldName) (a : Label) (ks rest : Children) :
    genericVisit s (.cons f a ks rest) =
      let ra := visitLabel s a
      let rk := genericVisit ra.2 ks
      let rr := genericVisit rk.2 rest
      (.cons f ra.1 rk.1 rr.1, rr.2) := rfl

theorem genericVisit_miss {ks : Children} (h : s.Misses (forestSites ks).length) :
    genericVisit s ks = (ks, s.skip (forestSites ks).length) := by
  induction ks generalizing s with
  | nil => simp [genericVisit, forestSites, Forest.nodes]
  | cons f a ks rest ihk ihr =>
    simp only [forestSites_cons, List.length_append, List.length_map, length_sitesAt] at h ⊢
    rw [genericVisit_cons, visitLabel_miss h.left]
    simp only [ihk h.right.left, ihr h.right.right]
    simp only [skip_skip, Nat.add_assoc]

/-- The target is in the label, in the children or in the siblings; what comes before it is
skipped, and what comes after it is missed because the counter has passed. -/
theorem genericVisit_hit {ks : Children} {x : OpSite} (hx : (forestSites ks)[j]? = some x)
    (h : s.targetIndex = s.counter + 1 + j) :
    genericVisit s ks =
      (ks.update x.path x.edit, s.hit (forestSites ks).length x.description) := by
  induction ks generalizing s j x with
  | nil => simp [forestSites, Forest.nodes] at hx
  | cons f a ks rest ihk ihr =>
    rw [forestSites_cons] at hx
    simp only [forestSites_cons, List.length_append, List.length_map, length_sitesAt]
    rw [genericVisit_cons]
    rcases getElem?_append_cases hx with ⟨hj, hx⟩ | ⟨hj, hx⟩
    · rw [length_sitesAt] at hj
      obtain ⟨⟨i, o⟩, ho, rfl⟩ := Option.map_eq_some_iff.mp (List.getElem?_map ▸ hx)
      rw [visitLabel_hit ho h]
      simp only [genericVisit_miss (misses_hit h hj _ _), skip_hit,
        genericVisit_miss (misses_hit h (Nat.lt_add_right _ hj) _ _), Nat.add_assoc]
      rfl
    rw [length_sitesAt] at hj hx
    have h' := target_skip h hj
    rw [visitLabel_miss (misses_of_le h hj)]
    rcases getElem?_append_cases hx with ⟨hj', hx⟩ | ⟨hj', hx⟩
    · obtain ⟨y, hy, rfl⟩ := Option.map_eq_some_iff.mp (List.getElem?_map ▸ hx)
      have hne := path_ne_nil_of_forestSites (List.mem_of_getElem? hy)
      have hlt : j < a.cls.mutableOps.length + (forestSites ks).length := by
        rw [List.length_map] at hj'; omega
      simp only [ihk hy h', hit_skip, genericVisit_miss (misses_hit h hlt _ _), skip_hit,
        Nat.add_assoc]
      exact Prod.ext (Forest.update_zero hne _).symm rfl
    · rw [List.length_map] at hj' hx
      obtain ⟨y, hy, rfl⟩ := Option.map_eq_some_iff.mp (List.getElem?_map ▸ hx)
      have hne := path_ne_nil_of_forestSites (List.mem_of_getElem? hy)
      simp only [genericVisit_miss (misses_of_le h' hj'), ihr hy (target_skip h' hj')]
      simp only [hit_skip, skip_skip, Nat.add_assoc]
      exact Prod.ext (Forest.update_succ hne _).symm rfl

theorem visit_miss {t : Node} (h : s.Misses t.opSites.length) :
    visit s t = (t, s.skip t.opSites.length) := by
  have hlen : t.opSites.length = t.cls.mutableOps.length + (forestSites t.children).length := by
    rw [← length_sitesAt [] t.label t.children, ← List.length_append]; rfl
  rw [hlen] at h ⊢
  rw [visit, visitLabel_miss h.left]
  simp only [genericVisit_miss h.right]
  rw [skip_skip]

theorem visit_hit {t : Node} {x : OpSite} (hx : t.opSites[j]? = some x)
    (h : s.targetIndex = s.counter + 1 + j) :
    visit s t = (x.apply t, s.hit t.opSites.length x.description) := by
  have hlen : t.opSites.length = t.cls.mutableOps.length + (forestSites t.children).length := by
    rw [← length_sitesAt [] t.label t.children, ← List.length_append]; rfl
  rw [visit, hlen]
  rcases getElem?_append_cases (show (sitesAt ([], t) ++ _)[j]? = _ from hx)
    with ⟨hj, hx⟩ | ⟨hj, hx⟩
  · rw [length_sitesAt] at hj
    obtain ⟨⟨i, o⟩, ho, rfl⟩ := Option.map_eq_some_iff.mp (List.getElem?_map ▸ hx)
    rw [visitLabel_hit ho h]
    simp only [genericVisit_miss (misses_hit h hj _ _), skip_hit]
    rfl
  · rw [length_sitesAt] at hj hx
    rw [visitLabel_miss (misses_of_le h hj)]
    simp only [genericVisit_hit hx (target_skip h hj), hit_skip]
    rw [OpSite.apply, FTree.update_eq_mk (path_ne_nil_of_forestSites (List.mem_of_getElem? hx))]

end MutationApplier

theorem collectSites_eq {py : PyAst} {s : String} {m : Module} (h : py.parse s = .ok m) :
    collectSites py s = .ok (m.root.opSites.map OpSite.site) := by
  rw [collectSites, h, ← SiteCollector.visit_eq]
  rfl

theorem makeMutantSource_eq {py : PyAst} {s : String} {m : Module} (h : py.parse s = .ok m)
    (k : Nat) :
    makeMutantSource py s k = .ok (m.root.opSites[k]?.map fun x =>
      (py.unparse (x.apply m.root), some x.description)) := by
  have hk : ((k : Int) = -1 + 1 + k) := by omega
  unfold makeMutantSource
  rw [h]
  change (let r := MutationApplier.visit { targetIndex := k } m.root
    if r.2.applied then Except.ok (some (py.unparse r.1, r.2.description)) else .ok none) = _
  cases hx : m.root.opSites[k]? with
  | some x => rw [MutationApplier.visit_hit hx hk]; rfl
  | none =>
    rw [MutationApplier.visit_miss
      (MutationApplier.misses_of_le hk (List.getElem?_eq_none_iff.mp hx))]
    rfl

/-! ## The two passes agree -/

/-- The applier counts what the collector lists. `occ` is the list of the mutable operators of the
tree, parents first: the collector records it entry by entry, and target `k` replaces exactly its
`k`-th entry, or nothing when there is none. -/
theorem collector_applier_agree {py : PyAst} {s : String} {m : Module} (h : py.parse s = .ok m) :
    ∃ occ : List OpSite,
      (∀ x, x ∈ occ ↔ m.root.HasOp x) ∧ occ.Nodup ∧
      occ.Pairwise (fun x y => ¬(y.path <+: x.path ∧ y.path ≠ x.path)) ∧
      collectSites py s = .ok (occ.map fun x =>
        ⟨x.op.kind, x.lineno, siteDescription x.lineno x.op.name x.op.next.name⟩) ∧
      ∀ k, makeMutantSource py s k = .ok (occ[k]?.map fun x =>
        (py.unparse (x.apply m.root),
          some (mutantDescription x.lineno x.op.kind.name x.op.name x.op.next.name))) := by
  refine ⟨m.root.opSites, fun _ => Node.mem_opSites, m.root.nodup_opSites, ?_, collectSites_eq h,
    makeMutantSource_eq h⟩
  refine m.root.opSites_pairwise.imp fun hxy hy => ?_
  rcases hxy with ⟨he, -⟩ | hnot
  · exact hy.2 he.symm
  · exact hnot hy.1

/-! ## An example -/

/-- The tree of `assert a < b + 1`, with the line and the two operators as parameters. -/
def assertRoot (line : Nat) (cmp : CmpOp) (op : Operator) : Node :=
  ⟨⟨.module, ⟨0, 0⟩⟩,
    .cons .body ⟨.assert, ⟨line, 0⟩⟩
      (.cons .test ⟨.compare [cmp], ⟨line, 7⟩⟩
        (.cons .left ⟨.name "a" .load, ⟨line, 7⟩⟩ .nil
          (.cons .comparators ⟨.binOp op, ⟨line, 11⟩⟩
            (.cons .left ⟨.name "b" .load, ⟨line, 11⟩⟩ .nil
              (.cons .right ⟨.constant (.int 1) none, ⟨line, 15⟩⟩ .nil .nil)) .nil)) .nil) .nil⟩

def passRoot : Node := ⟨⟨.module, ⟨0, 0⟩⟩, .cons .body ⟨.pass, ⟨1, 0⟩⟩ .nil .nil⟩

theorem assertRoot_wf (line : Nat) (cmp : CmpOp) (op : Operator) :
    (assertRoot line cmp op).WF := by
  intro e he
  simp only [assertRoot, FTree.nodes, Forest.nodes, List.map_nil, List.map_cons, List.append_nil,
    List.cons_append, List.nil_append, List.mem_cons, List.not_mem_nil, or_false] at he
  rcases he with rfl | rfl | rfl | rfl | rfl | rfl | rfl <;> rfl

def assertModule (line : Nat) (cmp : CmpOp) (op : Operator) : Module :=
  ⟨assertRoot line cmp op, rfl, assertRoot_wf line cmp op⟩

def passModule : Module := ⟨passRoot, rfl, by decide⟩

/-- The pairs of operators that occur in this example, with their text. -/
def assertTexts : List ((CmpOp × Operator) × String) :=
  [((.lt, .add), "assert a < b + 1"), ((.ltE, .add), "assert a <= b + 1"),
    ((.lt, .sub), "assert a < b - 1"), ((.ltE, .sub), "assert a <= b - 1"),
    ((.lt, .mult), "assert a < b * 1")]

/-- The `ast` module on the texts of this example. -/
def assertPy : PyAst where
  parse s :=
    if s = "pass" then .ok passModule
    else if s = "\nassert a < b + 1\n" then .ok (assertModule 2 .lt .add)
    else match assertTexts.find? fun x => s = x.2 ∨ s = x.2 ++ "\n" with
      | some x => .ok (assertModule 1 x.1.1 x.1.2)
      | none => .error .syntaxError
  unparse t :=
    if t.strip = passRoot.strip then "pass"
    else match assertTexts.find? fun x => t.strip = (assertRoot 1 x.1.1 x.1.2).strip with
      | some x => x.2
      | none => "?"

/-- What `assertPy.parse` returns. -/
theorem assertPy_parse_eq {s : String} {m : Module} (h : assertPy.parse s = .ok m) :
    m = passModule ∨ m = assertModule 2 .lt .add ∨
      ∃ x ∈ assertTexts, m = assertModule 1 x.1.1 x.1.2 := by
  simp only [assertPy] at h
  split at h
  · exact .inl (Except.ok.inj h).symm
  split at h
  · exact .inr (.inl (Except.ok.inj h).symm)
  split at h
  next x hx => exact .inr (.inr ⟨x, List.mem_of_find?_eq_some hx, (Except.ok.inj h).symm⟩)
  · cases h

theorem assertPy_parse : assertPy.parse "assert a < b + 1\n" = .ok (assertModule 1 .lt .add) := rfl

theorem assertPy_positionsDistinct : assertPy.PositionsDistinct := by
  intro s m h
  rcases assertPy_parse_eq h with rfl | rfl | ⟨x, -, rfl⟩ <;> exact List.nodup_singleton _

theorem assertPy_unparseStructural : assertPy.UnparseStructural := by
  intro t t' h
  simp only [assertPy, h]

theorem assertPy_roundTrips (t : Node) : assertPy.RoundTrips t := by
  intro m h
  have hfind : ∀ x ∈ assertTexts, assertPy.parse x.2 = .ok (assertModule 1 x.1.1 x.1.2) := by
    intro x hx
    simp only [assertTexts, List.mem_cons, List.not_mem_nil, or_false] at hx
    rcases hx with rfl | rfl | rfl | rfl | rfl <;> rfl
  have hunparse : assertPy.unparse t = if t.strip = passRoot.strip then "pass"
      else match assertTexts.find? fun x => t.strip = (assertRoot 1 x.1.1 x.1.2).strip with
        | some x => x.2
        | none => "?" := rfl
  rw [hunparse] at h
  split at h
  next ht =>
    obtain rfl : passModule = m := Except.ok.inj h
    exact ht.symm
  split at h
  next x hx =>
    rw [hfind x (List.mem_of_find?_eq_some hx)] at h
    obtain rfl := Except.ok.inj h
    have hstrip : t.strip = (assertRoot 1 x.1.1 x.1.2).strip := by simpa using List.find?_some hx
    exact hstrip.symm
  next => cases h

theorem collector_applier_agree_assert :
    ∃ occ : List OpSite,
      (∀ x, x ∈ occ ↔ (assertModule 1 .lt .add).root.HasOp x) ∧ occ.Nodup ∧
      occ.Pairwise (fun x y => ¬(y.path <+: x.path ∧ y.path ≠ x.path)) ∧
      collectSites assertPy "assert a < b + 1\n" = .ok (occ.map fun x =>
        ⟨x.op.kind, x.lineno, siteDescription x.lineno x.op.name x.op.next.name⟩) ∧
      ∀ k, makeMutantSource assertPy "assert a < b + 1\n" k = .ok (occ[k]?.map fun x =>
        (assertPy.unparse (x.apply (assertModule 1 .lt .add).root),
          some (mutantDescription x.lineno x.op.kind.name x.op.name x.op.next.name))) :=
  collector_applier_agree assertPy_parse

end MutationTest
