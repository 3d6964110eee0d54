import MutationTest.Acceptance
import MutationTest.Verify.Mutants

/-! # What an edit does to the static rules

An edit is local, acceptance is not. Changing an operator shows only in the patterns, because the
other rules see the plain tree (`OpSite.plain_apply`). Deleting a statement takes its nodes away and
leaves what the rest of the tree mentions where it was (`Node.mentionsAt_deleteStmt`), so it shows
only at a `nonlocal` whose bindings all lie in the statement. -/

namespace MutationTest
open FieldTree

/-! ## The plain tree -/

theorem Cls.plain_setOp (c : Cls) (i : Nat) (o : Op) : (c.setOp i o).plain = c.plain := by
  unfold setOp
  split <;> simp [plain]

theorem Cls.nonterminal_plain (c : Cls) : c.plain.nonterminal = c.nonterminal := by
  cases c <;> rfl

theorem Cls.fields_plain (c : Cls) : c.plain.fields = c.fields := by
  cases c <;> rfl

theorem Cls.sdlEligible_plain (c : Cls) : c.plain.sdlEligible = c.sdlEligible := by
  cases c <;> rfl

theorem Node.isSdl_plain (n : Node) : n.plain.isSdl = n.isSdl := by
  have hexpr : (n.cls.plain == .expr) = (n.cls == .expr) := by cases n.cls <;> rfl
  have hdoc : isDocstringExpr n.plain = isDocstringExpr n := by
    rw [isDocstringExpr, isDocstringExpr, plain, child?_map, ← plain, ← hexpr]
    refine congrArg _ ?_
    cases n.child? .value with
    | none => rfl
    | some v => obtain ⟨⟨c, -⟩, -⟩ := v; cases c <;> rfl
  rw [isSdl, isSdl, hdoc]
  exact congrArg (· && _) n.cls.sdlEligible_plain

theorem OpSite.plain_apply (x : OpSite) (t : Node) : Node.plain (x.apply t) = t.plain := by
  refine FTree.map_update_of_eq _ t x.path fun s => ?_
  simp [FTree.map, OpSite.edit, Cls.plain_setOp]

theorem Node.plain_deleteStmt (t : Node) (p : Path) :
    (t.deleteStmt p).plain = t.plain.deleteStmt p :=
  FTree.map_update _ t p fun _ => rfl

theorem Node.WF_plain {t : Node} : t.plain.WF ↔ t.WF :=
  Node.WF_map (fun a => a.cls.fields_plain) fun a => a.cls.nonterminal_plain

theorem Node.isPatternLiteral_plain (t : Node) (p : Path) :
    t.plain.isPatternLiteral p = t.isPatternLiteral p := by
  rw [isPatternLiteral, plain, FTree.slot?_map, isPatternLiteral, Option.any_map]
  refine congrFun (congrArg Option.any (funext fun x => ?_)) _
  obtain ⟨⟨⟨c, -⟩, -⟩, -⟩ := x
  cases c <;> rfl

theorem OpSite.isPatternLiteral_apply (x : OpSite) (t : Node) (p : Path) :
    Node.isPatternLiteral (x.apply t) p = t.isPatternLiteral p := by
  rw [← Node.isPatternLiteral_plain, plain_apply, Node.isPatternLiteral_plain]

/-! ## Patterns -/

theorem Node.patternOperators_iff {t : Node} :
    t.patternOperators ↔ ∀ p c, t.cls? p = some c → c.isOperation →
      ∀ q, q <+: p → t.isPatternLiteral q → q = p ∧ c.joinsComplex := by
  simp only [patternOperators, List.all_eq_true, Prod.forall, FTree.mem_nodes, cls?, FTree.label?,
    Option.map_map, Option.map_eq_some_iff, Bool.or_eq_true, Bool.not_eq_true', List.mem_inits,
    Bool.and_eq_true, decide_eq_true_eq]
  constructor
  · rintro h p _ ⟨n, hn, rfl⟩ hop q hq hl
    rcases h p n hn with h | h
    · exact absurd hop (by simp [h])
    · exact (h q hq).resolve_left (by simp [hl])
  · intro h p n hn
    refine (Bool.eq_false_or_eq_true n.label.cls.isOperation).symm.imp_right fun hop q hq => ?_
    exact (Bool.eq_false_or_eq_true (t.isPatternLiteral q)).symm.imp_right fun hl =>
      h p n.label.cls ⟨n, hn, rfl⟩ hop q hq hl

theorem Cls.isOperation_of_op? {c : Cls} {i : Nat} {o : Op} (h : c.op? i = some o) :
    c.isOperation := by
  unfold op? at h
  split at h <;> first | rfl | cases h

theorem Cls.isOperation_setOp (c : Cls) (i : Nat) (o : Op) :
    (c.setOp i o).isOperation = c.isOperation := by
  unfold setOp
  split <;> rfl

/-- Of the two operators, `+` is followed by `-` and `-` by `*`. -/
theorem Cls.joinsComplex_setOp {c : Cls} {i : Nat} {o : Op} (h : c.op? i = some o)
    (hj : c.joinsComplex) : (c.setOp i o.next).joinsComplex ↔ o ≠ .bin .sub := by
  unfold joinsComplex at hj
  split at hj
  · cases i with
    | zero => cases h; decide
    | succ i => cases h
  · cases i with
    | zero => cases h; decide
    | succ i => cases h
  · cases hj

theorem Node.cls?_of_hasOp {t : Node} {x : OpSite} (h : t.HasOp x) :
    ∃ c, t.cls? x.path = some c ∧ c.op? x.index = some x.op := by
  obtain ⟨n, hn, ho, -⟩ := h
  exact ⟨_, cls?_of_get? hn, ho⟩

/-- The rule on operators is broken by the product that replaces a difference. -/
theorem OpSite.patternOperators_apply {t : Node} {x : OpSite} (h : t.HasOp x)
    (ht : t.patternOperators) :
    Node.patternOperators (x.apply t) ↔ ¬(t.isPatternLiteral x.path ∧ x.op = .bin .sub) := by
  obtain ⟨c, hc, ho⟩ := Node.cls?_of_hasOp h
  have hself : Node.cls? (x.apply t) x.path = some (c.setOp x.index x.op.next) := by
    rw [cls?_apply_self, hc]; rfl
  have hop := Cls.isOperation_of_op? ho
  rw [Node.patternOperators_iff] at ht ⊢
  constructor
  · rintro h' ⟨hl, hsub⟩
    have hj := (h' x.path _ hself (by rw [Cls.isOperation_setOp, hop]) x.path List.prefix_rfl
      (by rw [isPatternLiteral_apply, hl])).2
    exact (Cls.joinsComplex_setOp ho (ht _ _ hc hop _ List.prefix_rfl hl).2).mp hj hsub
  · intro hx p c' hc' hop' q hq hl
    rw [isPatternLiteral_apply] at hl
    by_cases hp : p = x.path
    · subst hp
      obtain ⟨rfl, hj⟩ := ht _ _ hc hop q hq hl
      obtain rfl := Option.some.inj (hself.symm.trans hc')
      exact ⟨rfl, (Cls.joinsComplex_setOp ho hj).mpr fun hsub => hx ⟨hl, hsub⟩⟩
    · rw [cls?_apply_of_ne hp] at hc'
      exact ht p c' hc' hop' q hq hl

theorem Node.patternOperators_deleteStmt {t s : Node} {p : Path} (hs : t.get? p = some s)
    (ht : t.patternOperators) : (t.deleteStmt p).patternOperators := by
  rw [patternOperators_iff] at ht ⊢
  intro q c hc hop r hr hl
  by_cases hpq : p <+: q
  · by_cases hqp : q = p
    · subst hqp
      rw [cls?_deleteStmt_self hs] at hc
      cases hc
      cases hop
    · rw [cls?, deleteStmt, FTree.label?_update_leaf (fun _ => rfl) hpq hqp] at hc
      cases hc
  · rw [cls?_deleteStmt_outside hpq] at hc
    rw [isPatternLiteral, deleteStmt, FTree.slot?_update fun hp => absurd (hp.trans hr) hpq] at hl
    exact ht q c hc hop r hr hl

/-! ## Keys -/

/-- An edit inside a child that is no key of a mapping pattern. -/
theorem StaticRules.distinctKeys_update {R : StaticRules} {n : Node} {i : Nat} {p : Path}
    {g : Node → Node}
    (h : ∀ rest, n.cls = .matchMapping rest → n.children.fields[i]? ≠ some .keys) :
    R.distinctKeys (n.update (i :: p) g) = R.distinctKeys n := by
  rw [distinctKeys, distinctKeys, show Node.cls (n.update (i :: p) g) = n.cls from rfl]
  split
  next rest hc =>
    have hkeys : Node.getList (n.update (i :: p) g) .keys = n.getList .keys := by
      rw [Node.getList, Node.getList, FTree.update, Forest.filter_entries_modify (h rest hc)]
    rw [hkeys]
  next => rfl

/-- A node of an edited tree whose keys are not those it had: the edited node itself, or the mapping
pattern whose key was edited. -/
theorem StaticRules.distinctKeys_of_update {R : StaticRules} {t : Node} {p : Path} {g : Node → Node}
    (ht : t.nodes.all fun e => R.distinctKeys e.2) {q : Path} {n : Node}
    (hn : FTree.get? (t.update p g) q = some n) (hp : ¬p <+: q)
    (hkey : ∀ i r, p = q ++ i :: r → t.isPatternLiteral (q ++ [i]) = false) :
    R.distinctKeys n := by
  rw [List.all_eq_true] at ht
  by_cases hq : q <+: p
  · obtain ⟨r, rfl⟩ := hq
    rw [FTree.get?_update_above] at hn
    obtain ⟨n', hn', rfl⟩ := Option.map_eq_some_iff.mp hn
    cases r with
    | nil => exact absurd (by simp) hp
    | cons i r =>
      rw [distinctKeys_update, ht _ (FTree.mem_nodes.mpr hn')]
      intro rest hc hf
      have := hkey i r rfl
      simp [Node.isPatternLiteral, FTree.slot?, FTree.shape?, hn', hf, hc] at this
  · rw [FTree.get?_update_aside hp hq] at hn
    exact ht _ (FTree.mem_nodes.mpr hn)

theorem StaticRules.distinctKeys_of_isOperation {R : StaticRules} {n : Node}
    (h : n.cls.isOperation) : R.distinctKeys n := by
  unfold distinctKeys
  split
  next hc => rw [hc] at h; cases h
  next => rfl

theorem OpSite.distinctKeys_apply {R : StaticRules} {t : Node} {x : OpSite} (h : t.HasOp x)
    (hop : t.patternOperators) (ht : t.nodes.all fun e => R.distinctKeys e.2) :
    ((x.apply t).nodes.all fun e => R.distinctKeys e.2) ↔
      ((x.apply t).get? x.path.dropLast).all R.distinctKeys := by
  obtain ⟨c, hc, ho⟩ := Node.cls?_of_hasOp h
  have hisop := Cls.isOperation_of_op? ho
  constructor
  · intro h'
    cases hn : (x.apply t).get? x.path.dropLast with
    | none => rfl
    | some n => exact List.all_eq_true.mp h' _ (FTree.mem_nodes.mpr hn)
  · refine fun h' => List.all_eq_true.mpr fun ⟨q, n⟩ hmem => ?_
    have hn := FTree.mem_nodes.mp hmem
    by_cases hp : x.path <+: q
    · obtain ⟨r, rfl⟩ := hp
      cases r with
      | nil =>
        have hcls := Node.cls?_of_get? hn
        rw [List.append_nil, cls?_apply_self, hc] at hcls
        refine StaticRules.distinctKeys_of_isOperation ?_
        rw [← Option.some.inj hcls, Cls.isOperation_setOp, hisop]
      | cons i r =>
        rw [apply, FTree.get?_update_append] at hn
        exact List.all_eq_true.mp ht _ (FTree.mem_nodes.mpr ((FTree.get?_append ..).trans hn))
    · by_cases hq : q = x.path.dropLast
      · subst hq
        rw [hn] at h'
        exact h'
      · refine R.distinctKeys_of_update ht hn hp fun i r hpath => ?_
        by_contra hl
        have := (Node.patternOperators_iff.mp hop _ _ hc hisop (q ++ [i]) ⟨r, by simp [hpath]⟩
          (by simpa using hl)).1
        exact hq (by rw [← this, List.dropLast_concat])

/-- The literal of a pattern is an expression. -/
theorem Node.WF.isPatternLiteral {t n : Node} (ht : t.WF) {p : Path} (hn : t.get? p = some n)
    (h : t.isPatternLiteral p) : n.cls.nonterminal.inExpr := by
  obtain rfl | ⟨q, i, rfl⟩ := List.eq_nil_or_concat' p
  · cases h
  rw [FTree.get?_append] at hn
  obtain ⟨m, hm, hn⟩ := Option.bind_eq_some_iff.mp hn
  obtain ⟨f, n', he, hn'⟩ := Node.entry_of_get?_cons hn
  obtain rfl := Option.some.inj hn'
  obtain ⟨spec, hspec, rfl, hnt⟩ := ht.entry hm he
  rw [← hnt]
  have hslot : t.slot? (q ++ [i]) = some ((m.label, m.children.fields), spec.name) := by
    simp [FTree.slot?, FTree.shape?, hm, Forest.fields, he]
  simp only [Node.isPatternLiteral, hslot, Option.any_some] at h
  change spec ∈ m.label.cls.fields at hspec
  split at h
  next hc =>
    rw [hc] at hspec
    cases List.mem_singleton.mp hspec
    rfl
  next rest hc =>
    rw [hc] at hspec
    rcases List.mem_cons.mp hspec with rfl | hspec
    · rfl
    · cases List.mem_singleton.mp hspec
      cases h
  next => cases h

theorem Node.distinctKeys_deleteStmt {R : StaticRules} {t s : Node} {p : Path} (hwf : t.WF)
    (hs : t.get? p = some s) (hstmt : s.cls.nonterminal = .stmt)
    (ht : t.nodes.all fun e => R.distinctKeys e.2) :
    (t.deleteStmt p).nodes.all fun e => R.distinctKeys e.2 := by
  refine List.all_eq_true.mpr fun ⟨q, n⟩ hmem => ?_
  have hn := FTree.mem_nodes.mp hmem
  by_cases hp : p <+: q
  · obtain ⟨r, rfl⟩ := hp
    rw [deleteStmt, FTree.get?_update_append, hs] at hn
    cases r with
    | nil => cases hn; rfl
    | cons i r => cases hn
  · refine R.distinctKeys_of_update ht hn hp fun i r hpath => ?_
    by_contra hl
    subst hpath
    rw [List.append_cons, FTree.get?_append] at hs
    obtain ⟨m, hm, hs⟩ := Option.bind_eq_some_iff.mp hs
    have := hwf.inExpr hm (hwf.isPatternLiteral hm (by simpa using hl)) hs
    rw [hstmt] at this
    cases this

/-! ## Bindings -/

namespace Node

theorem roleFrom_congr {t t' : Node} {r : Role} {q p : Path}
    (h : ∀ q', q' <+: q ++ p → t'.slot? q' = t.slot? q') :
    t'.roleFrom r q p = t.roleFrom r q p := by
  induction p generalizing r q with
  | nil => rfl
  | cons i p ih =>
    rw [roleFrom, roleFrom, h (q ++ [i]) ⟨p, by simp⟩]
    refine congrArg _ (funext fun x => congrArg _ (funext fun r => ih fun q' hq' => h q' ?_))
    rwa [List.append_cons]

theorem exists_of_mem_mentionsAt {t : Node} {q p : Path} {y : Mention × String}
    (h : y ∈ t.mentionsAt q p) : ∃ n, t.get? p = some n := by
  rw [mentionsAt] at h
  split at h
  · cases hn : t.get? p with
    | some n => exact ⟨n, rfl⟩
    | none => simp [cls?, FTree.label?, hn] at h
  · cases h

theorem mentions_iff {t : Node} {keep : Path → Bool} {S : Scope} {outer : List Scope} {m : Mention}
    {x : String} :
    t.mentions keep (S :: outer) m x ↔ ∃ p, keep p ∧ ∃ y ∈ t.mentionsAt S.path p,
      y.1 = m ∧ mangle (enclosingClass (S :: outer)) y.2 = x := by
  simp only [mentions, List.head?_cons, Option.any_some, List.any_eq_true, Prod.exists,
    FTree.mem_nodes, Bool.and_eq_true, decide_eq_true_eq]
  constructor
  · rintro ⟨p, -, -, h⟩
    exact ⟨p, h⟩
  · rintro ⟨p, hk, m', x', hy, h⟩
    obtain ⟨n, hn⟩ := exists_of_mem_mentionsAt hy
    exact ⟨p, n, hn, hk, m', x', hy, h⟩

variable {t s : Node} {p q : Path}

/-- Everything but the statement at `p`. -/
def outside (p q : Path) : Bool := !decide (p <+: q)

theorem slot?_deleteStmt (h : ¬p <+: q) : (t.deleteStmt p).slot? q = t.slot? q :=
  FTree.slot?_update fun hp => absurd hp h

theorem scopes_deleteStmt (h : ¬p <+: q) : (t.deleteStmt p).scopes q = t.scopes q := by
  refine congrArg List.reverse (List.filterMap_congr fun r hr => ?_)
  rw [slot?_deleteStmt fun hp => h (hp.trans ((List.mem_inits _ _).mp hr))]

/-- At and below a deleted statement there is only `pass`. -/
theorem cls?_deleteStmt_inside (hs : t.get? p = some s) (h : p <+: q) {c : Cls}
    (hc : (t.deleteStmt p).cls? q = some c) : c = .pass := by
  by_cases hq : q = p
  · subst hq
    rw [cls?_deleteStmt_self hs] at hc
    exact (Option.some.inj hc).symm
  · rw [cls?, deleteStmt, FTree.label?_update_leaf (fun _ => rfl) h hq] at hc
    cases hc

theorem mentionsAt_deleteStmt (hs : t.get? p = some s) (q' : Path) :
    (t.deleteStmt p).mentionsAt q' q = if p <+: q then [] else t.mentionsAt q' q := by
  split
  next h =>
    rw [mentionsAt]
    split
    · cases hc : (t.deleteStmt p).cls? q with
      | none => cases roleFrom (t.deleteStmt p) .opening q' (q.drop q'.length) <;> rfl
      | some c =>
        rw [cls?_deleteStmt_inside hs h hc]
        cases roleFrom (t.deleteStmt p) .opening q' (q.drop q'.length) with
        | none => rfl
        | some r => cases r <;> rfl
    · rfl
  next h =>
    rw [mentionsAt, mentionsAt, cls?_deleteStmt_outside h]
    split
    next hq =>
      obtain ⟨r, rfl⟩ := hq
      rw [List.drop_left, roleFrom_congr fun r' hr' => slot?_deleteStmt fun hp => h (hp.trans hr')]
    next => rfl

theorem mentions_deleteStmt (hs : t.get? p = some s) (scopes : List Scope) (m : Mention)
    (x : String) : (t.deleteStmt p).mentions (fun _ => true) scopes m x =
      t.mentions (outside p) scopes m x := by
  cases scopes with
  | nil => rfl
  | cons S outer =>
    rw [Bool.eq_iff_iff, mentions_iff, mentions_iff]
    refine exists_congr fun q => ?_
    by_cases h : p <+: q <;> simp [mentionsAt_deleteStmt hs, outside, h]

theorem seesBinding_deleteStmt (hs : t.get? p = some s) (x : String) (scopes : List Scope) :
    (t.deleteStmt p).seesBinding (fun _ => true) x scopes =
      t.seesBinding (outside p) x scopes := by
  induction scopes with
  | nil => rfl
  | cons S outer ih => simp only [seesBinding, mentions_deleteStmt hs, ih]

theorem findsBinding_deleteStmt (hs : t.get? p = some s) (x : String) (scopes : List Scope) :
    (t.deleteStmt p).findsBinding (fun _ => true) x scopes =
      t.findsBinding (outside p) x scopes := by
  cases scopes with
  | nil => rfl
  | cons S outer => simp only [findsBinding, mentions_deleteStmt hs, seesBinding_deleteStmt hs]

theorem nonlocalsBound_iff {keep : Path → Bool} :
    t.nonlocalsBound keep ↔ ∀ q names, keep q → t.cls? q = some (.nonlocal names) →
      ∀ x ∈ names, t.findsBinding keep (mangle (enclosingClass (t.scopes q)) x) (t.scopes q) := by
  simp only [nonlocalsBound, List.all_eq_true, Prod.forall, FTree.mem_nodes]
  constructor
  · intro h q names hk hc
    obtain ⟨_, hl, -⟩ := Option.map_eq_some_iff.mp hc
    obtain ⟨n, hn, -⟩ := FTree.label?_eq_some.mp hl
    simpa [hk, hc] using h q n hn
  · intro h q n hn
    cases hk : keep q with
    | false => rfl
    | true =>
      rw [Bool.not_true, Bool.false_or]
      split
      next names hc => exact List.all_eq_true.mpr (h q names hk hc)
      next => rfl

/-- Deleting a statement is looking at the program without it. -/
theorem nonlocalsBound_deleteStmt (hs : t.get? p = some s) :
    (t.deleteStmt p).nonlocalsBound (fun _ => true) = t.nonlocalsBound (outside p) := by
  rw [Bool.eq_iff_iff, nonlocalsBound_iff, nonlocalsBound_iff]
  refine forall₂_congr fun q names => ?_
  by_cases h : p <+: q
  · have hin : (t.deleteStmt p).cls? q ≠ some (.nonlocal names) := fun hc =>
      Cls.noConfusion (cls?_deleteStmt_inside hs h hc)
    simp [outside, h, hin]
  · simp [outside, h, cls?_deleteStmt_outside h, scopes_deleteStmt h, findsBinding_deleteStmt hs]

end Node

end MutationTest
