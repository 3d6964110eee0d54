import MutationTest.Semantics
import MutationTest.Verify.Mutants

/-! # What statement deletion lists and edits

The collector lists every simple statement at every depth, once (`collectSdlSites_complete`), and
the mutant with index `j` differs from the module in the `j`-th of them only
(`makeSdlMutantSource_edits`): the lists of statements keep their length and order and no docstring
changes. -/

namespace MutationTest
open FieldTree

theorem isDocstringExpr_eq (stmt : Node) : isDocstringExpr stmt = stmt.text?.isSome := by
  unfold isDocstringExpr Node.text? Node.literal?
  by_cases h : stmt.cls = .expr
  · rw [if_pos h, h, beq_self_eq_true, Bool.true_and]
    cases stmt.child? .value with
    | none => rfl
    | some v =>
      simp only [Option.map_some, Option.bind_some]
      cases v.cls with
      | constant value kind => cases value <;> rfl
      | _ => rfl
  · rw [if_neg h, beq_false_of_ne h, Bool.false_and]
    rfl

/-! ## The listed statements -/

theorem Module.root_ne_stmt (m : Module) : m.root.cls.nonterminal ≠ .stmt := by
  rw [m.isModule]
  decide

theorem Node.mem_sdlStmts {t : Node} (ht : t.WF) (hroot : t.cls.nonterminal ≠ .stmt) {p : Path}
    {s : Node} : (p, s) ∈ t.sdlStmts ↔
      t.get? p = some s ∧ s.cls.sdlEligible ∧ s.text? = none := by
  rw [(sdlStmts_perm t).mem_iff, List.mem_filter, mem_scannedStmts ht, isSdl, isDocstringExpr_eq,
    Bool.and_eq_true, Bool.not_eq_true', Option.isSome_eq_false_iff, Option.isNone_iff_eq_none]
  constructor
  · rintro ⟨⟨hp, -, -⟩, h⟩
    exact ⟨hp, h⟩
  · rintro ⟨hp, he, h⟩
    refine ⟨⟨hp, Cls.nonterminal_of_sdlEligible he, ?_⟩, he, h⟩
    rintro rfl
    obtain rfl : t = s := Option.some.inj hp
    exact hroot (Cls.nonterminal_of_sdlEligible he)

theorem nodup_sdlSites {t : Node} (ht : t.WF) (hd : t.DistinctPositions) :
    (t.sdlStmts.map fun e => Node.sdlSite e.2).Nodup := by
  refine (List.Nodup.of_map _ (nodup_sdlStmts t)).map_on fun d hd' e he h => ?_
  have hmem : ∀ {x}, x ∈ t.sdlStmts → x ∈ t.statements := fun hx =>
    mem_statements_of_scanned ht (mem_scannedStmts_of_mem_sdlStmts hx)
  exact hd.eq_of_pos (hmem hd') (hmem he) (pos_eq_of_sdlSite h)

/-- Where positions are distinct, a listed statement is the only one with its site. -/
theorem eq_of_sdlSite {m : Module} (hd : m.root.DistinctPositions) {p : Path} {stmt : Node}
    (hp : m.root.get? p = some stmt) (hstmt : stmt.cls.nonterminal = .stmt) {e : Path × Node}
    (he : e ∈ m.root.sdlStmts) (hsite : stmt.sdlSite = e.2.sdlSite) : (p, stmt) = e := by
  have hmem : (p, stmt) ∈ m.root.statements :=
    List.mem_filter.mpr ⟨FTree.mem_nodes.mpr hp, by simpa using hstmt⟩
  exact hd.eq_of_pos hmem (mem_statements_of_scanned m.wf (mem_scannedStmts_of_mem_sdlStmts he))
    (pos_eq_of_sdlSite hsite)

/-- Every simple statement that is no string is listed, wherever it stands, nothing else is, and
nothing twice. -/
theorem collectSdlSites_complete {py : PyAst} {s : String} {m : Module}
    (h : py.parse s = .ok m) (hd : m.root.DistinctPositions) :
    ∃ sites, collectSdlSites py s = .ok sites ∧ sites.Nodup ∧
      ∀ site, site ∈ sites ↔ ∃ (p : Path) (stmt : Node), m.root.get? p = some stmt ∧
        stmt.cls.sdlEligible ∧ stmt.text? = none ∧ site = stmt.sdlSite := by
  refine ⟨_, collectSdlSites_eq h, nodup_sdlSites m.wf hd, fun site => ?_⟩
  simp only [List.mem_map, Prod.exists, Node.mem_sdlStmts m.wf m.root_ne_stmt, and_assoc,
    eq_comm (a := site)]

theorem collectSdlSites_complete_assert :
    ∃ sites, collectSdlSites assertPy "assert a < b + 1\n" = .ok sites ∧ sites.Nodup ∧
      ∀ site, site ∈ sites ↔ ∃ (p : Path) (stmt : Node),
        (assertModule 1 .lt .add).root.get? p = some stmt ∧ stmt.cls.sdlEligible ∧
          stmt.text? = none ∧ site = stmt.sdlSite :=
  collectSdlSites_complete assertPy_parse (List.nodup_singleton _)

/-! ## What the edit leaves alone -/

section
variable {s t : Node} {p q r : Path} {f : FieldName} {i : Nat}

theorem Node.map_getList_update {γ : Type} (h : Node → γ) {g : Node → Node} (f : FieldName)
    (hg : ∀ c, t.children.trees[i]? = some c → h (c.update r g) = h c) :
    (Node.getList (t.update (i :: r) g) f).map h = (t.getList f).map h := by
  have hpairs : ∀ ks : Children, ((ks.entries.filter (·.1 = f)).map (·.2)).map h =
      ((ks.entries.map fun e => (e.1, h e.2)).filter (·.1 = f)).map (·.2) := by
    intro ks
    simp [List.filter_map, Function.comp_def]
  have hentries := Forest.map_entries_modify (g := fun c => FTree.update c r g)
    (fun f c => (f, h c)) fun f c hc => congrArg (Prod.mk f) (hg c hc)
  have hcls : Node.cls (t.update (i :: r) g) = t.cls := rfl
  unfold getList
  rw [hcls]
  split
  · rw [hpairs, hpairs]
    exact congrArg (fun es => (es.filter (·.1 = f)).map (·.2)) hentries
  · rfl

theorem Node.child?_update_bind {γ : Type} (h : Node → Option γ) {g : Node → Node} (f : FieldName)
    (hg : ∀ c, t.children.trees[i]? = some c → h (c.update r g) = h c) :
    (Node.child? (t.update (i :: r) g) f).bind h = (t.child? f).bind h := by
  have hpairs : ∀ n : Node, (n.child? f).bind h =
      ((n.children.entries.map fun e => (e.1, h e.2)).find? (·.1 = f)).bind (·.2) := by
    intro n
    rw [child?, List.find?_map, Function.comp_def]
    cases n.children.entries.find? fun e => decide (e.1 = f) <;> rfl
  have hentries := Forest.map_entries_modify (g := fun c => FTree.update c r g)
    (fun f c => (f, h c)) fun f c hc => congrArg (Prod.mk f) (hg c hc)
  rw [hpairs, hpairs]
  exact congrArg (fun es => (es.find? (·.1 = f)).bind (·.2)) hentries

theorem Node.pos_update_passEdit (t : Node) (r : Path) :
    Node.pos (t.update r passEdit) = t.pos := by
  cases r <;> rfl

variable (hs : t.get? r = some s) (he : s.cls.sdlEligible) (htext : s.text? = none)
include hs he

theorem Node.constant?_update_passEdit :
    (Node.cls (t.update r passEdit)).constant? = t.cls.constant? := by
  cases r with
  | nil =>
    obtain rfl : t = s := Option.some.inj hs
    have hconst : ∀ c : Cls, c.sdlEligible → c.constant? = none := by
      intro c hc
      cases c <;> first | rfl | cases hc
    rw [hconst _ he]
    rfl
  | cons i r => rfl

include htext

/-- Neither the deleted statement nor the `pass` is a string. -/
theorem Node.text?_update_passEdit : Node.text? (t.update r passEdit) = t.text? := by
  cases r with
  | nil =>
    obtain rfl : t = s := Option.some.inj hs
    rw [htext]
    rfl
  | cons i r =>
    have hvalue := @Node.child?_update_bind t r i _ (fun v => v.cls.constant?) passEdit .value
      fun c hc => by
        rw [FTree.get?_cons, hc] at hs
        exact Node.constant?_update_passEdit hs he
    unfold text? literal?
    rw [hvalue]
    rfl

end

/-- A simple statement and what lies below it have no list of statements. -/
theorem Cls.isListField_eq_false {c : Cls} (h : c.sdlEligible ∨ c.nonterminal.inExpr)
    {f : FieldName} (hf : f ∈ stmtListFields) : c.isListField f = false := by
  have hall : !(c.sdlEligible || c.nonterminal.inExpr) ||
      stmtListFields.all fun f => !c.isListField f := by
    cases c <;> rfl
  simp only [Bool.or_eq_true, Bool.not_eq_true', Bool.or_eq_false_iff, List.all_eq_true] at hall
  rcases hall with ⟨hsimple, hexpr⟩ | hall
  · simp [hsimple, hexpr] at h
  · exact hall f hf

theorem Cls.inExpr_of_mem_fields_of_sdlEligible {c : Cls} (h : c.sdlEligible) {s : FieldSpec}
    (hs : s ∈ c.fields) : s.nonterminal.inExpr := by
  have hall : !c.sdlEligible || c.fields.all fun s => s.nonterminal.inExpr := by
    cases c <;> rfl
  rw [h, Bool.not_true, Bool.false_or, List.all_eq_true] at hall
  exact hall s hs

theorem Node.getList_below {t s n : Node} (ht : t.WF) {p r : Path} (hs : t.get? p = some s)
    (he : s.cls.sdlEligible) (hn : s.get? r = some n) {f : FieldName} (hf : f ∈ stmtListFields) :
    n.getList f = [] := by
  have hsimple : n.cls.sdlEligible ∨ n.cls.nonterminal.inExpr := by
    cases r with
    | nil =>
      obtain rfl : s = n := Option.some.inj hn
      exact .inl he
    | cons i r =>
      obtain ⟨f, c, hi, hn⟩ := Node.entry_of_get?_cons hn
      obtain ⟨spec, hspec, -, hnt⟩ := ht.entry hs hi
      have hexpr := hnt ▸ Cls.inExpr_of_mem_fields_of_sdlEligible he hspec
      refine .inr (ht.inExpr (p := p ++ [i]) ?_ hexpr hn)
      simp [FTree.get?_append, hs, FTree.get?_cons, Forest.trees, hi]
  rw [getList, Cls.isListField_eq_false hsimple hf]
  rfl

/-! ## The edit -/

/-- `t'` is `t` with `pass` in the place of the simple statement at `p`. -/
structure EditsOnly (t : Node) (p : Path) (t' : Node) : Prop where
  pass : ∃ s : Node, t.get? p = some s ∧ t'.get? p = some ⟨⟨.pass, s.pos⟩, .nil⟩
  unchanged : ∀ q, ¬p <+: q → t'.shape? q = t.shape? q
  lists : ∀ q, ∀ f ∈ stmtListFields,
    (t'.stmtsAt q f).map Node.pos = (t.stmtsAt q f).map Node.pos
  docstrings : ∀ q, (t'.get? q).bind Node.docstring? = (t.get? q).bind Node.docstring?

section
variable {t s : Node} {p : Path}

theorem Node.stmtsAt_below (ht : t.WF) (hs : t.get? p = some s) (he : s.cls.sdlEligible) {q : Path}
    (hpq : p <+: q) {f : FieldName} (hf : f ∈ stmtListFields) : t.stmtsAt q f = [] := by
  obtain ⟨r, rfl⟩ := hpq
  rw [stmtsAt, FTree.get?_append, hs, Option.bind_some]
  cases hn : s.get? r with
  | none => rfl
  | some n => exact Node.getList_below ht hs he hn hf

/-- What an edit of the statement does not change about statements, it does not change about the
statements of a list. -/
theorem Node.map_stmtsAt_deleteStmt {γ : Type} (h : Node → γ) (ht : t.WF)
    (hs : t.get? p = some s) (he : s.cls.sdlEligible)
    (hh : ∀ (c : Node) r, c.get? r = some s → h (c.update r passEdit) = h c) (q : Path)
    {f : FieldName} (hf : f ∈ stmtListFields) :
    (stmtsAt (t.deleteStmt p) q f).map h = (t.stmtsAt q f).map h := by
  by_cases hpq : p <+: q
  · -- the lists of the statement are empty before and after
    rw [Node.stmtsAt_below ht hs he hpq hf]
    obtain ⟨r, rfl⟩ := hpq
    have hafter : ∀ n, (passEdit s).get? r = some n → Node.getList n f = [] := by
      intro n hn
      cases r with
      | nil => cases hn; rfl
      | cons i r => cases hn
    rw [stmtsAt, deleteStmt, FTree.get?_update_append, hs, Option.bind_some]
    cases hn : (passEdit s).get? r with
    | none => rfl
    | some n => rw [Option.elim_some, hafter n hn]
  · unfold stmtsAt deleteStmt
    by_cases hqp : q <+: p
    · obtain ⟨r, rfl⟩ := hqp
      rw [FTree.get?_append] at hs
      obtain ⟨n, hn, hs⟩ := Option.bind_eq_some_iff.mp hs
      rw [FTree.get?_update_above, hn]
      cases r with
      | nil => exact absurd (by simp) hpq
      | cons i r =>
        refine Node.map_getList_update h f fun c hc => hh c r ?_
        rwa [FTree.get?_cons, hc] at hs
    · rw [FTree.get?_update_aside hpq hqp]

theorem Node.editsOnly_deleteStmt (ht : t.WF) (hs : t.get? p = some s) (he : s.cls.sdlEligible)
    (htext : s.text? = none) : EditsOnly t p (t.deleteStmt p) where
  pass := ⟨s, hs, by rw [deleteStmt, FTree.get?_update_self, hs]; rfl⟩
  unchanged _ hq := FTree.shape?_update_outside hq
  lists q _ hf := Node.map_stmtsAt_deleteStmt Node.pos ht hs he
    (fun c r _ => Node.pos_update_passEdit c r) q hf
  docstrings q := by
    have hdoc : ∀ u : Node, (u.get? q).bind Node.docstring? =
        if (u.cls? q).any Cls.hasDocstring then
          ((u.stmtsAt q .body).map Node.text?).head?.bind id
        else none := by
      intro u
      unfold Node.cls? FTree.label? Node.stmtsAt Node.docstring?
      cases u.get? q with
      | none => rfl
      | some n => simp [Option.bind_map]
    have hbody := Node.map_stmtsAt_deleteStmt Node.text? ht hs he
      (fun _ _ hc => Node.text?_update_passEdit hc he htext) q (f := .body) (by decide)
    rw [hdoc, hdoc, hbody]
    by_cases hpq : p <+: q
    · rw [Node.stmtsAt_below ht hs he hpq (by decide)]
      simp
    · rw [Node.cls?_deleteStmt_outside hpq]

end

/-- Index `j` below the number of sites gives the module with `pass` in the place of the one
statement at the listed position and of the listed type; no other index gives anything. -/
theorem makeSdlMutantSource_edits {py : PyAst} (hpos : py.PositionsDistinct) {s : String}
    {sites : List SdlSite} (hsites : collectSdlSites py s = .ok sites) :
    ∃ m, py.parse s = .ok m ∧
      (∀ j (hj : j < sites.length), ∃ (p : Path) (stmt t' : Node),
        m.root.get? p = some stmt ∧ stmt.sdlSite = sites[j] ∧
        (∀ (q : Path) (stmt' : Node), m.root.get? q = some stmt' →
          stmt'.cls.nonterminal = .stmt → stmt'.sdlSite = sites[j] → q = p) ∧
        makeSdlMutantSource py s j =
          .ok (some (py.unparse t', some (sdlDescription sites[j]))) ∧
        EditsOnly m.root p t') ∧
      ∀ j, sites.length ≤ j → makeSdlMutantSource py s j = .ok none := by
  cases hm : py.parse s with
  | error e => rw [collectSdlSites, hm] at hsites; cases hsites
  | ok m =>
    have hd := hpos s m hm
    obtain rfl := Except.ok.inj ((collectSdlSites_eq hm).symm.trans hsites)
    refine ⟨m, rfl, fun j hj => ?_, fun j hj => ?_⟩
    · rw [List.length_map] at hj
      have hmem : m.root.sdlStmts[j] ∈ m.root.sdlStmts := List.getElem_mem hj
      obtain ⟨hp, he, htext⟩ := (Node.mem_sdlStmts m.wf m.root_ne_stmt).mp hmem
      refine ⟨_, _, _, hp, by simp, fun q stmt' hq hstmt hsite => ?_, ?_,
        Node.editsOnly_deleteStmt m.wf hp he htext⟩
      · exact congrArg Prod.fst (eq_of_sdlSite hd hq hstmt hmem (by simpa using hsite))
      · rw [makeSdlMutantSource_eq hm hd, List.getElem?_eq_getElem hj, List.getElem_map]
        rfl
    · rw [List.length_map] at hj
      rw [makeSdlMutantSource_eq hm hd, List.getElem?_eq_none hj]
      rfl

theorem makeSdlMutantSource_edits_assert :
    ∃ (p : Path) (t' : Node),
      makeSdlMutantSource assertPy "assert a < b + 1\n" 0 =
        .ok (some (assertPy.unparse t', some "linha 1: SDL remove Assert -> pass")) ∧
      EditsOnly (assertModule 1 .lt .add).root p t' := by
  obtain ⟨m, hm, hedits, -⟩ := @makeSdlMutantSource_edits assertPy assertPy_positionsDistinct
    "assert a < b + 1\n" [⟨1, 0, "Assert"⟩] (by decide +kernel)
  obtain rfl := Except.ok.inj (assertPy_parse.symm.trans hm)
  obtain ⟨p, _, t', -, -, -, hmutant, hedit⟩ := hedits 0 (by decide)
  exact ⟨p, t', hmutant, hedit⟩

end MutationTest
