import MutationTest.Verify.Deletion

/-! # Statements that do nothing

Deleting an expression statement that consists of a literal does not change what the program means.
The collector leaves out exactly the statements that are strings, so where another literal stands as
a statement, it lists a mutant that no test can tell from the original (`inert_skipped_iff`). -/

namespace MutationTest
open FieldTree

theorem Forest.eq_nil_of_entries {ks : Children} (h : ks.entries = []) : ks = .nil := by
  cases ks with
  | nil => rfl
  | cons f a ks rest => cases h

/-- What a literal looks like as a statement. -/
theorem Node.eq_of_literal? {t s : Node} (ht : t.WF) {p : Path} (hs : t.get? p = some s) {v : Const}
    (h : s.literal? = some v) : ∃ pos pos' kind,
      s = ⟨⟨.expr, pos⟩, .cons .value ⟨.constant v kind, pos'⟩ .nil .nil⟩ := by
  have hlocal : ∀ {q} {n : Node}, t.get? q = some n → n.localWF := fun hn =>
    ht _ (FTree.mem_nodes.mpr hn)
  obtain ⟨⟨c, pos⟩, ks⟩ := s
  unfold literal? at h
  split at h
  next hc =>
    obtain rfl : c = .expr := hc
    have hwf := hlocal hs
    cases ks with
    | nil => cases hwf
    | cons f a ks rest =>
      simp only [localWF, Cls.fields, conforms, Forest.entries_cons, List.map_cons,
        Bool.and_eq_true, beq_iff_eq, Prod.mk.injEq, List.isEmpty_iff, List.map_eq_nil_iff] at hwf
      obtain ⟨⟨rfl, -⟩, hrest⟩ := hwf
      obtain rfl := Forest.eq_nil_of_entries hrest
      have hvalue : t.get? (p ++ [0]) = some ⟨a, ks⟩ := by
        rw [FTree.get?_append, hs]
        rfl
      obtain ⟨c, pos'⟩ := a
      have hconst : Cls.constant? c = some v := h
      cases c with
      | constant value kind =>
        obtain rfl : value = v := Option.some.inj hconst
        have hleaf := hlocal hvalue
        simp only [localWF, Cls.fields, conforms, List.isEmpty_iff, List.map_eq_nil_iff] at hleaf
        obtain rfl := Forest.eq_nil_of_entries hleaf
        exact ⟨pos, pos', kind, rfl⟩
      | _ => cases hconst
  next => cases h

theorem Node.sdlEligible_of_literal? {s : Node} {v : Const} (h : s.literal? = some v) :
    s.cls.sdlEligible := by
  unfold literal? at h
  split at h
  next hc => rw [hc]; rfl
  next => cases h

theorem Node.docstring?_update_passEdit {n s : Node} {i : ℕ} {r : Path}
    (hs : n.get? (i :: r) = some s) (he : s.cls.sdlEligible) (htext : s.text? = none) :
    Node.docstring? (n.update (i :: r) passEdit) = n.docstring? := by
  have hhead : ∀ l : List Node, l.head?.bind text? = (l.map text?).head?.bind id := by
    intro l
    cases l <;> rfl
  have hcls : Node.cls (n.update (i :: r) passEdit) = n.cls := rfl
  unfold docstring?
  rw [hcls, hhead, hhead, Node.map_getList_update text? .body fun c hc =>
    Node.text?_update_passEdit (by rwa [FTree.get?_cons, hc] at hs) he htext]

/-- Deleting a literal keeps the meaning of the program, `__doc__` aside. -/
theorem Semantics.meaning_deleteStmt {δ : Type} (S : Semantics δ) (hS : S.ConstantsInert)
    {t s : Node} (ht : t.WF) {p : Path} (hs : t.get? p = some s) {v : Const}
    (hv : s.literal? = some v) (hdoc : v.str? = none ∨ S.IgnoresDocstrings) :
    S.meaning (t.deleteStmt p) = S.meaning t := by
  refine FTree.fold_update hs ?_ fun n i r values hn => ?_
  · obtain ⟨pos, pos', kind, rfl⟩ := Node.eq_of_literal? ht hs hv
    exact (hS pos pos' v kind).symm
  · rcases hdoc with hstr | hdoc
    · have htext : s.text? = none := by rw [Node.text?, hv]; exact hstr
      rw [Node.docstring?_update_passEdit hn (Node.sdlEligible_of_literal? hv) htext]
      rfl
    · exact hdoc _ _ _ _

section
variable {py : PyAst} {s : String} {m : Module}

theorem sdlSite_mem_iff (hd : m.root.DistinctPositions) {p : Path} {stmt : Node}
    (hp : m.root.get? p = some stmt) (he : stmt.cls.sdlEligible) :
    stmt.sdlSite ∈ (m.root.sdlStmts.map fun e => Node.sdlSite e.2) ↔ stmt.text? = none := by
  constructor
  · intro h
    obtain ⟨e, hmem, hsite⟩ := List.mem_map.mp h
    obtain rfl := eq_of_sdlSite hd hp (Cls.nonterminal_of_sdlEligible he) hmem hsite.symm
    exact ((Node.mem_sdlStmts m.wf m.root_ne_stmt).mp hmem).2.2
  · exact fun htext => List.mem_map.mpr
      ⟨(p, stmt), (Node.mem_sdlStmts m.wf m.root_ne_stmt).mpr ⟨hp, he, htext⟩, rfl⟩

/-- The collector lists the expression statements that are no strings: exactly those that do
something, if all literals among the statements are strings. A literal does nothing under any
semantics, so any other one that stands as a statement is listed, and gives a mutant that means what
the module means. -/
theorem inert_skipped_iff {sites : List SdlSite} (hm : py.parse s = .ok m)
    (hd : m.root.DistinctPositions) (hsites : collectSdlSites py s = .ok sites) :
    (∀ (p : Path) (stmt : Node), m.root.get? p = some stmt → stmt.cls = .expr →
      (stmt.sdlSite ∈ sites ↔ stmt.text? = none)) ∧
    ((∀ (p : Path) (stmt : Node), m.root.get? p = some stmt → stmt.cls = .expr →
        (stmt.sdlSite ∈ sites ↔ stmt.literal? = none)) ↔
      ∀ (p : Path) (stmt : Node) (v : Const), m.root.get? p = some stmt →
        stmt.literal? = some v → v.str? ≠ none) ∧
    (∀ (p : Path) (stmt : Node) (v : Const), m.root.get? p = some stmt → stmt.literal? = some v →
      ∀ (δ : Type) (S : Semantics δ), S.ConstantsInert → v.str? = none ∨ S.IgnoresDocstrings →
        S.meaning (m.root.deleteStmt p) = S.meaning m.root) ∧
    ∀ (p : Path) (stmt : Node) (v : Const), m.root.get? p = some stmt → stmt.literal? = some v →
      v.str? = none → ∃ j, sites[j]? = some stmt.sdlSite ∧ makeSdlMutantSource py s j =
        .ok (some (py.unparse (m.root.deleteStmt p), some (sdlDescription stmt.sdlSite))) := by
  obtain rfl := Except.ok.inj ((collectSdlSites_eq hm).symm.trans hsites)
  have htext : ∀ {stmt : Node} {v : Const}, stmt.literal? = some v → stmt.text? = v.str? := by
    intro stmt v hv
    rw [Node.text?, hv]
    rfl
  have hlisted : ∀ (p : Path) (stmt : Node), m.root.get? p = some stmt → stmt.cls = .expr →
      (stmt.sdlSite ∈ (m.root.sdlStmts.map fun e => Node.sdlSite e.2) ↔ stmt.text? = none) :=
    fun p stmt hp hexpr => sdlSite_mem_iff hd hp (by rw [hexpr]; rfl)
  refine ⟨hlisted, ⟨fun h p stmt v hp hv hstr => ?_, fun h p stmt hp hexpr => ?_⟩,
    fun p stmt v hp hv δ S hS hdoc => S.meaning_deleteStmt hS m.wf hp hv hdoc,
    fun p stmt v hp hv hstr => ?_⟩
  · have hexpr : stmt.cls = .expr := by
      unfold Node.literal? at hv
      by_contra hne
      rw [if_neg hne] at hv
      cases hv
    have hnone := (h p stmt hp hexpr).mp ((hlisted p stmt hp hexpr).mpr ((htext hv).trans hstr))
    rw [hv] at hnone
    cases hnone
  · rw [hlisted p stmt hp hexpr]
    cases hv : stmt.literal? with
    | none => simp [Node.text?, hv]
    | some v =>
      rw [htext hv]
      exact iff_of_false (h p stmt v hp hv) (by simp)
  · have hmem := (Node.mem_sdlStmts m.wf m.root_ne_stmt).mpr
      ⟨hp, Node.sdlEligible_of_literal? hv, (htext hv).trans hstr⟩
    obtain ⟨j, hj⟩ := List.mem_iff_getElem?.mp hmem
    exact ⟨j, by rw [List.getElem?_map, hj]; rfl,
      by rw [makeSdlMutantSource_eq hm hd, hj]; rfl⟩

end

/-! ## An example -/

/-- The tree of a class whose body is a literal. -/
def stubRoot (value : Const) : Node :=
  ⟨⟨.module, ⟨0, 0⟩⟩,
    .cons .body ⟨.classDef "P", ⟨1, 0⟩⟩
      (.cons .body ⟨.expr, ⟨1, 9⟩⟩
        (.cons .value ⟨.constant value none, ⟨1, 9⟩⟩ .nil .nil) .nil) .nil⟩

theorem stubRoot_wf (value : Const) : (stubRoot value).WF := by
  intro e he
  simp only [stubRoot, FTree.nodes, Forest.nodes, List.map_nil, List.map_cons, List.append_nil,
    List.mem_cons, List.not_mem_nil, or_false] at he
  rcases he with rfl | rfl | rfl | rfl <;> rfl

def stubPy : PyAst where
  parse s :=
    if s = "class P: ...\n" then .ok ⟨stubRoot .ellipsis, rfl, stubRoot_wf _⟩
    else if s = "class P: 'doc'\n" then .ok ⟨stubRoot (.str "doc"), rfl, stubRoot_wf _⟩
    else .error .syntaxError
  unparse _ := "class P:\n    pass"

theorem inert_skipped_iff_doc : collectSdlSites stubPy "class P: 'doc'\n" = .ok [] ∧
    ∀ (p : Path) (stmt : Node), (stubRoot (.str "doc")).get? p = some stmt → stmt.cls = .expr →
      (stmt.sdlSite ∈ ([] : List SdlSite) ↔ stmt.literal? = none) := by
  have hsites : collectSdlSites stubPy "class P: 'doc'\n" = .ok [] := by decide +kernel
  refine ⟨hsites, (inert_skipped_iff (m := ⟨stubRoot (.str "doc"), rfl, stubRoot_wf _⟩) rfl
    (by decide) hsites).2.1.mpr fun p stmt v hp hv => ?_⟩
  have hall : ∀ e ∈ (stubRoot (.str "doc")).nodes, ∀ v ∈ Node.literal? e.2, v.str? ≠ none := by
    decide +kernel
  exact hall _ (FTree.mem_nodes.mpr hp) v hv

/-- The body of a stub is listed, and its mutant means what the stub means. -/
theorem ellipsis_deleted :
    ∃ m sites, ∃ (p : Path) (stmt : Node), stubPy.parse "class P: ...\n" = .ok m ∧
      collectSdlSites stubPy "class P: ...\n" = .ok sites ∧ m.root.get? p = some stmt ∧
      stmt.literal? = some .ellipsis ∧ stmt.sdlSite ∈ sites ∧
      ∀ (δ : Type) (S : Semantics δ), S.ConstantsInert →
        S.meaning (m.root.deleteStmt p) = S.meaning m.root := by
  refine ⟨⟨stubRoot .ellipsis, rfl, stubRoot_wf _⟩, [⟨1, 9, "Expr"⟩], [0, 0], _, rfl,
    by decide +kernel, rfl, rfl, by decide, fun δ S hS => ?_⟩
  exact S.meaning_deleteStmt hS (stubRoot_wf _) (p := [0, 0]) rfl (v := .ellipsis) rfl (.inl rfl)

end MutationTest
