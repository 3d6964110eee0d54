import MutationTest.Sdl

/-! # Trees of the grammar

What the grammar says about a node of a tree: fields that hold statements are the three lists, an
expression has no statement below it, and an edit that keeps the kind of a node stays in the
grammar. -/

namespace MutationTest
open FieldTree

theorem Node.mem_fields_of_conforms {specs : List FieldSpec} {es : List (FieldName × Nonterminal)}
    (h : conforms specs es) {e : FieldName × Nonterminal} (he : e ∈ es) :
    ∃ s ∈ specs, s.name = e.1 ∧ s.nonterminal = e.2 := by
  induction specs generalizing es with
  | nil =>
    rw [conforms, List.isEmpty_iff] at h
    simp [h] at he
  | cons s specs ih =>
    have htail : ∀ {es'}, conforms specs es' → e ∈ es' →
        ∃ s' ∈ s :: specs, s'.name = e.1 ∧ s'.nonterminal = e.2 := fun h he =>
      let ⟨s', hs', h⟩ := ih h he
      ⟨s', List.mem_cons_of_mem _ hs', h⟩
    unfold conforms at h
    split at h
    · split at h
      · cases he
      · rename_i e' es
        rw [Bool.and_eq_true, beq_iff_eq] at h
        rcases List.mem_cons.mp he with rfl | he
        · exact ⟨s, List.mem_cons_self, by rw [h.1], by rw [h.1]⟩
        · exact htail h.2 he
    · split at h
      · cases he
      · rename_i e' es
        split at h
        next hname =>
          rw [Bool.and_eq_true, beq_iff_eq] at h
          rcases List.mem_cons.mp he with rfl | he
          · exact ⟨s, List.mem_cons_self, hname.symm, h.1.symm⟩
          · exact htail h.2 he
        next => exact htail h he
    · rw [Bool.and_eq_true, List.all_eq_true] at h
      rw [← List.takeWhile_append_dropWhile (p := fun x => decide (x.1 = s.name)) (l := es),
        List.mem_append] at he
      rcases he with he | he
      · have hname := List.all_eq_true.mp List.all_takeWhile e he
        exact ⟨s, List.mem_cons_self, (of_decide_eq_true hname).symm,
          (beq_iff_eq.mp (h.1 e he)).symm⟩
      · exact htail h.2 he

/-- A field that holds statements is one of the three lists. -/
theorem Cls.stmt_field {c : Cls} {s : FieldSpec} (hs : s ∈ c.fields)
    (h : s.nonterminal = .stmt) : s.name ∈ stmtListFields ∧ s.mult = .many := by
  have hall : c.fields.all fun s =>
      s.nonterminal != .stmt || (s.name ∈ stmtListFields && s.mult == .many) := by
    cases c <;> rfl
  simpa [h] using List.all_eq_true.mp hall s hs

/-- Where `body`, `orelse` and `finalbody` are lists, they hold statements. -/
theorem Cls.nonterminal_of_listField {c : Cls} {s : FieldSpec} (hs : s ∈ c.fields)
    (hf : s.name ∈ stmtListFields) (hc : c.isListField s.name) : s.nonterminal = .stmt := by
  have hall : c.fields.all fun s =>
      s.name ∉ stmtListFields || !c.isListField s.name || s.nonterminal == .stmt := by
    cases c <;> rfl
  simpa [hf, hc] using List.all_eq_true.mp hall s hs

theorem Node.WF.entry {t : Node} (ht : t.WF) {p : Path} {n : Node} (hn : t.get? p = some n)
    {f : FieldName} {s : Node} {i : Nat} (he : n.children.entries[i]? = some (f, s)) :
    ∃ spec ∈ n.cls.fields, spec.name = f ∧ spec.nonterminal = s.cls.nonterminal :=
  Node.mem_fields_of_conforms (ht _ (FTree.mem_nodes.mpr hn))
    (List.mem_map.mpr ⟨(f, s), List.mem_of_getElem? he, rfl⟩)

theorem Node.child?_map (h : Label → Label) (n : Node) (f : FieldName) :
    Node.child? (n.map h) f = (n.child? f).map fun s => s.map h := by
  simp only [child?, FTree.map, Forest.entries_map, List.find?_map, Option.map_map]
  rfl

/-! ## Expressions -/

/-- The nonterminals that an expression is made of. -/
def Nonterminal.inExpr : Nonterminal → Bool
  | .expr | .comprehension | .arguments | .arg | .keyword => true
  | _ => false

theorem Cls.inExpr_of_mem_fields {c : Cls} (h : c.nonterminal.inExpr) {s : FieldSpec}
    (hs : s ∈ c.fields) : s.nonterminal.inExpr := by
  have hall : !c.nonterminal.inExpr || c.fields.all fun s => s.nonterminal.inExpr := by
    cases c <;> rfl
  rw [h, Bool.not_true, Bool.false_or, List.all_eq_true] at hall
  exact hall s hs

theorem Node.entry_of_get?_cons {n s : Node} {i : Nat} {p : Path} (h : n.get? (i :: p) = some s) :
    ∃ f c, n.children.entries[i]? = some (f, c) ∧ c.get? p = some s := by
  rw [FTree.get?_cons, Forest.trees, List.getElem?_map] at h
  obtain ⟨c, hc, hs⟩ := Option.bind_eq_some_iff.mp h
  obtain ⟨⟨f, c'⟩, he, rfl⟩ := Option.map_eq_some_iff.mp hc
  exact ⟨f, c', he, hs⟩

/-- No statement lies below an expression. -/
theorem Node.WF.inExpr {t : Node} (ht : t.WF) {p q : Path} {n s : Node} (hn : t.get? p = some n)
    (hexpr : n.cls.nonterminal.inExpr) (hs : n.get? q = some s) : s.cls.nonterminal.inExpr := by
  induction q generalizing p n with
  | nil => cases hs; exact hexpr
  | cons i q ih =>
    obtain ⟨f, c, he, hs⟩ := Node.entry_of_get?_cons hs
    obtain ⟨spec, hspec, -, hnt⟩ := ht.entry hn he
    refine ih (p := p ++ [i]) ?_ (hnt ▸ Cls.inExpr_of_mem_fields hexpr hspec) hs
    simp [FTree.get?_append, hn, FTree.get?_cons, Forest.trees, he]

/-! ## Edits -/

theorem Node.localWF_map {h : Label → Label} (hf : ∀ a, (h a).cls.fields = a.cls.fields)
    (hn : ∀ a, (h a).cls.nonterminal = a.cls.nonterminal) (n : Node) :
    localWF (n.map h) = localWF n := by
  simp [localWF, FTree.map, Forest.entries_map, hf, hn, Function.comp_def]

theorem Node.WF_map {h : Label → Label} (hf : ∀ a, (h a).cls.fields = a.cls.fields)
    (hn : ∀ a, (h a).cls.nonterminal = a.cls.nonterminal) {t : Node} :
    Node.WF (t.map h) ↔ t.WF := by
  simp only [WF, FTree.nodes_map, List.forall_mem_map, localWF_map hf hn]

theorem Node.WF_iff_children {t : Node} :
    t.WF ↔ t.localWF ∧ ∀ s ∈ t.children.trees, WF s := by
  simp only [WF, Prod.forall, FTree.mem_nodes]
  constructor
  · intro h
    refine ⟨h [] t rfl, fun s hs p n hn => ?_⟩
    obtain ⟨i, hi⟩ := List.mem_iff_getElem?.mp hs
    exact h (i :: p) n (by rw [FTree.get?_cons, hi]; exact hn)
  · rintro ⟨h, hs⟩ (_ | ⟨i, p⟩) n hn
    · cases hn; exact h
    · obtain ⟨s, hi, hn⟩ := Option.bind_eq_some_iff.mp hn
      exact hs s (List.mem_of_getElem? hi) p n hn

/-- An edit that puts a tree of the grammar in the place of another of the same kind. -/
theorem Node.WF.update {t : Node} (ht : t.WF) {p : Path} {g : Node → Node}
    (hg : ∀ s, t.get? p = some s →
      (g s).WF ∧ (g s).cls.nonterminal = Cls.nonterminal (Node.cls s)) :
    Node.WF (t.update p g) ∧ (Node.cls (t.update p g)).nonterminal = t.cls.nonterminal := by
  induction p generalizing t with
  | nil => exact hg t rfl
  | cons i p ih =>
    obtain ⟨hlocal, hs⟩ := Node.WF_iff_children.mp ht
    have hi : ∀ s : Node, t.children.trees[i]? = some s → Node.WF (s.update p g) ∧
        (Node.cls (s.update p g)).nonterminal = s.cls.nonterminal := fun s his =>
      ih (hs s (List.mem_of_getElem? his)) fun n hn =>
        hg n (by rw [FTree.get?_cons, his]; exact hn)
    refine ⟨Node.WF_iff_children.mpr ⟨?_, fun s hmem => ?_⟩, rfl⟩
    · have hkinds := Forest.map_entries_modify (fun f s => (f, Cls.nonterminal (Node.cls s)))
        fun _ s his => congrArg _ (hi s his).2
      rw [localWF, FTree.update, hkinds]
      exact hlocal
    · rcases Forest.mem_trees_modify hmem with hmem | ⟨s', hs', rfl⟩
      · exact hs s hmem
      · exact (hi s' hs').1

end MutationTest
