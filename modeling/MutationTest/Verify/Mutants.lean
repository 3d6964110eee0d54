import MutationTest.Sampling
import MutationTest.Verify.OperatorPasses
import MutationTest.Verify.SdlPasses

/-! # The unified index space

A mutant is one edit of the tree: an operator replaced or a statement deleted. `Node.mutantSites`
lists the edits in the order of the unified index, and `makeMutantSourceUnified_eq` reads the code
off that list. Different edits give different trees, and none gives the tree one started from. Edits
do not look at positions, so trees equal up to positions have the same mutants. -/

namespace MutationTest
open FieldTree

inductive MutantSite where
  | op (x : OpSite)
  | sdl (path : Path) (stmt : Node)

namespace MutantSite

def apply : MutantSite → Node → Node
  | op x, t => x.apply t
  | sdl p _, t => t.deleteStmt p

def description : MutantSite → String
  | op x => x.description
  | sdl _ stmt => sdlDescription stmt.sdlSite

end MutantSite

def Node.mutantSites (t : Node) : List MutantSite :=
  t.opSites.map .op ++ t.sdlStmts.map fun e => .sdl e.1 e.2

/-- `t` has a mutable operator there, or a statement of a type that can be deleted. -/
def Node.HasEdit (t : Node) : MutantSite → Prop
  | .op x => t.HasOp x
  | .sdl p s => t.get? p = some s ∧ s.cls.sdlEligible

/-- `t` has a mutable operator or a deletable statement there: one that is no string. -/
def Node.HasSite (t : Node) : MutantSite → Prop
  | .op x => t.HasOp x
  | .sdl p s => t.get? p = some s ∧ s.isSdl

theorem Node.sdlEligible_of_isSdl {s : Node} (h : s.isSdl) : s.cls.sdlEligible := by
  rw [isSdl, Bool.and_eq_true] at h
  exact h.1

theorem Node.HasSite.hasEdit {t : Node} {x : MutantSite} (hx : t.HasSite x) : t.HasEdit x :=
  match x, hx with
  | .op _, h => h
  | .sdl .., ⟨hs, hsdl⟩ => ⟨hs, sdlEligible_of_isSdl hsdl⟩

theorem Node.length_mutantSites (t : Node) :
    t.mutantSites.length = t.opSites.length + t.sdlStmts.length := by
  simp [mutantSites]

theorem makeMutantSourceUnified_eq {py : PyAst} {s : String} {m : Module}
    (h : py.parse s = .ok m) (hd : m.root.DistinctPositions) (idx : Nat) :
    makeMutantSourceUnified py s idx m.root.opSites.length =
      .ok (m.root.mutantSites[idx]?.map fun x =>
        (py.unparse (x.apply m.root), some x.description)) := by
  rw [makeMutantSourceUnified, Node.mutantSites]
  split
  next hlt =>
    rw [makeMutantSource_eq h, List.getElem?_append_left (by simpa using hlt), List.getElem?_map,
      Option.map_map]
    rfl
  next hge =>
    rw [makeSdlMutantSource_eq h hd, List.getElem?_append_right (by simpa using hge),
      List.length_map, List.getElem?_map, Option.map_map]
    rfl

/-! ## Different edits, different trees -/

/-- The operator with index `i` of the node at a path. -/
def Node.op? (t : Node) (p : Path) (i : Nat) : Option Op := (t.cls? p).bind (·.op? i)

theorem Node.cls?_strip (t : Node) (p : Path) : t.strip.cls? p = t.cls? p := by
  rw [cls?, strip, FTree.label?_map, Option.map_map]; rfl

theorem Node.cls?_eq_of_strip {t t' : Node} (h : t.strip = t'.strip) (p : Path) :
    t.cls? p = t'.cls? p := by
  rw [← cls?_strip, h, cls?_strip]

theorem Node.cls?_of_get? {t n : Node} {p : Path} (h : t.get? p = some n) :
    t.cls? p = some n.cls := by
  rw [cls?, FTree.label?, h]; rfl

namespace OpSite

variable {t : Node} {x : OpSite}

theorem op?_of_hasOp (h : t.HasOp x) : t.op? x.path x.index = some x.op := by
  obtain ⟨n, hn, ho, -⟩ := h
  rw [Node.op?, Node.cls?_of_get? hn]
  exact ho

theorem cls?_apply_of_ne {p : Path} (h : p ≠ x.path) : (x.apply t).cls? p = t.cls? p := by
  rw [Node.cls?, apply, FTree.label?_update_relabel (g := x.edit) (fun _ => rfl) h, Node.cls?]

theorem cls?_apply_self (t : Node) (x : OpSite) :
    (x.apply t).cls? x.path = (t.cls? x.path).map fun c => c.setOp x.index x.op.next := by
  rw [Node.cls?, apply, FTree.label?_update_self, Node.cls?, FTree.label?, Option.map_map,
    Option.map_map, Option.map_map]
  rfl

theorem op?_apply_self (h : t.HasOp x) : (x.apply t).op? x.path x.index = some x.op.next := by
  obtain ⟨n, hn, ho, -⟩ := h
  rw [Node.op?, cls?_apply_self, Node.cls?_of_get? hn]
  exact Cls.op?_setOp_next ho

/-- An operator edit changes no other occurrence. -/
theorem op?_apply_of_ne {p : Path} {i : Nat} (h : (p, i) ≠ (x.path, x.index)) :
    (x.apply t).op? p i = t.op? p i := by
  by_cases hp : p = x.path
  · subst hp
    have hi : i ≠ x.index := fun hi => h (by rw [hi])
    rw [Node.op?, cls?_apply_self, Node.op?]
    cases t.cls? x.path with
    | none => rfl
    | some c => exact Cls.op?_setOp_ne hi _
  · rw [Node.op?, cls?_apply_of_ne hp, Node.op?]

/-- An operator edit keeps the types of all nodes. -/
theorem typeName_apply (t : Node) (x : OpSite) (p : Path) :
    ((x.apply t).cls? p).map Cls.typeName = (t.cls? p).map Cls.typeName := by
  by_cases hp : p = x.path
  · subst hp
    rw [cls?_apply_self, Option.map_map]
    simp only [Function.comp_def, Cls.typeName_setOp]
  · rw [cls?_apply_of_ne hp]

theorem apply_ne (h : t.HasOp x) : (x.apply t).strip ≠ t.strip := by
  intro he
  have := op?_apply_self h
  rw [Node.op?, Node.cls?_eq_of_strip he, ← Node.op?, op?_of_hasOp h] at this
  exact Op.next_ne h.choose_spec.2.2.1 (Option.some.inj this).symm

theorem eq_of_key {y : OpSite} (hx : t.HasOp x) (hy : t.HasOp y)
    (h : (x.path, x.index) = (y.path, y.index)) : x = y := by
  obtain ⟨n, hn, ho, -, hl⟩ := hx
  obtain ⟨n', hn', ho', -, hl'⟩ := hy
  obtain ⟨hp, hi⟩ := Prod.mk.inj h
  obtain rfl : n = n' := by rw [← hp, hn] at hn'; exact Option.some.inj hn'
  obtain ⟨p, i, l, o⟩ := x
  obtain ⟨p', i', l', o'⟩ := y
  simp_all

theorem apply_inj {y : OpSite} (hx : t.HasOp x) (hy : t.HasOp y)
    (h : (x.apply t).strip = (y.apply t).strip) : x = y := by
  by_contra hne
  have hkey : (x.path, x.index) ≠ (y.path, y.index) := fun he => hne (eq_of_key hx hy he)
  have := op?_apply_self hx
  rw [Node.op?, Node.cls?_eq_of_strip h, ← Node.op?, op?_apply_of_ne hkey, op?_of_hasOp hx] at this
  exact Op.next_ne hx.choose_spec.2.2.1 (Option.some.inj this).symm

end OpSite

theorem Node.mem_sdlStmts_isSdl {t : Node} (ht : t.WF) {e : Path × Node} (h : e ∈ t.sdlStmts) :
    t.get? e.1 = some e.2 ∧ e.2.isSdl := by
  obtain ⟨hmem, hsdl⟩ := List.mem_filter.mp ((sdlStmts_perm t).mem_iff.mp h)
  exact ⟨((mem_scannedStmts ht).mp hmem).1, hsdl⟩

theorem Node.mem_sdlStmts_get? {t : Node} (ht : t.WF) {e : Path × Node} (h : e ∈ t.sdlStmts) :
    t.get? e.1 = some e.2 ∧ e.2.cls.sdlEligible :=
  (mem_sdlStmts_isSdl ht h).imp_right sdlEligible_of_isSdl

theorem Node.hasSite_of_mem {t : Node} (ht : t.WF) {x : MutantSite} (hx : x ∈ t.mutantSites) :
    t.HasSite x := by
  rcases List.mem_append.mp hx with hx | hx
  · obtain ⟨y, hy, rfl⟩ := List.mem_map.mp hx
    exact mem_opSites.mp hy
  · obtain ⟨e, he, rfl⟩ := List.mem_map.mp hx
    exact mem_sdlStmts_isSdl ht he

theorem Cls.sdlEligible_iff {c : Cls} : c.sdlEligible ↔ c.typeName ∈ ["Expr", "Assign", "AugAssign",
    "AnnAssign", "Return", "Delete", "Raise", "Assert", "Break", "Continue"] := by
  cases c <;> simp [sdlEligible, typeName]

theorem Cls.nonterminal_of_sdlEligible {c : Cls} (h : c.sdlEligible) : c.nonterminal = .stmt := by
  cases c <;> first | rfl | cases h

theorem Cls.typeName_ne_pass {c : Cls} (h : c.sdlEligible) : c.typeName ≠ Cls.pass.typeName :=
  fun hp => absurd (hp ▸ Cls.sdlEligible_iff.mp h) (by decide)

namespace Node

variable {t s s' : Node} {p q : Path}

theorem cls?_deleteStmt_self (h : t.get? p = some s) : (t.deleteStmt p).cls? p = some .pass := by
  rw [cls?, deleteStmt, FTree.label?_update_self, h]; rfl

theorem cls?_deleteStmt_outside (h : ¬p <+: q) : (t.deleteStmt p).cls? q = t.cls? q := by
  rw [cls?, deleteStmt, FTree.label?_update_outside h, cls?]

/-- Deleting a statement changes the type found at its path. -/
theorem deleteStmt_ne {u : Node} (hs : t.get? p = some s)
    (hpass : s.cls.typeName ≠ Cls.pass.typeName)
    (hu : (u.cls? p).map Cls.typeName = (t.cls? p).map Cls.typeName) :
    (t.deleteStmt p).strip ≠ u.strip := by
  intro h
  rw [← cls?_eq_of_strip h, cls?_deleteStmt_self hs, cls?_of_get? hs] at hu
  exact hpass (Option.some.inj hu).symm

theorem deleteStmt_inj (hs : t.get? p = some s) (he : s.cls.sdlEligible)
    (hs' : t.get? q = some s') (he' : s'.cls.sdlEligible)
    (h : (t.deleteStmt p).strip = (t.deleteStmt q).strip) : p = q := by
  by_contra hne
  -- one of the two statements does not lie below the other
  by_cases hqp : q <+: p
  · have hpq : ¬p <+: q := fun hpq => hne (hpq.eq_of_length_le hqp.length_le)
    exact deleteStmt_ne hs' (Cls.typeName_ne_pass he') (by rw [cls?_deleteStmt_outside hpq]) h.symm
  · exact deleteStmt_ne hs (Cls.typeName_ne_pass he) (by rw [cls?_deleteStmt_outside hqp]) h

end Node

/-- The mutants are pairwise different, up to positions. -/
theorem Node.nodup_mutants {t : Node} (ht : t.WF) :
    (t.mutantSites.map fun x => (x.apply t).strip).Nodup := by
  rw [mutantSites, List.map_append, List.nodup_append, List.map_map, List.map_map]
  refine ⟨?_, ?_, ?_⟩
  · exact (t.nodup_opSites).map_on fun x hx y hy h =>
      OpSite.apply_inj (mem_opSites.mp hx) (mem_opSites.mp hy) h
  · refine (List.Nodup.of_map _ (nodup_sdlStmts t)).map_on fun d hd e he h => ?_
    obtain ⟨hs, hel⟩ := mem_sdlStmts_get? ht hd
    obtain ⟨hs', hel'⟩ := mem_sdlStmts_get? ht he
    obtain ⟨p, s⟩ := d
    obtain ⟨q, s'⟩ := e
    obtain rfl : p = q := deleteStmt_inj hs hel hs' hel' h
    obtain rfl : s = s' := Option.some.inj (hs.symm.trans hs')
    rfl
  · rintro _ hx _ hy rfl
    obtain ⟨x, -, hx⟩ := List.mem_map.mp hx
    obtain ⟨e, he, hy⟩ := List.mem_map.mp hy
    obtain ⟨hs, hel⟩ := mem_sdlStmts_get? ht he
    exact deleteStmt_ne hs (Cls.typeName_ne_pass hel) (OpSite.typeName_apply t x e.1)
      (hy.trans hx.symm)

theorem Node.mutant_ne {t : Node} {x : MutantSite} (hx : t.HasEdit x) :
    (x.apply t).strip ≠ t.strip :=
  match x, hx with
  | .op _, h => OpSite.apply_ne h
  | .sdl .., ⟨hs, he⟩ => deleteStmt_ne hs (Cls.typeName_ne_pass he) rfl

/-- Whatever the positions are, an index below the number of sites gives a mutant. -/
theorem makeMutantSourceUnified_of_lt {py : PyAst} {s : String} {m : Module}
    (h : py.parse s = .ok m) {idx : Nat}
    (hidx : idx < m.root.opSites.length + m.root.sdlStmts.length) :
    ∃ x : MutantSite, m.root.HasEdit x ∧
      makeMutantSourceUnified py s idx m.root.opSites.length =
        .ok (some (py.unparse (x.apply m.root), some x.description)) := by
  rw [makeMutantSourceUnified]
  split
  next hlt =>
    have hx := List.getElem?_eq_getElem hlt
    rw [makeMutantSource_eq h, hx]
    exact ⟨.op _, Node.mem_opSites.mp (List.mem_of_getElem? hx), rfl⟩
  next hge =>
    have hj := List.getElem?_eq_getElem (l := m.root.sdlStmts)
      (i := idx - m.root.opSites.length) (by omega)
    have he := List.mem_of_getElem? hj
    obtain ⟨d, hd⟩ := firstHit_isSome he
    obtain ⟨hmem, hsite⟩ := mem_of_firstHit hd
    have helig : d.2.cls.sdlEligible := by
      rw [Cls.sdlEligible_iff, show d.2.cls.typeName = d.2.sdlSite.typeName from rfl, hsite]
      exact Cls.sdlEligible_iff.mp (Node.mem_sdlStmts_get? m.wf he).2
    refine ⟨.sdl d.1 d.2, ⟨((mem_scannedStmts m.wf).mp hmem).1, helig⟩, ?_⟩
    rw [makeSdlMutantSource_some h hj hd, ← hsite]
    rfl

/-- The index space enumerates mutants: every index below the number of sites has one, no other
index has, they are pairwise different and none is the program itself. -/
theorem unified_enumerates {py : PyAst} (hpos : py.PositionsDistinct) {s : String} {m : Module}
    (h : py.parse s = .ok m) :
    ∃ (sites : List Site) (sdlSites : List SdlSite) (mutants : List (Node × String)),
      collectSites py s = .ok sites ∧ collectSdlSites py s = .ok sdlSites ∧
      mutants.length = sites.length + sdlSites.length ∧
      (∀ unparse idx, makeMutantSourceUnified { py with unparse } s idx sites.length =
        .ok (mutants[idx]?.map fun x => (unparse x.1, some x.2))) ∧
      (mutants.map fun x => x.1.strip).Nodup ∧
      ∀ x ∈ mutants, x.1.strip ≠ m.root.strip := by
  refine ⟨_, _, m.root.mutantSites.map fun x => (x.apply m.root, x.description),
    collectSites_eq h, collectSdlSites_eq h, ?_, fun unparse idx => ?_, ?_, ?_⟩
  · simp [Node.length_mutantSites]
  · have := @makeMutantSourceUnified_eq { py with unparse } s m h (hpos s m h) idx
    rw [List.length_map, this, List.getElem?_map, Option.map_map]
    rfl
  · rw [List.map_map]
    exact Node.nodup_mutants m.wf
  · rintro _ hmem
    obtain ⟨x, hx, rfl⟩ := List.mem_map.mp hmem
    exact Node.mutant_ne (Node.hasSite_of_mem m.wf hx).hasEdit

theorem unified_enumerates_assert :
    ∃ (sites : List Site) (sdlSites : List SdlSite) (mutants : List (Node × String)),
      collectSites assertPy "assert a < b + 1\n" = .ok sites ∧
      collectSdlSites assertPy "assert a < b + 1\n" = .ok sdlSites ∧
      mutants.length = sites.length + sdlSites.length ∧
      (∀ unparse idx,
        makeMutantSourceUnified { assertPy with unparse } "assert a < b + 1\n" idx sites.length =
          .ok (mutants[idx]?.map fun x => (unparse x.1, some x.2))) ∧
      (mutants.map fun x => x.1.strip).Nodup ∧
      ∀ x ∈ mutants, x.1.strip ≠ (assertModule 1 .lt .add).root.strip :=
  unified_enumerates assertPy_positionsDistinct assertPy_parse

end MutationTest
