import MutationTest.Verify.Mutants

/-! # Layout does not matter

Sites and mutants commute with forgetting positions. Two texts whose trees differ in positions only
therefore have the same operators, the same deletable statements and the same mutants. -/

namespace MutationTest
open FieldTree

namespace OpSite

/-- The site in the tree without positions. -/
def strip (x : OpSite) : OpSite := { x with lineno := 0 }

end OpSite

theorem sitesAt_strip (e : Path × Node) :
    sitesAt (e.1, e.2.strip) = (sitesAt e).map OpSite.strip := by
  simp only [sitesAt, List.map_map]
  rfl

theorem Node.opSites_strip (t : Node) : t.strip.opSites = t.opSites.map OpSite.strip := by
  rw [opSites, strip, FTree.nodes_map, List.flatMap_map, opSites, List.map_flatMap]
  exact List.flatMap_congr fun e _ => sitesAt_strip e

theorem Node.HasOp.strip {t : Node} {x : OpSite} (hx : t.HasOp x) : t.strip.HasOp x.strip := by
  rw [← mem_opSites, opSites_strip]
  exact List.mem_map_of_mem (mem_opSites.mpr hx)

theorem listed_strip (c : Cls) (n : Node) :
    listed c n.strip.children = (listed c n.children).map fun e => (e.1, e.2.strip) := by
  simp only [listed, List.map_flatMap]
  refine List.flatMap_congr fun f _ => ?_
  split
  · exact Forest.under_map _ f n.children
  · rfl

theorem listedAt_strip (e : Path × Node) :
    listedAt (e.1, e.2.strip) = (listedAt e).map fun x => (x.1, x.2.strip) := by
  have hcls : e.2.strip.cls = e.2.cls := rfl
  simp only [listedAt, hcls, listed_strip, List.map_map]
  rfl

theorem Node.get?_strip {t s : Node} {p : Path} (hs : t.get? p = some s) :
    t.strip.get? p = some s.strip := by
  rw [strip, FTree.get?_map, hs]
  rfl

theorem Node.isSdl_strip (n : Node) : n.strip.isSdl = n.isSdl := by
  have hdoc : isDocstringExpr n.strip = isDocstringExpr n := by
    rw [isDocstringExpr, strip, Node.child?_map, Option.map_map]
    rfl
  rw [isSdl, isSdl, hdoc]
  rfl

theorem Node.sdlStmts_strip (t : Node) :
    t.strip.sdlStmts = t.sdlStmts.map fun e => (e.1, e.2.strip) := by
  have hwalk : walk [([], t.strip)] = (walk [([], t)]).map fun e => (e.1, Node.strip e.2) :=
    walk_map _ [([], t)]
  rw [sdlStmts, hwalk, List.flatMap_map, sdlStmts, List.map_flatMap]
  refine List.flatMap_congr fun e _ => ?_
  rw [listedAt_strip, List.filter_map]
  congr 1
  exact List.filter_congr fun x _ => Node.isSdl_strip x.2

namespace MutantSite

def strip : MutantSite → MutantSite
  | op x => op x.strip
  | sdl p stmt => sdl p stmt.strip

theorem strip_apply (x : MutantSite) (t : Node) : (x.apply t).strip = x.strip.apply t.strip := by
  cases x with
  | op x => exact FTree.map_update _ t x.path fun _ => rfl
  | sdl p stmt => exact FTree.map_update _ t p fun _ => rfl

end MutantSite

theorem Node.mutantSites_strip (t : Node) :
    t.strip.mutantSites = t.mutantSites.map MutantSite.strip := by
  simp only [mutantSites, opSites_strip, sdlStmts_strip, List.map_append, List.map_map]
  rfl

theorem Node.sdlStmts_get? {t : Node} (ht : t.WF) :
    (t.sdlStmts.map (·.1)).map (fun p => (t.get? p).map sdlSite) =
      (t.sdlStmts.map fun e => sdlSite e.2).map some := by
  rw [List.map_map, List.map_map]
  refine List.map_congr_left fun e he => ?_
  rw [Function.comp_apply, (mem_sdlStmts_get? ht he).1]
  rfl

theorem sites_eq_zipWith (l : List OpSite) :
    l.map OpSite.site = List.zipWith Op.site (l.map (·.lineno)) (l.map (·.op)) := by
  rw [List.zipWith_map_left, List.zipWith_map_right, List.zipWith_self]
  rfl

theorem makeMutantSourceUnified_text {py : PyAst} {s : String} {m : Module}
    (h : py.parse s = .ok m) (hd : m.root.DistinctPositions) (idx : Nat) :
    (makeMutantSourceUnified py s idx m.root.opSites.length).map (·.map (·.1)) =
      .ok (m.root.mutantSites[idx]?.map fun x => py.unparse (x.apply m.root)) := by
  rw [makeMutantSourceUnified_eq h hd, Except.map, Option.map_map]
  rfl

/-- Trees equal up to positions have the same mutants, as texts. -/
theorem mutantTexts_eq {py : PyAst} (hu : py.UnparseStructural) {t t' : Node}
    (h : t.strip = t'.strip) (idx : Nat) :
    (t.mutantSites[idx]?.map fun x => py.unparse (x.apply t)) =
      t'.mutantSites[idx]?.map fun x => py.unparse (x.apply t') := by
  have hsite : t.mutantSites[idx]?.map MutantSite.strip =
      t'.mutantSites[idx]?.map MutantSite.strip := by
    rw [← List.getElem?_map, ← List.getElem?_map, ← Node.mutantSites_strip,
      ← Node.mutantSites_strip, h]
  cases hx : t.mutantSites[idx]? with
  | none => cases hx' : t'.mutantSites[idx]? with
    | none => rfl
    | some x' => simp [hx, hx'] at hsite
  | some x => cases hx' : t'.mutantSites[idx]? with
    | none => simp [hx, hx'] at hsite
    | some x' =>
      simp only [hx, hx', Option.map_some, Option.some.injEq] at hsite
      refine congrArg some (hu _ _ ?_)
      rw [MutantSite.strip_apply, MutantSite.strip_apply, hsite, h]

/-- Two texts whose trees are equal up to positions have the same operators in the same order
(`ops`), list the same statements for deletion (`stmts`, as paths in either tree), sample the same
indices and give the same mutant for each index. -/
theorem layout_independent {py : PyAst} (hu : py.UnparseStructural) {s s' : String}
    {m m' : Module} (h : py.parse s = .ok m) (h' : py.parse s' = .ok m')
    (hd : m.root.DistinctPositions) (hd' : m'.root.DistinctPositions)
    (ht : m.root.strip = m'.root.strip) :
    ∃ (ops : List Op) (lines lines' : List Nat) (stmts : List Path) (sdl sdl' : List SdlSite),
      lines.length = ops.length ∧ lines'.length = ops.length ∧
      collectSites py s = .ok (List.zipWith Op.site lines ops) ∧
      collectSites py s' = .ok (List.zipWith Op.site lines' ops) ∧
      collectSdlSites py s = .ok sdl ∧ collectSdlSites py s' = .ok sdl' ∧
      sdl.map (·.typeName) = sdl'.map (·.typeName) ∧
      (stmts.map fun p => (m.root.get? p).map Node.sdlSite) = sdl.map some ∧
      (stmts.map fun p => (m'.root.get? p).map Node.sdlSite) = sdl'.map some ∧
      (∀ (maxMutants startAt : ℤ),
        (indices (ops.length + sdl.length) maxMutants).map (sliceFrom · startAt) =
          (indices (ops.length + sdl'.length) maxMutants).map (sliceFrom · startAt)) ∧
      ∀ idx, (makeMutantSourceUnified py s idx ops.length).map (·.map (·.1)) =
        (makeMutantSourceUnified py s' idx ops.length).map (·.map (·.1)) := by
  have hops : m.root.opSites.map (·.op) = m'.root.opSites.map (·.op) := by
    have := congrArg (·.map (·.op)) (congrArg Node.opSites ht)
    simp only [Node.opSites_strip, List.map_map] at this
    exact this
  have hsdl : (m.root.sdlStmts.map fun e => (e.1, e.2.strip)) =
      m'.root.sdlStmts.map fun e => (e.1, e.2.strip) := by
    simpa only [Node.sdlStmts_strip] using congrArg Node.sdlStmts ht
  have hpaths : m.root.sdlStmts.map (·.1) = m'.root.sdlStmts.map (·.1) := by
    have := congrArg (·.map (·.1)) hsdl
    simp only [List.map_map] at this
    exact this
  have hlen : m.root.sdlStmts.length = m'.root.sdlStmts.length := by
    simpa using congrArg List.length hpaths
  have hsites' := collectSites_eq h'
  rw [sites_eq_zipWith, ← hops] at hsites'
  refine ⟨m.root.opSites.map (·.op), _, _, m.root.sdlStmts.map (·.1), _, _, ?_, ?_,
    (collectSites_eq h).trans (by rw [sites_eq_zipWith]), hsites', collectSdlSites_eq h,
    collectSdlSites_eq h', ?_, Node.sdlStmts_get? m.wf, hpaths ▸ Node.sdlStmts_get? m'.wf, ?_, ?_⟩
  · simp
  · rw [hops]; simp
  · have := congrArg (·.map fun e => e.2.cls.typeName) hsdl
    simp only [List.map_map] at this ⊢
    exact this
  · simp [hlen]
  · intro idx
    have hn : (m.root.opSites.map (·.op)).length = m'.root.opSites.length := by
      rw [hops, List.length_map]
    have htext := makeMutantSourceUnified_text h hd idx
    have htext' := makeMutantSourceUnified_text h' hd' idx
    rw [← hn] at htext'
    rw [List.length_map, htext, ← List.length_map (·.op), htext', mutantTexts_eq hu ht]

theorem layout_independent_assert :
    ∃ (ops : List Op) (lines lines' : List Nat) (stmts : List Path) (sdl sdl' : List SdlSite),
      lines.length = ops.length ∧ lines'.length = ops.length ∧
      collectSites assertPy "assert a < b + 1\n" = .ok (List.zipWith Op.site lines ops) ∧
      collectSites assertPy "\nassert a < b + 1\n" = .ok (List.zipWith Op.site lines' ops) ∧
      collectSdlSites assertPy "assert a < b + 1\n" = .ok sdl ∧
      collectSdlSites assertPy "\nassert a < b + 1\n" = .ok sdl' ∧
      sdl.map (·.typeName) = sdl'.map (·.typeName) ∧
      (stmts.map fun p => ((assertRoot 1 .lt .add).get? p).map Node.sdlSite) = sdl.map some ∧
      (stmts.map fun p => ((assertRoot 2 .lt .add).get? p).map Node.sdlSite) = sdl'.map some ∧
      (∀ (maxMutants startAt : ℤ),
        (indices (ops.length + sdl.length) maxMutants).map (sliceFrom · startAt) =
          (indices (ops.length + sdl'.length) maxMutants).map (sliceFrom · startAt)) ∧
      ∀ idx,
        (makeMutantSourceUnified assertPy "assert a < b + 1\n" idx ops.length).map (·.map (·.1)) =
          (makeMutantSourceUnified assertPy "\nassert a < b + 1\n" idx ops.length).map
            (·.map (·.1)) :=
  have h : assertPy.parse "assert a < b + 1\n" = .ok (assertModule 1 .lt .add) := rfl
  have h' : assertPy.parse "\nassert a < b + 1\n" = .ok (assertModule 2 .lt .add) := rfl
  layout_independent assertPy_unparseStructural h h' (by decide) (by decide) rfl

end MutationTest
