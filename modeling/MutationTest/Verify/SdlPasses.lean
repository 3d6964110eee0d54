import MutationTest.Verify.SdlSites

/-! # The applier deletes the listed statement

Whatever the positions are, the applier replaces the first statement of its scan order that carries
the position and the class of the target (`SDLApplier.visit_eq`). Where positions are distinct that
is the statement the collector listed. -/

namespace MutationTest
open FieldTree

/-- The statement replaced by `pass`. -/
def passEdit (n : Node) : Node := ⟨SDLApplier.passAt n.label, .nil⟩

/-- The tree with the statement at `p` replaced by `pass`. -/
def Node.deleteStmt (t : Node) (p : Path) : Node := t.update p passEdit

/-- The first statement that the target denotes. -/
def firstHit (target : SdlSite) (l : List (Path × Node)) : Option (Path × Node) :=
  l.find? fun e => Node.sdlSite e.2 = target

theorem firstHit_append (target : SdlSite) (l l' : List (Path × Node)) :
    firstHit target (l ++ l') = (firstHit target l).or (firstHit target l') :=
  List.find?_append

theorem firstHit_map (target : SdlSite) (h : Path → Path) (l : List (Path × Node)) :
    firstHit target (l.map fun e => (h e.1, e.2)) =
      (firstHit target l).map fun e => (h e.1, e.2) :=
  List.find?_map ..

theorem mem_of_firstHit {target : SdlSite} {l : List (Path × Node)} {e : Path × Node}
    (h : firstHit target l = some e) : e ∈ l ∧ Node.sdlSite e.2 = target :=
  ⟨List.mem_of_find?_eq_some h, by simpa using List.find?_some h⟩

namespace SDLApplier

variable {target : SdlSite}

/-- Edit a forest at the statement that was found, if any. -/
def applyHit (ks : Children) : Option (Path × Node) → Children × Bool
  | none => (ks, false)
  | some e => (ks.update e.1 passEdit, true)

theorem applyHit_none (ks : Children) : applyHit ks none = (ks, false) := rfl

theorem applyHit_some (ks : Children) (e : Path × Node) :
    applyHit ks (some e) = (ks.update e.1 passEdit, true) := rfl

theorem applyHit_succ {f : FieldName} {a : Label} {ks rest : Children}
    {o : Option (Path × Node)} (h : ∀ e ∈ o, e.1 ≠ []) :
    applyHit (.cons f a ks rest) (o.map fun e => (e.1.modifyHead (· + 1), e.2)) =
      (.cons f a ks (applyHit rest o).1, (applyHit rest o).2) := by
  cases o with
  | none => rfl
  | some e => exact Prod.ext (Forest.update_succ (h e rfl) _) rfl

@[simp] theorem scanList_done (f : FieldName) (ks : Children) :
    scanList target f true ks = (ks, true) := by
  induction ks with
  | nil => rfl
  | cons g a ks rest _ ih => simp [scanList, ih]

theorem scanList_eq (f : FieldName) (ks : Children) :
    scanList target f false ks = applyHit ks (firstHit target (ks.under f)) := by
  induction ks with
  | nil => rfl
  | cons g a ks rest _ ih =>
    have hne : ∀ e ∈ firstHit target (rest.under f), e.1 ≠ [] := by
      intro e he
      obtain ⟨i, h, -⟩ := Forest.mem_under.mp (mem_of_firstHit he).1
      simp [h]
    rw [scanList, Forest.under, firstHit_append, firstHit_map]
    split
    next h =>
      obtain ⟨hg, hm⟩ : g = f ∧ Node.sdlSite ⟨a, ks⟩ = target := by simpa using h
      simp [hg, hm, firstHit, applyHit, Forest.update, Forest.modify, passEdit]
    next h =>
      have hnone : firstHit target (if g = f then [([0], ⟨a, ks⟩)] else []) = none := by
        by_cases hg : g = f <;> simp_all [firstHit]
      rw [hnone, Option.none_or, applyHit_succ hne, ih]

theorem scan_done (c : Cls) (ks : Children) : scan target c true ks = (ks, true) := by
  simp [scan, stmtListFields]

theorem scan_eq (c : Cls) (ks : Children) :
    scan target c false ks = applyHit ks (firstHit target (listed c ks)) := by
  unfold scan listed
  generalize stmtListFields = fs
  induction fs with
  | nil => rfl
  | cons f fs ih =>
    have hdone : ∀ ks', fs.foldl (fun r f =>
        if c.isListField f then scanList target f r.2 r.1 else (r.1, r.2)) (ks', true) =
          (ks', true) := by
      clear ih
      induction fs with
      | nil => exact fun _ => rfl
      | cons f fs ih => intro ks'; simp [ih]
    rw [List.foldl_cons, List.flatMap_cons, firstHit_append]
    by_cases hf : c.isListField f
    · simp only [hf, if_true, scanList_eq]
      cases firstHit target (ks.under f) with
      | none => exact ih
      | some e => exact hdone _
    · simp only [hf]
      exact ih

/-- The statements below the nodes of a forest, in the order of the scan. -/
def innerStmts (ks : Children) : List (Path × Node) := ks.nodes.flatMap listedAt

theorem innerStmts_cons (f : FieldName) (a : Label) (ks rest : Children) :
    innerStmts (.cons f a ks rest) = (listed a.cls ks).map (fun e => (0 :: e.1, e.2)) ++
      ((innerStmts ks).map (fun e => (0 :: e.1, e.2)) ++
        (innerStmts rest).map fun e => (e.1.modifyHead (· + 1), e.2)) := by
  have hsucc : ∀ e ∈ rest.nodes, ∀ x : Path × Node,
      (e.1.modifyHead (· + 1) ++ x.1, x.2) = ((e.1 ++ x.1).modifyHead (· + 1), x.2) := by
    intro e he x
    obtain ⟨i, q, h⟩ := List.exists_cons_of_ne_nil (Forest.ne_nil_of_mem_nodes he)
    simp [h]
  simp only [innerStmts, Forest.nodes, List.cons_append, List.flatMap_cons, List.flatMap_append,
    List.flatMap_map, List.map_flatMap, listedAt, List.map_map, List.nil_append]
  congr 2
  exact List.flatMap_congr fun e he => List.map_congr_left fun x _ => hsucc e he x

theorem ne_nil_of_mem_listed {c : Cls} {ks : Children} {e : Path × Node} (h : e ∈ listed c ks) :
    e.1 ≠ [] := by
  obtain ⟨f, -, -, i, he, -⟩ := mem_listed.mp (show (e.1, e.2) ∈ _ from h)
  simp [he]

theorem ne_nil_of_mem_innerStmts {ks : Children} {e : Path × Node} (h : e ∈ innerStmts ks) :
    e.1 ≠ [] := by
  obtain ⟨d, -, h⟩ := List.mem_flatMap.mp h
  obtain ⟨i, f, he, -⟩ := mem_listedAt.mp (show (e.1, e.2) ∈ _ from h)
  simp [he]

theorem visitChildren_done (ks : Children) : visitChildren target true ks = (ks, true) := by
  induction ks with
  | nil => rw [visitChildren]
  | cons f a ks rest ihk ihr =>
    rw [visitChildren, scan_done]
    simp [ihk, ihr]

/-- A node's own lists are scanned first, then what lies deeper, then the siblings; after a hit
nothing else is touched. -/
theorem visitChildren_eq (ks : Children) :
    visitChildren target false ks = applyHit ks (firstHit target (innerStmts ks)) := by
  induction ks with
  | nil => rw [visitChildren]; rfl
  | cons f a ks rest ihk ihr =>
    have hl : ∀ e ∈ firstHit target (listed a.cls ks), e.1 ≠ [] := fun e he =>
      ne_nil_of_mem_listed (mem_of_firstHit he).1
    have hin : ∀ {l}, ∀ e ∈ firstHit target (innerStmts l), e.1 ≠ [] := fun e he =>
      ne_nil_of_mem_innerStmts (mem_of_firstHit he).1
    rw [visitChildren, scan_eq, innerStmts_cons, firstHit_append, firstHit_append, firstHit_map,
      firstHit_map, firstHit_map]
    cases hd : firstHit target (listed a.cls ks) with
    | some e =>
      rw [Option.map_some, Option.some_or, applyHit_some, applyHit_some,
        Forest.update_zero (hl e hd)]
      simp only [visitChildren_done]
    | none =>
      rw [Option.map_none, Option.none_or, applyHit_none]
      dsimp only
      rw [ihk]
      cases hk : firstHit target (innerStmts ks) with
      | some e =>
        rw [Option.map_some, Option.some_or, applyHit_some, applyHit_some,
          Forest.update_zero (hin e hk)]
        simp only [visitChildren_done]
      | none =>
        rw [Option.map_none, Option.none_or, applyHit_succ hin, applyHit_none]
        dsimp only
        rw [ihr]

/-- The applier replaces the first statement in its scan order that the target denotes. -/
theorem visit_eq (t : Node) :
    visit target t = match firstHit target t.scannedStmts with
      | none => (t, false)
      | some e => (t.deleteStmt e.1, true) := by
  have hcons : t.scannedStmts = listed t.cls t.children ++ innerStmts t.children := by
    simp [Node.scannedStmts, FTree.nodes, listedAt, innerStmts]
  rw [visit, scan_eq, hcons, firstHit_append]
  cases hl : firstHit target (listed t.cls t.children) with
  | some e =>
    simp [applyHit, visitChildren_done, Node.deleteStmt,
      FTree.update_eq_mk (ne_nil_of_mem_listed (mem_of_firstHit hl).1)]
  | none =>
    simp only [applyHit, visitChildren_eq]
    cases hk : firstHit target (innerStmts t.children) with
    | some e =>
      simp [Node.deleteStmt,
        FTree.update_eq_mk (ne_nil_of_mem_innerStmts (mem_of_firstHit hk).1)]
    | none => rfl

end SDLApplier

/-! ## The target is found -/

theorem mem_scannedStmts_of_mem_sdlStmts {t : Node} {e : Path × Node} (h : e ∈ t.sdlStmts) :
    e ∈ t.scannedStmts :=
  (List.mem_filter.mp ((sdlStmts_perm t).mem_iff.mp h)).1

theorem firstHit_isSome {t : Node} {e : Path × Node} (h : e ∈ t.sdlStmts) :
    ∃ d, firstHit (Node.sdlSite e.2) t.scannedStmts = some d :=
  Option.isSome_iff_exists.mp <| List.find?_isSome.mpr
    ⟨e, mem_scannedStmts_of_mem_sdlStmts h, by simp⟩

theorem pos_eq_of_sdlSite {d e : Node} (h : d.sdlSite = e.sdlSite) : d.pos = e.pos := by
  simp only [Node.sdlSite, SdlSite.mk.injEq] at h
  cases hp : d.pos
  cases hq : e.pos
  simp_all

/-- A position denotes one statement. -/
theorem Node.DistinctPositions.eq_of_pos {t : Node} (hd : t.DistinctPositions)
    {d e : Path × Node} (h : d ∈ t.statements) (h' : e ∈ t.statements)
    (hpos : Node.pos d.2 = Node.pos e.2) : d = e :=
  List.inj_on_of_nodup_map hd h h' hpos

theorem mem_statements_of_scanned {t : Node} (ht : t.WF) {e : Path × Node}
    (h : e ∈ t.scannedStmts) : e ∈ t.statements := by
  obtain ⟨hp, hs, -⟩ := (mem_scannedStmts ht).mp (show (e.1, e.2) ∈ _ from h)
  exact List.mem_filter.mpr ⟨FTree.mem_nodes.mpr hp, by simpa using hs⟩

theorem firstHit_eq {t : Node} (ht : t.WF) (hd : t.DistinctPositions) {e : Path × Node}
    (h : e ∈ t.sdlStmts) : firstHit (Node.sdlSite e.2) t.scannedStmts = some e := by
  obtain ⟨d, hdh⟩ := firstHit_isSome h
  obtain ⟨hmem, hsite⟩ := mem_of_firstHit hdh
  rw [hdh, hd.eq_of_pos (mem_statements_of_scanned ht hmem)
    (mem_statements_of_scanned ht (mem_scannedStmts_of_mem_sdlStmts h)) (pos_eq_of_sdlSite hsite)]

section
variable {py : PyAst} {s : String} {m : Module}

theorem collectSdlSites_eq (h : py.parse s = .ok m) :
    collectSdlSites py s = .ok (m.root.sdlStmts.map fun e => Node.sdlSite e.2) := by
  rw [collectSdlSites, h, ← sdlSitesOf_eq]
  rfl

theorem makeSdlMutantSource_none (h : py.parse s = .ok m) {j : Nat}
    (hj : m.root.sdlStmts[j]? = none) : makeSdlMutantSource py s j = .ok none := by
  rw [makeSdlMutantSource, collectSdlSites_eq h]
  simp [bind, Except.bind, hj]
  rfl

theorem makeSdlMutantSource_some (h : py.parse s = .ok m) {j : Nat} {d e : Path × Node}
    (hj : m.root.sdlStmts[j]? = some e)
    (hd : firstHit (Node.sdlSite e.2) m.root.scannedStmts = some d) :
    makeSdlMutantSource py s j = .ok (some
      (py.unparse (m.root.deleteStmt d.1), some (sdlDescription (Node.sdlSite e.2)))) := by
  rw [makeSdlMutantSource, collectSdlSites_eq h]
  simp [bind, Except.bind, hj, h, SDLApplier.visit_eq, hd]
  rfl

/-- Where positions are distinct, index `j` deletes the `j`-th listed statement. -/
theorem makeSdlMutantSource_eq (h : py.parse s = .ok m) (hd : m.root.DistinctPositions)
    (j : Nat) :
    makeSdlMutantSource py s j = .ok (m.root.sdlStmts[j]?.map fun e =>
      (py.unparse (m.root.deleteStmt e.1), some (sdlDescription (Node.sdlSite e.2)))) := by
  cases hj : m.root.sdlStmts[j]? with
  | none => exact makeSdlMutantSource_none h hj
  | some e =>
    exact makeSdlMutantSource_some h hj (firstHit_eq m.wf hd (List.mem_of_getElem? hj))

end

end MutationTest
