import MutationTest.Verify.Grammar

/-! # Statements in statement lists

`listedAt` gives the statements held by the lists of one node, under their paths. Flattened over the
breadth-first walk it is what the collector goes through, flattened over the preorder it is what the
applier goes through. In a tree of the grammar both list every statement below the root, once. -/

namespace MutationTest
open FieldTree

/-- The entries of the lists `body`, `orelse` and `finalbody` of a node of class `c`. -/
def listed (c : Cls) (ks : Children) : List (Path × Node) :=
  stmtListFields.flatMap fun f => if c.isListField f then ks.under f else []

def listedAt (e : Path × Node) : List (Path × Node) :=
  (listed e.2.cls e.2.children).map fun x => (e.1 ++ x.1, x.2)

/-- The test of the collector on a statement. -/
def Node.isSdl (stmt : Node) : Bool := stmt.cls.sdlEligible && !isDocstringExpr stmt

/-- The statements the collector lists, in its order. -/
def Node.sdlStmts (t : Node) : List (Path × Node) :=
  (walk [([], t)]).flatMap fun e => (listedAt e).filter fun x => Node.isSdl x.2

/-- The statements the applier compares with its target, in its order. -/
def Node.scannedStmts (t : Node) : List (Path × Node) := t.nodes.flatMap listedAt

theorem Node.sdlSites_eq (e : Path × Node) :
    Node.sdlSites e.2 =
      ((listedAt e).filter fun x => Node.isSdl x.2).map fun x => Node.sdlSite x.2 := by
  have hlist : ∀ f, Node.getList e.2 f =
      (if e.2.cls.isListField f then e.2.children.under f else []).map (·.2) := by
    intro f
    unfold Node.getList
    split
    · rw [Forest.map_snd_under]
    · rfl
  simp only [sdlSites, listedAt, listed, hlist, List.map_flatMap, List.filter_flatMap,
    List.filter_map, List.map_map]
  rfl

theorem sdlSitesOf_eq (t : Node) : sdlSitesOf t = t.sdlStmts.map fun e => Node.sdlSite e.2 := by
  simp only [sdlSitesOf, astWalk, Node.sdlStmts, List.flatMap_map, List.map_flatMap,
    Node.sdlSites_eq]

/-! ## What is listed -/

theorem mem_listed {c : Cls} {ks : Children} {p : Path} {s : Node} :
    (p, s) ∈ listed c ks ↔
      ∃ f ∈ stmtListFields, c.isListField f ∧ ∃ i, p = [i] ∧ ks.entries[i]? = some (f, s) := by
  simp only [listed, List.mem_flatMap]
  refine exists_congr fun f => and_congr_right fun _ => ?_
  split
  · simp_all [Forest.mem_under]
  · simp_all

theorem mem_listedAt {e : Path × Node} {p : Path} {s : Node} :
    (p, s) ∈ listedAt e ↔ ∃ i f, p = e.1 ++ [i] ∧ e.2.children.entries[i]? = some (f, s) ∧
      f ∈ stmtListFields ∧ e.2.cls.isListField f := by
  simp only [listedAt, List.mem_map, Prod.exists, Prod.mk.injEq, mem_listed]
  constructor
  · rintro ⟨_, _, ⟨f, hf, hc, i, rfl, he⟩, rfl, rfl⟩
    exact ⟨i, f, rfl, he, hf, hc⟩
  · rintro ⟨i, f, rfl, he, hf, hc⟩
    exact ⟨[i], s, ⟨f, hf, hc, i, rfl, he⟩, rfl, rfl⟩

theorem nodup_listed (c : Cls) (ks : Children) : ((listed c ks).map (·.1)).Nodup := by
  rw [listed, List.map_flatMap, List.nodup_flatMap]
  constructor
  · intro f _
    split
    · exact Forest.nodup_under f ks
    · exact .nil
  · have hne : stmtListFields.Pairwise (· ≠ ·) := by decide
    refine hne.imp fun {f g} hfg p hp hq => hfg ?_
    have hmem : ∀ {h}, p ∈ (if c.isListField h then ks.under h else []).map (·.1) →
        ∃ i s, p = [i] ∧ ks.entries[i]? = some (h, s) := by
      intro h hp
      split at hp
      · obtain ⟨⟨_, s⟩, hs, rfl⟩ := List.mem_map.mp hp
        obtain ⟨i, rfl, hi⟩ := Forest.mem_under.mp hs
        exact ⟨i, s, rfl, hi⟩
      · cases hp
    obtain ⟨i, s, rfl, hi⟩ := hmem hp
    obtain ⟨j, s', hij, hj⟩ := hmem hq
    obtain rfl : i = j := by simpa using hij
    rw [hi] at hj
    exact (Prod.mk.inj (Option.some.inj hj)).1

theorem nodup_scannedStmts (t : Node) : (t.scannedStmts.map (·.1)).Nodup := by
  rw [Node.scannedStmts, List.map_flatMap, List.nodup_flatMap]
  constructor
  · intro e _
    have := (nodup_listed e.2.cls e.2.children).map (List.append_right_injective e.1)
    simpa [listedAt, Function.comp_def] using this
  · refine (List.pairwise_map.mp t.nodup_nodes).imp fun {d e} hde p hp hq => hde ?_
    obtain ⟨⟨_, s⟩, hs, rfl⟩ := List.mem_map.mp hp
    obtain ⟨⟨_, s'⟩, hs', he⟩ := List.mem_map.mp hq
    obtain ⟨i, -, rfl, -⟩ := mem_listedAt.mp hs
    obtain ⟨j, -, rfl, -⟩ := mem_listedAt.mp hs'
    exact (List.append_inj' he rfl).1.symm

/-- Collector and applier go through the same statements. -/
theorem sdlStmts_perm (t : Node) :
    t.sdlStmts.Perm (t.scannedStmts.filter fun e => Node.isSdl e.2) := by
  rw [Node.sdlStmts, Node.scannedStmts, List.filter_flatMap]
  exact (walk_root_perm t).flatMap_right _

theorem nodup_sdlStmts (t : Node) : (t.sdlStmts.map (·.1)).Nodup :=
  ((sdlStmts_perm t).map _).nodup_iff.mpr
    ((nodup_scannedStmts t).sublist (List.filter_sublist.map _))

/-! ## The grammar -/

/-- In a tree of the grammar, the scanned statements are the statements below the root. -/
theorem mem_scannedStmts {t : Node} (ht : t.WF) {p : Path} {s : Node} :
    (p, s) ∈ t.scannedStmts ↔ t.get? p = some s ∧ s.cls.nonterminal = .stmt ∧ p ≠ [] := by
  simp only [Node.scannedStmts, List.mem_flatMap, Prod.exists, mem_listedAt, FTree.mem_nodes]
  constructor
  · rintro ⟨q, n, hn, i, f, rfl, he, hf, hc⟩
    obtain ⟨spec, hspec, rfl, hs⟩ := Node.WF.entry ht hn he
    refine ⟨?_, hs ▸ Cls.nonterminal_of_listField hspec hf hc, by simp⟩
    simp [FTree.get?_append, hn, FTree.get?_cons, Forest.trees, he]
  · rintro ⟨hp, hs, hne⟩
    obtain ⟨q, i, rfl⟩ := (List.eq_nil_or_concat' p).resolve_left hne
    rw [FTree.get?_append] at hp
    obtain ⟨n, hn, hi⟩ := Option.bind_eq_some_iff.mp hp
    obtain ⟨⟨f, s'⟩, he, rfl⟩ : ∃ e, n.children.entries[i]? = some e ∧ e.2 = s := by
      simpa [FTree.get?_cons, Forest.trees] using hi
    obtain ⟨spec, hspec, rfl, hnt⟩ := Node.WF.entry ht hn he
    obtain ⟨hf, hmany⟩ := Cls.stmt_field hspec (hnt.trans hs)
    refine ⟨q, n, hn, i, _, rfl, he, hf, ?_⟩
    exact List.any_eq_true.mpr ⟨spec, hspec, by simp [hmany]⟩

end MutationTest
