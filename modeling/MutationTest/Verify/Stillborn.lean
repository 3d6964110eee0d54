import MutationTest.Verify.Acceptance
import MutationTest.Verify.Layout

/-! # Stillborn mutants

A mutant is a tree of the grammar, so `ast.unparse` writes it as it would write any program. Python
accepts the text exactly when the edit leaves the static rules intact, and the edits that do not are
of three kinds. -/

namespace MutationTest
open FieldTree

/-! ## Mutants are trees of the grammar -/

theorem Cls.eq_module {c : Cls} (h : c.nonterminal = .mod) : c = .module := by
  cases c <;> first | rfl | cases h

theorem Node.HasSite.wf {t : Node} (ht : t.WF) {x : MutantSite} (hx : t.HasSite x) :
    Node.WF (x.apply t) ∧ (Node.cls (x.apply t)).nonterminal = t.cls.nonterminal := by
  cases x with
  | op x =>
    constructor
    · rw [← Node.WF_plain, MutantSite.apply, OpSite.plain_apply, Node.WF_plain]
      exact ht
    · rw [← Cls.nonterminal_plain, ← Cls.nonterminal_plain t.cls]
      exact congrArg (fun t => (Node.cls t).nonterminal) (OpSite.plain_apply x t)
  | sdl p s =>
    refine ht.update fun s' hs' => ?_
    obtain rfl := Option.some.inj (hx.1.symm.trans hs')
    exact ⟨by simp [WF, FTree.nodes, Forest.nodes, passEdit]; rfl,
      (Cls.nonterminal_of_sdlEligible (sdlEligible_of_isSdl hx.2)).symm⟩

theorem Node.HasSite.strip {t : Node} {x : MutantSite} (hx : t.HasSite x) :
    t.strip.HasSite x.strip := by
  cases x with
  | op x => exact HasOp.strip hx
  | sdl p s => exact ⟨get?_strip hx.1, (isSdl_strip s).trans hx.2⟩

/-! ## Which mutants are accepted -/

/-- The other rules forbid things: with `pass` in the place of a simple statement, a program still
obeys them. A docstring is no such statement, it may stand in front of `from __future__ import`. -/
def StaticRules.PassStable (R : StaticRules) : Prop :=
  ∀ (t s : Node) (p : Path), t.WF → t.get? p = some s → s.isSdl → R.others t →
    R.others (t.deleteStmt p)

/-- `ast.unparse` writes `t` as a text that gives back `t` where it parses, and that parses if `t`
obeys the rules. -/
structure PyAst.Unparses (py : PyAst) (R : StaticRules) (t : Module) : Prop where
  roundTrips : py.RoundTrips t.root
  parses : R.hold t.root.strip → ∃ m, py.parse (py.unparse t.root) = .ok m

/-- The edits after which Python refuses the program: the difference of a complex literal in a
pattern becomes a product, a key of a mapping pattern becomes equal to another one, or the statement
holds the bindings without which a `nonlocal` finds none. -/
def MutantSite.Stillborn (R : StaticRules) (t : Node) : MutantSite → Prop
  | .op x => (t.isPatternLiteral x.path ∧ x.op = .bin .sub) ∨
    ¬((x.apply t).get? x.path.dropLast).all R.distinctKeys
  | .sdl p _ => ¬t.plain.nonlocalsBound (Node.outside p)

theorem StaticRules.hold_iff {R : StaticRules} {t : Node} : R.hold t ↔
    t.patternOperators ∧ (t.nodes.all fun e => R.distinctKeys e.2) ∧
      t.plain.nonlocalsBound (fun _ => true) ∧ R.others t.plain := by
  simp only [hold, Bool.and_eq_true, and_assoc]

theorem StaticRules.hold_apply {R : StaticRules} (hpass : R.PassStable) {t : Node} (hwf : t.WF)
    {x : MutantSite} (hx : t.HasSite x) (ht : R.hold t) :
    R.hold (x.apply t) ↔ ¬x.Stillborn R t := by
  obtain ⟨hop, hkeys, hbound, hothers⟩ := hold_iff.mp ht
  rw [hold_iff]
  cases x with
  | op x =>
    rw [MutantSite.apply, OpSite.patternOperators_apply hx hop,
      OpSite.distinctKeys_apply hx hop hkeys, OpSite.plain_apply, MutantSite.Stillborn, not_or,
      not_not]
    exact and_congr_right fun _ => and_iff_left ⟨hbound, hothers⟩
  | sdl p s =>
    obtain ⟨hs, hsdl⟩ := hx
    have he := Node.sdlEligible_of_isSdl hsdl
    have hs' : t.plain.get? p = some s.plain := by rw [Node.plain, FTree.get?_map, hs]; rfl
    have hsdl' : s.plain.isSdl := s.isSdl_plain.trans hsdl
    rw [MutantSite.apply, Node.plain_deleteStmt, Node.nonlocalsBound_deleteStmt hs',
      MutantSite.Stillborn, not_not]
    have hpass' := hpass _ _ p (Node.WF_plain.mpr hwf) hs' hsdl' hothers
    have hkeys' := Node.distinctKeys_deleteStmt hwf hs (Cls.nonterminal_of_sdlEligible he) hkeys
    exact ⟨fun h => h.2.2.1,
      fun h => ⟨Node.patternOperators_deleteStmt hs hop, hkeys', h, hpass'⟩⟩

theorem PyAst.Unparses.accepts_iff {py : PyAst} {R : StaticRules} {t : Module}
    (hup : py.Unparses R t) : py.Accepts R (py.unparse t.root) ↔ R.hold t.root.strip := by
  constructor
  · rintro ⟨m, hm, h⟩
    rwa [hup.roundTrips m hm] at h
  · intro h
    obtain ⟨m, hm⟩ := hup.parses h
    exact ⟨m, hm, by rwa [hup.roundTrips m hm]⟩

/-- Of a program that Python accepts, every index below the number of sites gives a mutant, and
Python accepts the mutant unless its edit is one of the three. -/
theorem accepted_iff_not_stillborn {py : PyAst} {R : StaticRules} (hpass : R.PassStable)
    {s : String} {m : Module} (h : py.parse s = .ok m) (hd : m.root.DistinctPositions)
    (ha : py.Accepts R s)
    (hup : ∀ (t : Module) (x : MutantSite), m.root.HasSite x → t.root = x.apply m.root →
      py.Unparses R t) :
    ∃ (sites : List Site) (sdlSites : List SdlSite),
      collectSites py s = .ok sites ∧ collectSdlSites py s = .ok sdlSites ∧
      ∀ idx < sites.length + sdlSites.length, ∃ x : MutantSite, m.root.HasSite x ∧
        makeMutantSourceUnified py s idx sites.length =
          .ok (some (py.unparse (x.apply m.root), some x.description)) ∧
        (py.Accepts R (py.unparse (x.apply m.root)) ↔ ¬x.Stillborn R m.root.strip) := by
  refine ⟨_, _, collectSites_eq h, collectSdlSites_eq h, fun idx hidx => ?_⟩
  rw [List.length_map, List.length_map, ← Node.length_mutantSites] at hidx
  have hidx' := List.getElem?_eq_getElem hidx
  generalize m.root.mutantSites[idx] = x at hidx'
  have hx := Node.hasSite_of_mem m.wf (List.mem_of_getElem? hidx')
  refine ⟨x, hx, by rw [List.length_map, makeMutantSourceUnified_eq h hd, hidx']; rfl, ?_⟩
  have hhold : R.hold m.root.strip := by
    obtain ⟨m', hm', hh⟩ := ha
    obtain rfl := Except.ok.inj (h.symm.trans hm')
    exact hh
  have hwf : m.root.strip.WF :=
    (Node.WF_map (h := fun a => { a with pos := ⟨0, 0⟩ }) (fun _ => rfl) fun _ => rfl).mpr m.wf
  obtain ⟨hwf', hnt⟩ := hx.wf m.wf
  have hmod := Cls.eq_module (hnt.trans (by rw [m.isModule]; rfl))
  rw [(hup ⟨x.apply m.root, hmod, hwf'⟩ x hx rfl).accepts_iff, MutantSite.strip_apply,
    R.hold_apply hpass hwf hx.strip hhold]
  cases x <;> exact Iff.rfl

/-! ## An example -/

/-- `x = n`, or `pass` where it was deleted, in front of other statements. -/
def assignOrPass (line col n : Nat) (assigned : Bool) (rest : Children) : Children :=
  if assigned then .cons .body ⟨.assign, ⟨line, col⟩⟩
    (.cons .targets ⟨.name "x" .store, ⟨line, col⟩⟩ .nil
      (.cons .value ⟨.constant (.int n) none, ⟨line, col + 4⟩⟩ .nil .nil)) rest
  else .cons .body ⟨.pass, ⟨line, col⟩⟩ .nil rest

/-- A function that assigns `x` and defines another one, which declares `x` as nonlocal and assigns
it under a pattern with a complex literal. -/
def nestedRoot (op : Operator) (outer inner : Bool) : Node :=
  ⟨⟨.module, ⟨0, 0⟩⟩,
    .cons .body ⟨.functionDef "f", ⟨1, 0⟩⟩
      (.cons .args ⟨.arguments [], ⟨0, 0⟩⟩ .nil
        (assignOrPass 2 4 1 outer
          (.cons .body ⟨.functionDef "g", ⟨4, 4⟩⟩
            (.cons .args ⟨.arguments [], ⟨0, 0⟩⟩ .nil
              (.cons .body ⟨.nonlocal ["x"], ⟨5, 8⟩⟩ .nil
                (.cons .body ⟨.match, ⟨6, 8⟩⟩
                  (.cons .subject ⟨.name "x" .load, ⟨6, 14⟩⟩ .nil
                    (.cons .cases ⟨.matchCase, ⟨0, 0⟩⟩
                      (.cons .pattern ⟨.matchValue, ⟨7, 17⟩⟩
                        (.cons .value ⟨.binOp op, ⟨7, 17⟩⟩
                          (.cons .left ⟨.constant (.int 1) none, ⟨7, 17⟩⟩ .nil
                            (.cons .right ⟨.constant (.imag 0x4000000000000000) none, ⟨7, 21⟩⟩ .nil
                              .nil)) .nil)
                        (assignOrPass 8 16 2 inner .nil)) .nil)) .nil))) .nil))) .nil⟩

def nestedModule (outer inner : Bool) : Module :=
  ⟨nestedRoot .sub outer inner, rfl, by cases outer <;> cases inner <;> decide⟩

def nestedText (op : String) (outer inner : Bool) : String :=
  "def f():\n    " ++ (if outer then "x = 1" else "pass") ++
    "\n\n    def g():\n        nonlocal x\n        match x:\n            case 1 " ++ op ++
    " 2j:\n                " ++ if inner then "x = 2" else "pass"

/-- The program and the mutants with a statement deleted. -/
def nestedCases : List (Bool × Bool) := [(true, true), (false, true), (true, false)]

/-- The `ast` module on the texts of this example. The parser refuses the product in the pattern. -/
def nestedPy : PyAst where
  parse s :=
    match nestedCases.find? fun x =>
        s = nestedText "-" x.1 x.2 ∨ s = nestedText "-" x.1 x.2 ++ "\n" with
    | some x => .ok (nestedModule x.1 x.2)
    | none => .error .syntaxError
  unparse t :=
    if t.strip = (nestedRoot .mult true true).strip then nestedText "*" true true
    else match nestedCases.find? fun x => t.strip = (nestedRoot .sub x.1 x.2).strip with
      | some x => nestedText "-" x.1 x.2
      | none => "?"

/-- There are no keys, and nothing else to object to. -/
def nestedRules : StaticRules := ⟨fun _ _ => false, fun _ => true⟩

theorem nestedPy_parse {x : Bool × Bool} (hx : x ∈ nestedCases) :
    nestedPy.parse (nestedText "-" x.1 x.2) = .ok (nestedModule x.1 x.2) := by
  simp only [nestedCases, List.mem_cons, List.not_mem_nil, or_false] at hx
  rcases hx with rfl | rfl | rfl <;> rfl

theorem nestedPy_parse_product :
    nestedPy.parse (nestedText "*" true true) = .error .syntaxError := rfl

theorem nestedPy_roundTrips (t : Node) : nestedPy.RoundTrips t := by
  intro m h
  have hunparse : nestedPy.unparse t =
      if t.strip = (nestedRoot .mult true true).strip then nestedText "*" true true
      else match nestedCases.find? fun x => t.strip = (nestedRoot .sub x.1 x.2).strip with
        | some x => nestedText "-" x.1 x.2
        | none => "?" := rfl
  rw [hunparse] at h
  split at h
  next => rw [nestedPy_parse_product] at h; cases h
  split at h
  next x hx =>
    rw [nestedPy_parse (List.mem_of_find?_eq_some hx)] at h
    obtain rfl := Except.ok.inj h
    have hstrip : t.strip = (nestedRoot .sub x.1 x.2).strip := by simpa using List.find?_some hx
    exact hstrip.symm
  next => cases h

theorem nestedPy_accepts : nestedPy.Accepts nestedRules (nestedText "-" true true ++ "\n") :=
  ⟨nestedModule true true, rfl, by decide⟩

theorem nestedRules_passStable : nestedRules.PassStable := fun _ _ _ _ _ _ _ => rfl

theorem nestedPy_unparses (t : Module) (x : MutantSite)
    (hx : (nestedModule true true).root.HasSite x)
    (ht : t.root = x.apply (nestedModule true true).root) : nestedPy.Unparses nestedRules t := by
  refine ⟨nestedPy_roundTrips t.root, fun hhold => ?_⟩
  rw [ht] at hhold ⊢
  cases x with
  | op x =>
    have hsites : (nestedModule true true).root.opSites =
        [⟨[0, 2, 2, 1, 0, 0], 0, 7, .bin .sub⟩] := by decide +kernel
    have hmem : x ∈ (nestedModule true true).root.opSites := Node.mem_opSites.mpr hx
    rw [hsites, List.mem_singleton] at hmem
    subst hmem
    exact absurd hhold (by decide +kernel)
  | sdl p s =>
    have hpaths : (((nestedModule true true).root.nodes.filter fun e =>
        e.2.label.cls.sdlEligible).map (·.1)) = [[0, 1], [0, 2, 2, 1, 1]] := by decide +kernel
    have hmem : p ∈ ((nestedModule true true).root.nodes.filter fun e =>
        e.2.label.cls.sdlEligible).map (·.1) :=
      List.mem_map.mpr ⟨(p, s), List.mem_filter.mpr
        ⟨FTree.mem_nodes.mpr hx.1, Node.sdlEligible_of_isSdl hx.2⟩, rfl⟩
    rw [hpaths] at hmem
    simp only [List.mem_cons, List.not_mem_nil, or_false] at hmem
    rcases hmem with rfl | rfl
    · have htext : nestedPy.unparse ((nestedModule true true).root.deleteStmt [0, 1]) =
          nestedText "-" false true := by decide +kernel
      exact ⟨_, (congrArg _ htext).trans (nestedPy_parse (x := (false, true)) (by decide))⟩
    · have htext : nestedPy.unparse ((nestedModule true true).root.deleteStmt [0, 2, 2, 1, 1]) =
          nestedText "-" true false := by decide +kernel
      exact ⟨_, (congrArg _ htext).trans (nestedPy_parse (x := (true, false)) (by decide))⟩

theorem accepted_iff_not_stillborn_nested :
    ∃ (sites : List Site) (sdlSites : List SdlSite),
      collectSites nestedPy (nestedText "-" true true ++ "\n") = .ok sites ∧
      collectSdlSites nestedPy (nestedText "-" true true ++ "\n") = .ok sdlSites ∧
      ∀ idx < sites.length + sdlSites.length, ∃ x : MutantSite,
        (nestedModule true true).root.HasSite x ∧
        makeMutantSourceUnified nestedPy (nestedText "-" true true ++ "\n") idx sites.length =
          .ok (some (nestedPy.unparse (x.apply (nestedModule true true).root),
            some x.description)) ∧
        (nestedPy.Accepts nestedRules (nestedPy.unparse (x.apply (nestedModule true true).root)) ↔
          ¬x.Stillborn nestedRules (nestedModule true true).root.strip) :=
  have h : nestedPy.parse (nestedText "-" true true ++ "\n") = .ok (nestedModule true true) := rfl
  accepted_iff_not_stillborn nestedRules_passStable h (by decide) nestedPy_accepts
    nestedPy_unparses

/-- Two of the three mutants of this program are no programs. -/
theorem stillborn_mutants :
    nestedPy.Accepts nestedRules (nestedText "-" true true ++ "\n") ∧
    ∃ (sites : List Site) (sdlSites : List SdlSite),
      collectSites nestedPy (nestedText "-" true true ++ "\n") = .ok sites ∧
      collectSdlSites nestedPy (nestedText "-" true true ++ "\n") = .ok sdlSites ∧
      sites.length + sdlSites.length = 3 ∧
      ∀ idx < 2, ∃ text d,
        makeMutantSourceUnified nestedPy (nestedText "-" true true ++ "\n") idx sites.length =
          .ok (some (text, some d)) ∧ ¬nestedPy.Accepts nestedRules text := by
  have h : nestedPy.parse (nestedText "-" true true ++ "\n") = .ok (nestedModule true true) := rfl
  refine ⟨nestedPy_accepts, _, _, collectSites_eq h, collectSdlSites_eq h, by decide +kernel,
    fun idx hidx => ?_⟩
  obtain rfl | rfl : idx = 0 ∨ idx = 1 := by omega
  · refine ⟨nestedText "*" true true, "linha 7: AOR Sub -> Mult", by decide +kernel, ?_⟩
    rintro ⟨m, hm, -⟩
    rw [nestedPy_parse_product] at hm
    cases hm
  · refine ⟨nestedText "-" false true, "linha 2: SDL remove Assign -> pass", by decide +kernel, ?_⟩
    rintro ⟨m, hm, h⟩
    rw [nestedPy_parse (x := (false, true)) (by decide)] at hm
    obtain rfl := Except.ok.inj hm
    revert h
    decide

end MutationTest
