import MutationTest.Verify.Resumption
import MutationTest.TextFiles

/-! # What a kill is due to

The baseline runs on the text as it was found, the mutants on the output of `ast.unparse`. A test
command that can tell the two apart fails on every mutant, whatever was mutated. Kills can be put
down to the mutations exactly where the two texts are the same (`kills_attributable_iff`). -/

namespace MutationTest
open Exec

/-! ## Test commands that read the source -/

/-- The outcome of a command that is a function of the text, on a content of the file. -/
def onText (command : String → TestOutcome) (content : ByteArray) : TestOutcome :=
  match decodeText content with
  | .ok text => command text
  | .error _ => .exit 1

/-- The host with this test command, on a day when nothing fails. -/
def Host.withCommand (host : Host) (command : String → TestOutcome) : Host :=
  { host with shell := fun _ _ => onText command, fault := fun _ => none }

/-- Whenever a command passes on the file as found and a run reports a mutant as killed, the command
passes on the program as `ast.unparse` writes it. -/
def KillsAttributable (host : Host) (content : ByteArray) (original : String) (m : Module) : Prop :=
  ∀ (command : String → TestOutcome) (args : Args) (r : Report) (entry : Entry),
    command original = .exit 0 →
    (main (host.withCommand command) args { source := content }).2.savedReport = some r →
    entry ∈ r.detalhes → entry.survived = false →
    command (host.py.unparse m.root) = .exit 0

section
variable {host : Host} {content : ByteArray} {original : String} {m : Module}

theorem noReport_of_no_sites (hdec : decodeText content = .ok original)
    (hm : host.py.parse original = .ok m) (hT : m.totalSites = 0) (hq : host.Quiet) (args : Args) :
    (main host args { source := content }).2.savedReport = none := by
  have hunlink : ∀ w, unlinkBackup host .unlinkNoSites w = (.ok (), { w with backup := none }) :=
    fun w => step_of_quiet (hq _) w
  rw [main_collects hq args hdec hm, if_pos hT, noSites, bind_ok (reach_of_quiet (hq _) _), hunlink]
  rfl

/-- A command that passes on the original text only kills the first mutant. -/
theorem first_mutant_killed
    (hrt : ∀ x, m.root.HasEdit x → host.py.ReadsBack host.linesep (x.apply m.root))
    (hm : host.py.parse original = .ok m) (hT : m.totalSites ≠ 0) :
    onText (fun text => if text = original then .exit 0 else .exit 1)
      (mutantContent host original m.root.opSites.length 0) ≠ .exit 0 := by
  obtain ⟨x, hx, hgen⟩ := makeMutantSourceUnified_of_lt hm (Nat.pos_of_ne_zero hT)
  have hcontent : mutantContent host original m.root.opSites.length 0 =
      encodeText host.linesep (host.py.unparse (x.apply m.root)) := by
    rw [mutantContent, mutantOf, hgen]
  rw [hcontent, onText]
  split
  next text htext =>
    have hne : text ≠ original := by
      rintro rfl
      exact Node.mutant_ne hx (hrt x hx text m htext hm).symm
    simp [hne]
  next => decide

/-- Every kill is due to its mutation exactly for a file that `ast.unparse` reproduces, or one
without sites. -/
theorem kills_attributable_iff {exprSites : List Site} {sdlSites : List SdlSite}
    (hrt : ∀ x, m.root.HasEdit x → host.py.ReadsBack host.linesep (x.apply m.root))
    (hdec : decodeText content = .ok original)
    (hm : host.py.parse original = .ok m) (hexpr : collectSites host.py original = .ok exprSites)
    (hsdl : collectSdlSites host.py original = .ok sdlSites) :
    KillsAttributable host content original m ↔
      host.py.unparse m.root = original ∨ exprSites.length + sdlSites.length = 0 := by
  obtain ⟨m', hm', rfl, rfl⟩ := parse_of_collectSites hexpr hsdl
  obtain rfl : m = m' := Except.ok.inj (hm.symm.trans hm')
  simp only [List.length_map]
  constructor
  · intro h
    by_contra hor
    obtain ⟨hne, hT⟩ := not_or.mp hor
    -- the command that passes on the original text only
    let command : String → TestOutcome := fun text => if text = original then .exit 0 else .exit 1
    let args : Args := { sourceFile := "", testCmd := "", maxMutants := m.totalSites }
    have hs : indices m.totalSites args.maxMutants = .ok (List.range m.totalSites) :=
      if_neg (Int.lt_irrefl _)
    have hmain := @main_deterministic (host.withCommand command) args (onText command) original m
      { source := content } _ (fun _ => rfl) (fun _ _ => rfl) hdec hm hT
      (by simp [onText, hdec, command]) hs fun i => List.mem_range.mp
    have hkilled := first_mutant_killed hrt hm hT
    have hunparse := h command args _
      (entryOf (host.withCommand command) (onText command) original m.root.opSites.length 0)
      (by simp [command]) (by rw [hmain]; rfl) ?_ ?_
    · simp [command, hne] at hunparse
    · exact List.mem_map_of_mem (List.mem_range.mpr (Nat.pos_of_ne_zero hT))
    · simp only [entryOf, verdict_survived]
      exact decide_eq_false hkilled
  · rintro (heq | hT) command args r entry hpass hreport hentry -
    · rw [heq, hpass]
    · have hnone : (main (host.withCommand command) args
          { source := content }).2.savedReport = none :=
        @noReport_of_no_sites (host.withCommand command) _ _ _ hdec hm hT (fun _ => rfl) args
      rw [hnone] at hreport
      cases hreport

end

/-! ## The example -/

theorem assertPy_readsBack {linesep : String} (hsep : linesep = "\n" ∨ linesep = "\r\n")
    (t : Node) : assertPy.ReadsBack linesep t := by
  refine (assertPy_roundTrips t).readsBack hsep ?_
  have htexts : ∀ x ∈ assertTexts, '\r' ∉ x.2.toList := by decide +kernel
  simp only [assertPy]
  split
  · decide
  · split
    next x hx => exact htexts x (List.mem_of_find?_eq_some hx)
    next => decide

/-- For the text without its last line end every kill is due to the mutation. -/
theorem kills_attributable_assert : KillsAttributable (assertHost []) "assert a < b + 1".toUTF8
    "assert a < b + 1" (assertModule 1 .lt .add) := by
  have hrt : ∀ x, (assertModule 1 .lt .add).root.HasEdit x →
      (assertHost []).py.ReadsBack (assertHost []).linesep
        (x.apply (assertModule 1 .lt .add).root) :=
    fun _ _ => assertPy_readsBack (.inl rfl) _
  exact (kills_attributable_iff hrt (by decide +kernel) rfl rfl rfl).mpr (.inl (by decide +kernel))

/-- With its last line end it is not: a command that wants the line end reports the first mutant as
killed, and fails on the program as `ast.unparse` writes it. -/
theorem kill_not_attributable : ¬KillsAttributable (assertHost []) "assert a < b + 1\n".toUTF8
    "assert a < b + 1\n" (assertModule 1 .lt .add) := by
  intro h
  have hreport := h (fun text => if text = "assert a < b + 1\n" then .exit 0 else .exit 1)
    { assertArgs with maxMutants := 1 }
    { arquivo := "/src/a.py", totalSitesNoArquivo := 3
      mutantesGerados := 1, mortos := 1, vivos := 0, escoreMutacaoPct := 100
      detalhes := [⟨0, some "linha 1: ROR Lt -> LtE", false, "exit=1"⟩] }
    _ (by decide) (by decide +kernel) List.mem_cons_self rfl
  revert hreport
  decide +kernel

end MutationTest
