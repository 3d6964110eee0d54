import MutationTest.Verify.Campaign

/-! # Resuming an interrupted run

A run that raises has done the first tests of the run that does not (`main_follows`). So the tests
of a run that was interrupted after `k` mutants and those of the run with `--start-at k` are
together the tests of one uninterrupted run. The report is another matter: it is written once, at
the end, from the results of the last run, and covers the mutants from the `k`-th on. -/

namespace MutationTest
open Exec

/-- The same host on a day when nothing fails. -/
def Host.quieted (host : Host) : Host := { host with fault := fun _ => none }

theorem Host.quieted_quiet (host : Host) : host.quieted.Quiet := fun _ => rfl

section
variable {host : Host}

theorem step_follows {p : Step} {done : World → World} {left : ByteArray → World → World}
    (hdone : ∀ w, (done w).log = w.log) (hleft : ∀ c w, (left c w).log = w.log) :
    Follows World.log (step host p done left) (step host.quieted p done left) := by
  have hquiet : ∀ w, step host.quieted p done left w = (.ok (), done w) := step_of_quiet rfl
  refine ⟨fun w => ?_, fun w => by rw [hquiet, hdone]⟩
  rw [hquiet]
  unfold step
  split
  next => exact .inl rfl
  next => exact .inr ⟨by simp, by simp [hdone]⟩
  next => exact .inr ⟨by simp, by simp [hdone, hleft]⟩
  next => exact .inr ⟨by simp, by simp [hdone]⟩

theorem reach_follows (p : Step) : Follows World.log (reach host p) (reach host.quieted p) :=
  step_follows (fun _ => rfl) fun _ _ => rfl

theorem drain_snd (x : Execution) (w : World) :
    (tryExcept PyExc.isException (reach host (.drain x)) (pure ()) w).2 = w := by
  have hreach := reach_snd host (.drain x) w
  unfold Exec.tryExcept
  match hr : reach host (.drain x) w with
  | (.ok _, w') | (.killed, w') => rw [hr] at hreach; exact hreach
  | (.raised e, w') =>
    rw [hr] at hreach
    dsimp only
    split <;> exact hreach

theorem drain_follows (x : Execution) : Follows World.log
    (tryExcept PyExc.isException (reach host (.drain x)) (pure ()))
    (tryExcept PyExc.isException (reach host.quieted (.drain x)) (pure ())) := by
  refine ⟨fun w => ?_, fun w => by rw [drain_snd]⟩
  by_cases h : host.Drains x
  · exact .inl ((drain_of_drains h w).trans
      (drain_of_drains (host.quieted_quiet.drains x) w).symm)
  · exact .inr ⟨drain_of_not_drains h w, by rw [drain_snd, drain_snd]⟩

theorem communicate_follows (x : Execution) (call : TestCall) :
    Follows World.log (communicate host x call) (communicate host.quieted x call) :=
  (reach_follows _).bind fun _ => Follows.refl fun _ => List.prefix_append ..

theorem runTests_follows (x : Execution) (call : TestCall) :
    Follows World.log (runTests host x call) (runTests host.quieted x call) := by
  refine (reach_follows _).bind fun _ => (communicate_follows x call).bind fun r => ?_
  cases r with
  | exit returncode => exact Follows.pure _
  | timeout =>
    exact (reach_follows _).bind fun _ => (drain_follows x).bind fun _ => Follows.pure _

theorem writeSource_follows (p : Step) (content : ByteArray) :
    Follows World.log (writeSource host p content) (writeSource host.quieted p content) :=
  step_follows (fun _ => rfl) fun _ _ => rfl

theorem unlinkBackup_follows (p : Step) :
    Follows World.log (unlinkBackup host p) (unlinkBackup host.quieted p) :=
  step_follows (fun _ => rfl) fun _ _ => rfl

theorem readText_follows : Follows World.log (readText host) (readText host.quieted) := by
  refine (reach_follows _).bind fun _ => Follows.refl fun w => ?_
  cases decodeText w.source <;> exact List.prefix_rfl

theorem copyBackup_follows : Follows World.log (copyBackup host) (copyBackup host.quieted) where
  same_or w :=
    have h : Follows World.log (step host .copyBackup (setBackup w.source) setBackup)
        (step host.quieted .copyBackup (setBackup w.source) setBackup) :=
      step_follows (fun _ => rfl) fun _ _ => rfl
    h.same_or w
  grows _ := List.prefix_rfl

theorem copyBack_follows : Follows World.log (copyBack host) (copyBack host.quieted) where
  same_or w := by
    unfold copyBack
    cases w.backup with
    | none => exact .inl rfl
    | some content => exact (writeSource_follows _ content).same_or w
  grows w := by
    unfold copyBack
    cases w.backup with
    | none => exact List.prefix_rfl
    | some content => exact (writeSource_follows _ content).grows w

theorem checkBaseline_follows (args : Args) :
    Follows World.log (checkBaseline host args) (checkBaseline host.quieted args) := by
  refine (reach_follows _).bind fun _ => (runTests_follows _ _).bind fun r => ?_
  match r with
  | (true, _) => exact reach_follows _
  | (false, _) =>
    exact (unlinkBackup_follows _).bind fun _ => (reach_follows _).bind fun _ => Follows.raise _

theorem chooseIndices_follows (args : Args) (totalSites : ℕ) :
    Follows World.log (chooseIndices host args totalSites)
      (chooseIndices host.quieted args totalSites) :=
  (reach_follows _).bind fun _ => (Follows.ofExcept _).bind fun _ =>
    (reach_follows _).bind fun _ => Follows.pure _

theorem mutantLoop_follows (args : Args) (original : String) (nExprSites n : ℕ) (idxs : List ℕ)
    (results : List Entry) : Follows World.log
      (mutantLoop host args original nExprSites n idxs results)
      (mutantLoop host.quieted args original nExprSites n idxs results) := by
  induction idxs generalizing n results with
  | nil => exact Follows.pure _
  | cons idx rest ih =>
    refine (reach_follows _).bind fun _ => (Follows.ofExcept _).bind fun r => ?_
    cases r with
    | none => exact ih (n + 1) results
    | some mutant =>
      exact (writeSource_follows _ _).bind fun _ => (runTests_follows _ _).bind fun _ =>
        (reach_follows _).bind fun _ => (writeSource_follows _ _).bind fun _ =>
          Follows.bind (Follows.refl fun _ => List.prefix_append ..) fun _ => ih _ _

/-- The `finally` clause runs no test. -/
theorem restoreOriginal_log (w : World) : (restoreOriginal host w).2.log = w.log := by
  have hkeeps : ∀ {α : Type} {x : M α}, Keeps (fun v => v.log = w.log) x → (x w).2.log = w.log :=
    fun h => Triple.of_keeps h rfl
  refine hkeeps (Keeps.bind ?_ fun _ => step_keeps (fun _ h => h) fun _ _ h => h)
  intro v hv
  unfold copyBack
  cases v.backup with
  | none => exact hv
  | some content =>
    have hwrite : Keeps (fun v => v.log = w.log) (writeSource host .finallyCopy content) :=
      step_keeps (fun _ h => h) fun _ _ h => h
    exact hwrite v hv

theorem restoreOriginal_follows :
    Follows World.log (restoreOriginal host) (restoreOriginal host.quieted) :=
  copyBack_follows.bind fun _ => unlinkBackup_follows _

/-- Up to the point where it stops, a run does what it would do if nothing failed. -/
theorem main_follows (host : Host) (args : Args) :
    Follows World.log (main host args) (main host.quieted args) := by
  refine readText_follows.bind fun original => copyBackup_follows.bind fun _ => ?_
  refine (reach_follows _).bind fun _ => (Follows.ofExcept _).bind fun exprSites => ?_
  refine (reach_follows _).bind fun _ => (Follows.ofExcept _).bind fun sdlSites => ?_
  refine Follows.ite ((reach_follows _).bind fun _ => unlinkBackup_follows _) ?_
  refine (checkBaseline_follows args).bind fun _ =>
    (chooseIndices_follows args _).bind fun chosen => ?_
  refine Follows.bind (Follows.tryFinally (mutantLoop_follows args original _ 1 chosen [])
    restoreOriginal_follows restoreOriginal_log) fun results => ?_
  exact (reach_follows _).bind fun _ =>
    Follows.bind (step_follows (fun _ => rfl) fun _ _ => rfl) fun _ => reach_follows _

end

/-! ## The two runs and the one -/

/-- The report that is in its file, if it is one. -/
def World.savedReport (w : World) : Option Report :=
  match w.report with
  | some (.json r) => some r
  | _ => none

theorem prefix_mutantTests {l l' : List Event} (h : l <+: l') : mutantTests l <+: mutantTests l' :=
  h.filterMap _

/-- A run raises after `k` mutants have been tested, and the source is restored. Resumed with
`--start-at k` on a day when nothing fails, the two runs test what one uninterrupted run tests, in
its order. The report that stays is that of the mutants from the `k`-th on, so it is the report of
the uninterrupted run exactly when `k` is zero. -/
theorem resumed_campaign {host : Host} {args : Args} {w : World} {f : ByteArray → TestOutcome}
    {original : String} {exprSites : List Site} {sdlSites : List SdlSite} {e : PyExc} {k : ℕ}
    (hdet : host.Deterministic (testCall args) f) (hfits : host.py.SitesFit)
    (hdec : decodeText w.source = .ok original)
    (hexpr : collectSites host.py original = .ok exprSites)
    (hsdl : collectSdlSites host.py original = .ok sdlSites)
    (hT : 1 ≤ exprSites.length + sdlSites.length) (hM : 1 ≤ args.maxMutants)
    (hstart : args.startAt = 0) (hpass : f w.source = .exit 0)
    (hraised : (main host args w).1 = .raised e) (hcopy : host.fault .finallyCopy = none)
    (hk : (mutantTests (main host args w).2.log).length = (mutantTests w.log).length + k) :
    ∃ (resumed full : World) (r rFull : Report),
      main host.quieted { args with startAt := k } (main host args w).2 = (.ok (), resumed) ∧
      main host.quieted args w = (.ok (), full) ∧
      mutantTests resumed.log = mutantTests full.log ∧
      resumed.savedReport = some r ∧ full.savedReport = some rFull ∧
      r = makeReport (host.resolve args.sourceFile) rFull.totalSitesNoArquivo
        (rFull.detalhes.drop k) ∧
      (r.mutantesGerados = rFull.mutantesGerados ↔ k = 0) ∧ (k = 0 → r = rFull) := by
  have hbound := hfits _ _ _ hexpr hsdl
  obtain ⟨m, hm, rfl, rfl⟩ := parse_of_collectSites hexpr hsdl
  simp only [List.length_map] at hT hbound
  obtain ⟨sampled, hs, hlen, -, hlt⟩ := indices_ok hM hbound
  have hT' : m.totalSites ≠ 0 := Nat.one_le_iff_ne_zero.mp hT
  have hfull := main_deterministic host.quieted_quiet hdet hdec hm hT' hpass hs hlt
  rw [hstart, sliceFrom_zero] at hfull
  -- the interrupted run has done the first `k` tests
  have hprefix := prefix_mutantTests ((main_follows host args).prefix_obs w)
  rw [hfull] at hprefix
  dsimp only at hprefix
  set content := mutantContent host original m.root.opSites.length with hcontent
  have htests : ∀ idxs, mutantTests (runEvents host.quieted w.source original m idxs) =
      idxs.map content := fun idxs => mutantTests_loopEvents content 1 idxs
  rw [mutantTests_append, htests] at hprefix
  have hk' : k ≤ sampled.length := by
    have := hprefix.length_le
    rw [hk, List.length_append, List.length_map] at this
    omega
  have hdone : mutantTests (main host args w).2.log =
      mutantTests w.log ++ (sampled.take k).map content := by
    rw [List.prefix_iff_eq_take.mp hprefix, hk, List.take_length_add_append, List.map_take]
  -- the source is back, and the second run starts from it
  have hsource : (main host args w).2.source = w.source :=
    source_restored host args w hcopy (by simp [hraised])
  have hresumed := @main_deterministic host.quieted { args with startAt := k } f original m
    (main host args w).2 sampled host.quieted_quiet hdet (hsource ▸ hdec) hm hT' (hsource ▸ hpass)
    hs hlt
  rw [sliceFrom_natCast, hsource] at hresumed
  have hpos : 0 < sampled.length := by rw [hlen]; omega
  refine ⟨_, _, _, _, hresumed, hfull, ?_, rfl, rfl, ?_, ?_, ?_⟩
  · simp only [mutantTests_append, htests, hdone]
    rw [List.append_assoc, ← List.map_append, List.take_append_drop]
  · simp only [makeReport, entriesOf, List.map_drop, Host.quieted]
  · simp only [makeReport, entriesOf, List.length_map, List.length_drop]
    omega
  · rintro rfl
    rfl

/-- The example, interrupted after its first mutant. -/
theorem resumed_campaign_assert :
    ∃ (resumed full : World) (r rFull : Report),
      main (assertHost []) { assertArgs with startAt := 1 }
        (main (assertHost [(.generate 2, .raises .keyboardInterrupt none)]) assertArgs
          assertWorld).2 = (.ok (), resumed) ∧
      main (assertHost []) assertArgs assertWorld = (.ok (), full) ∧
      mutantTests resumed.log = mutantTests full.log ∧
      resumed.savedReport = some r ∧ full.savedReport = some rFull ∧
      r = makeReport "/src/a.py" rFull.totalSitesNoArquivo (rFull.detalhes.drop 1) ∧
      (r.mutantesGerados = rFull.mutantesGerados ↔ 1 = 0) ∧ (1 = 0 → r = rFull) :=
  @resumed_campaign (assertHost [(.generate 2, .raises .keyboardInterrupt none)]) assertArgs
    assertWorld (assertShell .baseline (testCall assertArgs)) "assert a < b + 1\n" _ _
    .keyboardInterrupt 1 (assertHost_deterministic _ _) assertPy_sitesFit (by decide +kernel)
    (collectSites_eq assertPy_parse) (collectSdlSites_eq assertPy_parse) (by decide +kernel)
    (by decide) rfl (by decide +kernel) (by decide +kernel) rfl (by decide +kernel)

/-- The same history: the report that stays counts two mutants, that of the uninterrupted run
three. -/
theorem resumed_report_differs :
    let interrupted := main (assertHost [(.generate 2, .raises .keyboardInterrupt none)])
      assertArgs assertWorld
    let resumed := main (assertHost []) { assertArgs with startAt := 1 } interrupted.2
    let full := main (assertHost []) assertArgs assertWorld
    interrupted.1 = .raised .keyboardInterrupt ∧ (mutantTests interrupted.2.log).length = 1 ∧
      resumed.1 = .ok () ∧ full.1 = .ok () ∧
      resumed.2.savedReport.map (·.mutantesGerados) = some 2 ∧
      full.2.savedReport.map (·.mutantesGerados) = some 3 := by
  decide +kernel

end MutationTest
