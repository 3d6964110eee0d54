import Mathlib
import MutationTest.Sdl
import MutationTest.Sampling
import MutationTest.Theory.Exec

/-! # The campaign

`run_tests` and `main`, as programs over the files that they touch. The host says what is outside of
the tool: the `ast` module, the line separator, what the test command does on a given content of the
source file, and what goes wrong at which step. Every operation of the two functions is a `Step`
where an exception can be raised or the process killed. Of the console only these steps are kept. -/

namespace MutationTest
open Exec (raise ofExcept tryFinally tryExcept)

/-! ## Files -/

/-- An element of `results`. -/
structure Entry where
  index : ℕ
  description : Option String
  survived : Bool
  reason : String
  deriving DecidableEq

/-- The dictionary that is saved as JSON. -/
structure Report where
  arquivo : String
  totalSitesNoArquivo : ℕ
  mutantesGerados : ℕ
  mortos : ℕ
  vivos : ℕ
  escoreMutacaoPct : ℚ
  detalhes : List Entry
  deriving DecidableEq

/-- What the report file holds: a report, or what an interrupted write left of one. -/
inductive ReportFile where
  | json (r : Report)
  | other (content : ByteArray)
  deriving DecidableEq

/-- A run of the test command: the baseline, or that of the `n`-th mutant. -/
inductive Execution where
  | baseline
  | mutant (n : ℕ)
  deriving DecidableEq

inductive Event where
  | tested (x : Execution) (content : ByteArray)
  | restored (n : ℕ)
  deriving DecidableEq

/-- The source file, its `.mutation_backup`, its `.mutation_report.json`, and what has happened. -/
structure World where
  source : ByteArray
  backup : Option ByteArray := none
  report : Option ReportFile := none
  log : List Event := []
  deriving DecidableEq

/-- Universal newlines, on reading. -/
def universalNewlines : List Char → List Char
  | '\r' :: '\n' :: cs => '\n' :: universalNewlines cs
  | '\r' :: cs => '\n' :: universalNewlines cs
  | c :: cs => c :: universalNewlines cs
  | [] => []

/-- The text that `read_text(encoding="utf-8")` returns. -/
def decodeText (content : ByteArray) : Except PyExc String :=
  match String.fromUTF8? content with
  | some text => .ok (String.ofList (universalNewlines text.toList))
  | none => .error .unicodeDecodeError

/-- The bytes that `write_text(text, encoding="utf-8")` writes. -/
def encodeText (linesep text : String) : ByteArray :=
  (String.ofList (text.toList.flatMap fun c => if c = '\n' then linesep.toList else [c])).toUTF8

/-! ## The host -/

structure Args where
  sourceFile : String
  testCmd : String
  cwd : String := "."
  maxMutants : ℤ := 40
  timeout : ℤ := 90
  startAt : ℤ := 0
  disablePytestPluginAutoload : Bool := false
  deriving DecidableEq

structure TestCall where
  testCmd : String
  cwd : String
  timeout : ℤ
  extraEnv : List (String × String)
  deriving DecidableEq

inductive TestOutcome where
  | exit (returncode : ℤ)
  | timeout
  deriving DecidableEq

/-- The steps of `run_tests` and `main`, in the order of the source. -/
inductive Step where
  | popen (x : Execution) | communicate (x : Execution) | taskkill (x : Execution)
  | drain (x : Execution)
  | readText | copyBackup | collectSites | collectSdlSites | printNoSites | unlinkNoSites
  | printBaseline | unlinkBaseline | printBaselineError | printReady | sample | printStart
  | generate (n : ℕ) | writeMutant (n : ℕ) | printMutant (n : ℕ) | restore (n : ℕ)
  | finallyCopy | finallyUnlink | printSummary | writeReport | printReport
  deriving DecidableEq

/-- What goes wrong at a step. An exception raised by a step that writes a file can leave it with
other content. -/
inductive Fault where
  | raises (e : PyExc) (left : Option ByteArray)
  | kill

/-- `resolve` is `str(Path(source_file).resolve())`. -/
structure Host where
  py : PyAst
  resolve : String → String
  linesep : String
  shell : Execution → TestCall → ByteArray → TestOutcome
  fault : Step → Option Fault

abbrev M := Exec World PyExc

/-- A step that ends with `done`; the state changes by `left` where the step fails half way. -/
def step (host : Host) (p : Step) (done : World → World) (left : ByteArray → World → World) :
    M Unit := fun w =>
  match host.fault p with
  | none => (.ok (), done w)
  | some (.raises e none) => (.raised e, w)
  | some (.raises e (some content)) => (.raised e, left content w)
  | some .kill => (.killed, w)

/-- A step that changes no file. -/
def reach (host : Host) (p : Step) : M Unit := step host p id fun _ w => w

section
variable {host : Host} {p : Step} {done : World → World} {left : ByteArray → World → World}

theorem step_of_quiet (h : host.fault p = none) (w : World) :
    step host p done left w = (.ok (), done w) := by
  unfold step; rw [h]

theorem step_of_fault (h : host.fault p ≠ none) (w : World) :
    ∀ u, (step host p done left w).1 ≠ .ok u := by
  unfold step
  split <;> simp_all

theorem reach_of_quiet (h : host.fault p = none) (w : World) : reach host p w = (.ok (), w) :=
  step_of_quiet h w

theorem reach_snd (host : Host) (p : Step) (w : World) : (reach host p w).2 = w := by
  unfold reach step
  split <;> rfl

end

def setSource (content : ByteArray) (w : World) : World := { w with source := content }

def setBackup (content : ByteArray) (w : World) : World := { w with backup := some content }

def writeSource (host : Host) (p : Step) (content : ByteArray) : M Unit :=
  step host p (setSource content) setSource

/-- `backup_path.unlink(missing_ok=True)`. -/
def unlinkBackup (host : Host) (p : Step) : M Unit :=
  step host p (fun w => { w with backup := none }) fun _ w => w

def record (e : Event) : M Unit := fun w => (.ok (), { w with log := w.log ++ [e] })

/-! ## `run_tests` -/

def extraEnv (args : Args) : List (String × String) :=
  if args.disablePytestPluginAutoload then [("PYTEST_DISABLE_PLUGIN_AUTOLOAD", "1")] else []

def testCall (args : Args) : TestCall := ⟨args.testCmd, args.cwd, args.timeout, extraEnv args⟩

def exitReason (returncode : ℤ) : String := s!"exit={returncode}"

def timeoutReason : String := "timeout (arvore de processos finalizada; tratado como morto)"

/-- The process sees the source file as it is then. -/
def communicate (host : Host) (x : Execution) (call : TestCall) : M TestOutcome := do
  reach host (.communicate x)
  fun w => (.ok (host.shell x call w.source), { w with log := w.log ++ [.tested x w.source] })

def runTests (host : Host) (x : Execution) (call : TestCall) : M (Bool × String) := do
  reach host (.popen x)
  match ← communicate host x call with
  | .exit returncode => return (returncode == 0, exitReason returncode)
  | .timeout =>
    reach host (.taskkill x)
    tryExcept PyExc.isException (reach host (.drain x)) (pure ())
    return (false, timeoutReason)

/-! ## `main` -/

def readText (host : Host) : M String := do
  reach host .readText
  fun w => ofExcept (decodeText w.source) w

/-- `shutil.copy2(source_path, backup_path)`. -/
def copyBackup (host : Host) : M Unit := fun w =>
  step host .copyBackup (setBackup w.source) setBackup w

/-- `shutil.copy2(backup_path, source_path)`. -/
def copyBack (host : Host) : M Unit := fun w =>
  match w.backup with
  | some content => writeSource host .finallyCopy content w
  | none => raise .osError w

def noSites (host : Host) : M Unit := do
  reach host .printNoSites
  unlinkBackup host .unlinkNoSites

/-- The run of the test command without mutation. -/
def checkBaseline (host : Host) (args : Args) : M Unit := do
  reach host .printBaseline
  match ← runTests host .baseline (testCall args) with
  | (false, _) =>
    unlinkBackup host .unlinkBaseline
    reach host .printBaselineError
    raise (.systemExit 1)
  | (true, _) => reach host .printReady

/-- The indices to run: the sample, cut by `--start-at`. -/
def chooseIndices (host : Host) (args : Args) (totalSites : ℕ) : M (List ℕ) := do
  reach host .sample
  let chosen ← ofExcept (indices totalSites args.maxMutants)
  reach host .printStart
  return if args.startAt ≠ 0 then sliceFrom chosen args.startAt else chosen

/-- The loop over the mutants; `n` counts from one. -/
def mutantLoop (host : Host) (args : Args) (original : String) (nExprSites : ℕ) :
    ℕ → List ℕ → List Entry → M (List Entry)
  | _, [], results => return results
  | n, idx :: rest, results => do
    reach host (.generate n)
    match ← ofExcept (makeMutantSourceUnified host.py original idx nExprSites) with
    | none => mutantLoop host args original nExprSites (n + 1) rest results
    | some (mutantSource, description) =>
      writeSource host (.writeMutant n) (encodeText host.linesep mutantSource)
      let (survived, reason) ← runTests host (.mutant n) (testCall args)
      reach host (.printMutant n)
      writeSource host (.restore n) (encodeText host.linesep original)
      record (.restored n)
      mutantLoop host args original nExprSites (n + 1) rest
        (results ++ [⟨idx, description, survived, reason⟩])

/-- The `finally` clause. -/
def restoreOriginal (host : Host) : M Unit := do
  copyBack host
  unlinkBackup host .finallyUnlink

def makeReport (sourcePath : String) (totalSites : ℕ) (results : List Entry) : Report :=
  let mortos := (results.filter fun r => !r.survived).length
  let vivos := (results.filter fun r => r.survived).length
  let gerados := results.length
  { arquivo := sourcePath
    totalSitesNoArquivo := totalSites
    mutantesGerados := gerados
    mortos := mortos
    vivos := vivos
    escoreMutacaoPct := round1 (score mortos gerados)
    detalhes := results }

def writeReport (host : Host) (r : Report) : M Unit :=
  step host .writeReport (fun w => { w with report := some (.json r) })
    fun content w => { w with report := some (.other content) }

/-- `main` from the baseline on. -/
def testMutants (host : Host) (args : Args) (original : String) (nExprSites totalSites : ℕ) :
    M Unit := do
  checkBaseline host args
  let chosen ← chooseIndices host args totalSites
  let results ← tryFinally (mutantLoop host args original nExprSites 1 chosen [])
    (restoreOriginal host)
  reach host .printSummary
  writeReport host (makeReport (host.resolve args.sourceFile) totalSites results)
  reach host .printReport

def main (host : Host) (args : Args) : M Unit := do
  let original ← readText host
  copyBackup host
  reach host .collectSites
  let exprSites ← ofExcept (collectSites host.py original)
  reach host .collectSdlSites
  let sdlSites ← ofExcept (collectSdlSites host.py original)
  let totalSites := exprSites.length + sdlSites.length
  if totalSites = 0 then noSites host
  else testMutants host args original exprSites.length totalSites

/-- The exit status of the interpreter; there is none after a kill. -/
def exitStatus : Exec.Outcome PyExc Unit → Option ℤ
  | .ok _ => some 0
  | .raised (.systemExit code) => some code
  | .raised .keyboardInterrupt => some 130
  | .raised _ => some 1
  | .killed => none

end MutationTest
