import MutationTest.Main
import MutationTest.Theory.Spelling

/-! # Batches

`run_mutation_ia.sh` of the four test suites. Those of Conan, Dask and Requests make a campaign for
each target file and copy its report; the shell goes through the associative array `FILES` in no
order that it promises, so a run is one for some order of the targets, and with `set -e` the first
command that fails ends it. That of Scrapy goes through its files in a row and stops at nothing. -/

namespace MutationTest
open Exec (raise)
open Spelling (map_toList_cons)
open String (toList_ofList)

/-- A target file and the options of its campaign. -/
structure Target where
  path : String
  maxMutants : ℤ := 40
  testCmd : String
  deriving DecidableEq

def lastPart (path : List Char) : List Char := (path.reverse.takeWhile (· ≠ '/')).reverse

/-- `basename`. -/
def basename (path : String) : String := String.ofList (lastPart path.toList)

theorem nodup_paths {files : List Target} {l : List (List Char)}
    (h : (files.map (·.path)).map String.toList = l) (hl : l.Nodup) : (files.map (·.path)).Nodup :=
  .of_map _ (h ▸ hl)

theorem nodup_names {files : List Target} {l : List (List Char)}
    (h : (files.map (·.path)).map String.toList = l) (hl : (l.map lastPart).Nodup) :
    (files.map fun t => basename t.path).Nodup := by
  have := Spelling.nodup_map (f := basename) (fun _ => rfl) h hl
  rwa [List.map_map] at this

/-- The campaigns of a script. No two are for the same file. -/
structure Lot where
  cwd : String := "."
  timeout : ℤ := 90
  files : List Target
  paths_nodup : (files.map (·.path)).Nodup

/-- A script that copies the reports, under names that are different. -/
structure Script extends Lot where
  names_nodup : (files.map fun t => basename t.path).Nodup

instance Script.coeLot : Coe Script Lot := ⟨Script.toLot⟩

def Lot.args (s : Lot) (t : Target) : Args :=
  { sourceFile := t.path, testCmd := t.testCmd, cwd := s.cwd, maxMutants := t.maxMutants
    timeout := s.timeout }

/-- The target files with their backups and reports, and the directory `OUT`. -/
structure Disk where
  target : String → World
  out : String → Option ReportFile

/-- What the tests see: the sources of all targets. -/
def Disk.sources (d : Disk) (path : String) : ByteArray := (d.target path).source

/-- What is outside of the scripts. A campaign is named by the path of its target. -/
structure Station where
  py : PyAst
  resolve : String → String
  linesep : String
  shell : String → Execution → TestCall → (String → ByteArray) → TestOutcome
  fault : String → Step → Option Fault

/-- The host of a campaign: the other targets stay as they are while its own is mutated. -/
def Station.host (env : Station) (sources : String → ByteArray) (path : String) : Host where
  py := env.py
  resolve := env.resolve
  linesep := env.linesep
  shell x call content := env.shell path x call (Function.update sources path content)
  fault := env.fault path

/-- The campaign of a target on the disk as it is. -/
def campaign (env : Station) (s : Lot) (t : Target) (d : Disk) : Exec.Outcome PyExc Unit × World :=
  main (env.host d.sources t.path) (s.args t) (d.target t.path)

def Disk.setTarget (d : Disk) (path : String) (w : World) : Disk :=
  { d with target := Function.update d.target path w }

/-- `$PY $MT "$f" …`. -/
def runCampaign (env : Station) (s : Lot) (t : Target) : Exec Disk ℤ Unit := fun d =>
  let r := campaign env s t d
  match exitStatus r.1 with
  | some 0 => (.ok (), d.setTarget t.path r.2)
  | some status => (.raised status, d.setTarget t.path r.2)
  | none => (.killed, d.setTarget t.path r.2)

/-- `cp "${f}.mutation_report.json" "$OUT/${name}.mutation_report.json"`. -/
def copyReport (t : Target) : Exec Disk ℤ Unit := fun d =>
  match (d.target t.path).report with
  | none => raise 1 d
  | some r => (.ok (), { d with out := Function.update d.out (basename t.path) (some r) })

/-- The loop of a script with `set -e`, for one order of the targets. -/
def runBatch (env : Station) (s : Lot) : List Target → Exec Disk ℤ Unit
  | [] => return
  | t :: rest => do
    runCampaign env s t
    copyReport t
    runBatch env s rest

/-- The calls of `run_one`: without `set -e` the script goes on whatever becomes of a campaign. The
result has the exit statuses. -/
def runAll (env : Station) (s : Lot) : List Target → Disk → List (Option ℤ) × Disk
  | [], d => ([], d)
  | t :: rest, d =>
    let r := campaign env s t d
    let (statuses, d') := runAll env s rest (d.setTarget t.path r.2)
    (exitStatus r.1 :: statuses, d')

/-! ## The scripts -/

def testCmd : String := ".venv\\Scripts\\python.exe -m pytest . -q"

def conan : Script where
  timeout := 90
  files :=
    [⟨"../../repositorios-originais/conan/conan/internal/model/options.py", 15, testCmd⟩,
      ⟨"../../repositorios-originais/conan/conan/internal/model/requires.py", 15, testCmd⟩,
      ⟨"../../repositorios-originais/conan/conan/internal/model/version.py", 40, testCmd⟩,
      ⟨"../../repositorios-originais/conan/conan/internal/model/version_range.py", 40, testCmd⟩]
  paths_nodup := by
    apply nodup_paths
    · iterate 4 apply map_toList_cons toList_ofList
      rfl
    · decide +kernel
  names_nodup := by
    apply nodup_names
    · iterate 4 apply map_toList_cons toList_ofList
      rfl
    · decide +kernel

def dask : Script where
  timeout := 60
  files :=
    [⟨"../../repositorios-originais/dask/dask/core.py", 40, testCmd⟩,
      ⟨"../../repositorios-originais/dask/dask/config.py", 40, testCmd⟩,
      ⟨"../../repositorios-originais/dask/dask/optimization.py", 40, testCmd⟩,
      ⟨"../../repositorios-originais/dask/dask/tokenize.py", 40, testCmd⟩,
      ⟨"../../repositorios-originais/dask/dask/delayed.py", 40, testCmd⟩]
  paths_nodup := by
    apply nodup_paths
    · iterate 5 apply map_toList_cons toList_ofList
      rfl
    · decide +kernel
  names_nodup := by
    apply nodup_names
    · iterate 5 apply map_toList_cons toList_ofList
      rfl
    · decide +kernel

def requests : Script where
  timeout := 60
  files :=
    [⟨"../../repositorios-originais/requests/requests/models.py", 15, testCmd⟩,
      ⟨"../../repositorios-originais/requests/requests/sessions.py", 15, testCmd⟩,
      ⟨"../../repositorios-originais/requests/requests/adapters.py", 15, testCmd⟩,
      ⟨"../../repositorios-originais/requests/requests/auth.py", 15, testCmd⟩,
      ⟨"../../repositorios-originais/requests/requests/cookies.py", 15, testCmd⟩,
      ⟨"../../repositorios-originais/requests/requests/hooks.py", 40, testCmd⟩,
      ⟨"../../repositorios-originais/requests/requests/structures.py", 40, testCmd⟩,
      ⟨"../../repositorios-originais/requests/requests/api.py", 40, testCmd⟩]
  paths_nodup := by
    apply nodup_paths
    · iterate 8 apply map_toList_cons toList_ofList
      rfl
    · decide +kernel
  names_nodup := by
    apply nodup_names
    · iterate 8 apply map_toList_cons toList_ofList
      rfl
    · decide +kernel

def fast : String :=
  ".venv\\Scripts\\python.exe -m pytest " ++
  "test_estrutural_http.py test_estrutural_settings_signals.py " ++
  "test_estrutural_downloadermiddlewares.py test_estrutural_spidermiddlewares_item.py " ++
  "v2_metodologia_formal/test_decisao_redirect_retry.py " ++
  "v2_metodologia_formal/test_decisao_depth_offsite.py " ++
  "v2_metodologia_formal/test_valor_limite_urllength.py -q"

def slow : String :=
  ".venv\\Scripts\\python.exe -m pytest test_integracao_crawl.py test_aceitacao_crawl.py -q"

def scrapy : Lot where
  cwd := "C:/claude/projeto-aplicacao/testes-ia/scrapy"
  files :=
    [⟨"../../repositorios-originais/scrapy/scrapy/downloadermiddlewares/httpauth.py", 40, fast⟩,
      ⟨"../../repositorios-originais/scrapy/scrapy/downloadermiddlewares/offsite.py", 40, fast⟩,
      ⟨"../../repositorios-originais/scrapy/scrapy/downloadermiddlewares/redirect.py", 40, fast⟩,
      ⟨"../../repositorios-originais/scrapy/scrapy/downloadermiddlewares/retry.py", 40, fast⟩,
      ⟨"../../repositorios-originais/scrapy/scrapy/http/request/__init__.py", 40, fast⟩,
      ⟨"../../repositorios-originais/scrapy/scrapy/http/response/__init__.py", 40, fast⟩,
      ⟨"../../repositorios-originais/scrapy/scrapy/http/response/text.py", 40, fast⟩,
      ⟨"../../repositorios-originais/scrapy/scrapy/item.py", 40, fast⟩,
      ⟨"../../repositorios-originais/scrapy/scrapy/settings/__init__.py", 40, fast⟩,
      ⟨"../../repositorios-originais/scrapy/scrapy/signalmanager.py", 40, fast⟩,
      ⟨"../../repositorios-originais/scrapy/scrapy/spidermiddlewares/depth.py", 40, fast⟩,
      ⟨"../../repositorios-originais/scrapy/scrapy/spidermiddlewares/urllength.py", 40, fast⟩,
      ⟨"../../repositorios-originais/scrapy/scrapy/crawler.py", 40, slow⟩,
      ⟨"../../repositorios-originais/scrapy/scrapy/spiders/__init__.py", 40, slow⟩]
  paths_nodup := by
    apply nodup_paths
    · iterate 14 apply map_toList_cons toList_ofList
      rfl
    · decide +kernel

end MutationTest
