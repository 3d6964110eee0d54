import MutationTest.Main
import MutationTest.Theory.Rewriting

/-! # Translated coverage pages

`translate_coverage_html.py`, which replaces the texts of the frame of a coverage page by Portuguese
ones: a list of replacements, made one after the other on the whole page, and a regular expression
for the number of statements. -/

namespace MutationTest.CoverageHtml
open Exec (raise)
open Rewriting (replaceAll)

/-- `REPLACEMENTS`. -/
def replacements : List (String × String) :=
  [("<title>Coverage report</title>", "<title>Relatório de cobertura</title>"),
    ("<title>Coverage for ", "<title>Cobertura de "),
    ("<h1>Coverage report:", "<h1>Relatório de cobertura:"),
    ("<span class=\"text\">Coverage for </span>", "<span class=\"text\">Cobertura de </span>"),
    ("alt=\"Show/hide keyboard shortcuts\"", "alt=\"Mostrar/ocultar atalhos de teclado\""),
    ("<p class=\"legend\">Shortcuts on this page</p>",
      "<p class=\"legend\">Atalhos desta página</p>"),
    ("&nbsp; change column sorting", "&nbsp; mudar ordenação da coluna"),
    ("&nbsp; prev/next file", "&nbsp; arquivo anterior/próximo"),
    ("show/hide this help", "mostrar/ocultar esta ajuda"),
    ("&nbsp; toggle line displays", "&nbsp; alternar exibição de linhas"),
    ("&nbsp; next/prev highlighted chunk", "&nbsp; próximo/anterior trecho destacado"),
    ("&nbsp; (zero) top of page", "&nbsp; (zero) topo da página"),
    ("&nbsp; (one) first highlighted chunk", "&nbsp; (um) primeiro trecho destacado"),
    ("&nbsp; up to the index", "&nbsp; subir para o índice"),
    ("placeholder=\"filter...\"", "placeholder=\"filtrar...\""),
    ("<label for=\"hide100\">hide covered</label>",
      "<label for=\"hide100\">ocultar cobertos</label>"),
    (">File<span class=\"arrows\">", ">Arquivo<span class=\"arrows\">"),
    (">class<span class=\"arrows\">", ">classe<span class=\"arrows\">"),
    (">function<span class=\"arrows\">", ">função<span class=\"arrows\">"),
    (">statements<span class=\"arrows\">", ">instruções<span class=\"arrows\">"),
    (">missing<span class=\"arrows\">", ">faltando<span class=\"arrows\">"),
    (">excluded<span class=\"arrows\">", ">excluído<span class=\"arrows\">"),
    (">branches<span class=\"arrows\">", ">desvios<span class=\"arrows\">"),
    (">partial<span class=\"arrows\">", ">parcial<span class=\"arrows\">"),
    (">coverage<span class=\"arrows\">", ">cobertura<span class=\"arrows\">"),
    ("<th class=\"left\" colspan=\"4\">Statements</th>",
      "<th class=\"left\" colspan=\"4\">Instruções</th>"),
    ("<th class=\"left\" colspan=\"3\">Branches</th>",
      "<th class=\"left\" colspan=\"3\">Desvios</th>"),
    (">&#xab; prev</a>", ">&#xab; anterior</a>"),
    (">&#xbb; next</a>", ">&#xbb; próximo</a>"),
    ("&Hat; index</a>", "&Hat; índice</a>"),
    ("No items found using the specified filter.",
      "Nenhum item encontrado com o filtro especificado."),
    ("created at ", "criado em "),
    (">Files<", ">Arquivos<"),
    (">Functions<", ">Funções<"),
    ("<span class=\"text\"> run</span>", "<span class=\"text\"> executadas</span>"),
    ("<span class=\"text\"> missing</span>", "<span class=\"text\"> faltando</span>"),
    ("<span class=\"text\"> excluded</span>", "<span class=\"text\"> excluídas</span>"),
    ("<span class=\"text\"> partial</span>", "<span class=\"text\"> parciais</span>"),
    ("title=\"Toggle lines run\"", "title=\"Alternar linhas executadas\""),
    ("title=\"Toggle lines missing\"", "title=\"Alternar linhas faltando\""),
    ("title=\"Toggle lines excluded\"", "title=\"Alternar linhas excluídas\""),
    ("title=\"Toggle lines partially run\"", "title=\"Alternar linhas parcialmente executadas\""),
    ("title=\"Click to sort\"", "title=\"Clique para ordenar\"")]

def statements : List Char := " statements &nbsp;".toList

def instrucoes : List Char := " instruções &nbsp;".toList

/-- `STATEMENTS_RE.sub(r"\1 instruções &nbsp;", …)`; the number counts the letters that are
already replaced. `\d+` takes all digits: behind fewer of them stands a digit and no blank. -/
def subFrom (digit : Char → Bool) : ℕ → List Char → List Char
  | _, [] => []
  | n + 1, _ :: t => subFrom digit n t
  | 0, c :: t =>
    let group := (c :: t).takeWhile digit
    if group ≠ [] ∧ statements.isPrefixOf ((c :: t).dropWhile digit) then
      group ++ instrucoes ++ subFrom digit (group.length + statements.length - 1) t
    else c :: subFrom digit 0 t

def sub (digit : Char → Bool) (text : List Char) : List Char := subFrom digit 0 text

def replaced (text : List Char) : List Char :=
  replacements.foldl (fun text x => replaceAll x.1.toList x.2.toList text) text

/-- The two passes of `translate_file` over the text. `digit` is `str.isdecimal`. -/
def translate (digit : Char → Bool) (text : String) : String :=
  String.ofList (sub digit (replaced text.toList))

/-! ## Files -/

/-- The contents of the files of a directory. -/
abbrev Dir := String → ByteArray

structure Platform where
  linesep : String
  /-- `str.isdecimal`; the tables for it grow, but not below 256. -/
  isDecimal : Char → Bool
  linesep_eq : linesep = "\n" ∨ linesep = "\r\n"
  isDecimal_eq : ∀ c : Char, c.toNat < 256 → isDecimal c = c.isDigit

def translateFile (os : Platform) (path : String) : Exec Dir PyExc Bool := fun dir =>
  match decodeText (dir path) with
  | .error e => raise e dir
  | .ok original =>
    let text := translate os.isDecimal original
    if text ≠ original then (.ok true, Function.update dir path (encodeText os.linesep text))
    else (.ok false, dir)

/-- The loop over the pages; the result is what is printed. -/
def translateFiles (os : Platform) : List String → ℕ → ℕ → Exec Dir PyExc (ℕ × ℕ)
  | [], changed, total => return (changed, total)
  | path :: paths, changed, total => do
    if ← translateFile os path then translateFiles os paths (changed + 1) (total + 1)
    else translateFiles os paths changed (total + 1)

/-- `main`, for the pages that `glob("*.html")` lists. -/
def main (os : Platform) (paths : List String) : Exec Dir PyExc (ℕ × ℕ) :=
  translateFiles os paths 0 0

end MutationTest.CoverageHtml
