import FortressLang.Compilation
import FortressLang.Disk
import FortressLang.GrammarDescription
import FortressLang.OptionPlaces
import FortressLang.TreeDrawing

/-! A compilation from the command line: it reads up to three files of a disk, may write one, and
prints the module. Whatever fails, nothing is printed and nothing is written. -/
namespace FortressLang

inductive SessionIssue
  | options (issue : OptionIssue)
  | unreadable (role path : String) (fault : FileFault)
  | grammar (issue : Issue)
  | table (issue : Issue)
  | source (path : String) (issue : Issue)
  | drawing (issue : Issue)
  | unwritable (path : String) (fault : FileFault)
  deriving DecidableEq

def SessionIssue.message : SessionIssue → String
  | options i => "Something went wrong parsing arguments: " ++ i.message
  | unreadable role path f =>
    "cannot read the " ++ role ++ " file \"" ++ path ++ "\": " ++ f.message
  | grammar i => "invalid grammar: " ++ i.message
  | table i => "cannot build the action table: " ++ i.message
  | source path i => "cannot compile \"" ++ path ++ "\": " ++ i.message
  | drawing i => i.message
  | unwritable path f => "cannot write the tree file \"" ++ path ++ "\": " ++ f.message

/-- What a session prints, and the disk that it leaves. -/
structure Outcome where
  succeeded : Bool
  stdout : String
  stderr : String
  disk : Disk

namespace Settings

def readText (d : Disk) (role path : String) : Except SessionIssue String :=
  (d.read path).mapError (.unreadable role path)

/-- The input is read first, then the runtime, then the grammar. -/
def compile (s : Settings) (d : Disk) : Except SessionIssue Compilation := do
  let source ← readText d "input" s.input
  let runtime ←
    match s.runtime with
    | some path => readText d "runtime" path
    | none => .ok ModuleText.standardRuntime
  let grammar ←
    match s.grammar with
    | some path => (Grammar.ofDescription (← readText d "grammar" path)).mapError .grammar
    | none => .ok .fortress
  let table ← (Table.build grammar).mapError .table
  (table.compile runtime source).mapError (.source s.input)

/-- The disk with the drawing on it, if one is asked for. -/
def draw (s : Settings) (d : Disk) (p : Program) : Except SessionIssue Disk :=
  match s.writeTree with
  | none => .ok d
  | some path => do
    let document ← (TreeDrawing.ofProgram p).mapError .drawing
    (d.write path document).mapError (.unwritable path)

/-- The derivation is printed before the drawing can fail, the module last of all. -/
def run (s : Settings) (d : Disk) : Outcome :=
  match s.compile d with
  | .error issue => ⟨false, "", issue.message ++ "\n", d⟩
  | .ok c =>
    let log := if s.derivation then c.derivation ++ "\n" else ""
    match s.draw d c.program with
    | .error issue => ⟨false, "", log ++ issue.message ++ "\n", d⟩
    | .ok drawn => ⟨true, c.module, log, drawn⟩

end Settings

/-- A session from the options given in three places, where a library looks them up. -/
def sessionWith (lookup : Lookup) (flags env : Options) (config : Option Options) (d : Disk) :
    Outcome :=
  match Settings.find lookup flags env config with
  | .error issue => ⟨false, "", (SessionIssue.options issue).message ++ "\n", d⟩
  | .ok s => s.run d

def session : Options → Options → Option Options → Disk → Outcome := sessionWith .firstSet

end FortressLang
