import FortressLang.FortressGrammar
import FortressLang.ModuleText
import FortressLang.Parser
import FortressLang.ProgramReading

/-! Compiling the text of a program with a grammar's table. -/
namespace FortressLang

structure Compilation where
  program : Program
  /-- The numbers of the applied rules, counted from one. -/
  derivation : String
  module : String

/-- The first issue stops a compilation. -/
def Table.compile (t : Table) (runtime source : String) : Except Issue Compilation := do
  let (result, parser) := (Parser.ofStream (.ofText source)).run t
  let tree ← result
  let program ← Program.ofTree tree
  .ok ⟨program, parser.derivation, program.moduleText runtime⟩

end FortressLang
