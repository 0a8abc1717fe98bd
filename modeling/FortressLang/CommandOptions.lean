import FortressLang.Text

/-! The options of a compilation from the command line. They are given in three places, where a
library looks them up. The settings that it finds are checked here. -/
namespace FortressLang

/-- What one place sets: an option is absent, or for a path that may be left out, set to none. -/
structure Options where
  input : Option String := none
  writeTree : Option (Option String) := none
  grammar : Option (Option String) := none
  runtime : Option (Option String) := none
  derivation : Option Bool := none
  deriving DecidableEq

/-- What a compilation from the command line is asked for. -/
structure Settings where
  input : String
  writeTree : Option String
  grammar : Option String
  runtime : Option String
  derivation : Bool
  deriving DecidableEq

/-- A library that looks options up: among the flags, in the environment and, if there is one, in a
configuration file. It fails with a text of its own. -/
abbrev Lookup := Options → Options → Option Options → Except String Settings

inductive OptionIssue
  | lookup (text : String)
  | blankPath (role : String)
  deriving DecidableEq

def OptionIssue.message : OptionIssue → String
  | lookup text => text
  | blankPath role => "the " ++ role ++ " path must not be empty"

namespace Settings

def checkPath (role : String) (path : Option String) : Except OptionIssue Unit :=
  if path.any Text.allBlank then .error (.blankPath role) else .ok ()

/-- No path may be blank. -/
def check (s : Settings) : Except OptionIssue Settings := do
  checkPath "input" (some s.input)
  checkPath "write-tree" s.writeTree
  checkPath "grammar" s.grammar
  checkPath "runtime" s.runtime
  .ok s

def find (lookup : Lookup) (flags env : Options) (config : Option Options) :
    Except OptionIssue Settings := do
  (← (lookup flags env config).mapError .lookup).check

end Settings
end FortressLang
