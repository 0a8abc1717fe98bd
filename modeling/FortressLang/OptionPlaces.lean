import FortressLang.CommandOptions

/-! A library to run the program with. It takes each option from the first place that sets it. It
wants all of them, and a configuration file even if that sets nothing. -/
namespace FortressLang
namespace Lookup

def need {α : Type} (option : String) : Option α → Except String α
  | some x => .ok x
  | none => .error ("field " ++ option ++
    " not found nor in command line, env, configuration file nor as a default")

def inPlaces (places : List Options) : Except String Settings := do
  let input ← need "input" (places.findSome? Options.input)
  let writeTree ← need "write_tree" (places.findSome? Options.writeTree)
  let grammar ← need "grammar" (places.findSome? Options.grammar)
  let runtime ← need "runtime" (places.findSome? Options.runtime)
  let derivation ← need "derivation" (places.findSome? Options.derivation)
  .ok ⟨input, writeTree, grammar, runtime, derivation⟩

def firstSet : Lookup
  | flags, env, some file => inPlaces [flags, env, file]
  | _, _, none => .error ("key `config` was not found in command line; " ++
    "key `fortress_config` was not found in environment; default path for file was not specified")

end Lookup
end FortressLang
