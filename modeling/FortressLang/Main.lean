import FortressLang.Session
import FortressLang.SettingsText

/-! The command line: it gathers the options and the files that they name, runs the session on
them, and then prints and writes what the session says. -/
namespace FortressLang

/-- Adds what is found at a place. What is there but cannot be read counts as a folder. -/
def loadPlace (d : Disk) (p : Place) : IO Disk := do
  try
    return { d with files := (p, ← IO.FS.readBinFile (Disk.pathOf p)) :: d.files }
  catch
    | .noFileOrDirectory .. => return d
    | _ => return { d with folders := p :: d.folders }

/-- The part of the file system that a session can touch. -/
def loadDisk (s : Settings) : IO Disk := do
  let here := ((← IO.currentDir).toString.toList.splitOn '/').filter (· ≠ [])
  let disk : Disk := { files := [], here := (here.map String.ofList).reverse }
  let paths := s.input :: [s.runtime, s.grammar, s.writeTree].filterMap id
  (paths.flatMap disk.places).eraseDups.foldlM loadPlace disk

def loadVariables : IO (Option Options) := do
  let values ← Options.names.filterMapM fun name => do
    return (← IO.getEnv (Options.variableOf name)).map (name, ·)
  return Options.ofVariables? values

def loadConfig (path : Option String) : IO (Option (Option Options)) := do
  match path with
  | none => return some none
  | some path => return (Options.ofText? (← IO.FS.readFile path)).map some

def runSession (flags env : Options) (config : Option Options) : IO UInt32 := do
  let disk ←
    match Settings.find .firstSet flags env config with
    | .ok s => loadDisk s
    | .error _ => pure { files := [] }
  let outcome := session flags env config disk
  for (p, bytes) in outcome.disk.changesSince disk do
    IO.FS.writeBinFile (Disk.pathOf p) bytes
  IO.eprint outcome.stderr
  IO.print outcome.stdout
  return if outcome.succeeded then 0 else 1

end FortressLang

open FortressLang in
def main (args : List String) : IO UInt32 := do
  let usage := "usage: --config FILE [--input FILE] [--write_tree FILE] [--grammar FILE] " ++
    "[--runtime FILE] [--derivation true|false]"
  match Options.ofArguments? {} none args, ← loadVariables with
  | some (flags, path), some env =>
    match ← loadConfig (path.or (← IO.getEnv "FORTRESS_CONFIG")) with
    | some config => runSession flags env config
    | none =>
      IO.eprintln "the configuration is not a list of settings"
      return 1
  | _, _ =>
    IO.eprintln usage
    return 1
