import FortressLang.CommandOptions
import FortressLang.Decimal

/-! Options as they are written: among the arguments of a command, as the value of an environment
variable, and in a configuration file with one setting on a line. -/
namespace FortressLang

inductive Setting
  | text (s : String)
  | flag (b : Bool)
  | nothing
  deriving DecidableEq

namespace Setting

def escaped? : Char → Option Char
  | 'n' => some '\n'
  | 't' => some '\t'
  | 'r' => some '\r'
  | 'b' => some '\x08'
  | 'f' => some '\x0c'
  | '"' => some '"'
  | '\\' => some '\\'
  | '/' => some '/'
  | _ => none

/-- The text up to a closing quotation mark, which has to be the last character. -/
def unquote? : List Char → Option (List Char)
  | [] => none
  | ['"'] => some []
  | '"' :: _ => none
  | ['\\'] => none
  | '\\' :: c :: cs => do return (← escaped? c) :: (← unquote? cs)
  | c :: cs => (unquote? cs).map (c :: ·)

/-- A word that means itself, or a text in quotation marks. -/
def read? (cs : List Char) : Option Setting :=
  match String.ofList cs, cs with
  | "true", _ => some (flag true)
  | "false", _ => some (flag false)
  | "null", _ => some nothing
  | _, '"' :: rest => (unquote? rest).map fun s => text (String.ofList s)
  | _, _ => none

/-- A flag's value may leave the quotation marks out. -/
def ofArgument (s : String) : Setting := (read? s.toList).getD (text s)

end Setting

namespace Options

/-- Every option has one name everywhere, here as a configuration file writes it. -/
def names : List String := ["input", "write_tree", "grammar", "runtime", "derivation"]

def set? (o : Options) : String → Setting → Option Options
  | "input", .text s => some { o with input := some s }
  | "write_tree", .text s => some { o with writeTree := some (some s) }
  | "write_tree", .nothing => some { o with writeTree := some none }
  | "grammar", .text s => some { o with grammar := some (some s) }
  | "grammar", .nothing => some { o with grammar := some none }
  | "runtime", .text s => some { o with runtime := some (some s) }
  | "runtime", .nothing => some { o with runtime := some none }
  | "derivation", .flag b => some { o with derivation := some b }
  | _, _ => none

/-- A name, an equals sign, a value. A blank line or one of a remark sets nothing. -/
def readLine? (o : Options) (line : List Char) : Option Options :=
  match Text.trimChars line with
  | [] => some o
  | '#' :: _ => some o
  | cs =>
    let name := cs.takeWhile (· ≠ '=')
    let value := (cs.dropWhile (· ≠ '=')).drop 1
    (Setting.read? (Text.trimChars value)).bind
      (o.set? (String.ofList (Text.trimChars name)))

/-- The options of a configuration file. -/
def ofText? (s : String) : Option Options := (s.toList.splitOn '\n').foldlM readLine? {}

/-- The option of a flag, long or short. -/
def ofFlag? : String → Option String
  | "-i" => some "input"
  | "-w" => some "write_tree"
  | "-g" => some "grammar"
  | "-r" => some "runtime"
  | "-c" => some "config"
  | "--write-tree" => some "write_tree"
  | "--config" => some "config"
  | flag => names.find? fun name => flag = "--" ++ name

/-- The flags among a command's arguments, and the path of a configuration file. -/
def ofArguments? (o : Options) (config : Option String) :
    List String → Option (Options × Option String)
  | [] => some (o, config)
  | [_] => none
  | flag :: value :: rest =>
    match ofFlag? flag with
    | some "config" => ofArguments? o (some value) rest
    | some name => do ofArguments? (← o.set? name (.ofArgument value)) config rest
    | none => none

/-- The environment variable of an option. -/
def variableOf (name : String) : String := "FORTRESS_" ++ name.toUpper

/-- The options among the variables that are set, as names and values. -/
def ofVariables? (values : List (String × String)) : Option Options :=
  values.foldlM (fun o v => do o.set? v.1 (← Setting.read? v.2.toList)) {}

end Options
end FortressLang
