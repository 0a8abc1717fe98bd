import FortressLang.Lowering
import FortressLang.Text

/-! The text of a whole module: a runtime, then a main function in which all storage comes first. -/
namespace FortressLang
namespace ModuleText

def standardRuntimeLines : List String :=
  ["@.strR = private unnamed_addr constant [3 x i8] c\"%d\\00\", align 1",
    "",
    "define i32 @readInt() \x7b",
    "  %x = alloca i32, align 4",
    "  %1 = call i32 (i8*, ...) @__isoc99_scanf(i8* getelementptr inbounds ([3 x " ++
      "i8], [3 x i8]* @.strR, i32 0, i32 0), i32* %x)",
    "  %2 = load i32, i32* %x, align 4",
    "  ret i32 %2",
    "\x7d",
    "",
    "declare i32 @__isoc99_scanf(i8*, ...)",
    "",
    "@.strP = private unnamed_addr constant [4 x i8] c\"%d\\0A\\00\", align 1",
    "",
    "define void @println(i32 %x) \x7b",
    "  %1 = call i32 (i8*, ...) @printf(i8* getelementptr inbounds ([4 x i8], [4 x " ++
      "i8]* @.strP, i32 0, i32 0), i32 %x)",
    "  ret void",
    "\x7d",
    "",
    "declare i32 @printf(i8*, ...)",
    "",
    "define i32 @assign(i32 %x) \x7b",
    "  ret i32 %x",
    "\x7d",
    ""]

/-- Reading and printing numbers, and constants as calls. -/
def standardRuntime : String := "\n".intercalate standardRuntimeLines

/-- Each operation on a line, with a line feed after every one. -/
def codeLines (code : List Op) : String := String.join (code.map fun op => op.line ++ "\n")

end ModuleText

open ModuleText in
/-- The runtime without the white space around it, then the main function. -/
def Program.moduleText (runtime : String) (p : Program) : String :=
  let (code, ctx) := Statement.lowerAll .hoisting p.statements
  Text.trim runtime ++ "\n\ndefine i32 @main() \x7b\nentry_block:\n" ++
    codeLines ctx.takeHeld.1 ++ codeLines code ++ "  ret i32 0\n\x7d\n"

end FortressLang
