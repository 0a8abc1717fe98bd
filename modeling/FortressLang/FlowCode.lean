import FortressLang.Expr

/-! Flat code: operations on numbered temporaries and named storage, with labels and jumps. Each
branch or loop owns a block number, from which its labels and its condition are named. -/
namespace FortressLang

inductive CodeLabel
  | thenPart (block : Nat)
  | elsePart (block : Nat)
  | finish (block : Nat)
  | test (block : Nat)
  | body (block : Nat)
  deriving DecidableEq

def CodeLabel.text : CodeLabel → String
  | thenPart n => "then_" ++ toString n
  | elsePart n => "else_" ++ toString n
  | finish n => "end_" ++ toString n
  | test n => "eval_cond_" ++ toString n
  | body n => "do_" ++ toString n

inductive Op
  | loadVariable (dest : Nat) (name : String)
  | loadConstant (dest : Nat) (value : Int)
  | arith (dest : Nat) (op : Operator) (lhs rhs : Nat)
  | invert (dest src : Nat)
  | alloc (name : String)
  | store (src : Nat) (name : String)
  | print (src : Nat)
  | read (dest : Nat)
  | compare (block : Nat) (comparison : Comparison) (lhs rhs : Nat)
  | branch (block : Nat) (onTrue onFalse : CodeLabel)
  | jump (target : CodeLabel)
  | label (l : CodeLabel)
  deriving DecidableEq

def Operator.mnemonic : Operator → String
  | add => "add"
  | sub => "sub"
  | mul => "mul"
  | div => "sdiv"

def Comparison.mnemonic : Comparison → String
  | equal => "eq"
  | smaller => "slt"
  | greater => "sgt"

/-- A temporary is written as its number after a percent sign. -/
def temp (n : Nat) : String := "%" ++ toString n

def Op.text : Op → String
  | loadVariable d name => temp d ++ " = load i32, i32* %" ++ name
  | loadConstant d n => temp d ++ " = call i32 @assign(i32 " ++ toString n ++ ")"
  | arith d op l r => temp d ++ " = " ++ op.mnemonic ++ " i32 " ++ temp l ++ ", " ++ temp r
  | invert d s => temp d ++ " = sub i32 0, " ++ temp s
  | alloc name => "%" ++ name ++ " = alloca i32"
  | store s name => "store i32 " ++ temp s ++ ", i32* %" ++ name
  | print s => "call void @println(i32 " ++ temp s ++ ")"
  | read d => temp d ++ " = call i32 @readInt()"
  | compare b c l r =>
    "%cond_" ++ toString b ++ " = icmp " ++ c.mnemonic ++ " i32 " ++ temp l ++ ", " ++ temp r
  | branch b t f => "br i1 %cond_" ++ toString b ++ ", label %" ++ t.text ++ ", label %" ++ f.text
  | jump l => "br label %" ++ l.text
  | label l => l.text ++ ":"

/-- Labels stand at the beginning of their lines, all else is indented. -/
def Op.line (op : Op) : String :=
  match op with
  | label _ => op.text
  | _ => "  " ++ op.text

/-- One operation on a line, without a line feed after the last. -/
def renderCode (code : List Op) : String := "\n".intercalate (code.map Op.line)

end FortressLang
