import FortressLang.FlowCode
import FortressLang.Statement

/-! From statements to flat code. Temporaries and blocks are numbered in the order in which they are
written, and a variable gets its storage where it is first stored to; a hoisting context holds the
storage back, to be placed in front of all code. -/
namespace FortressLang

/-- What the next statement's code depends on. -/
structure Context where
  nextTemp : Nat := 0
  nextBlock : Nat := 0
  /-- The variables that have storage. -/
  allocated : List String := []
  /-- In a hoisting context, the variables whose storage is held back, the newest first. -/
  held : Option (List String) := none
  deriving DecidableEq

namespace Context

/-- The context of code that allocates storage in place. -/
def inPlace : Context := {}

def hoisting : Context := { held := some [] }

/-- Storage for a variable, unless it has some. -/
def allocate (ctx : Context) (name : String) : List Op × Context :=
  if name ∈ ctx.allocated then ([], ctx)
  else
    match ctx.held with
    | some names =>
      ([], { ctx with allocated := name :: ctx.allocated, held := some (name :: names) })
    | none => ([.alloc name], { ctx with allocated := name :: ctx.allocated })

/-- The storage held back since the last time, in the order of first use. -/
def takeHeld (ctx : Context) : List Op × Context :=
  match ctx.held with
  | some names => (names.reverse.map .alloc, { ctx with held := some [] })
  | none => ([], ctx)

end Context

/-- The code of an expression, given the first free temporary. The value is in the last temporary
that the code defines, in front of the next free one, which is returned. -/
def Expr.lower (first : Nat) : Expr → List Op × Nat
  | .operand ⟨.constant n, negated⟩ =>
    ([.loadConstant first (if negated then -n.toInt else n.toInt)], first + 1)
  | .operand ⟨.variable name, false⟩ => ([.loadVariable first name], first + 1)
  | .operand ⟨.variable name, true⟩ =>
    ([.loadVariable first name, .invert (first + 1) first], first + 2)
  | .binary op lhs rhs =>
    let (lcode, mid) := lhs.lower first
    let (rcode, last) := rhs.lower mid
    (lcode ++ rcode ++ [.arith last op (mid - 1) (last - 1)], last + 1)

/-- The code that decides a block's condition. -/
def Condition.lower (c : Condition) (block first : Nat) : List Op × Nat :=
  let (lcode, mid) := c.lhs.lower first
  let (rcode, last) := c.rhs.lower mid
  (lcode ++ rcode ++ [.compare block c.comparison (mid - 1) (last - 1)], last)

mutual

def Statement.lower (ctx : Context) : Statement → List Op × Context
  | .assign target value =>
    let (code, next) := value.lower ctx.nextTemp
    let (storage, ctx) := { ctx with nextTemp := next }.allocate target
    (code ++ storage ++ [.store (next - 1) target], ctx)
  | .print name =>
    ([.loadVariable ctx.nextTemp name, .print ctx.nextTemp],
      { ctx with nextTemp := ctx.nextTemp + 1 })
  | .read name =>
    let (storage, next) := { ctx with nextTemp := ctx.nextTemp + 1 }.allocate name
    (.read ctx.nextTemp :: storage ++ [.store ctx.nextTemp name], next)
  | .branch condition thenPart elsePart =>
    let block := ctx.nextBlock
    let (test, next) := condition.lower block ctx.nextTemp
    let (thenCode, ctx) :=
      Statement.lowerAll { ctx with nextTemp := next, nextBlock := block + 1 } thenPart
    let (elseCode, ctx) := Statement.lowerAll ctx elsePart
    (test ++ [.branch block (.thenPart block) (.elsePart block), .label (.thenPart block)] ++
      thenCode ++ [.jump (.finish block), .label (.elsePart block)] ++
      elseCode ++ [.jump (.finish block), .label (.finish block)], ctx)
  | .loop condition body =>
    let block := ctx.nextBlock
    let (test, next) := condition.lower block ctx.nextTemp
    let (bodyCode, ctx) :=
      Statement.lowerAll { ctx with nextTemp := next, nextBlock := block + 1 } body
    ([.jump (.test block), .label (.test block)] ++ test ++
      [.branch block (.body block) (.finish block), .label (.body block)] ++
      bodyCode ++ [.jump (.test block), .label (.finish block)], ctx)

/-- The code of the statements, one after the other. -/
def Statement.lowerAll (ctx : Context) : List Statement → List Op × Context
  | [] => ([], ctx)
  | s :: ss =>
    let (code, ctx) := s.lower ctx
    let (rest, ctx) := Statement.lowerAll ctx ss
    (code ++ rest, ctx)

end

end FortressLang
