import FortressLang.Proofs.LocalNames

/-! The variables and the constants of a program, and the names in its code. Lowering makes up no
variable: what the code loads from, stores to or makes storage for is a variable of the program. -/
namespace FortressLang

open Source (isVariable)

namespace Value

def name? : Value → Option String
  | .variable x => some x
  | .constant _ => none

def number? : Value → Option Int32
  | .variable _ => none
  | .constant n => some n

theorem wellNamed_iff {v : Value} : v.wellNamed = true ↔
    (∀ x, v.name? = some x → isVariable x = true) ∧ ∀ n, v.number? = some n → 0 ≤ n := by
  cases v <;> simp [wellNamed, name?, number?]

end Value

namespace Expr

def names (e : Expr) : List String := e.values.filterMap Value.name?

def constants (e : Expr) : List Int32 := e.values.filterMap Value.number?

theorem wellNamed_iff_names {e : Expr} : e.wellNamed = true ↔
    (∀ x ∈ e.names, isVariable x = true) ∧ ∀ n ∈ e.constants, 0 ≤ n := by
  simp only [wellNamed_iff, Value.wellNamed_iff, names, constants, List.mem_filterMap]
  grind

end Expr

def Condition.names (c : Condition) : List String := c.lhs.names ++ c.rhs.names

def Condition.constants (c : Condition) : List Int32 := c.values.filterMap Value.number?

theorem Condition.wellNamed_iff_names {c : Condition} : c.wellNamed = true ↔
    (∀ x ∈ c.names, isVariable x = true) ∧ ∀ n ∈ c.constants, 0 ≤ n := by
  rw [wellNamed, Bool.and_eq_true, Expr.wellNamed_iff_names, Expr.wellNamed_iff_names, names,
    constants, values, List.filterMap_append, List.forall_mem_append, List.forall_mem_append,
    and_and_and_comm]
  rfl

namespace Statement

mutual

def names : Statement → List String
  | assign target value => target :: value.names
  | branch c ts es => c.names ++ namesAll ts ++ namesAll es
  | loop c ss => c.names ++ namesAll ss
  | print name | read name => [name]

def namesAll : List Statement → List String
  | [] => []
  | s :: ss => s.names ++ namesAll ss

end

def constants (s : Statement) : List Int32 := s.values.filterMap Value.number?

def constantsAll (ss : List Statement) : List Int32 := (valuesAll ss).filterMap Value.number?

mutual

theorem wellNamed_iff_names : ∀ s : Statement, s.wellNamed = true ↔
    (∀ x ∈ s.names, isVariable x = true) ∧ ∀ n ∈ s.constants, 0 ≤ n
  | assign target value => by
    rw [wellNamed, Bool.and_eq_true, Expr.wellNamed_iff_names, names, List.forall_mem_cons,
      and_assoc]
    rfl
  | print name | read name => by simp [wellNamed, names, constants, values]
  | branch c ts es => by
    have hconstants : (branch c ts es).constants =
        c.constants ++ constantsAll ts ++ constantsAll es := by
      simp [constants, values, Condition.constants, constantsAll]
    simp only [wellNamed, Bool.and_eq_true, Condition.wellNamed_iff_names,
      wellNamedAll_iff_names ts, wellNamedAll_iff_names es, names, hconstants,
      List.forall_mem_append, and_and_and_comm]
  | loop c ss => by
    have hconstants : (loop c ss).constants = c.constants ++ constantsAll ss := by
      simp [constants, values, Condition.constants, constantsAll]
    simp only [wellNamed, Bool.and_eq_true, Condition.wellNamed_iff_names,
      wellNamedAll_iff_names ss, names, hconstants, List.forall_mem_append, and_and_and_comm]

theorem wellNamedAll_iff_names : ∀ ss : List Statement, wellNamedAll ss = true ↔
    (∀ x ∈ namesAll ss, isVariable x = true) ∧ ∀ n ∈ constantsAll ss, 0 ≤ n
  | [] => by simp [wellNamedAll, namesAll, constantsAll, valuesAll]
  | s :: ss => by
    have hconstants : constantsAll (s :: ss) = s.constants ++ constantsAll ss := by
      simp [constants, valuesAll, constantsAll]
    simp only [wellNamedAll, Bool.and_eq_true, wellNamed_iff_names s, wellNamedAll_iff_names ss,
      namesAll, hconstants, List.forall_mem_append, and_and_and_comm]

end

end Statement

/-- The variable that an operation loads from, stores to or makes storage for. -/
def Op.name? : Op → Option String
  | loadVariable _ name | alloc name | store _ name => some name
  | _ => none

def Op.Named (op : Op) : Prop := ∀ x, op.name? = some x → isVariable x = true

theorem Op.named_of_wellNamed {op : Op} (h : op.wellNamed = true) : op.Named := by
  intro x hx
  cases op <;> cases hx <;> exact h

def codeNames (code : List Op) : List String := code.filterMap Op.name?

@[simp] theorem codeNames_nil : codeNames [] = [] := rfl

@[simp] theorem codeNames_cons (op : Op) (code : List Op) :
    codeNames (op :: code) = op.name?.toList ++ codeNames code := by
  cases h : op.name? <;> simp [codeNames, h]

@[simp] theorem codeNames_append (code more : List Op) :
    codeNames (code ++ more) = codeNames code ++ codeNames more :=
  List.filterMap_append

theorem Expr.codeNames_lower (e : Expr) (first : Nat) : codeNames (e.lower first).1 = e.names := by
  induction e generalizing first with
  | operand o =>
    obtain ⟨v, negated⟩ := o
    cases v <;> cases negated <;> rfl
  | binary op lhs rhs ihl ihr => simp [lower, names, values, ihl, ihr, Op.name?]

theorem Condition.codeNames_lower (c : Condition) (block first : Nat) :
    codeNames (c.lower block first).1 = c.names := by
  simp [lower, names, Expr.codeNames_lower, Op.name?]

theorem Context.codeNames_allocate (ctx : Context) (name : String) :
    codeNames (ctx.allocate name).1 ⊆ [name] := by
  unfold allocate
  split
  · exact List.nil_subset _
  · split
    · exact List.nil_subset _
    · exact List.Subset.refl _

namespace Statement

mutual

theorem codeNames_lower (ctx : Context) :
    ∀ s : Statement, codeNames (s.lower ctx).1 ⊆ s.names
  | .assign target value => by
    have hstorage := Context.codeNames_allocate
      { ctx with nextTemp := (value.lower ctx.nextTemp).2 } target
    simp only [lower, codeNames_append, codeNames_cons, codeNames_nil, Op.name?,
      value.codeNames_lower, names]
    grind
  | .print name => by simp [lower, names, Op.name?]
  | .read name => by
    have hstorage := Context.codeNames_allocate { ctx with nextTemp := ctx.nextTemp + 1 } name
    simp only [lower, codeNames_cons, codeNames_append, codeNames_nil, Op.name?, names]
    grind
  | .branch c ts es => by
    have hthen := codeNames_lowerAll (ctx.inside c) ts
    have helse := codeNames_lowerAll (lowerAll (ctx.inside c) ts).2 es
    simp only [lower_branch, codeNames_append, codeNames_cons, codeNames_nil, c.codeNames_lower,
      Op.name?, names]
    grind
  | .loop c ss => by
    have hbody := codeNames_lowerAll (ctx.inside c) ss
    simp only [lower_loop, codeNames_append, codeNames_cons, codeNames_nil, c.codeNames_lower,
      Op.name?, names]
    grind

theorem codeNames_lowerAll (ctx : Context) :
    ∀ ss : List Statement, codeNames (lowerAll ctx ss).1 ⊆ namesAll ss
  | [] => List.nil_subset _
  | s :: ss => by
    have hs := codeNames_lower ctx s
    have hss := codeNames_lowerAll (s.lower ctx).2 ss
    simp only [lowerAll, codeNames_append, namesAll]
    grind

end

end Statement

theorem Program.codeNames_mainCode (p : Program) :
    codeNames p.mainCode ⊆ Statement.namesAll p.statements := by
  have hcode := Statement.codeNames_lowerAll .hoisting p.statements
  rw [mainCode_eq, codeNames_append]
  refine List.append_subset.mpr ⟨fun x hx => ?_, hcode⟩
  obtain ⟨op, hop, hx⟩ := List.mem_filterMap.mp hx
  obtain ⟨name, hname, rfl⟩ := List.mem_map.mp hop
  obtain ⟨src, hsrc⟩ := targets_rule.statements .hoisting p.statements name (mem_stored.mp hname)
  exact hcode (List.mem_filterMap.mpr ⟨_, hsrc, hx⟩)

theorem Program.named_mainCode {p : Program}
    (h : ∀ x ∈ Statement.namesAll p.statements, isVariable x = true) :
    ∀ op ∈ p.mainCode, op.Named :=
  fun op hop x hx => h x (p.codeNames_mainCode (List.mem_filterMap.mpr ⟨op, hop, hx⟩))

end FortressLang
