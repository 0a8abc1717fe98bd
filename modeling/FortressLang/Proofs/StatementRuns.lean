import FortressLang.Proofs.Arithmetic
import FortressLang.Statement
import Mathlib.Logic.Function.Basic

/-! What statements do to a memory of 32-bit words, to the numbers that they read and to those that
they print. A run that ends has one ending, and a run without an ending goes on for ever. -/
namespace FortressLang

structure Store where
  memory : String → Int32
  input : List Int32
  /-- The newest first. -/
  output : List Int32

namespace Store

def set (σ : Store) (name : String) (v : Int32) : Store :=
  { σ with memory := Function.update σ.memory name v }

def print (σ : Store) (v : Int32) : Store := { σ with output := v :: σ.output }

end Store

inductive Fault
  | noQuotient | noInput
  deriving DecidableEq

inductive Ending
  | finished (σ : Store)
  | stopped (fault : Fault) (σ : Store)

def Comparison.holds : Comparison → Int32 → Int32 → Bool
  | equal, a, b => decide (a = b)
  | smaller, a, b => decide (a < b)
  | greater, a, b => decide (b < a)

def Condition.holds? (c : Condition) (ρ : String → Int32) : Option Bool := do
  return c.comparison.holds (← c.lhs.value? .words ρ) (← c.rhs.value? .words ρ)

/-- Running statements one after the other from a store comes to an ending. -/
inductive Statement.Runs : List Statement → Store → Ending → Prop
  | nil {σ} : Runs [] σ (.finished σ)
  | assign {name e v ss σ out} : e.value? .words σ.memory = some v →
      Runs ss (σ.set name v) out → Runs (.assign name e :: ss) σ out
  | assignFault {name e ss σ} : e.value? .words σ.memory = none →
      Runs (.assign name e :: ss) σ (.stopped .noQuotient σ)
  | print {name ss σ out} : Runs ss (σ.print (σ.memory name)) out → Runs (.print name :: ss) σ out
  | read {name v vs ss σ out} : σ.input = v :: vs →
      Runs ss ({ σ with input := vs }.set name v) out →
      Runs (.read name :: ss) σ out
  | readFault {name ss σ} : σ.input = [] → Runs (.read name :: ss) σ (.stopped .noInput σ)
  | branch {c b ts es ss σ τ out} : c.holds? σ.memory = some b →
      Runs (if b then ts else es) σ (.finished τ) → Runs ss τ out →
      Runs (.branch c ts es :: ss) σ out
  | branchFault {c ts es ss σ} : c.holds? σ.memory = none →
      Runs (.branch c ts es :: ss) σ (.stopped .noQuotient σ)
  | branchStop {c b ts es ss σ f τ} : c.holds? σ.memory = some b →
      Runs (if b then ts else es) σ (.stopped f τ) → Runs (.branch c ts es :: ss) σ (.stopped f τ)
  | loopEnd {c body ss σ out} : c.holds? σ.memory = some false →
      Runs ss σ out → Runs (.loop c body :: ss) σ out
  | loopAgain {c body ss σ τ out} : c.holds? σ.memory = some true →
      Runs body σ (.finished τ) → Runs (.loop c body :: ss) τ out → Runs (.loop c body :: ss) σ out
  | loopFault {c body ss σ} : c.holds? σ.memory = none →
      Runs (.loop c body :: ss) σ (.stopped .noQuotient σ)
  | loopStop {c body ss σ f τ} : c.holds? σ.memory = some true →
      Runs body σ (.stopped f τ) → Runs (.loop c body :: ss) σ (.stopped f τ)

end FortressLang
