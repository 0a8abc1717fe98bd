import FortressLang.Proofs.ChainReading

/-! The expression that a written sum becomes. A product is turned to nest to the left. A sum nests
to the right, and where it does, a subtracted product is added with the other sign. -/
namespace FortressLang

def Expr.signed (negative : Bool) (e : Expr) : Expr := if negative then e.negated else e

namespace Expr

@[simp] theorem signed_false (e : Expr) : e.signed false = e := rfl

@[simp] theorem signed_true (e : Expr) : e.signed true = e.negated := rfl

theorem signed_negated (e : Expr) (b : Bool) : e.negated.signed b = e.signed (!b) := by
  cases b <;> simp [negated_negated]

end Expr

namespace Source

open Chain

def Product.isSingle : Product → Bool
  | .of _ .stop => true
  | .of _ (.step ..) => false

def SumRest.isStop : SumRest → Bool
  | .stop => true
  | .step .. => false

/-- A subtracted product takes the minus as its own sign, unless it is one atom and the last. -/
def takesMinus (minus : Bool) (next : Product) (rest : SumRest) : Bool :=
  minus && !(next.isSingle && rest.isStop)

theorem takesMinus_step (minus minus' : Bool) (next q : Product) (rest : SumRest) :
    takesMinus minus next (.step minus' q rest) = minus := by
  simp [takesMinus, SumRest.isStop]

mutual

def Sum.expr : Sum → Expr
  | .of first rest => rest.expr first.expr

def SumRest.expr (first : Expr) : SumRest → Expr
  | .stop => first
  | .step minus next rest =>
    .binary (additive (minus && !takesMinus minus next rest)) first
      (rest.expr (next.expr.signed (takesMinus minus next rest)))

def Product.expr : Product → Expr
  | .of first rest => rest.expr first.expr

def ProductRest.expr (first : Expr) : ProductRest → Expr
  | .stop => first
  | .step slash next rest => rest.expr (.binary (multiplicative slash) first next.expr)

def Atom.expr : Atom → Expr
  | .named x => .operand ⟨.variable x, false⟩
  | .number n => .operand ⟨.constant n, false⟩
  | .minus inner => inner.expr.negated
  | .group inner => inner.expr

end

theorem toExpr_wrap (m : Marks) (c : Chain) : (m.wrap c).toExpr = c.toExpr.signed m.negated := by
  obtain ⟨negated, grouped⟩ := m
  cases negated <;> cases grouped <;> simp [Marks.wrap, toExpr]

/-- A chain that is one operand, in the eyes of what stands before it. -/
def Enclosed : Chain → Prop
  | .binary .. => False
  | _ => True

theorem endSum_of_enclosed {c : Chain} (h : Enclosed c) (op : Operator) (first : Expr) :
    c.endSum op first = .binary op first c.toExpr := by
  cases c with
  | binary => exact h.elim
  | operand | group | negated => simp [endSum, toExpr]

theorem endProduct_of_enclosed {c : Chain} (h : Enclosed c) (op : Operator) (first : Expr) :
    c.endProduct op first = .binary op first c.toExpr := by
  cases c with
  | binary => exact h.elim
  | operand | group | negated => simp [endProduct, toExpr]

theorem enclosed_wrap {m : Marks} (hm : m.grouped = true) (c : Chain) : Enclosed (m.wrap c) := by
  obtain ⟨negated, grouped⟩ := m
  obtain rfl : grouped = true := hm
  cases negated <;> trivial

mutual

theorem Sum.enclosed_chain (s : Sum) {m : Marks} (hm : m.grouped = true) :
    Enclosed (s.chain m) := by
  cases s with
  | of first rest =>
    cases rest with
    | stop => exact first.enclosed_chain hm
    | step minus next rest => exact enclosed_wrap hm _

theorem Product.enclosed_chain (p : Product) {m : Marks} (hm : m.grouped = true) :
    Enclosed (p.chain m) := by
  cases p with
  | of first rest =>
    cases rest with
    | stop => exact first.enclosed_chain m
    | step slash next rest => exact enclosed_wrap hm _

theorem Atom.enclosed_chain (a : Atom) (m : Marks) : Enclosed (a.chain m) := by
  cases a with
  | named x => trivial
  | number n => trivial
  | minus inner => exact inner.enclosed_chain _
  | group inner => exact inner.enclosed_chain rfl

end

/-- A last product of several factors takes a minus in front of it as its own sign. -/
theorem endSum_multiplicative (minus slash : Bool) (first : Expr) (lhs rhs : Chain) :
    (Chain.binary (multiplicative slash) lhs rhs).endSum (additive minus) first =
      .binary .add first ((Chain.binary (multiplicative slash) lhs rhs).toExpr.signed minus) := by
  cases minus <;> cases slash <;> rfl

/-- So does a product that is not the last. -/
theorem endSum_additive (minus minus' : Bool) (first : Expr) (lhs rhs : Chain) :
    (Chain.binary (additive minus') lhs rhs).endSum (additive minus) first =
      .binary .add first (rhs.endSum (additive minus') (lhs.toExpr.signed minus)) := by
  cases minus <;> cases minus' <;> rfl

theorem endProduct_multiplicative (slash slash' : Bool) (first : Expr) (lhs rhs : Chain) :
    (Chain.binary (multiplicative slash') lhs rhs).endProduct (multiplicative slash) first =
      rhs.endProduct (multiplicative slash') (.binary (multiplicative slash) first lhs.toExpr) := by
  cases slash <;> cases slash' <;> rfl

theorem toExpr_additive (minus : Bool) (lhs rhs : Chain) :
    (Chain.binary (additive minus) lhs rhs).toExpr = rhs.endSum (additive minus) lhs.toExpr := by
  cases minus <;> rfl

theorem toExpr_multiplicative (slash : Bool) (lhs rhs : Chain) :
    (Chain.binary (multiplicative slash) lhs rhs).toExpr =
      rhs.endProduct (multiplicative slash) lhs.toExpr := by
  cases slash <;> rfl

mutual

theorem Sum.toExpr_chain (s : Sum) (m : Marks) :
    (s.chain m).toExpr = s.expr.signed m.negated := by
  cases s with
  | of first rest =>
    cases rest with
    | stop => exact first.toExpr_chain m
    | step minus next rest =>
      change (m.wrap (.binary (additive minus) (first.chain {}) _)).toExpr = _
      rw [toExpr_wrap, toExpr_additive, rest.endSum_chain minus (next.toExpr_chain {}),
        first.toExpr_chain]
      rfl

theorem SumRest.endSum_chain (rest : SumRest) (minus : Bool) {next : Product}
    (hnext : (next.chain {}).toExpr = next.expr) (first : Expr) :
    (rest.chain (fun m => next.chain m) {}).endSum (additive minus) first =
      (SumRest.step minus next rest).expr first := by
  cases rest with
  | stop =>
    cases next with
    | of a more =>
      cases more with
      | stop =>
        change (a.chain {}).endSum (additive minus) first = _
        rw [endSum_of_enclosed (a.enclosed_chain {}),
          show (a.chain {}).toExpr = (Product.of a .stop).expr from hnext]
        cases minus <;> rfl
      | step slash b more =>
        have hterm := endSum_multiplicative minus slash first (a.chain {})
          (more.chain (fun m => b.chain m) {})
        refine hterm.trans ?_
        rw [show (Chain.binary (multiplicative slash) (a.chain {})
          (more.chain (fun m => b.chain m) {})).toExpr = _ from hnext]
        cases minus <;> rfl
  | step minus' q rest =>
    have hterm := endSum_additive minus minus' first (next.chain {})
      (rest.chain (fun m => q.chain m) {})
    refine hterm.trans ?_
    rw [hnext, rest.endSum_chain minus' (q.toExpr_chain {})]
    rw [SumRest.expr.eq_2 first minus next, takesMinus_step, Bool.and_not_self]
    rfl

theorem Product.toExpr_chain (p : Product) (m : Marks) :
    (p.chain m).toExpr = p.expr.signed m.negated := by
  cases p with
  | of first rest =>
    cases rest with
    | stop => exact first.toExpr_chain m
    | step slash next rest =>
      change (m.wrap (.binary (multiplicative slash) (first.chain {}) _)).toExpr = _
      rw [toExpr_wrap, toExpr_multiplicative, rest.endProduct_chain slash (next.toExpr_chain {}),
        first.toExpr_chain]
      rfl

theorem ProductRest.endProduct_chain (rest : ProductRest) (slash : Bool) {next : Atom}
    (hnext : (next.chain {}).toExpr = next.expr) (first : Expr) :
    (rest.chain (fun m => next.chain m) {}).endProduct (multiplicative slash) first =
      (ProductRest.step slash next rest).expr first := by
  cases rest with
  | stop =>
    change (next.chain {}).endProduct (multiplicative slash) first = _
    rw [endProduct_of_enclosed (next.enclosed_chain {}), hnext]
    rfl
  | step slash' n rest =>
    have hterm := endProduct_multiplicative slash slash' first (next.chain {})
      (rest.chain (fun m => n.chain m) {})
    refine hterm.trans ?_
    rw [hnext, rest.endProduct_chain slash' (n.toExpr_chain {})]
    rfl

theorem Atom.toExpr_chain (a : Atom) (m : Marks) :
    (a.chain m).toExpr = a.expr.signed m.negated := by
  cases a with
  | named x => cases hm : m.negated <;> simp [Atom.chain, Marks.operand, toExpr,
      Atom.expr, hm, Expr.negated, Operand.flip]
  | number n => cases hm : m.negated <;> simp [Atom.chain, Marks.operand, toExpr,
      Atom.expr, hm, Expr.negated, Operand.flip]
  | minus inner =>
    change (inner.chain { m with negated := !m.negated }).toExpr = inner.expr.negated.signed _
    rw [inner.toExpr_chain, Expr.signed_negated]
  | group inner => exact inner.toExpr_chain { m with grouped := true }

end

end Source
end FortressLang
