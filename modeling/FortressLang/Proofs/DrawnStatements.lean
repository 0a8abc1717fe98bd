import FortressLang.Proofs.BracketText
import FortressLang.Proofs.MainText
import FortressLang.Proofs.NamedOperations

/-! What a drawing shows of a statement, and that nothing else of it can be drawn alike. Operands
are nodes without children, so that none is taken for an operator. -/
namespace FortressLang

open Source (isVariable)

def Expr.drawing : Expr → Drawing
  | operand o => .node o.text []
  | binary op lhs rhs => .node op.text [lhs.drawing, rhs.drawing]

def Condition.drawing (c : Condition) : Drawing :=
  .node c.comparison.text [c.lhs.drawing, c.rhs.drawing]

inductive Sketch
  | assignment (target : String) (value : Expr)
  | test (c : Condition)
  | name (x : String)
  deriving DecidableEq

/-- Branches and loops are drawn alike, by what they test, and so are printing and reading, by their
variable. -/
def Statement.sketch : Statement → Sketch
  | assign target value => .assignment target value
  | branch c _ _ | loop c _ => .test c
  | print name | read name => .name name

def Sketch.drawing : Sketch → Drawing
  | assignment target value => .node ":=" [.node target [], value.drawing]
  | test c => c.drawing
  | name x => .node x []

theorem Expr.text_drawing (e : Expr) : e.drawing.text = TreeDrawing.ofExpr e := by
  induction e with
  | operand o => rfl
  | binary op lhs rhs ihl ihr =>
    rw [drawing, TreeDrawing.ofExpr, ← ihl, ← ihr]
    rfl

theorem Condition.text_drawing (c : Condition) : c.drawing.text = TreeDrawing.ofCondition c := by
  rw [TreeDrawing.ofCondition, ← c.lhs.text_drawing, ← c.rhs.text_drawing]
  rfl

theorem Statement.text_drawing (s : Statement) :
    s.sketch.drawing.text = TreeDrawing.ofStatement s := by
  cases s with
  | assign target value =>
    rw [TreeDrawing.ofStatement, ← value.text_drawing]
    rfl
  | branch c _ _ | loop c _ => exact c.text_drawing
  | print name | read name => rfl

theorem isLabelChar_of_isNameChar {c : Char} (h : Piece.isNameChar c = true) :
    isLabelChar c = true := by
  by_contra hmark
  have hnone : ['[', ']', '\x7b', '\x7d', '$'].all (!Piece.isNameChar ·) = true := by decide
  simp only [isLabelChar, decide_eq_true_eq, not_not] at hmark
  simpa [h] using List.all_eq_true.mp hnone c hmark

theorem isLabel_variable {x : String} (h : isVariable x = true) : IsLabel x :=
  fun c hc => isLabelChar_of_isNameChar (isNameChar_variable h c hc)

theorem isLabel_toString (n : Int) : IsLabel (toString n) := by
  intro c hc
  rcases mem_toString hc with rfl | hdigit
  · decide
  · exact isLabelChar_of_isNameChar (Piece.isNameChar_of_isDigit hdigit)

def Value.text : Value → String
  | .variable name => name
  | .constant n => toString n.toInt

theorem Operand.text_eq (o : Operand) :
    o.text = (if o.negated then "-" else "") ++ o.value.text := by
  obtain ⟨v, negated⟩ := o
  cases v <;> rfl

theorem Value.isLabel_text {v : Value} (h : ∀ x, v.name? = some x → isVariable x = true) :
    IsLabel v.text := by
  rcases v with x | n
  · exact isLabel_variable (h x rfl)
  · exact isLabel_toString n.toInt

theorem Operand.isLabel_text {o : Operand} (h : ∀ x, o.value.name? = some x → isVariable x = true) :
    IsLabel o.text := by
  intro c hc
  rw [text_eq, String.toList_append, List.mem_append] at hc
  rcases hc with hsign | hvalue
  · split at hsign
    · obtain rfl := List.mem_singleton.mp hsign
      decide
    · cases hsign
  · exact Value.isLabel_text h c hvalue

theorem Operator.isLabel_text (op : Operator) : IsLabel op.text :=
  List.all_eq_true.mp (by cases op <;> decide)

theorem Comparison.isLabel_text (c : Comparison) : IsLabel c.text :=
  List.all_eq_true.mp (by cases c <;> decide)

theorem Expr.labelled_drawing {e : Expr} (h : ∀ x ∈ e.names, isVariable x = true) :
    e.drawing.Labelled := by
  induction e with
  | operand o =>
    refine ⟨Operand.isLabel_text fun x hx => h x ?_, trivial⟩
    simp [names, values, hx]
  | binary op lhs rhs ihl ihr =>
    rw [names, values, List.filterMap_append, List.forall_mem_append] at h
    exact ⟨op.isLabel_text, ihl h.1, ihr h.2, trivial⟩

theorem Condition.labelled_drawing {c : Condition} (h : ∀ x ∈ c.names, isVariable x = true) :
    c.drawing.Labelled := by
  rw [names, List.forall_mem_append] at h
  exact ⟨c.comparison.isLabel_text, Expr.labelled_drawing h.1, Expr.labelled_drawing h.2, trivial⟩

theorem Statement.labelled_drawing {s : Statement} (h : ∀ x ∈ s.names, isVariable x = true) :
    s.sketch.drawing.Labelled := by
  cases s with
  | assign target value =>
    rw [names, List.forall_mem_cons] at h
    refine ⟨List.all_eq_true.mp (by decide), ⟨isLabel_variable h.1, trivial⟩, ?_, trivial⟩
    exact Expr.labelled_drawing h.2
  | branch c ts es =>
    simp only [names, List.forall_mem_append] at h
    exact Condition.labelled_drawing h.1.1
  | loop c ss =>
    simp only [names, List.forall_mem_append] at h
    exact Condition.labelled_drawing h.1
  | print name | read name => exact ⟨isLabel_variable (h name List.mem_cons_self), trivial⟩

namespace Value

variable {v w : Value} (hv : v.wellNamed = true) (hw : w.wellNamed = true)

include hv

theorem minus_not_mem_text : '-' ∉ v.text.toList := by
  rcases v with x | n
  · exact not_mem_of_isNameChar (isNameChar_variable hv) (by decide)
  · have hn : (0 : Int) ≤ n.toInt := Int32.le_iff_toInt_le.mp (of_decide_eq_true hv)
    rw [text, toList_toString, if_neg (by omega)]
    exact not_mem_toDigits (by decide) _

include hw

theorem text_inj (h : v.text = w.text) : v = w := by
  have hletter {x : String} (hx : isVariable x = true) (n : Int) : x ≠ toString n := by
    rintro rfl
    unfold Source.isVariable at hx
    split at hx
    · rename_i c cs htext
      rw [Bool.and_eq_true] at hx
      rcases mem_toString (htext ▸ List.mem_cons_self) with rfl | hdigit
      · exact absurd hx.1 (by decide)
      · exact Piece.not_isDigit_of_isLower hx.1 hdigit
    · cases hx
  rcases v with x | n <;> rcases w with y | m
  · exact congrArg _ h
  · exact absurd h (hletter hv m.toInt)
  · exact absurd h.symm (hletter hw n.toInt)
  · have hread := congrArg (fun s => Decimal.integer? s.toList) h
    simp only [text, Decimal.integer?_toString, Option.some.injEq] at hread
    exact congrArg _ (Int32.toInt_inj.mp hread)

end Value

theorem Operand.text_inj {o o' : Operand} (h : o.value.wellNamed = true)
    (h' : o'.value.wellNamed = true) (heq : o.text = o'.text) : o = o' := by
  obtain ⟨v, negated⟩ := o
  obtain ⟨w, negated'⟩ := o'
  have hminus {v w : Value} (hw : w.wellNamed = true) : "-" ++ v.text ≠ w.text := fun h =>
    Value.minus_not_mem_text hw (h ▸ by simp)
  cases negated <;> cases negated'
  · have hvalue : v = w := Value.text_inj h h' (by simpa [text_eq] using heq)
    rw [hvalue]
  · exact absurd (by simpa [text_eq] using heq.symm) (hminus h)
  · exact absurd (by simpa [text_eq] using heq) (hminus h')
  · have hvalue : v = w := Value.text_inj h h' (by simpa [text_eq] using heq)
    rw [hvalue]

theorem Operator.text_inj {op op' : Operator} (h : op.text = op'.text) : op = op' := by
  cases op <;> cases op' <;> first | rfl | exact absurd h (by decide)

theorem Comparison.text_inj {c c' : Comparison} (h : c.text = c'.text) : c = c' := by
  cases c <;> cases c' <;> first | rfl | exact absurd h (by decide)

theorem Expr.drawing_inj {e f : Expr} (he : e.wellNamed = true) (hf : f.wellNamed = true)
    (h : e.drawing = f.drawing) : e = f := by
  induction e generalizing f with
  | operand o =>
    cases f with
    | operand o' => exact congrArg _ (Operand.text_inj he hf (Drawing.node.inj h).1)
    | binary op lhs rhs => cases (Drawing.node.inj h).2
  | binary op lhs rhs ihl ihr =>
    cases f with
    | operand o => cases (Drawing.node.inj h).2
    | binary op' lhs' rhs' =>
      rw [wellNamed, Bool.and_eq_true] at he hf
      simp only [drawing, Drawing.node.injEq, List.cons.injEq, and_true] at h
      obtain ⟨hop, hl, hr⟩ := h
      rw [ihl he.1 hf.1 hl, ihr he.2 hf.2 hr, Operator.text_inj hop]

theorem Condition.drawing_inj {c c' : Condition} (hc : c.wellNamed = true)
    (hc' : c'.wellNamed = true) (h : c.drawing = c'.drawing) : c = c' := by
  obtain ⟨lhs, comparison, rhs⟩ := c
  obtain ⟨lhs', comparison', rhs'⟩ := c'
  rw [wellNamed, Bool.and_eq_true] at hc hc'
  simp only [drawing, Drawing.node.injEq, List.cons.injEq, and_true] at h
  obtain ⟨hcomparison, hl, hr⟩ := h
  obtain rfl := Comparison.text_inj hcomparison
  obtain rfl := Expr.drawing_inj hc.1 hc'.1 hl
  obtain rfl := Expr.drawing_inj hc.2 hc'.2 hr
  rfl

namespace Sketch

def wellNamed : Sketch → Bool
  | assignment _ value => value.wellNamed
  | test c => c.wellNamed
  | name _ => true

theorem drawing_inj {k l : Sketch} (hk : k.wellNamed = true) (hl : l.wellNamed = true)
    (h : k.drawing = l.drawing) : k = l := by
  have hassign (c : Comparison) : ":=" ≠ c.text := by cases c <;> decide
  rcases k with ⟨target, value⟩ | c | x <;> rcases l with ⟨target', value'⟩ | c' | x'
  case assignment.assignment =>
    simp only [drawing, Drawing.node.injEq, List.cons.injEq, and_true, true_and] at h
    rw [h.1, Expr.drawing_inj hk hl h.2]
  case test.test => rw [Condition.drawing_inj hk hl h]
  case name.name => rw [(Drawing.node.inj h).1]
  case assignment.test => exact absurd (Drawing.node.inj h).1 (hassign c'.comparison)
  case test.assignment => exact absurd (Drawing.node.inj h).1.symm (hassign c.comparison)
  all_goals cases (Drawing.node.inj h).2

end Sketch

theorem Statement.wellNamed_sketch {s : Statement} (h : s.wellNamed = true) :
    s.sketch.wellNamed = true := by
  cases s with
  | assign target value => exact (Bool.and_eq_true_iff.mp h).2
  | branch c ts es => exact (Bool.and_eq_true_iff.mp (Bool.and_eq_true_iff.mp h).1).1
  | loop c ss => exact (Bool.and_eq_true_iff.mp h).1
  | print name | read name => rfl

theorem TreeDrawing.ofStatement_inj {s r : Statement} (hs : s.wellNamed = true)
    (hr : r.wellNamed = true) (h : ofStatement s = ofStatement r) : s.sketch = r.sketch := by
  rw [← s.text_drawing, ← r.text_drawing] at h
  have hlabels {s : Statement} (hs : s.wellNamed = true) : s.sketch.drawing.Labelled :=
    Statement.labelled_drawing ((Statement.wellNamed_iff_names s).mp hs).1
  have hsame : s.sketch.drawing = r.sketch.drawing ∧ ([] : List Char) = [] :=
    Drawing.text_inj (hlabels hs) (hlabels hr) (by rw [h])
  exact Sketch.drawing_inj (Statement.wellNamed_sketch hs) (Statement.wellNamed_sketch hr) hsame.1

theorem TreeDrawing.ofStatement_congr {s r : Statement} (h : s.sketch = r.sketch) :
    ofStatement s = ofStatement r := by
  rw [← s.text_drawing, h, r.text_drawing]

theorem TreeDrawing.ofProgram_eq_ok {p : Program} {d : String} : ofProgram p = .ok d ↔
    ∃ s, p.statements.head? = some s ∧ header ++ ofStatement s ++ footer = d := by
  unfold ofProgram
  cases p.statements with
  | nil => simp
  | cons s ss => simp

section

variable {s : Statement} {ss : List Statement} (h : ss.head? = some s)

include h

theorem Statement.names_subset : s.names ⊆ namesAll ss := by
  obtain ⟨rest, rfl⟩ := List.head?_eq_some_iff.mp h
  exact List.subset_append_left _ _

theorem Statement.wellNamed_head (hss : wellNamedAll ss = true) : s.wellNamed = true := by
  obtain ⟨rest, rfl⟩ := List.head?_eq_some_iff.mp h
  exact (Bool.and_eq_true_iff.mp hss).1

end

theorem TreeDrawing.balanced_ofProgram {p : Program}
    (h : ∀ x ∈ Statement.namesAll p.statements, isVariable x = true) {d : String}
    (hd : ofProgram p = .ok d) : Balanced d.toList := by
  obtain ⟨s, hs, rfl⟩ := ofProgram_eq_ok.mp hd
  have hheader : Balanced header.toList := by decide +kernel
  have hfooter : Balanced footer.toList := by decide +kernel
  have hnames := fun x hx => h x (Statement.names_subset hs hx)
  have hdrawing := Drawing.balanced_text (Statement.labelled_drawing hnames)
  rw [s.text_drawing] at hdrawing
  rw [String.toList_append, String.toList_append]
  exact (hheader.append hdrawing).append hfooter

/-- For all programs whose variables are named as they may be: every document is balanced, and if no
constant is negative, two programs have the same document exactly if both have a first statement and
the same is drawn of both: an assignment with its target and its value, the condition of a branch or
a loop, or the variable that is printed or read. -/
theorem drawing_determines_sketch {p q : Program}
    (hp : ∀ x ∈ Statement.namesAll p.statements, isVariable x = true)
    (hq : ∀ x ∈ Statement.namesAll q.statements, isVariable x = true) :
    ((∀ n ∈ Statement.constantsAll p.statements, 0 ≤ n) →
      (∀ n ∈ Statement.constantsAll q.statements, 0 ≤ n) →
      ((∃ d, TreeDrawing.ofProgram p = .ok d ∧ TreeDrawing.ofProgram q = .ok d) ↔
        ∃ s r, p.statements.head? = some s ∧ q.statements.head? = some r ∧
          s.sketch = r.sketch)) ∧
    ∀ d, TreeDrawing.ofProgram p = .ok d → Balanced d.toList := by
  refine ⟨fun hpn hqn => ⟨?_, ?_⟩, fun d => TreeDrawing.balanced_ofProgram hp⟩
  · rintro ⟨d, hpd, hqd⟩
    obtain ⟨s, hs, rfl⟩ := TreeDrawing.ofProgram_eq_ok.mp hpd
    obtain ⟨r, hr, hdocument⟩ := TreeDrawing.ofProgram_eq_ok.mp hqd
    have hwell := Statement.wellNamed_head hs ((Statement.wellNamedAll_iff_names _).mpr ⟨hp, hpn⟩)
    have hwell' := Statement.wellNamed_head hr ((Statement.wellNamedAll_iff_names _).mpr ⟨hq, hqn⟩)
    have hdrawing : TreeDrawing.ofStatement r = TreeDrawing.ofStatement s :=
      String.toList_injective (by simpa using congrArg String.toList hdocument)
    exact ⟨s, r, hs, hr, (TreeDrawing.ofStatement_inj hwell' hwell hdrawing).symm⟩
  · rintro ⟨s, r, hs, hr, hsketch⟩
    refine ⟨_, TreeDrawing.ofProgram_eq_ok.mpr ⟨s, hs, rfl⟩, ?_⟩
    rw [TreeDrawing.ofStatement_congr hsketch]
    exact TreeDrawing.ofProgram_eq_ok.mpr ⟨r, hr, rfl⟩

def drawnCondition : Condition where
  lhs := .operand ⟨.variable "a", true⟩
  comparison := .smaller
  rhs := .binary .sub (.operand ⟨.constant 3, false⟩) (.operand ⟨.variable "b2", false⟩)

/-- A loop and a branch with the same condition have one document, and it is balanced. -/
theorem loop_is_drawn_as_branch :
    let p : Program := ⟨"Loop", [.loop drawnCondition [.print "a"]]⟩
    let q : Program := ⟨"Branch", [.branch drawnCondition [] [.read "b2"], .print "c"]⟩
    ((∀ x ∈ Statement.namesAll p.statements, isVariable x = true) ∧
      (∀ x ∈ Statement.namesAll q.statements, isVariable x = true) ∧
      (∀ n ∈ Statement.constantsAll p.statements, 0 ≤ n) ∧
      ∀ n ∈ Statement.constantsAll q.statements, 0 ≤ n) ∧
    ∃ d, TreeDrawing.ofProgram p = .ok d ∧ TreeDrawing.ofProgram q = .ok d ∧
      Balanced d.toList := by
  intro p q
  obtain ⟨hp, hpn⟩ := (Statement.wellNamedAll_iff_names p.statements).mp (by decide +kernel)
  obtain ⟨hq, hqn⟩ := (Statement.wellNamedAll_iff_names q.statements).mp (by decide +kernel)
  obtain ⟨hiff, hbalanced⟩ := drawing_determines_sketch hp hq
  obtain ⟨d, hpd, hqd⟩ := (hiff hpn hqn).mpr ⟨_, _, rfl, rfl, rfl⟩
  exact ⟨⟨hp, hq, hpn, hqn⟩, d, hpd, hqd, hbalanced d hpd⟩

/-- A constant that is negative is drawn as a constant with a minus in front of it. -/
example : TreeDrawing.ofExpr (.operand ⟨.constant (-5), false⟩) =
    TreeDrawing.ofExpr (.operand ⟨.constant 5, true⟩) := by decide +kernel

end FortressLang
