import FortressLang.Proofs.SimplifiedSum
import FortressLang.Proofs.SourceProgram
import FortressLang.Proofs.WrittenTokens

/-! The text of an expression as a written sum: every operation is a group, and a sign is a minus in
front of a name or a number. The text is cut into the words of that sum, though no blanks stand
around parentheses and signs. -/
namespace FortressLang

open Source (isVariable isProgramName variableWord numberWord)

def Value.wellNamed : Value → Bool
  | .variable x => isVariable x
  | .constant n => decide (0 ≤ n)

def Expr.wellNamed : Expr → Bool
  | operand o => o.value.wellNamed
  | binary _ lhs rhs => lhs.wellNamed && rhs.wellNamed

def Operator.terminal : Operator → Terminal
  | add => .plus
  | sub => .minus
  | mul => .times
  | div => .divide

theorem Operator.terminal_mem_marks (op : Operator) : op.terminal ∈ Terminal.marks := by
  cases op <;> decide

theorem Operator.lexeme_terminal (op : Operator) :
    (Word.fixed op.terminal).lexeme = op.text := by
  cases op <;> rfl

namespace Source

def Atom.ofValue : Value → Atom
  | .variable x => .named x
  | .constant n => .number n

def Sum.ofOperator (op : Operator) (lhs rhs : Atom) : Sum :=
  match op with
  | .add => .of (.of lhs .stop) (.step false (.of rhs .stop) .stop)
  | .sub => .of (.of lhs .stop) (.step true (.of rhs .stop) .stop)
  | .mul => .of (.of lhs (.step false rhs .stop)) .stop
  | .div => .of (.of lhs (.step true rhs .stop)) .stop

def Atom.ofExpr : Expr → Atom
  | .operand o => if o.negated then .minus (ofValue o.value) else ofValue o.value
  | .binary op lhs rhs => .group (.ofOperator op (ofExpr lhs) (ofExpr rhs))

def Sum.ofAtom (a : Atom) : Sum := .of (.of a .stop) .stop

@[simp] theorem Sum.expr_ofOperator (op : Operator) (lhs rhs : Atom) :
    (Sum.ofOperator op lhs rhs).expr = .binary op lhs.expr rhs.expr := by
  cases op <;> rfl

@[simp] theorem Sum.words_ofOperator (op : Operator) (lhs rhs : Atom) :
    (Sum.ofOperator op lhs rhs).words = lhs.words ++ .fixed op.terminal :: rhs.words := by
  cases op <;> simp [ofOperator, words, SumRest.words, Product.words, ProductRest.words,
    Operator.terminal]

@[simp] theorem Sum.wellNamed_ofOperator (op : Operator) (lhs rhs : Atom) :
    (Sum.ofOperator op lhs rhs).wellNamed = (lhs.wellNamed && rhs.wellNamed) := by
  cases op <;> simp [ofOperator, wellNamed, SumRest.wellNamed, Product.wellNamed,
    ProductRest.wellNamed]

@[simp] theorem Sum.expr_ofAtom (a : Atom) : (Sum.ofAtom a).expr = a.expr := rfl

@[simp] theorem Sum.words_ofAtom (a : Atom) : (Sum.ofAtom a).words = a.words := by
  simp [ofAtom, words, SumRest.words, Product.words, ProductRest.words]

@[simp] theorem Sum.wellNamed_ofAtom (a : Atom) : (Sum.ofAtom a).wellNamed = a.wellNamed := by
  simp [ofAtom, wellNamed, SumRest.wellNamed, Product.wellNamed, ProductRest.wellNamed]

/-- No sign is moved and nothing is turned, so the sum means the expression again. -/
theorem Atom.expr_ofExpr (e : Expr) : (Atom.ofExpr e).expr = e := by
  induction e with
  | operand o =>
    obtain ⟨value, negated⟩ := o
    cases value <;> cases negated <;> rfl
  | binary op lhs rhs ihl ihr => rw [ofExpr, Atom.expr, Sum.expr_ofOperator, ihl, ihr]

theorem Atom.wellNamed_ofExpr (e : Expr) : (Atom.ofExpr e).wellNamed = e.wellNamed := by
  induction e with
  | operand o =>
    obtain ⟨value, negated⟩ := o
    cases value <;> cases negated <;> rfl
  | binary op lhs rhs ihl ihr =>
    rw [ofExpr, Atom.wellNamed, Sum.wellNamed_ofOperator, ihl, ihr, Expr.wellNamed]

end Source

theorem nameEnds_cons {c : Char} (hc : Piece.isNameChar c = false) (cs : List Char) :
    NameEnds (c :: cs) := by
  rintro d ⟨⟩
  exact hc

/-- In front of this rest the text is cut into these words, and gaps. -/
def CutsInto (cs : List Char) (ws : List Word) (rest : List Char) : Prop :=
  ∀ pos : Position, ∃ tokens : List Token,
    Piece.results pos (cs ++ rest) = tokens.map .ok ++ Piece.results (pos.advance cs) rest ∧
      tokens.map Token.word = ws

namespace CutsInto

variable {cs ds rest : List Char} {ws vs : List Word}

theorem append (h : CutsInto cs ws (ds ++ rest)) (h' : CutsInto ds vs rest) :
    CutsInto (cs ++ ds) (ws ++ vs) rest := by
  intro pos
  obtain ⟨tokens, htokens, hwords⟩ := h pos
  obtain ⟨tokens', htokens', hwords'⟩ := h' (pos.advance cs)
  refine ⟨tokens ++ tokens', ?_, by rw [List.map_append, hwords, hwords']⟩
  rw [List.append_assoc, htokens, htokens', List.map_append, List.append_assoc,
    Position.advance_append]

theorem blank (h : CutsInto cs ws rest) : CutsInto (' ' :: cs) ws rest := by
  intro pos
  obtain ⟨tokens, htokens, hwords⟩ := h (pos.advance [' '])
  refine ⟨tokens, ?_, hwords⟩
  rw [List.cons_append, Piece.results_blank (by decide), htokens]
  rfl

theorem of_exact {t : Terminal} (h : Piece.Exact (.lexeme t) cs rest) :
    CutsInto cs [⟨t, String.ofList cs⟩] rest :=
  fun pos => ⟨[⟨t, String.ofList cs, pos⟩], h.results pos, rfl⟩

theorem word {w : Word} (hw : Lexeme w.terminal w.lexeme.toList) (hrest : NameEnds rest) :
    CutsInto w.lexeme.toList [w] rest := by
  have hcut := of_exact (hw.exact hrest)
  rwa [String.ofList_toList] at hcut

theorem spaced {w : Word} (hw : Lexeme w.terminal w.lexeme.toList) (h : CutsInto cs ws rest) :
    CutsInto (w.lexeme.toList ++ ' ' :: cs) (w :: ws) rest :=
  (word hw (nameEnds_cons (by decide) _)).append h.blank

theorem mark {t : Terminal} (ht : t ∈ Terminal.marks) (rest : List Char) :
    CutsInto t.spelling.toList [.fixed t] rest := by
  have hexact : Piece.Exact (.lexeme t) t.spelling.toList rest := .mark ht
  have hcut := of_exact hexact
  rwa [String.ofList_toList] at hcut

theorem ofText {text : String} (h : CutsInto text.toList ws []) :
    ∃ (tokens : List Token) (finish : Position),
      TokenStream.ofText text = ⟨tokens.map .ok, finish⟩ ∧ tokens.map Token.word = ws := by
  obtain ⟨tokens, htokens, hwords⟩ := h {}
  have hnone (pos : Position) : Piece.results pos [] = [] := by simp [Piece.results, Piece.cut]
  rw [List.append_nil, hnone, List.append_nil] at htokens
  exact ⟨tokens, _, congrArg (TokenStream.mk · _) htokens, hwords⟩

end CutsInto

theorem lexeme_variable {x : String} (hx : isVariable x = true) : Lexeme .varName x.toList := by
  unfold isVariable at hx
  split at hx
  · rename_i c cs hcs
    rw [Bool.and_eq_true] at hx
    exact .varName ⟨c, cs, hcs, hx.1, List.all_eq_true.mp hx.2⟩
  · cases hx

theorem lexeme_programName {x : String} (hx : isProgramName x = true) :
    Lexeme .progName x.toList := by
  unfold isProgramName at hx
  split at hx
  · rename_i c cs hcs
    simp only [Bool.and_eq_true, Option.isNone_iff_eq_none] at hx
    refine .progName ⟨c, cs, hcs, hx.1.1, List.all_eq_true.mp hx.1.2⟩ fun t ht hspelling => ?_
    have hother := List.find?_eq_none.mp hx.2 t ht
    rw [← String.toList_injective hspelling] at hother
    simp at hother
  · cases hx

theorem lexeme_numeral (n : Int32) :
    Lexeme .number (numberWord n).lexeme.toList := by
  have hlexeme : (numberWord n).lexeme.toList = Nat.toDigits 10 n.toInt.toNat := Nat.toList_repr
  have hdigits : ∀ d ∈ Nat.toDigits 10 n.toInt.toNat, d.isDigit = true := fun d hd =>
    Nat.isDigit_of_mem_toDigits (by decide) (by decide) hd
  have hvalue : numeralValue (Nat.toDigits 10 n.toInt.toNat) < 2 ^ 31 := by
    have hlt := n.toInt_lt
    rw [numeralValue, Nat.ofDigitChars_toDigits (by decide) (by decide)]
    omega
  rw [hlexeme]
  refine .number ?_ hvalue
  cases hcs : Nat.toDigits 10 n.toInt.toNat with
  | nil => exact absurd hcs Nat.toDigits_ne_nil
  | cons c cs =>
    rw [hcs, List.forall_mem_cons] at hdigits
    exact ⟨c, cs, rfl, hdigits.1, hdigits.2⟩

theorem toString_of_nonneg {n : Int32} (hn : 0 ≤ n) : toString n.toInt = (numberWord n).lexeme := by
  obtain ⟨k, hk⟩ := Int.eq_ofNat_of_zero_le (Int32.le_iff_toInt_le.mp hn)
  have hword : (numberWord n).lexeme = Nat.repr k := by
    rw [numberWord, hk]
    rfl
  rw [hword, hk]
  rfl

variable {rest : List Char}

theorem Operand.cutsInto {o : Operand} (ho : o.value.wellNamed = true) (hrest : NameEnds rest) :
    CutsInto o.text.toList (Source.Atom.ofExpr (.operand o)).words rest := by
  obtain ⟨value, negated⟩ := o
  have hvalue : CutsInto (Operand.text ⟨value, false⟩).toList (Source.Atom.ofValue value).words
      rest := by
    rcases value with x | n
    · simp only [text, Bool.false_eq_true, if_false, String.empty_append]
      exact CutsInto.word (show Lexeme (variableWord x).terminal _ from lexeme_variable ho) hrest
    · have hn : 0 ≤ n := of_decide_eq_true ho
      simp only [text, Bool.false_eq_true, if_false, String.empty_append, toString_of_nonneg hn]
      exact CutsInto.word (lexeme_numeral n) hrest
  cases negated with
  | false => exact hvalue
  | true =>
    have hsigned := (CutsInto.mark (t := .minus) (by decide) _).append hvalue
    have htext : (Operand.text ⟨value, true⟩).toList =
        Terminal.minus.spelling.toList ++ (Operand.text ⟨value, false⟩).toList := by
      simp [text, Terminal.spelling]
    rw [htext]
    exact hsigned

/-- By induction on the expression: what stands behind an operand of an operation is a blank or a
parenthesis, where names end. -/
theorem Expr.cutsInto (e : Expr) (he : e.wellNamed = true) (hrest : NameEnds rest) :
    CutsInto e.text.toList (Source.Atom.ofExpr e).words rest := by
  induction e generalizing rest with
  | operand o => exact Operand.cutsInto he hrest
  | binary op lhs rhs ihl ihr =>
    rw [wellNamed, Bool.and_eq_true] at he
    have hclose := CutsInto.mark (t := .rparen) (by decide) rest
    have hright := (ihr he.2 (nameEnds_cons (by decide) rest)).append hclose
    have hop := CutsInto.spaced (w := .fixed op.terminal) (.mark op.terminal_mem_marks) hright
    have hleft := (ihl he.1 (nameEnds_cons (by decide) _)).append hop.blank
    have hopen := (CutsInto.mark (t := .lparen) (by decide) _).append hleft
    have htext : (binary op lhs rhs).text.toList =
        Terminal.lparen.spelling.toList ++ (lhs.text.toList ++
          ' ' :: ((Word.fixed op.terminal).lexeme.toList ++
            ' ' :: (rhs.text.toList ++ Terminal.rparen.spelling.toList))) := by
      simp [text, op.lexeme_terminal, Terminal.spelling]
    have hwords : (Source.Atom.ofExpr (binary op lhs rhs)).words =
        [.fixed .lparen] ++ ((Source.Atom.ofExpr lhs).words ++ .fixed op.terminal ::
          ((Source.Atom.ofExpr rhs).words ++ [.fixed .rparen])) := by
      simp [Source.Atom.ofExpr, Source.Atom.words]
    rw [htext, hwords]
    exact hopen

end FortressLang
