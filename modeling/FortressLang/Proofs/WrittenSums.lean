import FortressLang.Proofs.ParserSoundness
import FortressLang.Proofs.SourceProgram

/-! The words of a sum are derived from the grammar's symbol for sums, with the tree of the sum and
the nesting of the sum. -/
namespace FortressLang

namespace Derives

variable {g : Grammar} {xs ys : List Symbol} {ts us : List Tree} {w v : List Token} {m n : Nat}

theorem append (h : Derives g xs ts w m) (h' : Derives g ys us v n) :
    Derives g (xs ++ ys) (ts ++ us) (w ++ v) (max m n) := by
  induction h with
  | nil => simpa using h'
  | epsilon h ih => exact .epsilon ih
  | token found hf hx h ih => exact .token found hf hx ih
  | node r hr h₁ h₂ ih₁ ih₂ =>
    rw [List.append_assoc, Nat.max_assoc]
    exact .node r hr h₁ ih₂

theorem by_rule (a : Nonterminal) (xs : List Symbol)
    (hr : ∃ r ∈ Grammar.fortress.rulesFor a, r.rhs = xs ∧ ¬r.isEpsilon)
    (h : Derives .fortress xs ts w n) :
    Derives .fortress [.nonterminal a] [.node (.nonterminal a) ts] w (n + nestingOf a) := by
  obtain ⟨r, hr, rfl, he⟩ := hr
  have hnode := Derives.node r hr h .nil
  rwa [List.append_nil, Nat.max_zero, Rule.weight_of_not_isEpsilon he,
    (Grammar.mem_rulesFor.mp hr).2] at hnode

theorem of_vanishing {a : Nonterminal} (hr : ∃ r ∈ g.rulesFor a, r.isEpsilon = true) :
    Derives g [.nonterminal a] [.node (.nonterminal a) []] [] 0 := by
  obtain ⟨r, hr, he⟩ := hr
  have hnode := Derives.node r hr (.bare he) .nil
  rwa [Rule.weight_of_isEpsilon he] at hnode

end Derives

namespace Decimal

theorem natural?_toDigits (n : Nat) : natural? (Nat.toDigits 10 n) = some n := by
  have hdigits : (Nat.toDigits 10 n).all Char.isDigit = true :=
    List.all_eq_true.mpr fun c hc => Nat.isDigit_of_mem_toDigits (by decide) (by decide) hc
  rw [natural?, if_pos ⟨Nat.toDigits_ne_nil, hdigits⟩,
    Nat.ofDigitChars_toDigits (by decide) (by decide)]

theorem fits_toInt (n : Int32) : fits n.toInt = true := by
  have hlt := n.toInt_lt
  have hmax : Int32.maxValue.toInt = 2 ^ 31 - 1 := rfl
  exact decide_eq_true ⟨n.le_toInt, by omega⟩

theorem int32?_toDigits {n : Int32} (hn : 0 ≤ n) :
    int32? (Nat.toDigits 10 n.toInt.toNat) = some n := by
  have hnonneg : 0 ≤ n.toInt := Int32.le_iff_toInt_le.mp hn
  rw [int32?, integer?_of_natural? (natural?_toDigits _), Int.toNat_of_nonneg hnonneg,
    Option.bind_some, if_pos (fits_toInt n), Int32.ofInt_toInt]

end Decimal

namespace Source

theorem whole_variableWord {x : String} (hx : isVariable x = true) : (variableWord x).Whole := by
  unfold isVariable at hx
  split at hx
  · rename_i c cs hcs
    rw [Bool.and_eq_true] at hx
    exact Word.whole_variable hcs hx.1 hx.2 rfl
  · cases hx

theorem whole_programName {x : String} (hx : isProgramName x = true) :
    Word.Whole ⟨.progName, x⟩ := by
  unfold isProgramName at hx
  split at hx
  · rename_i c cs hcs
    simp only [Bool.and_eq_true, Option.isNone_iff_eq_none] at hx
    have hkind : Piece.nameKind (c :: cs) = .lexeme .progName := by
      rw [Piece.nameKind, ← hcs, String.ofList_toList, hx.2]
      rfl
    exact Word.whole_name hcs hx.1.1 hx.1.2 hkind
  · cases hx

theorem whole_numberWord {n : Int32} (hn : 0 ≤ n) : (numberWord n).Whole := by
  have hlexeme : (numberWord n).lexeme.toList = Nat.toDigits 10 n.toInt.toNat := Nat.toList_repr
  have hdigits : ∀ d ∈ (numberWord n).lexeme.toList, d.isDigit = true := fun d hd =>
    Nat.isDigit_of_mem_toDigits (by decide) (by decide) (hlexeme ▸ hd)
  have hkind : Piece.numberKind (numberWord n).lexeme.toList = .lexeme .number := by
    rw [hlexeme, Piece.numberKind, Decimal.int32?_toDigits hn]
    rfl
  cases hw : (numberWord n).lexeme.toList with
  | nil => exact absurd (hlexeme.symm.trans hw) Nat.toDigits_ne_nil
  | cons c cs =>
    rw [hw] at hdigits hkind
    exact Word.whole_number hw hdigits hkind

mutual

theorem Sum.whole_words (s : Sum) (hs : s.wellNamed = true) : ∀ w ∈ s.words, w.Whole := by
  cases s with
  | of first rest =>
    simp only [Sum.wellNamed, Bool.and_eq_true] at hs
    simp only [Sum.words, List.forall_mem_append]
    exact ⟨first.whole_words hs.1, rest.whole_words hs.2⟩

theorem SumRest.whole_words (s : SumRest) (hs : s.wellNamed = true) :
    ∀ w ∈ s.words, w.Whole := by
  cases s with
  | stop => simp [SumRest.words]
  | step minus next rest =>
    simp only [SumRest.wellNamed, Bool.and_eq_true] at hs
    simp only [SumRest.words, List.forall_mem_cons, List.forall_mem_append]
    exact ⟨Word.whole_fixed (by cases minus <;> rfl), next.whole_words hs.1,
      rest.whole_words hs.2⟩

theorem Product.whole_words (s : Product) (hs : s.wellNamed = true) :
    ∀ w ∈ s.words, w.Whole := by
  cases s with
  | of first rest =>
    simp only [Product.wellNamed, Bool.and_eq_true] at hs
    simp only [Product.words, List.forall_mem_append]
    exact ⟨first.whole_words hs.1, rest.whole_words hs.2⟩

theorem ProductRest.whole_words (s : ProductRest) (hs : s.wellNamed = true) :
    ∀ w ∈ s.words, w.Whole := by
  cases s with
  | stop => simp [ProductRest.words]
  | step slash next rest =>
    simp only [ProductRest.wellNamed, Bool.and_eq_true] at hs
    simp only [ProductRest.words, List.forall_mem_cons, List.forall_mem_append]
    exact ⟨Word.whole_fixed (by cases slash <;> rfl), next.whole_words hs.1,
      rest.whole_words hs.2⟩

theorem Atom.whole_words (s : Atom) (hs : s.wellNamed = true) : ∀ w ∈ s.words, w.Whole := by
  cases s with
  | named x =>
    rw [Atom.words, List.forall_mem_singleton]
    exact whole_variableWord hs
  | number n =>
    rw [Atom.words, List.forall_mem_singleton]
    exact whole_numberWord (of_decide_eq_true hs)
  | minus inner =>
    rw [Atom.words, List.forall_mem_cons]
    exact ⟨Word.whole_fixed rfl, inner.whole_words hs⟩
  | group inner =>
    rw [Atom.words, List.forall_mem_cons, List.forall_mem_append, List.forall_mem_singleton]
    exact ⟨Word.whole_fixed rfl, inner.whole_words hs, Word.whole_fixed rfl⟩

end

mutual

theorem Sum.exists_derives (s : Sum) (hs : s.wellNamed = true) {w : List Token}
    (hw : w.map Token.word = s.words) :
    ∃ t, Derives .fortress [.nonterminal .sum] [t] w s.nesting ∧ s.Spelled t := by
  cases s with
  | of first rest =>
    simp only [Sum.wellNamed, Bool.and_eq_true] at hs
    obtain ⟨wf, wr, rfl, hwf, hwr⟩ := List.map_eq_append_iff.mp hw
    obtain ⟨p, hp, hpt⟩ := first.exists_derives hs.1 hwf
    obtain ⟨r, hr, hrt⟩ := rest.exists_derives hs.2 hwr
    have hsum := Derives.by_rule .sum [.nonterminal .product, .nonterminal .sumRest] (by decide)
      (hp.append hr)
    exact ⟨_, hsum, p, r, rfl, hpt, hrt⟩

theorem SumRest.exists_derives (s : SumRest) (hs : s.wellNamed = true) {w : List Token}
    (hw : w.map Token.word = s.words) :
    ∃ t, Derives .fortress [.nonterminal .sumRest] [t] w s.nesting ∧ s.Spelled t := by
  cases s with
  | stop =>
    obtain rfl := List.map_eq_nil_iff.mp hw
    exact ⟨_, .of_vanishing (by decide), rfl⟩
  | step minus next rest =>
    simp only [SumRest.wellNamed, Bool.and_eq_true] at hs
    obtain ⟨o, w, rfl, ho, hw⟩ := List.map_eq_cons_iff.mp hw
    obtain ⟨wn, wr, rfl, hwn, hwr⟩ := List.map_eq_append_iff.mp hw
    obtain ⟨p, hp, hpt⟩ := next.exists_derives hs.1 hwn
    obtain ⟨r, hr, hrt⟩ := rest.exists_derives hs.2 hwr
    have hot : o.terminal = if minus then .minus else .plus := Token.terminal_of_word ho
    have hrest := Derives.by_rule .sumRest [.terminal (if minus then .minus else .plus),
      .nonterminal .product, .nonterminal .sumRest] (by cases minus <;> decide)
      (.token o hot (by cases minus <;> decide) (hp.append hr))
    exact ⟨_, hrest, o, p, r, rfl, hot, hpt, hrt⟩

theorem Product.exists_derives (s : Product) (hs : s.wellNamed = true) {w : List Token}
    (hw : w.map Token.word = s.words) :
    ∃ t, Derives .fortress [.nonterminal .product] [t] w s.nesting ∧ s.Spelled t := by
  cases s with
  | of first rest =>
    simp only [Product.wellNamed, Bool.and_eq_true] at hs
    obtain ⟨wf, wr, rfl, hwf, hwr⟩ := List.map_eq_append_iff.mp hw
    obtain ⟨a, ha, hat⟩ := first.exists_derives hs.1 hwf
    obtain ⟨r, hr, hrt⟩ := rest.exists_derives hs.2 hwr
    have hproduct := Derives.by_rule .product [.nonterminal .atom, .nonterminal .productRest]
      (by decide) (ha.append hr)
    exact ⟨_, hproduct, a, r, rfl, hat, hrt⟩

theorem ProductRest.exists_derives (s : ProductRest) (hs : s.wellNamed = true) {w : List Token}
    (hw : w.map Token.word = s.words) :
    ∃ t, Derives .fortress [.nonterminal .productRest] [t] w s.nesting ∧ s.Spelled t := by
  cases s with
  | stop =>
    obtain rfl := List.map_eq_nil_iff.mp hw
    exact ⟨_, .of_vanishing (by decide), rfl⟩
  | step slash next rest =>
    simp only [ProductRest.wellNamed, Bool.and_eq_true] at hs
    obtain ⟨o, w, rfl, ho, hw⟩ := List.map_eq_cons_iff.mp hw
    obtain ⟨wn, wr, rfl, hwn, hwr⟩ := List.map_eq_append_iff.mp hw
    obtain ⟨a, ha, hat⟩ := next.exists_derives hs.1 hwn
    obtain ⟨r, hr, hrt⟩ := rest.exists_derives hs.2 hwr
    have hot : o.terminal = if slash then .divide else .times := Token.terminal_of_word ho
    have hrest := Derives.by_rule .productRest [.terminal (if slash then .divide else .times),
      .nonterminal .atom, .nonterminal .productRest] (by cases slash <;> decide)
      (.token o hot (by cases slash <;> decide) (ha.append hr))
    exact ⟨_, hrest, o, a, r, rfl, hot, hat, hrt⟩

theorem Atom.exists_derives (s : Atom) (hs : s.wellNamed = true) {w : List Token}
    (hw : w.map Token.word = s.words) :
    ∃ t, Derives .fortress [.nonterminal .atom] [t] w s.nesting ∧ s.Spelled t := by
  cases s with
  | named x =>
    obtain ⟨v, rfl, hv⟩ := List.map_eq_singleton_iff.mp hw
    have hvt : v.terminal = .varName := Token.terminal_of_word hv
    have hatom := Derives.by_rule .atom [.terminal .varName] (by decide)
      (.token v hvt (by decide) .nil)
    exact ⟨_, hatom, v, rfl, hvt, congrArg Word.lexeme hv⟩
  | number n =>
    obtain ⟨v, rfl, hv⟩ := List.map_eq_singleton_iff.mp hw
    have hvt : v.terminal = .number := Token.terminal_of_word hv
    have hlexeme : v.lexeme = Nat.repr n.toInt.toNat := congrArg Word.lexeme hv
    have hatom := Derives.by_rule .atom [.terminal .number] (by decide)
      (.token v hvt (by decide) .nil)
    refine ⟨_, hatom, v, rfl, hvt, ?_⟩
    rw [hlexeme, Nat.toList_repr, Decimal.int32?_toDigits (of_decide_eq_true hs)]
  | minus inner =>
    obtain ⟨m, w, rfl, hm, hw⟩ := List.map_eq_cons_iff.mp hw
    obtain ⟨a, ha, hat⟩ := inner.exists_derives hs hw
    have hmt : m.terminal = .minus := Token.terminal_of_word hm
    have hatom := Derives.by_rule .atom [.terminal .minus, .nonterminal .atom] (by decide)
      (.token m hmt (by decide) ha)
    exact ⟨_, hatom, m, a, rfl, hmt, hat⟩
  | group inner =>
    obtain ⟨l, w, rfl, hl, hw⟩ := List.map_eq_cons_iff.mp hw
    obtain ⟨wi, wr, rfl, hwi, hwr⟩ := List.map_eq_append_iff.mp hw
    obtain ⟨r, rfl, hr⟩ := List.map_eq_singleton_iff.mp hwr
    obtain ⟨t, ht, hst⟩ := inner.exists_derives hs hwi
    have hlt : l.terminal = .lparen := Token.terminal_of_word hl
    have hrt : r.terminal = .rparen := Token.terminal_of_word hr
    have hatom := Derives.by_rule .atom [.terminal .lparen, .nonterminal .sum, .terminal .rparen]
      (by decide) (.token l hlt (by decide) (ht.append (.token r hrt (by decide) .nil)))
    rw [Nat.max_zero] at hatom
    exact ⟨_, hatom, l, t, r, rfl, hlt, hrt, hst⟩

end

end Source
end FortressLang
