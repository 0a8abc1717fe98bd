import FortressLang.Proofs.ChainReading
import FortressLang.Proofs.StatementReading
import FortressLang.Proofs.WrittenSums

/-! The words of a program are derived from the start symbol, and from the tree is read the program
that was written. -/
namespace FortressLang

theorem Derives.nonterminal?_eq {g : Grammar} {a : Nonterminal} {t : Tree} {w : List Token}
    {n : Nat} (h : Derives g [.nonterminal a] [t] w n) : t.nonterminal? = some a := by
  cases h
  rfl

theorem Derives.nesting_eq {g : Grammar} {xs : List Symbol} {ts : List Tree} {w : List Token}
    {m n : Nat} (h : Derives g xs ts w m) (hn : m = n) : Derives g xs ts w n := hn ▸ h

namespace Source

theorem Condition.whole_headWords (c : Condition) (hc : c.wellNamed = true)
    (before after : Terminal) (hbefore : before.isFixed = true) (hafter : after.isFixed = true) :
    ∀ w ∈ c.headWords before after, w.Whole := by
  simp only [Condition.wellNamed, Bool.and_eq_true] at hc
  simp only [Condition.headWords, Condition.words, List.forall_mem_cons, List.forall_mem_append]
  exact ⟨Word.whole_fixed hbefore, Word.whole_fixed rfl, ⟨c.lhs.whole_words hc.1,
    Word.whole_fixed (by cases c.comparison <;> rfl), c.rhs.whole_words hc.2⟩,
    Word.whole_fixed rfl, Word.whole_fixed hafter, List.forall_mem_nil _⟩

mutual

theorem Statement.whole_words :
    ∀ s : Statement, s.wellNamed = true → ∀ w ∈ s.words, w.Whole
  | .assign target value, hs => by
    simp only [wellNamed, Bool.and_eq_true] at hs
    simp only [words, List.forall_mem_cons]
    exact ⟨whole_variableWord hs.1, Word.whole_fixed rfl, value.whole_words hs.2⟩
  | .onlyIf c ts, hs => by
    simp only [wellNamed, Bool.and_eq_true] at hs
    simp only [words, List.forall_mem_cons, List.forall_mem_append]
    have hhead := c.whole_headWords hs.1 .ifWord .thenWord rfl rfl
    exact ⟨hhead, Statement.whole_wordsAll ts hs.2, Word.whole_fixed rfl, List.forall_mem_nil _⟩
  | .ifElse c ts es, hs => by
    simp only [wellNamed, Bool.and_eq_true] at hs
    simp only [words, List.forall_mem_cons, List.forall_mem_append]
    have hhead := c.whole_headWords hs.1.1 .ifWord .thenWord rfl rfl
    exact ⟨hhead, Statement.whole_wordsAll ts hs.1.2, Word.whole_fixed rfl,
      Statement.whole_wordsAll es hs.2, Word.whole_fixed rfl, List.forall_mem_nil _⟩
  | .loop c ss, hs => by
    simp only [wellNamed, Bool.and_eq_true] at hs
    simp only [words, List.forall_mem_cons, List.forall_mem_append]
    have hhead := c.whole_headWords hs.1 .whileWord .doWord rfl rfl
    exact ⟨hhead, Statement.whole_wordsAll ss hs.2, Word.whole_fixed rfl, List.forall_mem_nil _⟩
  | .print name, hs | .read name, hs => by
    simp only [words, List.forall_mem_cons]
    exact ⟨Word.whole_fixed rfl, Word.whole_fixed rfl, whole_variableWord hs,
      Word.whole_fixed rfl, List.forall_mem_nil _⟩

theorem Statement.whole_wordsAll :
    ∀ ss : List Statement, wellNamedAll ss = true → ∀ w ∈ wordsAll ss, w.Whole
  | [], _ => nofun
  | s :: ss, hs => by
    simp only [wellNamedAll, Bool.and_eq_true] at hs
    simp only [wordsAll, List.forall_mem_append, List.forall_mem_cons]
    exact ⟨Statement.whole_words s hs.1, Word.whole_fixed rfl,
      Statement.whole_wordsAll ss hs.2⟩

end

theorem Program.whole_words (p : Program) (hp : p.wellNamed = true) : ∀ w ∈ p.words, w.Whole := by
  simp only [Program.wellNamed, Bool.and_eq_true] at hp
  simp only [Program.words, List.forall_mem_cons, List.forall_mem_append]
  exact ⟨Word.whole_fixed rfl, whole_programName hp.1,
    Statement.whole_wordsAll p.statements hp.2, Word.whole_fixed rfl, List.forall_mem_nil _⟩

theorem Sum.nesting_pos (s : Sum) : 0 < s.nesting := by
  cases s
  exact Nat.succ_pos _

theorem Condition.nesting_pos (c : Condition) : 0 < c.nesting := Nat.succ_pos _

theorem exists_derives_call (a : Nonterminal) (word : Terminal) (hword : word ≠ .epsilon)
    (ha : ∃ r ∈ Grammar.fortress.rulesFor a, r.rhs = [.terminal word, .terminal .lparen,
      .terminal .varName, .terminal .rparen] ∧ ¬r.isEpsilon)
    (hi : ∃ r ∈ Grammar.fortress.rulesFor .instruction, r.rhs = [.nonterminal a] ∧ ¬r.isEpsilon)
    {name : String} {w : List Token} (hw : w.map Token.word =
      [.fixed word, .fixed .lparen, variableWord name, .fixed .rparen]) :
    ∃ p l x r : Token,
      Derives .fortress [.nonterminal .instruction] [.node (.nonterminal .instruction)
        [.node (.nonterminal a) [.leaf p, .leaf l, .leaf x, .leaf r]]] w
        (0 + nestingOf a + nestingOf .instruction) ∧
      p.terminal = word ∧ l.terminal = .lparen ∧ x.terminal = .varName ∧ x.lexeme = name := by
  obtain ⟨p, w, rfl, hp, hw⟩ := List.map_eq_cons_iff.mp hw
  obtain ⟨l, w, rfl, hl, hw⟩ := List.map_eq_cons_iff.mp hw
  obtain ⟨x, w, rfl, hx, hw⟩ := List.map_eq_cons_iff.mp hw
  obtain ⟨r, rfl, hr⟩ := List.map_eq_singleton_iff.mp hw
  have hcall := Derives.by_rule a _ ha
    (.token p (Token.terminal_of_word hp) hword (.token l (Token.terminal_of_word hl) (by decide)
      (.token x (Token.terminal_of_word hx) (by decide)
        (.token r (Token.terminal_of_word hr) (by decide) .nil))))
  exact ⟨p, l, x, r, .by_rule .instruction _ hi hcall, Token.terminal_of_word hp,
    Token.terminal_of_word hl, Token.terminal_of_word hx, congrArg Word.lexeme hx⟩

/-- The expression for each sum is the one that is read from every tree of the sum. -/
def ReadsSums (f : Sum → Expr) : Prop := ∀ s t, s.Spelled t → Expr.ofTree t = .ok (f s)

section

variable {f : Sum → Expr}

theorem Condition.exists_derives (hf : ReadsSums f) (c : Condition) (hc : c.wellNamed = true)
    {w : List Token} (hw : w.map Token.word = c.words) :
    ∃ t, Derives .fortress [.nonterminal .condition] [t] w c.nesting ∧
      FortressLang.Condition.ofTree t = .ok (c.withSums f) := by
  obtain ⟨lhs, comparison, rhs⟩ := c
  simp only [Condition.wellNamed, Bool.and_eq_true] at hc
  obtain ⟨wl, w, rfl, hwl, hw⟩ := List.map_eq_append_iff.mp hw
  obtain ⟨o, wr, rfl, ho, hwr⟩ := List.map_eq_cons_iff.mp hw
  obtain ⟨l, hl, hls⟩ := lhs.exists_derives hc.1 hwl
  obtain ⟨r, hr, hrs⟩ := rhs.exists_derives hc.2 hwr
  have hot : o.terminal = comparisonTerminal comparison := Token.terminal_of_word ho
  have hmark := Derives.by_rule .comparison [.terminal (comparisonTerminal comparison)]
    (by cases comparison <;> decide) (.token o hot (by cases comparison <;> decide) .nil)
  have hcondition := Derives.by_rule .condition
    [.nonterminal .sum, .nonterminal .comparison, .nonterminal .sum] (by decide)
    (hl.append (hmark.append hr))
  have hread := FortressLang.Condition.ofTree_sums hl.nonterminal?_eq hr.nonterminal?_eq
    (o := o) (c := comparison) (by rw [hot]; cases comparison <;> rfl) (hf _ _ hls) (hf _ _ hrs)
  have hnesting : max lhs.nesting (max (0 + nestingOf .comparison) rhs.nesting) +
      nestingOf .condition = Condition.nesting ⟨lhs, comparison, rhs⟩ := by
    have hpos := lhs.nesting_pos
    simp only [Condition.nesting, nestingOf_of_ne, ne_eq, reduceCtorEq, not_false_eq_true]
    omega
  rw [hnesting] at hcondition
  exact ⟨_, hcondition, hread⟩

theorem Condition.exists_derives_head (hf : ReadsSums f) (c : Condition) (hc : c.wellNamed = true)
    {before after : Terminal} (hbefore : before ≠ .epsilon) (hafter : after ≠ .epsilon)
    {w : List Token} (hw : w.map Token.word = c.headWords before after) :
    ∃ (b l r a : Token) (t : Tree),
      Derives .fortress [.terminal before, .terminal .lparen, .nonterminal .condition,
        .terminal .rparen, .terminal after] [.leaf b, .leaf l, t, .leaf r, .leaf a] w c.nesting ∧
      t.nonterminal? = some .condition ∧
      FortressLang.Condition.ofTree t = .ok (c.withSums f) := by
  obtain ⟨b, w, rfl, hb, hw⟩ := List.map_eq_cons_iff.mp hw
  obtain ⟨l, w, rfl, hl, hw⟩ := List.map_eq_cons_iff.mp hw
  obtain ⟨wc, w, rfl, hwc, hw⟩ := List.map_eq_append_iff.mp hw
  obtain ⟨r, w, rfl, hr, hw⟩ := List.map_eq_cons_iff.mp hw
  obtain ⟨a, rfl, ha⟩ := List.map_eq_singleton_iff.mp hw
  obtain ⟨t, ht, hread⟩ := c.exists_derives hf hc hwc
  have hend : Derives .fortress [.terminal .rparen, .terminal after] [.leaf r, .leaf a] [r, a] 0 :=
    .token r (Token.terminal_of_word hr) (by decide)
      (.token a (Token.terminal_of_word ha) hafter .nil)
  have hhead := Derives.token b (Token.terminal_of_word hb) hbefore
    (.token l (Token.terminal_of_word hl) (by decide) (ht.append hend))
  rw [Nat.max_zero] at hhead
  exact ⟨b, l, r, a, t, hhead, ht.nonterminal?_eq, hread⟩

theorem exists_derives_conditional (hf : ReadsSums f) {c : Condition} (hc : c.wellNamed = true)
    {u v w : List Token} (hu : u.map Token.word = c.headWords .ifWord .thenWord)
    {code ending : Tree} {n k : Nat} {ss es : List FortressLang.Statement}
    (hcode : Derives .fortress [.nonterminal .code] [code] v n)
    (hss : FortressLang.Statement.listOfTree code = .ok ss)
    (hending : Derives .fortress [.nonterminal .conditionalEnd] [ending] w k)
    (hes : ending.childOf? .code = none ∧ es = [] ∨ ∃ code', ending.childOf? .code = some code' ∧
      FortressLang.Statement.listOfTree code' = .ok es) :
    ∃ t, Derives .fortress [.nonterminal .instruction] [t] (u ++ (v ++ w))
        (max c.nesting (max n k) + 2) ∧
      FortressLang.Statement.ofTree t = .ok (.branch (c.withSums f) ss es) := by
  obtain ⟨i, l, r, a, test, htest, hkind, hread⟩ :=
    c.exists_derives_head hf hc (by decide) (by decide) hu
  have hbranch := Derives.by_rule .conditional
    [.terminal .ifWord, .terminal .lparen, .nonterminal .condition, .terminal .rparen,
      .terminal .thenWord, .nonterminal .code, .nonterminal .conditionalEnd] (by decide)
    (htest.append (hcode.append hending))
  have hstatement := FortressLang.Statement.ofTree_conditional hkind hread hcode.nonterminal?_eq hss
    hending.nonterminal?_eq hes i l r a
  exact ⟨_, .by_rule .instruction [.nonterminal .conditional] (by decide) hbranch, hstatement⟩

mutual

theorem Statement.exists_derives (hf : ReadsSums f) :
    ∀ s : Statement, s.wellNamed = true → ∀ w : List Token, w.map Token.word = s.words →
      ∃ t, Derives .fortress [.nonterminal .instruction] [t] w s.nesting ∧
        FortressLang.Statement.ofTree t = .ok (s.withSums f)
  | .assign target value, hs, w, hw => by
    simp only [wellNamed, Bool.and_eq_true] at hs
    obtain ⟨x, w, rfl, hx, hw⟩ := List.map_eq_cons_iff.mp hw
    obtain ⟨sign, w, rfl, hsign, hw⟩ := List.map_eq_cons_iff.mp hw
    obtain ⟨t, ht, hspelled⟩ := value.exists_derives hs.2 hw
    have hxt : x.terminal = .varName := Token.terminal_of_word hx
    have hassign := Derives.by_rule .assignment
      [.terminal .varName, .terminal .assign, .nonterminal .sum] (by decide)
      (.token x hxt (by decide) (.token sign (Token.terminal_of_word hsign) (by decide) ht))
    have hread := FortressLang.Statement.ofTree_assign hxt sign ht.nonterminal?_eq (hf _ _ hspelled)
    rw [show x.lexeme = target from congrArg Word.lexeme hx] at hread
    exact ⟨_, .by_rule .instruction [.nonterminal .assignment] (by decide) hassign, hread⟩
  | .onlyIf c ts, hs, w, hw => by
    simp only [wellNamed, Bool.and_eq_true] at hs
    obtain ⟨wc, w, rfl, hwc, hw⟩ := List.map_eq_append_iff.mp hw
    obtain ⟨wt, w, rfl, hwt, hw⟩ := List.map_eq_append_iff.mp hw
    obtain ⟨e, rfl, he⟩ := List.map_eq_singleton_iff.mp hw
    obtain ⟨code, hcode, hts⟩ := Statement.exists_derivesAll hf ts hs.2 wt hwt
    have hending := Derives.by_rule .conditionalEnd [.terminal .endWord] (by decide)
      (.token e (Token.terminal_of_word he) (by decide) .nil)
    obtain ⟨t, ht, hread⟩ :=
      exists_derives_conditional hf hs.1 hwc hcode hts hending (.inl ⟨rfl, rfl⟩)
    have hn : max c.nesting (max (nestingAll ts) 1) + 2 = (onlyIf c ts).nesting := by
      have hpos := c.nesting_pos
      rw [nesting]
      omega
    exact ⟨t, ht.nesting_eq hn, hread⟩
  | .ifElse c ts es, hs, w, hw => by
    simp only [wellNamed, Bool.and_eq_true] at hs
    obtain ⟨wc, w, rfl, hwc, hw⟩ := List.map_eq_append_iff.mp hw
    obtain ⟨wt, w, rfl, hwt, hw⟩ := List.map_eq_append_iff.mp hw
    obtain ⟨e, w, rfl, he, hw⟩ := List.map_eq_cons_iff.mp hw
    obtain ⟨we, w, rfl, hwe, hw⟩ := List.map_eq_append_iff.mp hw
    obtain ⟨e', rfl, he'⟩ := List.map_eq_singleton_iff.mp hw
    obtain ⟨code, hcode, hts⟩ := Statement.exists_derivesAll hf ts hs.1.2 wt hwt
    obtain ⟨code', hcode', hes⟩ := Statement.exists_derivesAll hf es hs.2 we hwe
    have hending := Derives.by_rule .conditionalEnd
      [.terminal .elseWord, .nonterminal .code, .terminal .endWord] (by decide)
      (.token e (Token.terminal_of_word he) (by decide)
        (hcode'.append (.token e' (Token.terminal_of_word he') (by decide) .nil)))
    have helse : (Tree.node (.nonterminal .conditionalEnd)
        [.leaf e, code', .leaf e']).childOf? .code = some code' := by
      simp [Tree.childOf?, Tree.children, Tree.leaf_nonterminal?, hcode'.nonterminal?_eq]
    obtain ⟨t, ht, hread⟩ :=
      exists_derives_conditional hf hs.1.1 hwc hcode hts hending (.inr ⟨code', helse, hes⟩)
    have hn : max c.nesting (max (nestingAll ts) (max (nestingAll es) 0 + 1)) + 2 =
        (ifElse c ts es).nesting := by
      rw [nesting, Nat.max_zero]
    exact ⟨t, ht.nesting_eq hn, hread⟩
  | .loop c ss, hs, w, hw => by
    simp only [wellNamed, Bool.and_eq_true] at hs
    obtain ⟨wc, w, rfl, hwc, hw⟩ := List.map_eq_append_iff.mp hw
    obtain ⟨wb, w, rfl, hwb, hw⟩ := List.map_eq_append_iff.mp hw
    obtain ⟨e, rfl, he⟩ := List.map_eq_singleton_iff.mp hw
    obtain ⟨i, l, r, a, test, htest, hkind, hc⟩ :=
      c.exists_derives_head hf hs.1 (by decide) (by decide) hwc
    obtain ⟨code, hcode, hss⟩ := Statement.exists_derivesAll hf ss hs.2 wb hwb
    have hloop := Derives.by_rule .loop
      [.terminal .whileWord, .terminal .lparen, .nonterminal .condition, .terminal .rparen,
        .terminal .doWord, .nonterminal .code, .terminal .endWord] (by decide)
      (htest.append (hcode.append (.token e (Token.terminal_of_word he) (by decide) .nil)))
    have hstatement := Derives.by_rule .instruction [.nonterminal .loop] (by decide) hloop
    have hn : max c.nesting (max (nestingAll ss) 0) + 2 = (loop c ss).nesting := by
      rw [nesting, Nat.max_zero]
    have hread := FortressLang.Statement.ofTree_loop hkind hc hcode.nonterminal?_eq hss i l r a e
    exact ⟨_, hstatement.nesting_eq hn, hread⟩
  | .print name, _, w, hw => by
    obtain ⟨p, l, x, r, hcall, hp, hl, hx, rfl⟩ :=
      exists_derives_call .print .printWord (by decide) (by decide) (by decide) hw
    exact ⟨_, hcall, FortressLang.Statement.ofTree_print (by simp [hp]) (by simp [hl]) hx r⟩
  | .read name, _, w, hw => by
    obtain ⟨p, l, x, r, hcall, hp, hl, hx, rfl⟩ :=
      exists_derives_call .read .readWord (by decide) (by decide) (by decide) hw
    exact ⟨_, hcall, FortressLang.Statement.ofTree_read (by simp [hp]) (by simp [hl]) hx r⟩

theorem Statement.exists_derivesAll (hf : ReadsSums f) :
    ∀ ss : List Statement, wellNamedAll ss = true → ∀ w : List Token,
      w.map Token.word = wordsAll ss →
      ∃ t, Derives .fortress [.nonterminal .code] [t] w (nestingAll ss) ∧
        FortressLang.Statement.listOfTree t = .ok (withSumsAll f ss)
  | [], _, w, hw => by
    obtain rfl := List.map_eq_nil_iff.mp hw
    exact ⟨_, .of_vanishing (by decide), FortressLang.Statement.listOfTree_nil⟩
  | s :: ss, hs, w, hw => by
    simp only [wellNamedAll, Bool.and_eq_true] at hs
    obtain ⟨ws, w, rfl, hws, hw⟩ := List.map_eq_append_iff.mp hw
    obtain ⟨comma, w, rfl, hcomma, hw⟩ := List.map_eq_cons_iff.mp hw
    obtain ⟨i, hi, hread⟩ := Statement.exists_derives hf s hs.1 ws hws
    obtain ⟨next, hnext, hreads⟩ := Statement.exists_derivesAll hf ss hs.2 w hw
    have hcode := Derives.by_rule .code
      [.nonterminal .instruction, .terminal .comma, .nonterminal .code] (by decide)
      (hi.append (.token comma (Token.terminal_of_word hcomma) (by decide) hnext))
    exact ⟨_, hcode, FortressLang.Statement.listOfTree_cons comma hi.nonterminal?_eq
      hnext.nonterminal?_eq hread hreads⟩

end

/-- The tokens of a program are derived, and from their tree the program is read. -/
theorem Program.exists_derivation (hf : ReadsSums f) (p : Program) (hp : p.wellNamed = true)
    {w : List Token} (hw : w.map Token.word = p.words) :
    ∃ tree, Derivation .fortress tree w p.nesting ∧
      FortressLang.Program.ofTree tree = .ok (p.withSums f) := by
  simp only [Program.wellNamed, Bool.and_eq_true] at hp
  obtain ⟨b, w, rfl, hb, hw⟩ := List.map_eq_cons_iff.mp hw
  obtain ⟨x, w, rfl, hx, hw⟩ := List.map_eq_cons_iff.mp hw
  obtain ⟨ws, w, rfl, hws, hw⟩ := List.map_eq_append_iff.mp hw
  obtain ⟨e, rfl, he⟩ := List.map_eq_singleton_iff.mp hw
  obtain ⟨code, hcode, hread⟩ := Statement.exists_derivesAll hf p.statements hp.2 ws hws
  have hbt : b.terminal = .beginWord := Token.terminal_of_word hb
  have hxt : x.terminal = .progName := Token.terminal_of_word hx
  have hchildren : Derives .fortress Grammar.fortress.start.rhs [.leaf b, .leaf x, code, .leaf e]
      (b :: x :: (ws ++ [e])) (max (Statement.nestingAll p.statements) 0) :=
    .token b hbt (by decide) (.token x hxt (by decide)
      (hcode.append (.token e (Token.terminal_of_word he) (by decide) .nil)))
  rw [Nat.max_zero] at hchildren
  have hb' : b.terminal ≠ .progName := by simp [hbt]
  have hprogram := FortressLang.Program.ofTree_node hb' hxt hcode.nonterminal?_eq hread e
  rw [show x.lexeme = p.name from congrArg Word.lexeme hx] at hprogram
  exact ⟨_, ⟨_, _, hchildren, rfl, rfl⟩, hprogram⟩

end

end Source
end FortressLang
