import FortressLang.Proofs.ChainReading
import FortressLang.Proofs.FortressTable
import FortressLang.Proofs.HoistedStorage
import FortressLang.Proofs.InstructionNodes
import FortressLang.Proofs.ParsedSums
import FortressLang.Proofs.StatementReading

/-! Every text that the parser accepts is read as a program, and the instruction nodes of its tree
are the statements of that program. -/
namespace FortressLang

open Source (shown)

/-- The instruction nodes in a tree are shown by these statements, one by one. -/
def Tree.Shows (t : Tree) (ss : List Statement) : Prop :=
  List.Forall₂ Statement.Shown (t.nodesOf .instruction) ss

def Nonterminal.isPlain : Nonterminal → Bool
  | .sum | .sumRest | .product | .productRest | .atom | .comparison | .condition => true
  | _ => false

def ReadsFrom (t : Tree) : Nonterminal → Prop
  | .program => ∃ p, Program.ofTree t = .ok p ∧ t.Shows (Statement.flatAll p.statements)
  | .code => ∃ ss, Statement.listOfTree t = .ok ss ∧ t.Shows (Statement.flatAll ss)
  | .instruction => ∃ s, Statement.ofTree t = .ok s ∧ t.Shows s.flat
  | .assignment | .conditional | .loop | .print | .read =>
    ∃ s, Statement.ofTree (.node (.nonterminal .instruction) [t]) = .ok s ∧
      t.nonterminal? = some s.kind ∧ t.Shows s.nested
  | .conditionalEnd => ∃ ss, (t.childOf? .code = none ∧ ss = [] ∨
      ∃ code, t.childOf? .code = some code ∧ Statement.listOfTree code = .ok ss) ∧
        t.Shows (Statement.flatAll ss)
  | .condition => ∃ c, Condition.ofTree t = .ok c
  | .comparison => ∃ o c, t = .node (.nonterminal .comparison) [.leaf o] ∧
      Comparison.ofTerminal? o.terminal = some c
  | .sum => ∃ e, Expr.ofTree t = .ok e
  | .sumRest | .product | .productRest | .atom => True

def Readable : Symbol → Tree → Prop
  | .terminal x, t => ∃ found, t = .leaf found ∧ found.terminal = x
  | .nonterminal a, t => t.nonterminal? = some a ∧
      (a.isPlain = true → t.nodesOf .instruction = []) ∧ ReadsFrom t a

theorem shown_program : ∀ r ∈ Grammar.fortress.rulesFor .program, shown r.rhs =
    [.terminal .beginWord, .terminal .progName, .nonterminal .code, .terminal .endWord] := by decide

theorem shown_code : ∀ r ∈ Grammar.fortress.rulesFor .code, shown r.rhs = [] ∨
    shown r.rhs = [.nonterminal .instruction, .terminal .comma, .nonterminal .code] := by decide

theorem shown_instruction : ∀ r ∈ Grammar.fortress.rulesFor .instruction,
    ∃ a ∈ [Nonterminal.assignment, .conditional, .loop, .print, .read],
      shown r.rhs = [.nonterminal a] := by decide

theorem shown_assignment : ∀ r ∈ Grammar.fortress.rulesFor .assignment, shown r.rhs =
    [.terminal .varName, .terminal .assign, .nonterminal .sum] := by decide

theorem shown_conditional : ∀ r ∈ Grammar.fortress.rulesFor .conditional, shown r.rhs =
    [.terminal .ifWord, .terminal .lparen, .nonterminal .condition, .terminal .rparen,
      .terminal .thenWord, .nonterminal .code, .nonterminal .conditionalEnd] := by decide

theorem shown_conditionalEnd : ∀ r ∈ Grammar.fortress.rulesFor .conditionalEnd,
    shown r.rhs = [.terminal .endWord] ∨
      shown r.rhs = [.terminal .elseWord, .nonterminal .code, .terminal .endWord] := by decide

theorem shown_condition : ∀ r ∈ Grammar.fortress.rulesFor .condition, shown r.rhs =
    [.nonterminal .sum, .nonterminal .comparison, .nonterminal .sum] := by decide

theorem shown_comparison : ∀ r ∈ Grammar.fortress.rulesFor .comparison,
    ∃ x ∈ [Terminal.equal, .greater, .smaller], shown r.rhs = [.terminal x] := by decide

theorem shown_loop : ∀ r ∈ Grammar.fortress.rulesFor .loop, shown r.rhs =
    [.terminal .whileWord, .terminal .lparen, .nonterminal .condition, .terminal .rparen,
      .terminal .doWord, .nonterminal .code, .terminal .endWord] := by decide

theorem shown_print : ∀ r ∈ Grammar.fortress.rulesFor .print, shown r.rhs =
    [.terminal .printWord, .terminal .lparen, .terminal .varName, .terminal .rparen] := by decide

theorem shown_read : ∀ r ∈ Grammar.fortress.rulesFor .read, shown r.rhs =
    [.terminal .readWord, .terminal .lparen, .terminal .varName, .terminal .rparen] := by decide

def Symbol.isPlain : Symbol → Bool
  | terminal _ => true
  | nonterminal a => a.isPlain

theorem isPlain_of_mem_shown : ∀ r ∈ Grammar.fortress.rules, r.lhs.isPlain = true →
    ∀ x ∈ shown r.rhs, x.isPlain = true := by decide

theorem Readable.nodesOf_eq_nil {x : Symbol} {t : Tree} (h : Readable x t)
    (hx : x.isPlain = true) : t.nodesOf .instruction = [] := by
  cases x with
  | terminal x =>
    obtain ⟨found, rfl, -⟩ := h
    exact Tree.nodesOf_leaf _ _
  | nonterminal a => exact h.2.1 hx

theorem flatMap_nodesOf_eq_nil {xs : List Symbol} {cs : List Tree} (h : List.Forall₂ Readable xs cs)
    (hxs : ∀ x ∈ xs, x.isPlain = true) : cs.flatMap (Tree.nodesOf .instruction) = [] := by
  induction h with
  | nil => rfl
  | cons hc h ih =>
    rw [List.forall_mem_cons] at hxs
    rw [List.flatMap_cons, hc.nodesOf_eq_nil hxs.1, ih hxs.2, List.append_nil]

theorem nodesOf_plain {a : Nonterminal} (ha : a.isPlain = true) {r : Rule}
    (hr : r ∈ Grammar.fortress.rulesFor a) {cs : List Tree}
    (h : List.Forall₂ Readable (shown r.rhs) cs) :
    (Tree.node (.nonterminal a) cs).nodesOf .instruction = [] := by
  obtain ⟨hrules, rfl⟩ := Grammar.mem_rulesFor.mp hr
  have hother : r.lhs ≠ .instruction := by
    intro hlhs
    rw [hlhs] at ha
    cases ha
  rw [Tree.nodesOf_other hother]
  exact flatMap_nodesOf_eq_nil h (isPlain_of_mem_shown r hrules ha)

theorem Tree.Shows.node {a : Nonterminal} (ha : a ≠ .instruction) {cs : List Tree}
    {ss : List Statement}
    (h : List.Forall₂ Statement.Shown (cs.flatMap (Tree.nodesOf .instruction)) ss) :
    (Tree.node (.nonterminal a) cs).Shows ss := by
  rwa [Tree.Shows, Tree.nodesOf_other ha]

section

variable {r : Rule} {cs : List Tree}

theorem readsFrom_code (hr : r ∈ Grammar.fortress.rulesFor .code)
    (h : List.Forall₂ Readable (shown r.rhs) cs) :
    ReadsFrom (.node (.nonterminal .code) cs) .code := by
  rcases shown_code r hr with hs | hs <;> rw [hs] at h <;>
    simp only [List.forall₂_cons_left_iff, List.forall₂_nil_left_iff] at h
  · subst h
    exact ⟨[], Statement.listOfTree_nil, .node (by decide) .nil⟩
  · obtain ⟨i, _, ⟨hi, -, s, hs, hshows⟩, ⟨_, _, ⟨comma, rfl, -⟩, ⟨next, _,
      ⟨hnext, -, ss, hss, hrest⟩, rfl, rfl⟩, rfl⟩, rfl⟩ := h
    refine ⟨s :: ss, Statement.listOfTree_cons comma hi hnext hs hss, .node (by decide) ?_⟩
    simpa [Statement.flatAll] using List.rel_append hshows hrest

theorem readsFrom_instruction (hr : r ∈ Grammar.fortress.rulesFor .instruction)
    (h : List.Forall₂ Readable (shown r.rhs) cs) :
    ReadsFrom (.node (.nonterminal .instruction) cs) .instruction := by
  obtain ⟨a, ha, hs⟩ := shown_instruction r hr
  rw [hs] at h
  simp only [List.forall₂_cons_left_iff, List.forall₂_nil_left_iff] at h
  obtain ⟨t, _, ⟨ht, -, hread⟩, rfl, rfl⟩ := h
  have hstatement : ∃ s, Statement.ofTree (.node (.nonterminal .instruction) [t]) = .ok s ∧
      t.nonterminal? = some s.kind ∧ t.Shows s.nested := by
    simp only [List.mem_cons, List.not_mem_nil, or_false] at ha
    rcases ha with rfl | rfl | rfl | rfl | rfl <;> exact hread
  obtain ⟨s, hs, hkind, hnested⟩ := hstatement
  refine ⟨s, hs, ?_⟩
  rw [Tree.Shows, Tree.nodesOf_self, s.flat_eq, List.flatMap_singleton]
  exact .cons ⟨rfl, hkind, hs⟩ hnested

theorem readsFrom_assignment (hr : r ∈ Grammar.fortress.rulesFor .assignment)
    (h : List.Forall₂ Readable (shown r.rhs) cs) :
    ReadsFrom (.node (.nonterminal .assignment) cs) .assignment := by
  rw [shown_assignment r hr] at h
  simp only [List.forall₂_cons_left_iff, List.forall₂_nil_left_iff] at h
  obtain ⟨_, _, ⟨x, rfl, hx⟩, ⟨_, _, ⟨sign, rfl, -⟩, ⟨t, _, ⟨ht, hplain, e, he⟩, rfl, rfl⟩, rfl⟩,
    rfl⟩ := h
  refine ⟨_, Statement.ofTree_assign hx sign ht he, rfl, .node (by decide) ?_⟩
  simp [hplain rfl, Statement.nested]

theorem readsFrom_call {a : Nonterminal} {word : Terminal} {f : String → Statement}
    (ha : a ≠ .instruction) (hword : word ≠ .varName) (hkind : ∀ x, (f x).kind = a)
    (hnested : ∀ x, (f x).nested = [])
    (hf : ∀ {p l x : Token}, p.terminal ≠ .varName → l.terminal ≠ .varName →
      x.terminal = .varName → ∀ r, Statement.ofTree (.node (.nonterminal .instruction)
        [.node (.nonterminal a) [.leaf p, .leaf l, .leaf x, .leaf r]]) = .ok (f x.lexeme))
    (h : List.Forall₂ Readable [.terminal word, .terminal .lparen, .terminal .varName,
      .terminal .rparen] cs) :
    ∃ s, Statement.ofTree (.node (.nonterminal .instruction) [.node (.nonterminal a) cs]) = .ok s ∧
      (Tree.node (.nonterminal a) cs).nonterminal? = some s.kind ∧
      (Tree.node (.nonterminal a) cs).Shows s.nested := by
  simp only [List.forall₂_cons_left_iff, List.forall₂_nil_left_iff] at h
  obtain ⟨_, _, ⟨p, rfl, rfl⟩, ⟨_, _, ⟨l, rfl, hl⟩, ⟨_, _, ⟨x, rfl, hx⟩, ⟨_, _, ⟨r, rfl, -⟩, rfl,
    rfl⟩, rfl⟩, rfl⟩, rfl⟩ := h
  have hlparen : l.terminal ≠ .varName := by rw [hl]; decide
  refine ⟨f x.lexeme, hf hword hlparen hx r, by rw [hkind]; rfl, .node ha ?_⟩
  simp [hnested]

theorem readsFrom_conditional (hr : r ∈ Grammar.fortress.rulesFor .conditional)
    (h : List.Forall₂ Readable (shown r.rhs) cs) :
    ReadsFrom (.node (.nonterminal .conditional) cs) .conditional := by
  rw [shown_conditional r hr] at h
  simp only [List.forall₂_cons_left_iff, List.forall₂_nil_left_iff] at h
  obtain ⟨_, _, ⟨i, rfl, -⟩, ⟨_, _, ⟨l, rfl, -⟩, ⟨test, _, ⟨htest, hplain, c, hc⟩,
    ⟨_, _, ⟨r, rfl, -⟩, ⟨_, _, ⟨t, rfl, -⟩, ⟨code, _, ⟨hcode, -, ss, hss, hthen⟩,
    ⟨ending, _, ⟨hending, -, es, hes, helse⟩, rfl, rfl⟩, rfl⟩, rfl⟩, rfl⟩, rfl⟩, rfl⟩, rfl⟩ := h
  refine ⟨_, Statement.ofTree_conditional htest hc hcode hss hending hes i l r t, rfl,
    .node (by decide) ?_⟩
  simpa [hplain rfl, Statement.nested] using List.rel_append hthen helse

theorem readsFrom_conditionalEnd (hr : r ∈ Grammar.fortress.rulesFor .conditionalEnd)
    (h : List.Forall₂ Readable (shown r.rhs) cs) :
    ReadsFrom (.node (.nonterminal .conditionalEnd) cs) .conditionalEnd := by
  rcases shown_conditionalEnd r hr with hs | hs <;> rw [hs] at h <;>
    simp only [List.forall₂_cons_left_iff, List.forall₂_nil_left_iff] at h
  · obtain ⟨_, _, ⟨e, rfl, -⟩, rfl, rfl⟩ := h
    exact ⟨[], .inl ⟨rfl, rfl⟩, .node (by decide) (by simp [Statement.flatAll])⟩
  · obtain ⟨_, _, ⟨w, rfl, -⟩, ⟨code, _, ⟨hcode, -, ss, hss, hshows⟩, ⟨_, _, ⟨e, rfl, -⟩, rfl, rfl⟩,
      rfl⟩, rfl⟩ := h
    have hfound : (Tree.node (.nonterminal .conditionalEnd)
        [.leaf w, code, .leaf e]).childOf? .code = some code := by
      simp [Tree.childOf?, Tree.children, Tree.leaf_nonterminal?, hcode]
    exact ⟨ss, .inr ⟨code, hfound, hss⟩, .node (by decide) (by simpa [Tree.Shows] using hshows)⟩

theorem readsFrom_comparison (hr : r ∈ Grammar.fortress.rulesFor .comparison)
    (h : List.Forall₂ Readable (shown r.rhs) cs) :
    ReadsFrom (.node (.nonterminal .comparison) cs) .comparison := by
  obtain ⟨x, hx, hs⟩ := shown_comparison r hr
  rw [hs] at h
  simp only [List.forall₂_cons_left_iff, List.forall₂_nil_left_iff] at h
  obtain ⟨_, _, ⟨o, rfl, ho⟩, rfl, rfl⟩ := h
  have hmark : (Comparison.ofTerminal? o.terminal).isSome := by
    clear hs
    subst ho
    revert hx
    generalize o.terminal = x
    revert x
    decide
  obtain ⟨c, hc⟩ := Option.isSome_iff_exists.mp hmark
  exact ⟨o, c, rfl, hc⟩

theorem readsFrom_condition (hr : r ∈ Grammar.fortress.rulesFor .condition)
    (h : List.Forall₂ Readable (shown r.rhs) cs) :
    ReadsFrom (.node (.nonterminal .condition) cs) .condition := by
  rw [shown_condition r hr] at h
  simp only [List.forall₂_cons_left_iff, List.forall₂_nil_left_iff] at h
  obtain ⟨lhs, _, ⟨hl, -, a, ha⟩, ⟨_, _, ⟨-, -, o, c, rfl, ho⟩, ⟨rhs, _, ⟨hr, -, b, hb⟩, rfl, rfl⟩,
    rfl⟩, rfl⟩ := h
  exact ⟨_, Condition.ofTree_sums hl hr ho ha hb⟩

theorem readsFrom_loop (hr : r ∈ Grammar.fortress.rulesFor .loop)
    (h : List.Forall₂ Readable (shown r.rhs) cs) :
    ReadsFrom (.node (.nonterminal .loop) cs) .loop := by
  rw [shown_loop r hr] at h
  simp only [List.forall₂_cons_left_iff, List.forall₂_nil_left_iff] at h
  obtain ⟨_, _, ⟨w, rfl, -⟩, ⟨_, _, ⟨l, rfl, -⟩, ⟨test, _, ⟨htest, hplain, c, hc⟩,
    ⟨_, _, ⟨r, rfl, -⟩, ⟨_, _, ⟨d, rfl, -⟩, ⟨code, _, ⟨hcode, -, ss, hss, hshows⟩,
    ⟨_, _, ⟨e, rfl, -⟩, rfl, rfl⟩, rfl⟩, rfl⟩, rfl⟩, rfl⟩, rfl⟩, rfl⟩ := h
  refine ⟨_, Statement.ofTree_loop htest hc hcode hss w l r d e, rfl, .node (by decide) ?_⟩
  simpa [Tree.Shows, hplain rfl, Statement.nested] using hshows

theorem readsFrom_program (hr : r ∈ Grammar.fortress.rulesFor .program)
    (h : List.Forall₂ Readable (shown r.rhs) cs) :
    ReadsFrom (.node (.nonterminal .program) cs) .program := by
  rw [shown_program r hr] at h
  simp only [List.forall₂_cons_left_iff, List.forall₂_nil_left_iff] at h
  obtain ⟨_, _, ⟨b, rfl, hb⟩, ⟨_, _, ⟨x, rfl, hx⟩, ⟨code, _, ⟨hcode, -, ss, hss, hshows⟩,
    ⟨_, _, ⟨e, rfl, -⟩, rfl, rfl⟩, rfl⟩, rfl⟩, rfl⟩ := h
  have hbegin : b.terminal ≠ .progName := by rw [hb]; decide
  refine ⟨_, Program.ofTree_node hbegin hx hcode hss e, .node (by decide) ?_⟩
  simpa [Tree.Shows] using hshows

theorem readable_node {a : Nonterminal} (hr : r ∈ Grammar.fortress.rulesFor a)
    (h : List.Forall₂ Readable (shown r.rhs) cs)
    (hsum : a = .sum → ∃ e, Expr.ofTree (.node (.nonterminal a) cs) = .ok e) :
    Readable (.nonterminal a) (.node (.nonterminal a) cs) := by
  refine ⟨rfl, fun ha => nodesOf_plain ha hr h, ?_⟩
  cases a with
  | program => exact readsFrom_program hr h
  | code => exact readsFrom_code hr h
  | instruction => exact readsFrom_instruction hr h
  | assignment => exact readsFrom_assignment hr h
  | conditional => exact readsFrom_conditional hr h
  | conditionalEnd => exact readsFrom_conditionalEnd hr h
  | condition => exact readsFrom_condition hr h
  | comparison => exact readsFrom_comparison hr h
  | loop => exact readsFrom_loop hr h
  | print =>
    rw [shown_print r hr] at h
    exact readsFrom_call (by decide) (by decide) (fun _ => rfl) (fun _ => rfl)
      Statement.ofTree_print h
  | read =>
    rw [shown_read r hr] at h
    exact readsFrom_call (by decide) (by decide) (fun _ => rfl) (fun _ => rfl)
      Statement.ofTree_read h
  | sum => exact hsum rfl
  | sumRest | product | productRest | atom => trivial

end

/-- Whatever the grammar of the language derives is read, if its numerals are in range. -/
theorem readable_of_derives {xs : List Symbol} {ts : List Tree} {w : List Token} {n : Nat}
    (h : Derives .fortress xs ts w n) (hw : ∀ x ∈ w, Source.Numeral x) :
    List.Forall₂ Readable (shown xs) ts := by
  induction h with
  | nil => exact .nil
  | epsilon h ih => exact ih hw
  | @token x xs ts w n found hf hx h ih =>
    rw [List.forall_mem_cons] at hw
    have hshown : shown (.terminal x :: xs) = .terminal x :: shown xs := by simp [shown, hx]
    rw [hshown]
    exact .cons ⟨found, rfl, hf⟩ (ih hw.2)
  | @node a xs cs ts w v m n r hr h₁ h₂ ih₁ ih₂ =>
    rw [List.forall_mem_append] at hw
    have hshown : shown (.nonterminal a :: xs) = .nonterminal a :: shown xs := by simp [shown]
    rw [hshown]
    refine .cons (readable_node hr (ih₁ hw.1) ?_) (ih₂ hw.2)
    rintro rfl
    have hnode := Derives.node r hr h₁ .nil
    rw [List.append_nil] at hnode
    obtain ⟨s, hs⟩ := Source.exists_spelled hnode hw.1
    exact ⟨_, s.ofTree_spelled hs⟩

/-- For every text that is parsed with the grammar of the language: from its tree a program is read,
and the instruction nodes of the tree are one by one and in order the statements of the program,
nested ones included. -/
theorem accepted_text_is_read_whole {table : Table} (ht : Table.build .fortress = .ok table)
    {text : String} {tree : Tree}
    (h : (Parser.run table (.ofStream (.ofText text))).1 = .ok tree) :
    ∃ p, Program.ofTree tree = .ok p ∧ List.Forall₂ Statement.Shown
      (tree.nodesOf .instruction) (Statement.flatAll p.statements) := by
  obtain ⟨w, n, hd, hw⟩ := derives_of_accepted Grammar.endFree_fortress ht h
  have hread := readable_of_derives hd hw
  obtain ⟨-, -, p, hp, hshows⟩ : Readable (.nonterminal .program) tree :=
    (List.forall₂_cons.mp hread).1
  exact ⟨p, hp, hshows⟩

def nestedText : String :=
  "BEGIN P WHILE (0 = 0) DO IF (0 = 0) THEN PRINT(a), ELSE READ(a), END, END, END"

def zeroTest (column : Nat) : Tree :=
  .node (.nonterminal .condition)
    [zeroSum column, .node (.nonterminal .comparison) [.leaf ⟨.equal, "=", ⟨1, column + 2⟩⟩],
      zeroSum (column + 4)]

def blockOf (s : Tree) (column : Nat) : Tree :=
  .node (.nonterminal .code)
    [.node (.nonterminal .instruction) [s], .leaf ⟨.comma, ",", ⟨1, column⟩⟩,
      .node (.nonterminal .code) []]

def nestedTree : Tree :=
  let readCall := .node (.nonterminal .read)
    [.leaf ⟨.readWord, "READ", ⟨1, 57⟩⟩, .leaf ⟨.lparen, "(", ⟨1, 61⟩⟩,
      .leaf ⟨.varName, "a", ⟨1, 62⟩⟩, .leaf ⟨.rparen, ")", ⟨1, 63⟩⟩]
  let branch := .node (.nonterminal .conditional)
    [.leaf ⟨.ifWord, "IF", ⟨1, 26⟩⟩, .leaf ⟨.lparen, "(", ⟨1, 29⟩⟩, zeroTest 30,
      .leaf ⟨.rparen, ")", ⟨1, 35⟩⟩, .leaf ⟨.thenWord, "THEN", ⟨1, 37⟩⟩,
      blockOf (printCall 42) 50, .node (.nonterminal .conditionalEnd)
        [.leaf ⟨.elseWord, "ELSE", ⟨1, 52⟩⟩, blockOf readCall 64, .leaf ⟨.endWord, "END", ⟨1, 66⟩⟩]]
  let loop := .node (.nonterminal .loop)
    [.leaf ⟨.whileWord, "WHILE", ⟨1, 9⟩⟩, .leaf ⟨.lparen, "(", ⟨1, 15⟩⟩, zeroTest 16,
      .leaf ⟨.rparen, ")", ⟨1, 21⟩⟩, .leaf ⟨.doWord, "DO", ⟨1, 23⟩⟩, blockOf branch 69,
      .leaf ⟨.endWord, "END", ⟨1, 71⟩⟩]
  .node (.nonterminal .program)
    [.leaf ⟨.beginWord, "BEGIN", ⟨1, 1⟩⟩, .leaf ⟨.progName, "P", ⟨1, 7⟩⟩, blockOf loop 74,
      .leaf ⟨.endWord, "END", ⟨1, 76⟩⟩]

theorem parse_nestedText :
    (Parser.run (.ofLookahead .fortress Grammar.fortressLookahead)
      (.ofStream (.ofText nestedText))).1 = .ok nestedTree := by
  decide +kernel

theorem kinds_of_shown {is : List Tree} {ss : List Statement}
    (h : List.Forall₂ Statement.Shown is ss) :
    ss.map (fun s => some s.kind) = is.map fun i => i.children.head?.bind Tree.nonterminal? := by
  induction h with
  | nil => rfl
  | cons h hs ih => rw [List.map_cons, List.map_cons, ih, h.2.1]

/-- A loop, the branch in it, and the two parts of the branch. -/
theorem nested_statements_are_read_whole :
    ∃ t p, Table.build .fortress = .ok t ∧
      (Parser.run t (.ofStream (.ofText nestedText))).1 = .ok nestedTree ∧
      Program.ofTree nestedTree = .ok p ∧
      List.Forall₂ Statement.Shown
        (nestedTree.nodesOf .instruction) (Statement.flatAll p.statements) ∧
      (Statement.flatAll p.statements).map (fun s => some s.kind) =
        [some .loop, some .conditional, some .print, some .read] := by
  obtain ⟨p, hp, hshown⟩ := accepted_text_is_read_whole Grammar.build_fortress parse_nestedText
  refine ⟨_, p, Grammar.build_fortress, parse_nestedText, hp, hshown, ?_⟩
  rw [kinds_of_shown hshown]
  rfl

end FortressLang
