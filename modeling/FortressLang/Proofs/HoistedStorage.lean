import FortressLang.Compilation
import FortressLang.Proofs.ChainReading
import FortressLang.Proofs.FortressTable
import FortressLang.Proofs.LoweredStorage
import FortressLang.Proofs.ParsedSums
import FortressLang.Proofs.StatementReading

/-! Where the storage of a compiled program is made. A hoisting context makes one piece of storage
for every variable that is stored to, in front of all else. It makes none for a variable that is
only loaded from. -/
namespace FortressLang

def Op.place? : Op → Option String
  | loadVariable _ name | store _ name => some name
  | _ => none

/-- Branches, jumps and labels. The first of them ends the entry block. -/
def Op.bounds : Op → Bool
  | branch .. | jump _ | label _ => true
  | _ => false

/-- In front of a place in the code, and of all branches and labels, stands the storage of a
variable, and it stands nowhere else. -/
def StorageAhead (code : List Op) (name : String) (i : Nat) : Prop :=
  ∃ j < i, code[j]? = some (.alloc name) ∧ (∀ k, code[k]? = some (.alloc name) → k = j) ∧
    ∀ k op, code[k]? = some op → op.bounds = true → j < k

theorem StorageAhead.mem {code : List Op} {name : String} {i : Nat}
    (h : StorageAhead code name i) : .alloc name ∈ code :=
  let ⟨_, _, hj, _⟩ := h
  List.mem_of_getElem? hj

/-- Storage for different variables, put in front of code that makes none, is ahead of it all. -/
theorem storageAhead_iff {names : List String} {code : List Op} (hnames : names.Nodup)
    (hcode : ∀ name, .alloc name ∉ code) {i : Nat} {op : Op} {name : String}
    (hi : (names.map Op.alloc ++ code)[i]? = some op) (hop : op.place? = some name) :
    StorageAhead (names.map .alloc ++ code) name i ↔ name ∈ names := by
  have hbehind : ∀ {k : Nat} {o : Op}, (names.map Op.alloc ++ code)[k]? = some o →
      (∀ x, o ≠ .alloc x) → names.length ≤ k := by
    intro k o hk ho
    by_contra hlt
    rw [List.getElem?_append_left (by simp; omega), List.getElem?_map] at hk
    obtain ⟨x, -, hx⟩ := Option.map_eq_some_iff.mp hk
    exact ho x hx.symm
  constructor
  · intro h
    simpa [hcode] using h.mem
  · intro hname
    obtain ⟨j, hj, hjname⟩ := List.mem_iff_getElem.mp hname
    have hfound : (names.map Op.alloc ++ code)[j]? = some (.alloc name) := by
      rw [List.getElem?_append_left (by simpa using hj)]
      simp [hj, hjname]
    have hij := hbehind hi (by rintro x rfl; simp [Op.place?] at hop)
    refine ⟨j, by omega, hfound, fun k hk => ?_, fun k o hk ho => ?_⟩
    · by_cases hlt : k < names.length
      · rw [List.getElem?_append_left (by simpa using hlt), List.getElem?_map] at hk
        simp only [List.getElem?_eq_getElem hlt, Option.map_some, Option.some.injEq,
          Op.alloc.injEq] at hk
        exact (hnames.getElem_inj_iff).mp (hk.trans hjname.symm)
      · rw [List.getElem?_append_right (by simpa using hlt)] at hk
        exact absurd (List.mem_of_getElem? hk) (hcode name)
    · have := hbehind hk (by rintro x rfl; simp [Op.bounds] at ho)
      omega

def Context.Holding (ctx : Context) : Prop := ctx.held = some ctx.allocated

theorem Context.holding_hoisting : hoisting.Holding := rfl

theorem Context.Holding.allocate {ctx : Context} (h : ctx.Holding) (name : String) :
    ctx.allocate name =
      ([], { ctx with allocated := ctx.allocated.insert name
                      held := some (ctx.allocated.insert name) }) := by
  obtain ⟨temp, block, allocated, held⟩ := ctx
  obtain rfl : held = some allocated := h
  by_cases hname : name ∈ allocated <;> simp [Context.allocate, hname]

/-- Lowering in a holding context: the code makes no storage, and what it stores to is held back
behind what was already. -/
structure Hoists (ctx : Context) (names : List String) (lowered : List Op × Context) : Prop where
  holding : lowered.2.Holding
  allocated : lowered.2.allocated = names.reverse ∪ ctx.allocated
  alloc_not_mem : ∀ name, .alloc name ∉ lowered.1
  stores : ∀ src name, .store src name ∈ lowered.1 → name ∈ names

namespace Hoists

variable {ctx ctx' : Context} {names more : List String} {code : List Op}
  {lowered rest : List Op × Context}

theorem of_keepsStorage (hctx : ctx'.Holding) (hsame : ctx'.allocated = ctx.allocated)
    (hcode : ∀ op ∈ code, op.keepsStorage = true) : Hoists ctx [] (code, ctx') where
  holding := hctx
  allocated := by simp [hsame]
  alloc_not_mem name h := by simpa [Op.keepsStorage] using hcode _ h
  stores src name h := by simpa [Op.keepsStorage] using hcode _ h

theorem append (h : Hoists ctx names lowered) (h' : Hoists lowered.2 more rest) :
    Hoists ctx (names ++ more) (lowered.1 ++ rest.1, rest.2) where
  holding := h'.holding
  allocated := by
    rw [h'.allocated, h.allocated, List.reverse_append]
    simp only [Union.union, List.union, List.foldr_append]
  alloc_not_mem name := by simp [h.alloc_not_mem, h'.alloc_not_mem]
  stores src name hmem := by
    rcases List.mem_append.mp hmem with hmem | hmem
    · exact List.mem_append_left _ (h.stores src name hmem)
    · exact List.mem_append_right _ (h'.stores src name hmem)

theorem store (hctx : ctx.Holding) (src : Nat) (name : String) :
    Hoists ctx [name]
      ((ctx.allocate name).1 ++ [.store src name], (ctx.allocate name).2) := by
  rw [hctx.allocate]
  refine ⟨rfl, rfl, by simp, fun src' name' h => ?_⟩
  simpa using (Op.store.inj (List.mem_singleton.mp h)).2

end Hoists

theorem hoists_rule : StorageRule fun ctx names lowered =>
    ctx.Holding → Hoists ctx names lowered where
  keeps hallocated hheld hcode hctx :=
    .of_keepsStorage (by rw [Context.Holding, hallocated, hheld, hctx]) hallocated hcode
  store _ src name hctx := .store hctx src name
  append h h' hctx := (h hctx).append (h' (h hctx).holding)

theorem Statement.hoists_lowerAll {ctx : Context} (h : ctx.Holding) (ss : List Statement) :
    Hoists ctx (targetsAll ss) (lowerAll ctx ss) := hoists_rule.statements ctx ss h

/-- The variables that a program stores to, each once, in the order of their first stores. -/
def Program.stored (p : Program) : List String :=
  (Statement.targetsAll p.statements).reverse.dedup.reverse

def Program.mainCode (p : Program) : List Op :=
  let (code, ctx) := Statement.lowerAll .hoisting p.statements
  ctx.takeHeld.1 ++ code

theorem Program.mainCode_eq (p : Program) :
    p.mainCode = p.stored.map .alloc ++ (Statement.lowerAll .hoisting p.statements).1 := by
  have h := Statement.hoists_lowerAll Context.holding_hoisting p.statements
  have hallocated := h.allocated
  rw [show Context.hoisting.allocated = [].dedup from rfl, ← List.dedup_append,
    List.append_nil] at hallocated
  have hheld : (Statement.lowerAll .hoisting p.statements).2.held = _ := h.holding
  simp only [mainCode, Context.takeHeld, hheld, hallocated, stored]

theorem Program.mem_stored {p : Program} {name : String} :
    name ∈ p.stored ↔ name ∈ Statement.targetsAll p.statements := by
  simp [stored]

theorem Program.nodup_stored (p : Program) : p.stored.Nodup :=
  List.nodup_reverse.mpr (List.nodup_dedup _)

theorem Program.storageAhead_iff {p : Program} {i : Nat} {op : Op} {name : String}
    (hi : p.mainCode[i]? = some op) (hop : op.place? = some name) :
    StorageAhead p.mainCode name i ↔ name ∈ Statement.targetsAll p.statements := by
  have h := Statement.hoists_lowerAll Context.holding_hoisting p.statements
  rw [mainCode_eq] at hi ⊢
  rw [FortressLang.storageAhead_iff p.nodup_stored h.alloc_not_mem hi hop, mem_stored]

theorem Program.mem_targets_of_store {p : Program} {src : Nat} {name : String}
    (h : .store src name ∈ p.mainCode) : name ∈ Statement.targetsAll p.statements := by
  rw [mainCode_eq, List.mem_append] at h
  rcases h with h | h
  · simp at h
  · exact (Statement.hoists_lowerAll Context.holding_hoisting p.statements).stores src name h

theorem ModuleText.codeLines_append (code more : List Op) :
    codeLines (code ++ more) = codeLines code ++ codeLines more := by
  simp [codeLines]

theorem Program.moduleText_eq (runtime : String) (p : Program) :
    p.moduleText runtime = Text.trim runtime ++ "\n\ndefine i32 @main() \x7b\nentry_block:\n" ++
      ModuleText.codeLines p.mainCode ++ "  ret i32 0\n\x7d\n" := by
  simp only [moduleText, mainCode, ModuleText.codeLines_append, String.append_assoc]

theorem Table.compile_eq_ok {t : Table} {runtime source : String} {c : Compilation} :
    t.compile runtime source = .ok c ↔ ∃ tree p,
      ((Parser.ofStream (.ofText source)).run t).1 = .ok tree ∧ Program.ofTree tree = .ok p ∧
      ⟨p, ((Parser.ofStream (.ofText source)).run t).2.derivation, p.moduleText runtime⟩ = c := by
  simp only [compile]
  cases ((Parser.ofStream (.ofText source)).run t).1 with
  | error issue => simp [bind, Except.bind]
  | ok tree => cases hp : Program.ofTree tree <;> simp [hp, bind, Except.bind]

theorem Table.exists_compile {t : Table} {source : String} {tree : Tree} {p : Program}
    (ht : ((Parser.ofStream (.ofText source)).run t).1 = .ok tree)
    (hp : Program.ofTree tree = .ok p) (runtime : String) :
    ∃ c, t.compile runtime source = .ok c ∧ c.program = p :=
  ⟨_, Table.compile_eq_ok.mpr ⟨tree, p, ht, hp, rfl⟩, rfl⟩

/-- For every source that compiles: the module is the text of the main code behind the runtime. In
that code every store has its storage ahead. So has a load, exactly if some statement of the
program stores to the variable. -/
theorem stored_variables_have_storage_ahead {t : Table} {runtime source : String} {c : Compilation}
    (h : t.compile runtime source = .ok c) :
    c.module = Text.trim runtime ++ "\n\ndefine i32 @main() \x7b\nentry_block:\n" ++
      ModuleText.codeLines c.program.mainCode ++ "  ret i32 0\n\x7d\n" ∧
    (∀ i src name, c.program.mainCode[i]? = some (.store src name) →
      StorageAhead c.program.mainCode name i) ∧
    ∀ i dest name, c.program.mainCode[i]? = some (.loadVariable dest name) →
      (StorageAhead c.program.mainCode name i ↔
        name ∈ Statement.targetsAll c.program.statements) := by
  obtain ⟨tree, p, -, -, rfl⟩ := Table.compile_eq_ok.mp h
  refine ⟨p.moduleText_eq runtime, fun i src name hi => ?_, fun i dest name hi => ?_⟩
  · have hstored := Program.mem_targets_of_store (List.mem_of_getElem? hi)
    exact (Program.storageAhead_iff hi rfl).mpr hstored
  · exact Program.storageAhead_iff hi rfl

def branchText : String := "BEGIN P IF (0 = 0) THEN READ(a), END, PRINT(a), END"

def zeroSum (column : Nat) : Tree :=
  .node (.nonterminal .sum)
    [.node (.nonterminal .product)
      [.node (.nonterminal .atom) [.leaf ⟨.number, "0", ⟨1, column⟩⟩],
        .node (.nonterminal .productRest) []],
      .node (.nonterminal .sumRest) []]

def printCall (column : Nat) : Tree :=
  .node (.nonterminal .print)
    [.leaf ⟨.printWord, "PRINT", ⟨1, column⟩⟩, .leaf ⟨.lparen, "(", ⟨1, column + 5⟩⟩,
      .leaf ⟨.varName, "a", ⟨1, column + 6⟩⟩, .leaf ⟨.rparen, ")", ⟨1, column + 7⟩⟩]

def branchTree : Tree :=
  .node (.nonterminal .program)
    [.leaf ⟨.beginWord, "BEGIN", ⟨1, 1⟩⟩, .leaf ⟨.progName, "P", ⟨1, 7⟩⟩,
      .node (.nonterminal .code)
        [.node (.nonterminal .instruction)
          [.node (.nonterminal .conditional)
            [.leaf ⟨.ifWord, "IF", ⟨1, 9⟩⟩, .leaf ⟨.lparen, "(", ⟨1, 12⟩⟩,
              .node (.nonterminal .condition)
                [zeroSum 13, .node (.nonterminal .comparison) [.leaf ⟨.equal, "=", ⟨1, 15⟩⟩],
                  zeroSum 17],
              .leaf ⟨.rparen, ")", ⟨1, 18⟩⟩, .leaf ⟨.thenWord, "THEN", ⟨1, 20⟩⟩,
              .node (.nonterminal .code)
                [.node (.nonterminal .instruction)
                  [.node (.nonterminal .read)
                    [.leaf ⟨.readWord, "READ", ⟨1, 25⟩⟩, .leaf ⟨.lparen, "(", ⟨1, 29⟩⟩,
                      .leaf ⟨.varName, "a", ⟨1, 30⟩⟩, .leaf ⟨.rparen, ")", ⟨1, 31⟩⟩]],
                  .leaf ⟨.comma, ",", ⟨1, 32⟩⟩, .node (.nonterminal .code) []],
              .node (.nonterminal .conditionalEnd) [.leaf ⟨.endWord, "END", ⟨1, 34⟩⟩]]],
          .leaf ⟨.comma, ",", ⟨1, 37⟩⟩,
          .node (.nonterminal .code)
            [.node (.nonterminal .instruction) [printCall 39], .leaf ⟨.comma, ",", ⟨1, 47⟩⟩,
              .node (.nonterminal .code) []]],
      .leaf ⟨.endWord, "END", ⟨1, 49⟩⟩]

theorem parse_branchText :
    (Parser.run (.ofLookahead .fortress Grammar.fortressLookahead)
      (.ofStream (.ofText branchText))).1 = .ok branchTree := by
  decide +kernel

def zero : Expr := .operand ⟨.constant 0, false⟩

theorem ofTree_zeroSum (column : Nat) : Expr.ofTree (zeroSum column) = .ok zero :=
  have hzero : Decimal.int32? "0".toList = some 0 := by decide
  Source.Sum.ofTree_spelled (.of (.of (.number 0) .stop) .stop)
    ⟨_, _, rfl, ⟨_, _, rfl, ⟨_, rfl, rfl, hzero⟩, rfl⟩, rfl⟩

theorem ofTree_printCall (column : Nat) :
    Statement.ofTree (.node (.nonterminal .instruction) [printCall column]) = .ok (.print "a") :=
  have hword : Terminal.printWord ≠ .varName := by decide
  have hparen : Terminal.lparen ≠ .varName := by decide
  Statement.ofTree_print hword hparen rfl _

theorem ofTree_branchTree :
    Program.ofTree branchTree =
      .ok ⟨"P", [.branch ⟨zero, .equal, zero⟩ [.read "a"] [], .print "a"]⟩ := by
  refine Program.ofTree_node (by decide) rfl rfl
    (Statement.listOfTree_cons _ rfl rfl ?branch ?rest) _
  case rest =>
    exact Statement.listOfTree_cons _ rfl rfl (ofTree_printCall 39) Statement.listOfTree_nil
  case branch =>
    refine Statement.ofTree_conditional rfl ?test rfl ?code rfl (.inl ⟨rfl, rfl⟩) _ _ _ _
    case test => exact Condition.ofTree_sums rfl rfl rfl (ofTree_zeroSum 13) (ofTree_zeroSum 17)
    case code =>
      have hword : Terminal.readWord ≠ .varName := by decide
      have hparen : Terminal.lparen ≠ .varName := by decide
      exact Statement.listOfTree_cons _ rfl rfl (Statement.ofTree_read hword hparen rfl _)
        Statement.listOfTree_nil

/-- What is read in a branch has its storage in front of the branch, where it is printed behind
the branch, too. -/
theorem read_in_branch_has_storage_ahead :
    ∃ t c, Table.build .fortress = .ok t ∧ t.compile "" branchText = .ok c ∧
      c.program.mainCode[12]? = some (.loadVariable 3 "a") ∧
      StorageAhead c.program.mainCode "a" 12 := by
  obtain ⟨c, hc, hp⟩ := Table.exists_compile parse_branchText ofTree_branchTree ""
  have hload : c.program.mainCode[12]? = some (.loadVariable 3 "a") := by
    rw [hp]
    rfl
  have hread : "a" ∈ Statement.targetsAll c.program.statements := by
    rw [hp]
    decide
  have hahead := (stored_variables_have_storage_ahead hc).2.2 12 3 "a" hload
  exact ⟨_, c, Grammar.build_fortress, hc, hload, hahead.mpr hread⟩

def printText : String := "BEGIN P PRINT(a), END"

def printTree : Tree :=
  .node (.nonterminal .program)
    [.leaf ⟨.beginWord, "BEGIN", ⟨1, 1⟩⟩, .leaf ⟨.progName, "P", ⟨1, 7⟩⟩,
      .node (.nonterminal .code)
        [.node (.nonterminal .instruction) [printCall 9], .leaf ⟨.comma, ",", ⟨1, 17⟩⟩,
          .node (.nonterminal .code) []],
      .leaf ⟨.endWord, "END", ⟨1, 19⟩⟩]

theorem parse_printText :
    (Parser.run (.ofLookahead .fortress Grammar.fortressLookahead)
      (.ofStream (.ofText printText))).1 = .ok printTree := by
  decide +kernel

theorem ofTree_printTree : Program.ofTree printTree = .ok ⟨"P", [.print "a"]⟩ :=
  Program.ofTree_node (by decide) rfl rfl
    (Statement.listOfTree_cons _ rfl rfl (ofTree_printCall 9) Statement.listOfTree_nil) _

/-- What is printed and never stored to is loaded without any storage. -/
theorem printed_only_has_no_storage :
    ∃ t c, Table.build .fortress = .ok t ∧ t.compile "" printText = .ok c ∧
      c.program.mainCode[0]? = some (.loadVariable 0 "a") ∧
      ∀ i, ¬StorageAhead c.program.mainCode "a" i := by
  obtain ⟨c, hc, hp⟩ := Table.exists_compile parse_printText ofTree_printTree ""
  have hload : c.program.mainCode[0]? = some (.loadVariable 0 "a") := by
    rw [hp]
    rfl
  have hnone : .alloc "a" ∉ c.program.mainCode := by
    rw [hp]
    decide
  exact ⟨_, c, Grammar.build_fortress, hc, hload, fun i h => hnone h.mem⟩

end FortressLang
