import FortressLang.Proofs.NamedOperations

/-! The text of the main function, read line by line without knowing what was written: the names
that its lines define and the constants that they pass. -/
namespace FortressLang

open Source (isVariable)
open ModuleText (codeLines)

/-- The name that a line defines: between a percent sign and an equals sign, or in front of a
colon. -/
def definedName? (line : List Char) : Option (List Char) :=
  match line.dropWhile (· = ' ') with
  | '%' :: cs =>
    if [' ', '=', ' '] <+: cs.dropWhile Piece.isNameChar then some (cs.takeWhile Piece.isNameChar)
    else none
  | cs =>
    if cs.dropWhile Piece.isNameChar = [':'] then some (cs.takeWhile Piece.isNameChar) else none

def passed? : List Char → Option (List Char)
  | [] => none
  | c :: cs =>
    if "@assign(i32 ".toList <+: c :: cs then some (((c :: cs).drop 12).takeWhile (· ≠ ')'))
    else passed? cs

def definedNames (text : String) : List (List Char) :=
  (text.toList.splitOn '\n').filterMap definedName?

def passedConstants (text : String) : List (List Char) :=
  (text.toList.splitOn '\n').filterMap passed?

section

variable {name word rest : List Char}

theorem definedName?_equals (hname : ∀ c ∈ name, Piece.isNameChar c = true) (rest : List Char) :
    definedName? ('%' :: (name ++ ' ' :: '=' :: ' ' :: rest)) = some name := by
  have hend : Piece.isNameChar ' ' = false := by decide
  simp [definedName?, List.takeWhile_append_of_pos hname, List.dropWhile_append_of_pos hname, hend]

theorem definedName?_word {c : Char} (hword : ∀ d ∈ c :: word, Piece.isNameChar d = true)
    (hrest : ∀ d, rest.head? = some d → Piece.isNameChar d = false) :
    definedName? (c :: word ++ rest) = if rest = [':'] then some (c :: word) else none := by
  have hspace : c ≠ ' ' := by
    rintro rfl
    exact absurd (hword _ List.mem_cons_self) (by decide)
  have hpercent : c ≠ '%' := by
    rintro rfl
    exact absurd (hword _ List.mem_cons_self) (by decide)
  have hdrop : rest.dropWhile Piece.isNameChar = rest ∧ rest.takeWhile Piece.isNameChar = [] := by
    cases rest with
    | nil => exact ⟨rfl, rfl⟩
    | cons d rest => simp [hrest d rfl]
  have hstart : (c :: word ++ rest).dropWhile (· = ' ') = c :: word ++ rest := by simp [hspace]
  rw [definedName?, hstart]
  split
  · rename_i heq
    exact absurd (List.cons.inj heq).1 hpercent
  · rw [List.dropWhile_append_of_pos hword, List.takeWhile_append_of_pos hword, hdrop.1, hdrop.2,
      List.append_nil]

end

theorem definedName?_indented (line : List Char) :
    definedName? (' ' :: ' ' :: line) = definedName? line := rfl

section

variable {cs : List Char}

theorem passed?_append (h : '@' ∉ cs) (rest : List Char) : passed? (cs ++ rest) = passed? rest := by
  induction cs with
  | nil => rfl
  | cons c cs ih =>
    rw [List.mem_cons, not_or] at h
    have hno : ¬"@assign(i32 ".toList <+: c :: (cs ++ rest) := fun hcall =>
      h.1 (List.cons_prefix_cons.mp hcall).1
    rw [List.cons_append, passed?, if_neg hno, ih h.2]

theorem passed?_of_not_mem (h : '@' ∉ cs) : passed? cs = none := by
  rw [← List.append_nil cs, passed?_append h, passed?]

theorem passed?_call (h : ')' ∉ cs) (rest : List Char) :
    passed? ("@assign(i32 ".toList ++ (cs ++ ')' :: rest)) = some cs := by
  have htake : ∀ c ∈ cs, (!decide (c = ')')) = true := by
    intro c hc
    have hne : c ≠ ')' := fun heq => h (heq ▸ hc)
    simpa using hne
  simp [passed?, List.takeWhile_append_of_pos htake]

end

theorem not_mem_of_isNameChar {cs : List Char} (h : ∀ d ∈ cs, Piece.isNameChar d = true) {c : Char}
    (hc : Piece.isNameChar c = false) : c ∉ cs := by
  intro hmem
  rw [h c hmem] at hc
  cases hc

theorem isNameChar_toDigits (n : Nat) : ∀ c ∈ Nat.toDigits 10 n, Piece.isNameChar c = true :=
  fun _ hc => Piece.isNameChar_of_isDigit (Nat.isDigit_of_mem_toDigits (by decide) (by decide) hc)

theorem not_mem_toDigits {c : Char} (hc : Piece.isNameChar c = false) (n : Nat) :
    c ∉ Nat.toDigits 10 n :=
  not_mem_of_isNameChar (isNameChar_toDigits n) hc

/-- A number is written as its digits, behind a minus if it is negative. -/
theorem toList_toString (n : Int) :
    (toString n).toList = if n < 0 then '-' :: Nat.toDigits 10 n.natAbs else
      Nat.toDigits 10 n.natAbs := by
  cases n with
  | ofNat n =>
    rw [if_neg (by simp)]
    exact Nat.toList_repr
  | negSucc n =>
    rw [if_pos (Int.negSucc_lt_zero n)]
    change ("-" ++ Nat.repr (n + 1)).toList = '-' :: Nat.toDigits 10 (n + 1)
    rw [String.toList_append, Nat.toList_repr]
    rfl

theorem mem_toString {n : Int} {c : Char} (h : c ∈ (toString n).toList) :
    c = '-' ∨ c.isDigit = true := by
  have hdigits : c ∈ Nat.toDigits 10 n.natAbs → c.isDigit = true :=
    fun hc => Nat.isDigit_of_mem_toDigits (by decide) (by decide) hc
  rw [toList_toString] at h
  split at h
  · exact (List.mem_cons.mp h).imp_right hdigits
  · exact .inr (hdigits h)

theorem Decimal.integer?_toString (n : Int) : integer? (toString n).toList = some n := by
  rw [toList_toString]
  split
  · rename_i hn
    have habs := Int.ofNat_natAbs_of_nonpos hn.le
    simp [integer?, natural?_toDigits, habs]
  · rename_i hn
    rw [integer?_of_natural? (natural?_toDigits _), Int.natAbs_of_nonneg (by omega)]

theorem isNameChar_variable {name : String} (h : isVariable name = true) :
    ∀ c ∈ name.toList, Piece.isNameChar c = true := by
  unfold Source.isVariable at h
  split at h
  · rename_i c cs hname
    simp only [Bool.and_eq_true, List.all_eq_true] at h
    rw [hname, List.forall_mem_cons]
    exact ⟨Piece.isNameChar_of_isLower h.1, fun d hd => Piece.isNameChar_of_isVarChar (h.2 d hd)⟩
  · cases h

theorem CodeLabel.isNameChar_text (l : CodeLabel) :
    ∀ c ∈ l.text.toList, Piece.isNameChar c = true := by
  have hnumbered (stem : String) (hstem : ∀ c ∈ stem.toList, Piece.isNameChar c = true) (n : Nat) :
      ∀ c ∈ (stem ++ toString n).toList, Piece.isNameChar c = true := by
    rw [String.toList_append, Nat.toString_eq_repr, Nat.toList_repr, List.forall_mem_append]
    exact ⟨hstem, isNameChar_toDigits n⟩
  cases l <;> exact hnumbered _ (List.all_eq_true.mp (by decide)) _

theorem CodeLabel.text_ne_nil (l : CodeLabel) : l.text.toList ≠ [] := by
  cases l <;> simp [text]

theorem Local.isNameChar_text {x : Local} (hx : ∀ name, x = storage name → isVariable name = true) :
    ∀ c ∈ x.text.toList, Piece.isNameChar c = true := by
  cases x with
  | entry => exact List.all_eq_true.mp (by decide)
  | temp n =>
    rw [text, Nat.toString_eq_repr, Nat.toList_repr]
    exact isNameChar_toDigits n
  | condition block =>
    rw [text, String.toList_append, Nat.toString_eq_repr, Nat.toList_repr, List.forall_mem_append]
    exact ⟨List.all_eq_true.mp (by decide), isNameChar_toDigits block⟩
  | storage name => exact isNameChar_variable (hx name rfl)
  | label l => exact l.isNameChar_text

namespace Op

variable {op : Op}

theorem line_of_defines {x : Local} (h : op.defines? = some x) (hlabel : op.label? = none) :
    ∃ rest, op.line.toList = ' ' :: ' ' :: '%' :: (x.text.toList ++ ' ' :: '=' :: ' ' :: rest) := by
  cases op <;> cases h
  case label => cases hlabel
  all_goals
    unfold line text
    simp [temp, Local.text]

theorem line_of_effect (h : op.defines? = none) :
    ∃ c word rest, op.line.toList = ' ' :: ' ' :: (c :: word ++ ' ' :: rest) ∧
      (c :: word).all Piece.isNameChar = true := by
  cases op <;> cases h
  case store src name =>
    refine ⟨'s', "tore".toList, ("i32 " ++ temp src ++ ", i32* %" ++ name).toList, ?_, by decide⟩
    unfold line text
    simp
  case print src =>
    refine ⟨'c', "all".toList, ("void @println(i32 " ++ temp src ++ ")").toList, ?_, by decide⟩
    unfold line text
    simp
  case branch block onTrue onFalse =>
    refine ⟨'b', ['r'], ("i1 %cond_" ++ toString block ++ ", label %" ++ onTrue.text ++
      ", label %" ++ onFalse.text).toList, ?_, by decide⟩
    unfold line text
    simp
  case jump target =>
    refine ⟨'b', ['r'], ("label %" ++ target.text).toList, ?_, by decide⟩
    unfold line text
    simp

theorem definedName?_line (h : op.Named) :
    definedName? op.line.toList = op.defines?.map (·.text.toList) := by
  cases hdefines : op.defines? with
  | none =>
    obtain ⟨c, word, rest, hline, hword⟩ := line_of_effect hdefines
    have hspace : ∀ d, (' ' :: rest).head? = some d → Piece.isNameChar d = false := by
      rintro d ⟨⟩
      decide
    rw [hline, definedName?_indented, definedName?_word (List.all_eq_true.mp hword) hspace,
      if_neg (by simp)]
    rfl
  | some x =>
    have hname : ∀ c ∈ x.text.toList, Piece.isNameChar c = true := by
      refine Local.isNameChar_text ?_
      rintro name rfl
      cases op <;> cases hdefines
      exact h name rfl
    cases hlabel : op.label? with
    | none =>
      obtain ⟨rest, hline⟩ := line_of_defines hdefines hlabel
      rw [hline, definedName?_indented, definedName?_equals hname]
      rfl
    | some l =>
      cases op <;> cases hlabel
      cases hdefines
      obtain ⟨c, word, htext⟩ := List.exists_cons_of_ne_nil l.text_ne_nil
      have hline : (label l).line.toList = c :: word ++ [':'] := by
        rw [← htext]
        exact String.toList_append
      have hcolon : ∀ d, [':'].head? = some d → Piece.isNameChar d = false := by
        rintro d ⟨⟩
        decide
      have hword : ∀ d ∈ c :: word, Piece.isNameChar d = true := htext ▸ hname
      rw [hline, definedName?_word hword hcolon, if_pos rfl, ← htext]
      rfl

def calls : Op → Bool
  | loadConstant .. | print _ | read _ => true
  | _ => false

def passes? : Op → Option Int
  | loadConstant _ n => some n
  | _ => none

theorem not_mem_line (h : op.Named) (hcalls : op.calls = false) {c : Char}
    (hc : c = '\n' ∨ c = '@') : c ∉ op.line.toList := by
  have hend : Piece.isNameChar c = false := by rcases hc with rfl | rfl <;> decide
  have hdigits := not_mem_toDigits hend
  have hlabel (l : CodeLabel) := not_mem_of_isNameChar l.isNameChar_text hend
  have hname (name : String) (hx : isVariable name = true) :=
    not_mem_of_isNameChar (isNameChar_variable hx) hend
  cases op with
  | loadConstant | print | read => cases hcalls
  | loadVariable d x | alloc x | store s x =>
    unfold line text
    rcases hc with rfl | rfl <;> simp [temp, hdigits, hname x (h x rfl)]
  | arith d op l r =>
    unfold line text
    rcases hc with rfl | rfl <;> cases op <;> simp [temp, hdigits, Operator.mnemonic]
  | compare b c l r =>
    unfold line text
    rcases hc with rfl | rfl <;> cases c <;> simp [temp, hdigits, Comparison.mnemonic]
  | _ =>
    unfold line text
    rcases hc with rfl | rfl <;> simp [temp, hdigits, hlabel]

theorem newline_not_mem_line (h : op.Named) : '\n' ∉ op.line.toList := by
  have hdigits := @not_mem_toDigits '\n' (by decide)
  cases op with
  | loadConstant d n =>
    have hn : '\n' ∉ (toString n).toList := fun hmem => absurd (mem_toString hmem) (by decide)
    unfold line text
    simpa [temp, hdigits] using hn
  | print n | read n =>
    unfold line text
    simp [temp, hdigits]
  | _ => exact not_mem_line h rfl (.inl rfl)

theorem passed?_line (h : op.Named) :
    passed? op.line.toList = op.passes?.map fun n => (toString n).toList := by
  have hdigits := @not_mem_toDigits '@' (by decide)
  cases op with
  | loadConstant d n =>
    have hline : (loadConstant d n).line.toList = (' ' :: ' ' :: '%' :: Nat.toDigits 10 d ++
        " = call i32 ".toList) ++ ("@assign(i32 ".toList ++ ((toString n).toList ++ [')'])) := by
      unfold line text
      simp [temp]
    have hn : ')' ∉ (toString n).toList := fun hmem => absurd (mem_toString hmem) (by decide)
    rw [hline, passed?_append (by simp [hdigits]), passed?_call hn]
    rfl
  | print n =>
    have hline : (print n).line.toList = "  call void ".toList ++
        '@' :: ("println(i32 %".toList ++ Nat.toDigits 10 n ++ [')']) := by
      unfold line text
      simp [temp]
    rw [hline, passed?_append (by decide), passed?, if_neg (by simp),
      passed?_of_not_mem (by simp [hdigits])]
    rfl
  | read n =>
    have hline : (read n).line.toList = (' ' :: ' ' :: '%' :: Nat.toDigits 10 n ++
        " = call i32 ".toList) ++ '@' :: "readInt()".toList := by
      unfold line text
      simp [temp]
    rw [hline, passed?_append (by simp [hdigits]), passed?, if_neg (by simp),
      passed?_of_not_mem (by decide)]
    rfl
  | _ => exact passed?_of_not_mem (not_mem_line h rfl (.inr rfl))

end Op

theorem splitOn_line {line : List Char} (h : '\n' ∉ line) (rest : List Char) :
    (line ++ '\n' :: rest).splitOn '\n' = line :: rest.splitOn '\n' := by
  refine List.splitOnP_append_cons_of_forall_mem (fun c hc => ?_) '\n' rfl rest
  rw [beq_eq_false_iff_ne]
  rintro rfl
  exact h hc

theorem splitOn_codeLines {code : List Op} (h : ∀ op ∈ code, '\n' ∉ op.line.toList)
    (rest : List Char) : ((codeLines code).toList ++ rest).splitOn '\n' =
      code.map (·.line.toList) ++ rest.splitOn '\n' := by
  induction code with
  | nil => rfl
  | cons op code ih =>
    rw [List.forall_mem_cons] at h
    have hcode : (codeLines (op :: code)).toList ++ rest =
        op.line.toList ++ '\n' :: ((codeLines code).toList ++ rest) := by
      simp [codeLines]
    rw [hcode, splitOn_line h.1, ih h.2]
    rfl

def Program.mainText (p : Program) : String :=
  "define i32 @main() \x7b\nentry_block:\n" ++ codeLines p.mainCode ++ "  ret i32 0\n\x7d\n"

theorem Program.moduleText_eq_mainText (runtime : String) (p : Program) :
    p.moduleText runtime = Text.trim runtime ++ "\n\n" ++ p.mainText := by
  have hhead : "\n\ndefine i32 @main() \x7b\nentry_block:\n" =
      "\n\n" ++ "define i32 @main() \x7b\nentry_block:\n" := by
    decide +kernel
  unfold mainText
  rw [moduleText_eq, hhead]
  simp only [String.append_assoc]

/-- The lines of the main function: its operations between four lines of its own. -/
theorem Program.splitOn_mainText {p : Program} (h : ∀ op ∈ p.mainCode, op.Named) :
    p.mainText.toList.splitOn '\n' =
      "define i32 @main() \x7b".toList :: "entry_block:".toList ::
        (p.mainCode.map (·.line.toList) ++ ["  ret i32 0".toList, ['\x7d'], []]) := by
  have hlines : ∀ op ∈ p.mainCode, '\n' ∉ op.line.toList := fun op hop =>
    Op.newline_not_mem_line (h op hop)
  have hhead : "define i32 @main() \x7b\nentry_block:\n".toList =
      "define i32 @main() \x7b".toList ++ '\n' :: ("entry_block:".toList ++ ['\n']) := by
    decide +kernel
  have hend : "  ret i32 0\n\x7d\n".toList.splitOn '\n' =
      ["  ret i32 0".toList, ['\x7d'], []] := by
    decide +kernel
  have hsplit {line next : List Char} (hline : '\n' ∉ line) (hnext : '\n' ∉ next)
      (rest : List Char) : (line ++ '\n' :: (next ++ ['\n']) ++ rest).splitOn '\n' =
        line :: next :: rest.splitOn '\n' := by
    rw [← splitOn_line hnext, ← splitOn_line hline]
    simp
  unfold mainText
  rw [String.toList_append, String.toList_append, hhead, List.append_assoc,
    hsplit (by decide) (by decide), splitOn_codeLines hlines, hend]

namespace Program

variable {p : Program} (h : Statement.wellNamedAll p.statements = true)

include h

theorem named_of_wellNamedAll : ∀ op ∈ p.mainCode, op.Named :=
  fun op hop => Op.named_of_wellNamed (wellNamed_mainCode h op hop)

/-- Its lines define what the main function defines, in this order. -/
theorem definedNames_mainText : definedNames p.mainText = p.locals.map (·.text.toList) := by
  have hcode : p.mainCode.filterMap (definedName? ∘ (·.line.toList)) =
      (p.mainCode.filterMap Op.defines?).map (·.text.toList) := by
    rw [List.map_filterMap]
    exact List.filterMap_congr fun op hop => Op.definedName?_line (named_of_wellNamedAll h op hop)
  have hhead : definedName? "define i32 @main() \x7b".toList = none ∧
      definedName? "entry_block:".toList = some "entry_block".toList := by
    decide +kernel
  have hend : ["  ret i32 0".toList, ['\x7d'], []].filterMap definedName? = [] := by decide +kernel
  rw [definedNames, splitOn_mainText (named_of_wellNamedAll h), List.filterMap_cons_none hhead.1,
    List.filterMap_cons_some hhead.2, List.filterMap_append, List.filterMap_map, hcode, hend,
    List.append_nil]
  rfl

theorem passedConstants_mainText : passedConstants p.mainText =
    (p.mainCode.filterMap Op.passes?).map fun n => (toString n).toList := by
  have hcode : p.mainCode.filterMap (passed? ∘ (·.line.toList)) =
      (p.mainCode.filterMap Op.passes?).map fun n => (toString n).toList := by
    rw [List.map_filterMap]
    exact List.filterMap_congr fun op hop => Op.passed?_line (named_of_wellNamedAll h op hop)
  have hhead : passed? "define i32 @main() \x7b".toList = none ∧
      passed? "entry_block:".toList = none := by
    decide +kernel
  have hend : ["  ret i32 0".toList, ['\x7d'], []].filterMap passed? = [] := by decide +kernel
  rw [passedConstants, splitOn_mainText (named_of_wellNamedAll h), List.filterMap_cons_none hhead.1,
    List.filterMap_cons_none hhead.2, List.filterMap_append, List.filterMap_map, hcode, hend,
    List.append_nil]

end Program

/-- For every grammar with a table and every source that compiles with it: the lines of the main
function define the entry, the temporaries, the conditions, the storage and the labels under names
that are all different, and what they pass to `@assign` are numerals of constants that fit with
either sign. -/
theorem names_are_distinct_and_constants_fit {g : Grammar} {t : Table} (hg : g.Known)
    (ht : Table.build g = .ok t) {runtime source : String} {c : Compilation}
    (h : t.compile runtime source = .ok c) :
    c.module = Text.trim runtime ++ "\n\n" ++ c.program.mainText ∧
    definedNames c.program.mainText = c.program.locals.map (·.text.toList) ∧
    (definedNames c.program.mainText).Nodup ∧
    passedConstants c.program.mainText =
      (c.program.mainCode.filterMap Op.passes?).map (fun n => (toString n).toList) ∧
    ∀ cs ∈ passedConstants c.program.mainText,
      ∃ n, Decimal.integer? cs = some n ∧ -(2 ^ 31 - 1) ≤ n ∧ n ≤ 2 ^ 31 - 1 := by
  obtain ⟨tree, p, htree, hp, rfl⟩ := Table.compile_eq_ok.mp h
  have hnamed := Program.wellNamed_of_run hg ht htree hp
  have hnames := Program.definedNames_mainText hnamed
  have hpassed := Program.passedConstants_mainText hnamed
  refine ⟨?_, hnames, ?_, hpassed, fun cs hcs => ?_⟩
  · exact p.moduleText_eq_mainText runtime
  · have hdistinct := (Program.nodup_localNames hnamed).map
      fun _ _ hxy => String.toList_injective hxy
    rw [List.map_map] at hdistinct
    change (definedNames p.mainText).Nodup
    rw [hnames]
    exact hdistinct
  · rw [hpassed] at hcs
    obtain ⟨n, hn, rfl⟩ := List.mem_map.mp hcs
    obtain ⟨op, hop, hpasses⟩ := List.mem_filterMap.mp hn
    have hfits := Program.wellNamed_mainCode hnamed op hop
    cases op <;> cases hpasses
    exact ⟨n, Decimal.integer?_toString n, of_decide_eq_true hfits⟩

/-- A branch that stores to a variable, with a load of it behind the branch. -/
theorem names_of_branch_are_distinct : ∃ t c, Table.build .fortress = .ok t ∧
    t.compile "" branchText = .ok c ∧
    definedNames c.program.mainText = ["entry_block", "a", "0", "1", "cond_0", "then_0", "2",
      "else_0", "end_0", "3"].map String.toList ∧
    (definedNames c.program.mainText).Nodup ∧
    passedConstants c.program.mainText = [['0'], ['0']] := by
  obtain ⟨c, hc, hp⟩ := Table.exists_compile parse_branchText ofTree_branchTree ""
  obtain ⟨-, hnames, hdistinct, hpassed, -⟩ :=
    names_are_distinct_and_constants_fit (.inl rfl) Grammar.build_fortress hc
  refine ⟨_, c, Grammar.build_fortress, hc, ?_, hdistinct, ?_⟩
  · rw [hnames, hp]
    decide +kernel
  · rw [hpassed, hp]
    decide +kernel

end FortressLang
