import FortressLang.Proofs.LineReading

/-! The text of a module is put together at three levels: operations inside a statement, statements
one after the other, and the storage in front, if there is any. It comes to one line for each
operation, so that two programs have the same text only if they have the same code. -/
namespace FortressLang

open Source (isVariable)
open ModuleText (codeLines)

def Statement.lowerEach (ctx : Context) : List Statement → List (List Op) × Context
  | [] => ([], ctx)
  | s :: ss =>
    let (code, ctx) := s.lower ctx
    let (rest, ctx) := Statement.lowerEach ctx ss
    (code :: rest, ctx)

theorem Statement.lowerAll_eq_flatten (ctx : Context) (ss : List Statement) :
    lowerAll ctx ss = ((lowerEach ctx ss).1.flatten, (lowerEach ctx ss).2) := by
  induction ss generalizing ctx with
  | nil => rfl
  | cons s ss ih => simp only [lowerAll, lowerEach, ih, List.flatten_cons]

/-- No statement is lowered to nothing, which would be written as a blank line. -/
theorem Statement.lower_ne_nil (ctx : Context) (s : Statement) : (s.lower ctx).1 ≠ [] := by
  cases s with
  | branch c ts es =>
    rw [lower_branch]
    simp
  | loop c ss =>
    rw [lower_loop]
    simp
  | _ => simp [lower]

theorem Statement.ne_nil_of_mem_lowerEach (ctx : Context) (ss : List Statement) :
    ∀ code ∈ (lowerEach ctx ss).1, code ≠ [] := by
  induction ss generalizing ctx with
  | nil => exact List.forall_mem_nil _
  | cons s ss ih => exact List.forall_mem_cons.mpr ⟨s.lower_ne_nil ctx, ih _⟩

theorem renderCode_lineFeed {code : List Op} (h : code ≠ []) :
    renderCode code ++ "\n" = codeLines code := by
  unfold renderCode codeLines
  induction code with
  | nil => exact absurd rfl h
  | cons op code ih =>
    cases code with
    | nil => simp
    | cons next code => simpa [String.append_assoc] using ih (List.cons_ne_nil _ _)

theorem join_renderCode {blocks : List (List Op)} (h : ∀ code ∈ blocks, code ≠ []) :
    String.join (blocks.map fun code => renderCode code ++ "\n") = codeLines blocks.flatten := by
  induction blocks with
  | nil => rfl
  | cons code blocks ih =>
    rw [List.forall_mem_cons] at h
    rw [List.map_cons, String.join_cons, renderCode_lineFeed h.1, ih h.2, List.flatten_cons,
      ModuleText.codeLines_append]

/-- A line of an operation shows a percent sign or a colon. -/
theorem Op.allBlank_line (op : Op) : Text.allBlank op.line = false := by
  have hshown : ∃ c ∈ op.line.toList, Text.isBlank c = false := by
    cases op with
    | label l => exact ⟨':', by unfold line text; simp, by decide⟩
    | _ => exact ⟨'%', by unfold line text; simp [temp], by decide⟩
  rw [Text.allBlank, List.all_eq_false]
  simpa using hshown

namespace Program

/-- What lowering in a fresh hoisting context gives: the storage that is held back, and the code. -/
def lowered (p : Program) : List Op × List Op :=
  let (code, ctx) := Statement.lowerAll .hoisting p.statements
  (ctx.takeHeld.1, code)

theorem mainCode_eq_lowered (p : Program) : p.mainCode = p.lowered.1 ++ p.lowered.2 := rfl

/-- What is held back is what lowering in place mixes with the code. -/
theorem lowered_eq (p : Program) :
    let inPlace := (Statement.lowerAll .inPlace p.statements).1
    p.lowered = (storageIn inPlace, withoutStorage inPlace) := by
  have h := Statement.holdsBack_lowerAll .inPlace [] rfl p.statements
  have hcontext : Context.inPlace.holdingBack [] = .hoisting := rfl
  rw [hcontext] at h
  simp only [lowered, h.code, h.context, Context.takeHeld_holdingBack, List.append_nil,
    map_newStorage]

theorem lowered_eq_filter (p : Program) :
    p.lowered = (storageIn p.mainCode, withoutStorage p.mainCode) := by
  rw [mainCode_eq_lowered, lowered_eq]
  simp [storageIn, withoutStorage, List.filter_filter]

theorem mainCode_eq_iff {p q : Program} : p.mainCode = q.mainCode ↔ p.lowered = q.lowered := by
  constructor <;> intro h
  · rw [lowered_eq_filter, h, ← lowered_eq_filter]
  · rw [mainCode_eq_lowered, h, ← mainCode_eq_lowered]

/-- The module with its code in blocks: the storage, if there is any, then each statement. -/
def renderedText (runtime : String) (p : Program) : String :=
  let (blocks, ctx) := Statement.lowerEach .hoisting p.statements
  let storage := ctx.takeHeld.1
  Text.trim runtime ++ "\n\n" ++ "define i32 @main() \x7b\n" ++ "entry_block:\n" ++
    (if storage = [] then "" else renderCode storage ++ "\n") ++
    String.join (blocks.map fun code => renderCode code ++ "\n") ++ "  ret i32 0\n" ++ "\x7d\n"

theorem moduleText_eq_renderedText (runtime : String) (p : Program) :
    p.moduleText runtime = p.renderedText runtime := by
  have hstorage (storage : List Op) :
      (if storage = [] then "" else renderCode storage ++ "\n") = codeLines storage := by
    split
    · rename_i hnil
      rw [hnil]
      rfl
    · rename_i hne
      exact renderCode_lineFeed hne
  have hhead : "\n\ndefine i32 @main() \x7b\nentry_block:\n" =
      "\n\n" ++ "define i32 @main() \x7b\n" ++ "entry_block:\n" := by
    decide +kernel
  have hend : "  ret i32 0\n\x7d\n" = "  ret i32 0\n" ++ "\x7d\n" := by decide +kernel
  rw [moduleText, renderedText, Statement.lowerAll_eq_flatten, hhead, hend]
  simp only [hstorage, join_renderCode (Statement.ne_nil_of_mem_lowerEach _ _),
    String.append_assoc]

theorem splitOn_moduleText {p : Program} (h : ∀ op ∈ p.mainCode, op.Named) (runtime : String) :
    (p.moduleText runtime).toList.splitOn '\n' =
      (Text.trim runtime).toList.splitOn '\n' ++
        [] :: "define i32 @main() \x7b".toList :: "entry_block:".toList ::
          (p.mainCode.map (·.line.toList) ++ ["  ret i32 0".toList, ['\x7d'], []]) := by
  have hgap : (Text.trim runtime ++ "\n\n" ++ p.mainText).toList =
      (Text.trim runtime).toList ++ '\n' :: ('\n' :: p.mainText.toList) := by
    simp
  have hempty (rest : List Char) : ('\n' :: rest).splitOn '\n' = [] :: rest.splitOn '\n' :=
    List.splitOn_append_cons_self [] rest
  rw [moduleText_eq_mainText, hgap, List.splitOn_append_cons_self, hempty, splitOn_mainText h]

theorem mainCode_readBack {p : Program} (h : ∀ op ∈ p.mainCode, op.Named) :
    (p.mainCode.map (·.line.toList)).map Op.ofLine? = p.mainCode.map some := by
  rw [List.map_map]
  exact List.map_congr_left fun op hop => Op.ofLine?_line (h op hop)

theorem moduleText_inj {p q : Program} (hp : ∀ op ∈ p.mainCode, op.Named)
    (hq : ∀ op ∈ q.mainCode, op.Named) {runtime : String}
    (h : p.moduleText runtime = q.moduleText runtime) : p.mainCode = q.mainCode := by
  have hlines := splitOn_moduleText hp runtime
  rw [h, splitOn_moduleText hq runtime, List.append_cancel_left_eq] at hlines
  injection hlines with _ hlines
  injection hlines with _ hlines
  injection hlines with _ hlines
  have hcode := congrArg (List.map Op.ofLine?) (List.append_cancel_right hlines)
  rw [mainCode_readBack hp, mainCode_readBack hq] at hcode
  exact (List.map_injective_iff.mpr (Option.some_injective Op) hcode).symm

end Program

/-- For all programs whose variables are named as they may be, and every runtime: the module is
rendered block by block; its lines are those of the runtime, an empty one, and between four lines of
the main function's own one line for each operation, storage first, that shows something and from
which the operation is read back. So two programs have the same text exactly if they are lowered to
the same storage and the same code. -/
theorem module_text_determines_code {p q : Program} (runtime : String)
    (hp : ∀ x ∈ Statement.namesAll p.statements, isVariable x = true)
    (hq : ∀ x ∈ Statement.namesAll q.statements, isVariable x = true) :
    (p.moduleText runtime = q.moduleText runtime ↔ p.lowered = q.lowered) ∧
    p.moduleText runtime = p.renderedText runtime ∧
    (p.moduleText runtime).toList.splitOn '\n' =
      (Text.trim runtime).toList.splitOn '\n' ++
        [] :: "define i32 @main() \x7b".toList :: "entry_block:".toList ::
          ((p.lowered.1 ++ p.lowered.2).map (·.line.toList) ++
            ["  ret i32 0".toList, ['\x7d'], []]) ∧
    ∀ op ∈ p.lowered.1 ++ p.lowered.2,
      Text.allBlank op.line = false ∧ Op.ofLine? op.line.toList = some op := by
  have hp' := Program.named_mainCode hp
  have hq' := Program.named_mainCode hq
  refine ⟨⟨fun h => ?_, fun h => ?_⟩, p.moduleText_eq_renderedText runtime,
    Program.splitOn_moduleText hp' runtime, fun op hop => ⟨op.allBlank_line, ?_⟩⟩
  · exact Program.mainCode_eq_iff.mp (Program.moduleText_inj hp' hq' h)
  · rw [p.moduleText_eq, q.moduleText_eq, Program.mainCode_eq_iff.mpr h]
  · exact Op.ofLine?_line (hp' op hop)

/-- Counts a variable down by an operand while it is greater. -/
def countdown (step : Operand) : Program where
  name := "Countdown"
  statements :=
    [.loop ⟨.operand ⟨.variable "n", false⟩, .greater, .operand step⟩
      [.assign "n" (.binary .sub (.operand ⟨.variable "n", false⟩) (.operand step)), .print "n"]]

/-- A constant takes its sign into the code, where a variable has it turned by an operation. -/
theorem signed_constants_have_same_text :
    (∀ o ∈ [⟨.constant 5, true⟩, ⟨.constant (-5), false⟩, ⟨.variable "m", true⟩,
      ⟨.variable "m", false⟩], ∀ x ∈ Statement.namesAll (countdown o).statements,
        isVariable x = true) ∧
    (countdown ⟨.constant 5, true⟩).moduleText "" =
      (countdown ⟨.constant (-5), false⟩).moduleText "" ∧
    (countdown ⟨.variable "m", true⟩).moduleText "" ≠
      (countdown ⟨.variable "m", false⟩).moduleText "" := by
  refine (and_iff_left_of_imp fun hnamed => ?_).mpr (by decide +kernel)
  simp only [List.forall_mem_cons] at hnamed
  obtain ⟨hturned, hnegative, hminus, hplain, -⟩ := hnamed
  constructor
  · rw [(module_text_determines_code "" hturned hnegative).1]
    decide
  · rw [Ne, (module_text_determines_code "" hminus hplain).1]
    decide

end FortressLang
