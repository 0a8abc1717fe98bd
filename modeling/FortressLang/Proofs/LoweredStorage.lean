import FortressLang.Proofs.LoweredLabels

/-! Storage in lowered code. Code comes to storage by stores only, each behind the storage that its
variable may need. What holds of a store, and of code in front of other code, holds of all that is
lowered. -/
namespace FortressLang

mutual

def Statement.targets : Statement → List String
  | .assign target _ => [target]
  | .print _ => []
  | .read name => [name]
  | .branch _ ts es => targetsAll ts ++ targetsAll es
  | .loop _ ss => targetsAll ss

def Statement.targetsAll : List Statement → List String
  | [] => []
  | s :: ss => s.targets ++ targetsAll ss

end

def Op.keepsStorage : Op → Bool
  | alloc _ | store .. => false
  | _ => true

theorem Expr.keepsStorage_lower (e : Expr) (first : Nat) :
    ∀ op ∈ (e.lower first).1, op.keepsStorage = true := by
  induction e generalizing first with
  | operand o =>
    obtain ⟨v, negated⟩ := o
    cases v <;> cases negated <;> simp [Expr.lower, Op.keepsStorage]
  | binary op lhs rhs ihl ihr =>
    intro o ho
    simp only [Expr.lower, List.mem_append, List.mem_singleton] at ho
    rcases ho with (ho | ho) | rfl
    · exact ihl _ o ho
    · exact ihr _ o ho
    · rfl

theorem Condition.keepsStorage_lower (c : Condition) (block first : Nat) :
    ∀ op ∈ (c.lower block first).1, op.keepsStorage = true := by
  intro o ho
  simp only [Condition.lower, List.mem_append, List.mem_singleton] at ho
  rcases ho with (ho | ho) | rfl
  · exact c.lhs.keepsStorage_lower _ o ho
  · exact c.rhs.keepsStorage_lower _ o ho
  · rfl

/-- A relation between a context, the variables that are stored to, and what is lowered there: it
holds of code that keeps the storage as it is, of a store behind the storage made for it, and of
code in front of other code. -/
structure StorageRule (R : Context → List String → List Op × Context → Prop) : Prop where
  keeps : ∀ {ctx ctx' : Context} {code : List Op}, ctx'.allocated = ctx.allocated →
    ctx'.held = ctx.held → (∀ op ∈ code, op.keepsStorage = true) → R ctx [] (code, ctx')
  store : ∀ (ctx : Context) (src : Nat) (name : String),
    R ctx [name] ((ctx.allocate name).1 ++ [.store src name], (ctx.allocate name).2)
  append : ∀ {ctx : Context} {names more : List String} {lowered rest : List Op × Context},
    R ctx names lowered → R lowered.2 more rest →
      R ctx (names ++ more) (lowered.1 ++ rest.1, rest.2)

namespace StorageRule

variable {R : Context → List String → List Op × Context → Prop} (h : StorageRule R)

include h

theorem marks {ctx : Context} {names : List String} {lowered : List Op × Context}
    (hlowered : R ctx names lowered) (more : List Op)
    (hmore : ∀ op ∈ more, op.keepsStorage = true) : R ctx names (lowered.1 ++ more, lowered.2) := by
  simpa using h.append hlowered (h.keeps rfl rfl hmore)

theorem test (ctx : Context) (c : Condition) (before after : List Op)
    (hbefore : ∀ op ∈ before, op.keepsStorage = true)
    (hafter : ∀ op ∈ after, op.keepsStorage = true) :
    R ctx [] (before ++ (c.lower ctx.nextBlock ctx.nextTemp).1 ++ after, ctx.inside c) := by
  refine h.keeps rfl rfl ?_
  simp only [List.forall_mem_append]
  exact ⟨⟨hbefore, c.keepsStorage_lower _ _⟩, hafter⟩

mutual

theorem statement (ctx : Context) : ∀ s : Statement, R ctx s.targets (s.lower ctx)
  | .assign target value => by
    have hvalue : R ctx [] ((value.lower ctx.nextTemp).1,
        { ctx with nextTemp := (value.lower ctx.nextTemp).2 }) :=
      h.keeps rfl rfl (value.keepsStorage_lower _)
    simpa [Statement.lower, Statement.targets] using h.append hvalue (h.store _ _ target)
  | .print name => h.keeps rfl rfl (by simp [Op.keepsStorage])
  | .read name => by
    have hread : R ctx [] ([.read ctx.nextTemp], { ctx with nextTemp := ctx.nextTemp + 1 }) :=
      h.keeps rfl rfl (by simp [Op.keepsStorage])
    simpa [Statement.lower, Statement.targets] using h.append hread (h.store _ _ name)
  | .branch c ts es => by
    let n := ctx.nextBlock
    have htest := h.test ctx c [] [.branch n (.thenPart n) (.elsePart n), .label (.thenPart n)]
      (by simp) (by simp [Op.keepsStorage])
    have hthen := h.marks (statements (ctx.inside c) ts) [.jump (.finish n), .label (.elsePart n)]
      (by simp [Op.keepsStorage])
    have helse := h.marks (statements (Statement.lowerAll (ctx.inside c) ts).2 es)
      [.jump (.finish n), .label (.finish n)] (by simp [Op.keepsStorage])
    rw [Statement.lower_branch, Statement.targets]
    simpa [n] using h.append htest (h.append hthen helse)
  | .loop c ss => by
    let n := ctx.nextBlock
    have htest := h.test ctx c [.jump (.test n), .label (.test n)]
      [.branch n (.body n) (.finish n), .label (.body n)] (by simp [Op.keepsStorage])
      (by simp [Op.keepsStorage])
    have hbody := h.marks (statements (ctx.inside c) ss) [.jump (.test n), .label (.finish n)]
      (by simp [Op.keepsStorage])
    rw [Statement.lower_loop, Statement.targets]
    simpa [n] using h.append htest hbody

theorem statements (ctx : Context) :
    ∀ ss : List Statement, R ctx (Statement.targetsAll ss) (Statement.lowerAll ctx ss)
  | [] => h.keeps rfl rfl (by simp)
  | s :: ss => h.append (statement ctx s) (statements (s.lower ctx).2 ss)

end

end StorageRule
end FortressLang
