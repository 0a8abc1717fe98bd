import FortressLang.Proofs.BasicBlocks

/-! Lowering goes on from its context: behind each expression, condition, statement and list of
statements, the code has used the numbers up to those that are free then. -/
namespace FortressLang

theorem Expr.gives_lower (first : Nat) (e : Expr) :
    Gives (e.lower first).1 (.temp ((e.lower first).2 - 1)) := by
  rw [Gives, openBlock_of_labels_eq_nil (e.labels_lower first)]
  cases e with
  | operand o =>
    obtain ⟨v, negated⟩ := o
    cases v <;> cases negated <;> simp [lower, Op.writes?]
  | binary op lhs rhs => exact ⟨_, List.mem_concat_self, rfl⟩

theorem Expr.gives_pair (first : Nat) (lhs rhs : Expr) :
    let (lcode, mid) := lhs.lower first
    let (rcode, last) := rhs.lower mid
    ∀ x ∈ [Register.temp (mid - 1), .temp (last - 1)], Gives (lcode ++ rcode) x := by
  intro x hx
  rcases List.mem_pair.mp hx with rfl | rfl
  · exact (lhs.gives_lower first).append (rhs.labels_lower _)
  · exact (rhs.gives_lower _).behind _

theorem Expr.continues_lower (ctx : Context) (e : Expr) :
    let (code, next) := e.lower ctx.nextTemp
    ctx.Continues (code, { ctx with nextTemp := next }) := by
  induction e generalizing ctx with
  | operand o =>
    obtain ⟨v, negated⟩ := o
    have hload (name : String) : ctx.Continues
        ([.loadVariable ctx.nextTemp name], { ctx with nextTemp := ctx.nextTemp + 1 }) :=
      (Context.Continues.nil ctx).define ⟨rfl, rfl⟩ (List.forall_mem_nil _) rfl
    match v, negated with
    | .constant n, negated =>
      exact (Context.Continues.nil ctx).define ⟨rfl, rfl⟩ (List.forall_mem_nil _) rfl
    | .variable name, false => exact hload name
    | .variable name, true =>
      have hgives := gives_lower ctx.nextTemp (.operand ⟨.variable name, false⟩)
      exact (hload name).define ⟨rfl, rfl⟩ (List.forall_mem_singleton.mpr hgives) rfl
  | binary op lhs rhs ihl ihr =>
    have hoperands := (ihl ctx).append (ihr { ctx with nextTemp := (lhs.lower ctx.nextTemp).2 })
    exact hoperands.define ⟨rfl, rfl⟩ (gives_pair ctx.nextTemp lhs rhs) rfl

theorem Condition.continues_lower (ctx : Context) (c : Condition) :
    ctx.Continues ((c.lower ctx.nextBlock ctx.nextTemp).1, ctx.inside c) := by
  have hoperands := (c.lhs.continues_lower ctx).append
    (c.rhs.continues_lower { ctx with nextTemp := (c.lhs.lower ctx.nextTemp).2 })
  exact hoperands.push ⟨rfl, rfl⟩ (Expr.gives_pair ctx.nextTemp c.lhs c.rhs) (List.append_nil _)
    List.range_succ.symm

theorem Condition.gives_lower (c : Condition) (block first : Nat) :
    Gives (c.lower block first).1 (.condition block) :=
  .of_mem (c.labels_lower block first) List.mem_concat_self rfl

theorem Context.continues_allocate (ctx : Context) (name : String) :
    ctx.Continues (ctx.allocate name) := by
  unfold Context.allocate
  split
  · exact .nil ctx
  · split
    · exact ⟨List.append_nil _, List.append_nil _, .nil, .nil⟩
    · exact (Context.Continues.nil ctx).push ⟨rfl, rfl⟩ (List.forall_mem_nil _) (List.append_nil _)
        (List.append_nil _)

theorem Context.Continues.store {ctx mid : Context} {xs : List Op} {src : Nat}
    (h : ctx.Continues (xs, mid)) (hsrc : Gives xs (.temp src)) (name : String) :
    ctx.Continues (xs ++ (mid.allocate name).1 ++ [.store src name], (mid.allocate name).2) :=
  (h.append (mid.continues_allocate name)).effect ⟨rfl, rfl⟩
    (List.forall_mem_singleton.mpr (hsrc.append (mid.labels_allocate name))) rfl

mutual

theorem Statement.continues_lower (ctx : Context) :
    ∀ s : Statement, ctx.Continues (s.lower ctx)
  | .assign target value =>
    (value.continues_lower ctx).store (value.gives_lower ctx.nextTemp) target
  | .print name => by
    let loaded := Expr.operand ⟨.variable name, false⟩
    exact (loaded.continues_lower ctx).effect ⟨rfl, rfl⟩
      (List.forall_mem_singleton.mpr (loaded.gives_lower ctx.nextTemp)) rfl
  | .read name => by
    have hread : ctx.Continues ([.read ctx.nextTemp], { ctx with nextTemp := ctx.nextTemp + 1 }) :=
      (Context.Continues.nil ctx).define ⟨rfl, rfl⟩ (List.forall_mem_nil _) rfl
    exact hread.store (.of_mem rfl (List.mem_singleton_self _) rfl) name
  | .branch c ts es => by
    rw [Statement.lower_branch]
    let n := ctx.nextBlock
    have helse := (Statement.continues_lowerAll (lowerAll (ctx.inside c) ts).2 es).jump
      (.finish n) (.finish n) (.nil _)
    have hthen := (Statement.continues_lowerAll (ctx.inside c) ts).jump (.finish n) (.elsePart n)
      helse
    exact (c.continues_lower ctx).branch (c.gives_lower n ctx.nextTemp) _ _ _ hthen
  | .loop c ss => by
    rw [Statement.lower_loop]
    let n := ctx.nextBlock
    have hbody := (Statement.continues_lowerAll (ctx.inside c) ss).jump (.test n) (.finish n)
      (.nil _)
    have htest := (c.continues_lower ctx).branch (c.gives_lower n ctx.nextTemp) (.body n)
      (.finish n) (.body n) hbody
    exact (Context.Continues.nil ctx).jump (.test n) (.test n) htest

theorem Statement.continues_lowerAll (ctx : Context) :
    ∀ ss : List Statement, ctx.Continues (lowerAll ctx ss)
  | [] => .nil ctx
  | s :: ss =>
    (Statement.continues_lower ctx s).append (Statement.continues_lowerAll (s.lower ctx).2 ss)

end

end FortressLang
