import FortressLang.Proofs.LoweredBlocks

/-! Temporaries over the whole life of a context. Whatever is asked of it and in whatever order, all
the code that it gives out numbers its temporaries from zero on without a gap, and reads only what
was written before in the same block. -/
namespace FortressLang

inductive Request
  /-- The code of a statement. -/
  | lower (s : Statement)
  /-- The text of a statement's code. -/
  | generate (s : Statement)
  /-- The text of code that is there already. -/
  | render (code : List Op)
  /-- The storage held back. -/
  | takeHeld

/-- The new code that answers a request, as it is or as text, and the context behind it. -/
def Request.serve (ctx : Context) : Request → List Op × Context
  | lower s | generate s => s.lower ctx
  | render _ => ([], ctx)
  | takeHeld => ctx.takeHeld

def Request.serveAll (ctx : Context) : List Request → List Op × Context
  | [] => ([], ctx)
  | r :: rs =>
    let (code, ctx) := r.serve ctx
    let (rest, ctx) := serveAll ctx rs
    (code ++ rest, ctx)

/-- A context that has not given out any code. -/
def Context.fresh (hoists : Bool) : Context := if hoists then .hoisting else .inPlace

theorem Context.continues_allocs {ctx last : Context} (htemp : last.nextTemp = ctx.nextTemp)
    (hblock : last.nextBlock = ctx.nextBlock) (names : List String) :
    ctx.Continues (names.map .alloc, last) := by
  induction names with
  | nil => exact ⟨by simp [htemp], by simp [hblock], .nil, .nil⟩
  | cons name names ih =>
    have hone : ctx.Continues ([.alloc name], ctx) :=
      (Context.Continues.nil ctx).effect ⟨rfl, rfl⟩ (List.forall_mem_nil _) rfl
    exact hone.append ih

theorem Context.continues_takeHeld (ctx : Context) : ctx.Continues ctx.takeHeld := by
  unfold Context.takeHeld
  split
  · apply Context.continues_allocs <;> rfl
  · exact .nil ctx

namespace Request

theorem continues_serve (ctx : Context) (r : Request) : ctx.Continues (r.serve ctx) := by
  cases r with
  | lower s | generate s => exact s.continues_lower ctx
  | render code => exact .nil ctx
  | takeHeld => exact ctx.continues_takeHeld

theorem continues_serveAll (ctx : Context) (rs : List Request) :
    ctx.Continues (serveAll ctx rs) := by
  induction rs generalizing ctx with
  | nil => exact .nil ctx
  | cons r rs ih => exact (r.continues_serve ctx).append (ih (r.serve ctx).2)

end Request

/-- The temporaries that a context's code writes are `0`, `1`, `2` and so on in this order, and an
operation reads those only that an earlier one of its block has written. -/
theorem temporaries_are_consecutive_and_written_first (hoists : Bool) (rs : List Request) :
    let code := (Request.serveAll (.fresh hoists) rs).1
    (∃ n, temps code = List.range n) ∧
    ∀ before op after, code = before ++ op :: after → ∀ t, .temp t ∈ op.reads →
      ∃ earlier ∈ openBlock before, earlier.writes? = some (.temp t) := by
  have h := Request.continues_serveAll (.fresh hoists) rs
  have hfirst : (Context.fresh hoists).nextTemp = 0 := by cases hoists <;> rfl
  have htemps := h.temps_eq
  rw [hfirst, List.range_zero, List.nil_append] at htemps
  exact ⟨⟨_, htemps⟩, fun before op after hcode t ht => h.grounded before op after hcode _ ht⟩

end FortressLang
