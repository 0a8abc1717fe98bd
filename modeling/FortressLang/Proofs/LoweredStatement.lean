import FortressLang.Proofs.LoweredExpr
import FortressLang.Proofs.LoweredLabels

/-! The code of a single statement: where its pieces stand, and how a run gets from one to the
next. -/
namespace FortressLang

namespace FlowState

variable {code : List Op} {s : FlowState} {i : Nat}

theorem step_label {l : CodeLabel} (h : code[s.pc]? = some (.label l)) :
    s.step code = .next { s with pc := s.pc + 1 } := step_of_getElem? h

/-- Going to a label that stands in the code once leads behind it. -/
theorem Arrives.of_goTo {l : CodeLabel} (hn : (labels code).Nodup)
    (hl : code[i]? = some (.label l)) (hstep : s.step code = s.goTo code l) :
    s.Arrives code 2 (i + 1) s.store := by
  rw [goTo_of_findIdx? s (findIdx?_label hn hl)] at hstep
  exact .of_flow (.succ hstep (.one (step_label hl))) (Nat.le_refl 2) rfl rfl

theorem Arrives.of_jump {l : CodeLabel} (hn : (labels code).Nodup)
    (hjump : code[s.pc]? = some (.jump l)) (hl : code[i]? = some (.label l)) :
    s.Arrives code 2 (i + 1) s.store :=
  .of_goTo hn hl (step_of_getElem? hjump)

theorem Arrives.of_branch {block : Nat} {x y : CodeLabel} {b : Bool} (hn : (labels code).Nodup)
    (hbranch : code[s.pc]? = some (.branch block x y)) (hb : s.conditions block = some b)
    (hl : code[i]? = some (.label (if b then x else y))) :
    s.Arrives code 2 (i + 1) s.store := by
  apply Arrives.of_goTo hn hl
  rw [step_of_getElem? hbranch]
  simp only [exec, hb]

end FlowState

theorem Context.flow_allocate {code : List Op} {ctx : Context} {name : String} {s : FlowState}
    (h : Located code (ctx.allocate name).1 s.pc) :
    Flow code s (ctx.allocate name).1.length
      { s with pc := s.pc + (ctx.allocate name).1.length } := by
  have hcode : (ctx.allocate name).1 = [] ∨ (ctx.allocate name).1 = [.alloc name] := by
    unfold Context.allocate
    split
    · exact .inl rfl
    · split
      · exact .inl rfl
      · exact .inr rfl
  rcases hcode with hcode | hcode
  · rw [hcode]
    exact .refl s
  · rw [hcode] at h ⊢
    exact .one (FlowState.step_of_getElem? h.getElem?)

structure BranchAt (code : List Op) (ctx : Context) (c : Condition) (ts es : List Statement)
    (a thenAt elseAt finishAt : Nat) : Prop where
  test : Located code (c.lower ctx.nextBlock ctx.nextTemp).1 a
  branch : code[a + (c.lower ctx.nextBlock ctx.nextTemp).1.length]? =
    some (.branch ctx.nextBlock (.thenPart ctx.nextBlock) (.elsePart ctx.nextBlock))
  thenLabel : code[thenAt]? = some (.label (.thenPart ctx.nextBlock))
  thenPart : Located code (Statement.lowerAll (ctx.inside c) ts).1 (thenAt + 1)
  thenJump : code[thenAt + 1 + (Statement.lowerAll (ctx.inside c) ts).1.length]? =
    some (.jump (.finish ctx.nextBlock))
  elseLabel : code[elseAt]? = some (.label (.elsePart ctx.nextBlock))
  elsePart : Located code (Statement.lowerAll (Statement.lowerAll (ctx.inside c) ts).2 es).1
    (elseAt + 1)
  elseJump : code[elseAt + 1 +
      (Statement.lowerAll (Statement.lowerAll (ctx.inside c) ts).2 es).1.length]? =
    some (.jump (.finish ctx.nextBlock))
  finishLabel : code[finishAt]? = some (.label (.finish ctx.nextBlock))

theorem Located.branchAt {code : List Op} {ctx : Context} {c : Condition} {ts es : List Statement}
    {a : Nat} (h : Located code ((Statement.branch c ts es).lower ctx).1 a) :
    ∃ thenAt elseAt finishAt, BranchAt code ctx c ts es a thenAt elseAt finishAt ∧
      finishAt + 1 = a + ((Statement.branch c ts es).lower ctx).1.length := by
  rw [Statement.lower_branch] at h ⊢
  have hbehind := h.right
  have hthen := hbehind.tail.tail
  have helse := hthen.right.tail.tail
  refine ⟨_, _, _, ⟨h.left, hbehind.getElem?, hbehind.tail.getElem?, hthen.left,
    hthen.right.getElem?, hthen.right.tail.getElem?, helse.left, helse.right.getElem?,
    helse.right.tail.getElem?⟩, ?_⟩
  simp only [List.length_append, List.length_cons, List.length_nil]
  omega

structure LoopAt (code : List Op) (ctx : Context) (c : Condition) (ss : List Statement)
    (a bodyAt finishAt : Nat) : Prop where
  entry : code[a]? = some (.jump (.test ctx.nextBlock))
  testLabel : code[a + 1]? = some (.label (.test ctx.nextBlock))
  test : Located code (c.lower ctx.nextBlock ctx.nextTemp).1 (a + 2)
  branch : code[a + 2 + (c.lower ctx.nextBlock ctx.nextTemp).1.length]? =
    some (.branch ctx.nextBlock (.body ctx.nextBlock) (.finish ctx.nextBlock))
  bodyLabel : code[bodyAt]? = some (.label (.body ctx.nextBlock))
  body : Located code (Statement.lowerAll (ctx.inside c) ss).1 (bodyAt + 1)
  again : code[bodyAt + 1 + (Statement.lowerAll (ctx.inside c) ss).1.length]? =
    some (.jump (.test ctx.nextBlock))
  finishLabel : code[finishAt]? = some (.label (.finish ctx.nextBlock))

theorem Located.loopAt {code : List Op} {ctx : Context} {c : Condition} {ss : List Statement}
    {a : Nat} (h : Located code ((Statement.loop c ss).lower ctx).1 a) :
    ∃ bodyAt finishAt, LoopAt code ctx c ss a bodyAt finishAt ∧
      finishAt + 1 = a + ((Statement.loop c ss).lower ctx).1.length := by
  rw [Statement.lower_loop] at h ⊢
  have htest := h.tail.tail
  have hbody := htest.right.tail.tail
  refine ⟨_, _, ⟨h.getElem?, h.tail.getElem?, htest.left, htest.right.getElem?,
    htest.right.tail.getElem?, hbody.left, hbody.right.getElem?, hbody.right.tail.getElem?⟩, ?_⟩
  simp only [List.length_append, List.length_cons, List.length_nil]
  omega

namespace Statement

variable {code : List Op} {ctx : Context} {s t : FlowState}

theorem arrives_assign {name : String} {e : Expr} {v : Int32}
    (h : Located code ((assign name e).lower ctx).1 s.pc)
    (hv : e.value? .words s.store.memory = some v) :
    s.Arrives code 1 (s.pc + ((assign name e).lower ctx).1.length) (s.store.set name v) := by
  simp only [lower] at h ⊢
  obtain ⟨t, hst, hcomputed, htv⟩ := e.leaves_lower code h.left.left hv
  have hstorage := h.left.right
  rw [← hcomputed.pc] at hstorage
  have htu := Context.flow_allocate hstorage
  have hstore := h.right.getElem?
  rw [List.length_append, ← Nat.add_assoc, ← hcomputed.pc] at hstore
  have hstep := FlowState.step_of_getElem? (s := { t with pc := _ }) hstore
  simp only [FlowState.exec, htv] at hstep
  refine .of_flow ((hst.trans htu).trans (.one hstep)) (Nat.succ_pos _) ?_ ?_
  · simp only [FlowState.pass, hcomputed.pc, List.length_append, List.length_singleton,
      Nat.add_assoc]
  · simp only [FlowState.pass, hcomputed.store]

theorem arrives_print {name : String} (h : Located code ((print name).lower ctx).1 s.pc) :
    s.Arrives code 1 (s.pc + ((print name).lower ctx).1.length)
      (s.store.print (s.store.memory name)) := by
  let loaded := s.write ctx.nextTemp (s.store.memory name)
  have hload : s.step code = .next loaded := FlowState.step_of_getElem? h.getElem?
  have hprint := FlowState.step_of_getElem? (s := loaded) h.tail.getElem?
  simp only [FlowState.exec, loaded, FlowState.write, Function.update_self] at hprint
  exact .of_flow (.succ hload (.one hprint)) (Nat.succ_pos _) rfl rfl

theorem arrives_read {name : String} {v : Int32} {vs : List Int32}
    (h : Located code ((read name).lower ctx).1 s.pc) (hinput : s.store.input = v :: vs) :
    s.Arrives code 1 (s.pc + ((read name).lower ctx).1.length)
      ({ s.store with input := vs }.set name v) := by
  simp only [lower, List.cons_append] at h ⊢
  let got := { s with store := { s.store with input := vs } }.write ctx.nextTemp v
  have hread : s.step code = .next got := by
    rw [FlowState.step_of_getElem? h.getElem?]
    simp only [FlowState.exec, hinput, got]
  have htu := Context.flow_allocate (s := got) h.tail.left
  have hstore := FlowState.step_of_getElem? (s := { got with pc := _ }) h.tail.right.getElem?
  simp only [FlowState.exec, got, FlowState.write, Function.update_self] at hstore
  refine .of_flow (.succ hread (htu.trans (.one hstore))) (Nat.succ_pos _) ?_ rfl
  simp only [FlowState.pass, List.length_cons, List.length_append, List.length_nil]
  omega

theorem ends_read {name : String} (h : Located code ((read name).lower ctx).1 s.pc)
    (hinput : s.store.input = []) : s.Ends code (.stopped .noInput s.store) := by
  refine ⟨0, s, .refl s, ?_⟩
  rw [FlowState.step_of_getElem? h.getElem?]
  simp only [FlowState.exec, hinput]

end Statement

namespace BranchAt

variable {code : List Op} {ctx : Context} {c : Condition} {ts es : List Statement} {s : FlowState}
  {thenAt elseAt finishAt : Nat}

theorem arrives (h : BranchAt code ctx c ts es s.pc thenAt elseAt finishAt)
    (hn : (labels code).Nodup) {b : Bool} (hb : c.holds? s.store.memory = some b) :
    s.Arrives code 2 ((if b then thenAt else elseAt) + 1) s.store := by
  obtain ⟨t, hst, hpc, hstore, htb⟩ := Condition.flow_lower h.test hb
  have hbranch := h.branch
  rw [← hpc] at hbranch
  rw [← hstore]
  refine .after_flow hst (.of_branch hn hbranch htb ?_)
  cases b with
  | false => exact h.elseLabel
  | true => exact h.thenLabel

end BranchAt

end FortressLang
