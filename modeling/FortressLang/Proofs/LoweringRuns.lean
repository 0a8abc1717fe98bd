import FortressLang.Proofs.LoweredStatement

/-! Lowered statements do in the flow machine what they do by their rules: the machine ends with the
ending of the statements if they have one, and goes on for ever if they have none. -/
namespace FortressLang
namespace Statement

variable {code : List Op} {ctx : Context} {s t : FlowState} {st : Statement} {ss : List Statement}
  {σ : Store} {out : Ending} {k n : Nat}

theorem lowerAll_cons (ctx : Context) (s : Statement) (ss : List Statement) :
    lowerAll ctx (s :: ss) =
      ((s.lower ctx).1 ++ (lowerAll (s.lower ctx).2 ss).1, (lowerAll (s.lower ctx).2 ss).2) := rfl

def Here (code : List Op) (ctx : Context) (ss : List Statement) (s : FlowState) : Prop :=
  Located code (lowerAll ctx ss).1 s.pc

def behind (ctx : Context) (ss : List Statement) (s : FlowState) : Nat :=
  s.pc + (lowerAll ctx ss).1.length

theorem Here.head (h : Here code ctx (st :: ss) s) : Located code (st.lower ctx).1 s.pc :=
  Located.left h

theorem Here.tail (h : Here code ctx (st :: ss) s) (ht : t.pc = s.pc + (st.lower ctx).1.length) :
    Here code (st.lower ctx).2 ss t := by
  rw [Here, ht]
  exact Located.right h

theorem behind_cons (ht : t.pc = s.pc + (st.lower ctx).1.length) :
    behind (st.lower ctx).2 ss t = behind ctx (st :: ss) s := by
  rw [behind, behind, ht, lowerAll_cons, List.length_append, Nat.add_assoc]

theorem Here.meets (h : Here code ctx (st :: ss) s)
    (hfirst : s.Arrives code k (s.pc + (st.lower ctx).1.length) σ)
    (hrest : ∀ t : FlowState, Here code (st.lower ctx).2 ss t → t.store = σ →
      t.Meets code (behind (st.lower ctx).2 ss t) out) :
    s.Meets code (behind ctx (st :: ss) s) out := by
  apply hfirst.meets
  intro t hpc hstore
  rw [← behind_cons hpc]
  exact hrest t (h.tail hpc) hstore

theorem Here.runs_or_goes (h : Here code ctx (st :: ss) s)
    (hfirst : s.Arrives code 1 (s.pc + (st.lower ctx).1.length) σ)
    (hruns : ∀ out, Runs ss σ out → Runs (st :: ss) s.store out)
    (hrest : ∀ t : FlowState, Here code (st.lower ctx).2 ss t →
      (∃ out, Runs ss t.store out) ∨ t.Goes code n) :
    (∃ out, Runs (st :: ss) s.store out) ∨ s.Goes code (n + 1) := by
  by_cases hout : ∃ out, Runs ss σ out
  · obtain ⟨out, hout⟩ := hout
    exact .inl ⟨out, hruns out hout⟩
  · have hgoes := hfirst.goes fun t hpc hstore =>
      (hrest t (h.tail hpc)).resolve_left (hstore ▸ hout)
    rw [Nat.add_comm] at hgoes
    exact .inr hgoes

/-- Wherever the code of the statements stands, running it from a store does what the ending
says. -/
def RunsAs (code : List Op) (ss : List Statement) (σ : Store) (out : Ending) : Prop :=
  ∀ (ctx : Context) (s : FlowState), Here code ctx ss s → s.store = σ →
    s.Meets code (behind ctx ss s) out

end Statement

open Statement

namespace BranchAt

variable {code : List Op} {ctx : Context} {c : Condition} {ts es : List Statement}
  {s t : FlowState} {a thenAt elseAt finishAt : Nat} {τ : Store}

def context (ctx : Context) (c : Condition) (ts : List Statement) (b : Bool) : Context :=
  if b then ctx.inside c else (lowerAll (ctx.inside c) ts).2

theorem here (h : BranchAt code ctx c ts es a thenAt elseAt finishAt) {b : Bool}
    (hs : s.pc = (if b then thenAt else elseAt) + 1) :
    Here code (context ctx c ts b) (if b then ts else es) s := by
  rw [Here, hs]
  cases b with
  | true => exact h.thenPart
  | false => exact h.elsePart

theorem leaves (h : BranchAt code ctx c ts es a thenAt elseAt finishAt)
    (hn : (labels code).Nodup) {b : Bool} (hs : s.pc = (if b then thenAt else elseAt) + 1)
    (ht : t.pc = behind (context ctx c ts b) (if b then ts else es) s) :
    t.Arrives code 2 (finishAt + 1) t.store := by
  rw [behind, hs] at ht
  cases b with
  | true => exact .of_jump hn (ht ▸ h.thenJump) h.finishLabel
  | false => exact .of_jump hn (ht ▸ h.elseJump) h.finishLabel

/-- A branch whose part finishes is passed. -/
theorem passes (h : BranchAt code ctx c ts es s.pc thenAt elseAt finishAt)
    (hn : (labels code).Nodup) {b : Bool} (hb : c.holds? s.store.memory = some b)
    (hpart : RunsAs code (if b then ts else es) s.store (.finished τ)) :
    s.Arrives code 4 (finishAt + 1) τ :=
  (h.arrives hn hb).trans fun t ht hts =>
    FlowState.Arrives.trans (hpart _ t (h.here ht) hts) fun _ hu hus =>
      hus ▸ h.leaves hn ht hu

end BranchAt

namespace LoopAt

variable {code : List Op} {ctx : Context} {c : Condition} {ss : List Statement} {s t : FlowState}
  {a e bodyAt finishAt n : Nat} {τ : Store} {out : Ending}

theorem enters (h : LoopAt code ctx c ss s.pc bodyAt finishAt) (hn : (labels code).Nodup) :
    s.Arrives code 2 (s.pc + 2) s.store :=
  .of_jump hn h.entry h.testLabel

theorem arrives (h : LoopAt code ctx c ss s.pc bodyAt finishAt) (hn : (labels code).Nodup)
    {b : Bool} (hb : c.holds? s.store.memory = some b) :
    s.Arrives code 4 ((if b then bodyAt else finishAt) + 1) s.store := by
  refine (h.enters hn).trans (m := 2) fun t ht hts => ?_
  rw [← hts] at hb ⊢
  obtain ⟨u, htu, hpc, hstore, hub⟩ := Condition.flow_lower (ht ▸ h.test) hb
  have hbranch := h.branch
  rw [← ht, ← hpc] at hbranch
  rw [← hstore]
  refine .after_flow htu (.of_branch hn hbranch hub ?_)
  cases b with
  | false => exact h.finishLabel
  | true => exact h.bodyLabel

theorem here (h : LoopAt code ctx c ss a bodyAt finishAt) (hs : s.pc = bodyAt + 1) :
    Here code (ctx.inside c) ss s := by
  rw [Here, hs]
  exact h.body

/-- A loop whose body finishes is at its test again. -/
theorem returns (h : LoopAt code ctx c ss s.pc bodyAt finishAt) (hn : (labels code).Nodup)
    (hb : c.holds? s.store.memory = some true)
    (hbody : RunsAs code ss s.store (.finished τ)) : s.Arrives code 6 (s.pc + 2) τ := by
  refine (h.arrives hn hb).trans (m := 2) fun t ht hts =>
    FlowState.Arrives.trans (k := 0) (m := 2) (hbody _ t (h.here ht) hts) fun u hu hus => ?_
  rw [behind, ht] at hu
  exact hus ▸ .of_jump hn (hu ▸ h.again) h.testLabel

/-- The first two operations of a loop only lead to its test. -/
theorem steps (h : LoopAt code ctx c ss a bodyAt finishAt) (hn : (labels code).Nodup)
    (ht : t.pc = a + 2) :
    ({ t with pc := a } : FlowState).step code = .next { t with pc := a + 1 } ∧
      ({ t with pc := a + 1 } : FlowState).step code = .next t := by
  constructor
  · rw [FlowState.step_of_getElem? (s := { t with pc := a }) h.entry]
    exact FlowState.goTo_of_findIdx? _ (findIdx?_label hn h.testLabel)
  · rw [FlowState.step_label (s := { t with pc := a + 1 }) h.testLabel]
    simp only [← ht]

theorem resumes (h : LoopAt code ctx c ss a bodyAt finishAt) (hn : (labels code).Nodup)
    (ht : t.pc = a + 2) (he : a + 2 ≤ e)
    (hmeets : ({ t with pc := a } : FlowState).Meets code e out) : t.Meets code e out := by
  obtain ⟨hjump, hlabel⟩ := h.steps hn ht
  have ha : a ≠ e := by omega
  have ha' : a + 1 ≠ e := by omega
  exact (hmeets.of_step hjump ha).of_step hlabel ha'

theorem goes (h : LoopAt code ctx c ss a bodyAt finishAt) (hn : (labels code).Nodup)
    (ht : t.pc = a + 2) (hgoes : ({ t with pc := a } : FlowState).Goes code n) :
    t.Goes code (n - 2) := by
  obtain ⟨hjump, hlabel⟩ := h.steps hn ht
  exact (hgoes.of_step hjump).of_step hlabel

end LoopAt

namespace Statement

variable {code : List Op} {ctx : Context} {s : FlowState} {ss : List Statement} {σ : Store}
  {out : Ending}

/-- What the rules say that statements do, their code does. -/
theorem Runs.runsAs (hn : (labels code).Nodup) (hrun : Runs ss σ out) : RunsAs code ss σ out := by
  intro ctx s h hs
  induction hrun generalizing ctx s with
  | nil => exact .of_flow (.refl s) (Nat.zero_le _) rfl hs
  | assign hv _ ih =>
    subst hs
    exact h.meets (arrives_assign h.head hv) (ih _)
  | assignFault hv =>
    subst hs
    have hhead := h.head
    simp only [lower] at hhead
    exact Expr.ends_lower hhead.left.left hv
  | print _ ih =>
    subst hs
    exact h.meets (arrives_print h.head) (ih _)
  | read hinput _ ih =>
    subst hs
    exact h.meets (arrives_read h.head hinput) (ih _)
  | readFault hinput =>
    subst hs
    exact ends_read h.head hinput
  | branch hb _ _ ihpart ihrest =>
    subst hs
    obtain ⟨_, _, _, hat, hend⟩ := h.head.branchAt
    exact h.meets (hend ▸ hat.passes hn hb ihpart) (ihrest _)
  | branchFault hb =>
    subst hs
    obtain ⟨_, _, _, hat, -⟩ := h.head.branchAt
    exact Condition.ends_lower hat.test hb
  | branchStop hb _ ihpart =>
    subst hs
    obtain ⟨_, _, _, hat, -⟩ := h.head.branchAt
    exact (hat.arrives hn hb).meets fun t ht hts => ihpart _ t (hat.here ht) hts
  | loopEnd hb _ ih =>
    subst hs
    obtain ⟨_, _, hat, hend⟩ := h.head.loopAt
    exact h.meets (hend ▸ hat.arrives hn hb) (ih _)
  | loopAgain hb _ _ ihbody ihagain =>
    subst hs
    obtain ⟨_, _, hat, hend⟩ := h.head.loopAt
    refine (hat.returns hn hb ihbody).meets fun t ht hts => ?_
    refine hat.resumes hn ht ?_ (ihagain ctx { t with pc := s.pc } h hts)
    simp only [behind, lowerAll_cons, lower_loop, List.length_append, List.length_cons]
    omega
  | loopFault hb =>
    subst hs
    obtain ⟨_, _, hat, -⟩ := h.head.loopAt
    refine (hat.enters hn).meets fun t ht hts => ?_
    rw [← hts] at hb ⊢
    exact Condition.ends_lower (ht ▸ hat.test) hb
  | loopStop hb _ ihbody =>
    subst hs
    obtain ⟨_, _, hat, -⟩ := h.head.loopAt
    exact (hat.arrives hn hb).meets fun t ht hts => ihbody _ t (hat.here ht) hts

/-- Statements without an ending keep their code going, however long one waits. -/
theorem runs_or_goes (hn : (labels code).Nodup) (n : Nat) (h : Here code ctx ss s) :
    (∃ out, Runs ss s.store out) ∨ s.Goes code n := by
  induction n generalizing ctx ss s with
  | zero => exact .inr ⟨s, .refl s⟩
  | succ n ih =>
    match ss with
    | [] => exact .inl ⟨_, .nil⟩
    | .assign name e :: ss =>
      cases hv : e.value? .words s.store.memory with
      | none => exact .inl ⟨_, .assignFault hv⟩
      | some v => exact h.runs_or_goes (arrives_assign h.head hv) (fun _ => .assign hv) fun _ => ih
    | .print name :: ss =>
      exact h.runs_or_goes (arrives_print h.head) (fun _ => .print) fun _ => ih
    | .read name :: ss =>
      cases hinput : s.store.input with
      | nil => exact .inl ⟨_, .readFault hinput⟩
      | cons v vs =>
        exact h.runs_or_goes (arrives_read h.head hinput) (fun _ => .read hinput) fun _ => ih
    | .branch c ts es :: ss =>
      cases hb : c.holds? s.store.memory with
      | none => exact .inl ⟨_, .branchFault hb⟩
      | some b =>
        obtain ⟨_, _, _, hat, hend⟩ := h.head.branchAt
        by_cases hpart : ∃ out, Runs (if b then ts else es) s.store out
        · obtain ⟨out, hpart⟩ := hpart
          cases out with
          | stopped f τ => exact .inl ⟨_, .branchStop hb hpart⟩
          | finished τ =>
            have hpasses := (hat.passes hn hb (hpart.runsAs hn)).weaken (Nat.le_add_left 1 3)
            exact h.runs_or_goes (hend ▸ hpasses) (fun _ => .branch hb hpart) fun _ => ih
        · have hgoes := (hat.arrives hn hb).goes (n := n) fun t ht hts =>
            (ih (hat.here ht)).resolve_left (hts ▸ hpart)
          exact .inr (hgoes.shorten (by omega))
    | .loop c body :: ss =>
      match hb : c.holds? s.store.memory with
      | none => exact .inl ⟨_, .loopFault hb⟩
      | some false =>
        obtain ⟨_, _, hat, hend⟩ := h.head.loopAt
        have hpasses := (hat.arrives hn hb).weaken (Nat.le_add_left 1 3)
        exact h.runs_or_goes (hend ▸ hpasses) (fun _ => .loopEnd hb) fun _ => ih
      | some true =>
        obtain ⟨_, _, hat, -⟩ := h.head.loopAt
        by_cases hbody : ∃ out, Runs body s.store out
        · obtain ⟨out, hbody⟩ := hbody
          cases out with
          | stopped f τ => exact .inl ⟨_, .loopStop hb hbody⟩
          | finished τ =>
            by_cases hagain : ∃ out, Runs (.loop c body :: ss) τ out
            · obtain ⟨out, hagain⟩ := hagain
              exact .inl ⟨out, .loopAgain hb hbody hagain⟩
            · have hreturns := hat.returns hn hb (hbody.runsAs hn)
              have hgoes := hreturns.goes (n := n - 2) fun t ht hts => hat.goes hn ht <|
                (ih (s := { t with pc := s.pc }) h).resolve_left (hts ▸ hagain)
              exact .inr (hgoes.shorten (by omega))
        · have hgoes := (hat.arrives hn hb).goes (n := n) fun t ht hts =>
            (ih (hat.here ht)).resolve_left (hts ▸ hbody)
          exact .inr (hgoes.shorten (by omega))

end Statement

/-- Started at that place, the code does what the statements do: it comes to their ending, and
runs for ever if they have none. -/
def Implements (code : List Op) (entry : Nat) (ss : List Statement) : Prop :=
  ∀ s : FlowState, s.pc = entry →
    (∀ out, s.Ends code out ↔ Statement.Runs ss s.store out) ∧
    (s.RunsForever code ↔ ¬∃ out, Statement.Runs ss s.store out)

/-- Statements lowered behind others, the code of which need not run. -/
theorem implements_append (before : List Op) {ctx : Context} {ss : List Statement}
    (hn : (labels (before ++ (Statement.lowerAll ctx ss).1)).Nodup) :
    Implements (before ++ (Statement.lowerAll ctx ss).1) before.length ss := by
  intro s hs
  let code := before ++ (Statement.lowerAll ctx ss).1
  have hhere : Statement.Here code ctx ss s := by
    rw [Statement.Here, hs]
    exact ⟨[], by simp [code]⟩
  have hends : ∀ out, Statement.Runs ss s.store out → s.Ends code out := by
    intro out hrun
    have hmeets := hrun.runsAs hn ctx s hhere rfl
    cases out with
    | stopped f σ => exact hmeets
    | finished σ =>
      obtain ⟨n, t, -, hst, hpc, hstore⟩ := hmeets
      refine ⟨n, t, hst, ?_⟩
      have hbehind : code.length ≤ t.pc := by
        rw [hpc, Statement.behind, hs, List.length_append]
      rw [FlowState.step, List.getElem?_eq_none hbehind, hstore]
  have hforever : (¬∃ out, Statement.Runs ss s.store out) → s.RunsForever code := fun hnone n =>
    (Statement.runs_or_goes hn n hhere).resolve_left hnone
  refine ⟨fun out => ⟨fun hout => ?_, hends out⟩, fun h hrun => ?_, hforever⟩
  · by_cases hrun : ∃ out, Statement.Runs ss s.store out
    · obtain ⟨out', hrun⟩ := hrun
      rwa [hout.unique (hends out' hrun)]
    · exact absurd hout (hforever hrun).not_ends
  · obtain ⟨out, hrun⟩ := hrun
    exact h.not_ends (hends out hrun)

/-- In whatever context statements are lowered, and whether their code stands alone or behind that
of statements lowered earlier in that context, it does what they do. -/
theorem lowered_code_implements (ctx : Context) (earlier ss : List Statement) :
    let before := Statement.lowerAll ctx earlier
    Implements (Statement.lowerAll before.2 ss).1 0 ss ∧
      Implements (before.1 ++ (Statement.lowerAll before.2 ss).1) before.1.length ss := by
  have hbefore := Statement.labelsWithin_lowerAll ctx earlier
  have hafter := Statement.labelsWithin_lowerAll (Statement.lowerAll ctx earlier).2 ss
  exact ⟨implements_append [] hafter.nodup,
    implements_append _ (hbefore.append hafter).nodup⟩

end FortressLang
