import FortressLang.Proofs.LoweredLabels

/-! Lowered code as a row of basic blocks. Code grows behind what is there already: by an operation
inside the open block, or by an exit and the label of the next block. What an operation reads was
written in its own block, and temporaries and conditions are written in the order of their
numbers. -/
namespace FortressLang

/-- What operations hand to each other, apart from storage. -/
inductive Register
  | temp (n : Nat)
  | condition (block : Nat)
  deriving DecidableEq

namespace Register

def temp? : Register → Option Nat
  | temp n => some n
  | condition _ => none

def condition? : Register → Option Nat
  | temp _ => none
  | condition n => some n

end Register

namespace Op

def reads : Op → List Register
  | arith _ _ lhs rhs | compare _ _ lhs rhs => [.temp lhs, .temp rhs]
  | invert _ src | store src _ | print src => [.temp src]
  | branch block _ _ => [.condition block]
  | _ => []

def writes? : Op → Option Register
  | loadVariable dest _ | loadConstant dest _ | arith dest _ _ _ | invert dest _ | read dest =>
    some (.temp dest)
  | compare block _ _ _ => some (.condition block)
  | _ => none

def exits : Op → List CodeLabel
  | branch _ onTrue onFalse => [onTrue, onFalse]
  | jump target => [target]
  | _ => []

def Inner (op : Op) : Prop := op.exits = [] ∧ op.label? = none

end Op

def temps (code : List Op) : List Nat := code.filterMap fun op => op.writes?.bind Register.temp?

def conditions (code : List Op) : List Nat :=
  code.filterMap fun op => op.writes?.bind Register.condition?

@[simp] theorem temps_nil : temps [] = [] := rfl

@[simp] theorem temps_cons (op : Op) (code : List Op) :
    temps (op :: code) = (op.writes?.bind Register.temp?).toList ++ temps code := by
  cases h : op.writes?.bind Register.temp? <;> simp [temps, h]

@[simp] theorem temps_append (code more : List Op) :
    temps (code ++ more) = temps code ++ temps more := List.filterMap_append

@[simp] theorem conditions_nil : conditions [] = [] := rfl

@[simp] theorem conditions_cons (op : Op) (code : List Op) :
    conditions (op :: code) = (op.writes?.bind Register.condition?).toList ++ conditions code := by
  cases h : op.writes?.bind Register.condition? <;> simp [conditions, h]

@[simp] theorem conditions_append (code more : List Op) :
    conditions (code ++ more) = conditions code ++ conditions more := List.filterMap_append

/-- The operations since the last label: the block that is open behind the code. -/
def openBlock (code : List Op) : List Op :=
  (code.reverse.takeWhile fun op => op.label?.isNone).reverse

theorem mem_openBlock_append {op : Op} {more : List Op} (h : op ∈ openBlock more) (code : List Op) :
    op ∈ openBlock (code ++ more) := by
  simp only [openBlock, List.mem_reverse, List.reverse_append] at h ⊢
  rw [List.takeWhile_append]
  split
  · exact List.mem_append_left _ (List.takeWhile_sublist _ |>.mem h)
  · exact h

theorem openBlock_append {more : List Op} (h : labels more = []) (code : List Op) :
    openBlock (code ++ more) = openBlock code ++ more := by
  have hnone : ∀ op ∈ more.reverse, op.label?.isNone = true := by
    intro op hop
    rw [labels, List.filterMap_eq_nil_iff] at h
    rw [h op (List.mem_reverse.mp hop)]
    rfl
  rw [openBlock, List.reverse_append, List.takeWhile_append_of_pos hnone, List.reverse_append,
    List.reverse_reverse, openBlock]

theorem openBlock_of_labels_eq_nil {code : List Op} (h : labels code = []) :
    openBlock code = code := openBlock_append h []

def Gives (code : List Op) (x : Register) : Prop := ∃ op ∈ openBlock code, op.writes? = some x

namespace Gives

variable {code : List Op} {x : Register}

theorem of_mem {op : Op} (hl : labels code = []) (hop : op ∈ code) (hw : op.writes? = some x) :
    Gives code x := ⟨op, (openBlock_of_labels_eq_nil hl).symm ▸ hop, hw⟩

theorem behind (h : Gives code x) (before : List Op) : Gives (before ++ code) x :=
  h.imp fun _ ⟨hop, hw⟩ => ⟨mem_openBlock_append hop before, hw⟩

theorem append (h : Gives code x) {more : List Op} (hl : labels more = []) :
    Gives (code ++ more) x :=
  h.imp fun _ ⟨hop, hw⟩ => ⟨openBlock_append hl code ▸ List.mem_append_left more hop, hw⟩

end Gives

/-- What an operation reads was written earlier in its own block. -/
def Grounded (code : List Op) : Prop :=
  ∀ before op after, code = before ++ op :: after → ∀ x ∈ op.reads, Gives before x

namespace Grounded

variable {code more : List Op}

theorem nil : Grounded [] := by
  intro before op after h
  simp at h

theorem behind (h : Grounded code)
    (hmore : ∀ before op after, more = before ++ op :: after → ∀ x ∈ op.reads,
      Gives (code ++ before) x) : Grounded (code ++ more) := by
  intro before op after hsplit
  rcases List.append_eq_append_iff.mp hsplit with ⟨mid, rfl, hmid⟩ | ⟨mid, hcode, hmid⟩
  · exact hmore mid op after hmid
  · cases mid with
    | nil =>
      rw [List.append_nil] at hcode
      subst hcode
      simpa using hmore [] op after hmid.symm
    | cons op' mid =>
      obtain ⟨rfl, -⟩ := List.cons.inj hmid
      exact h before op mid hcode

theorem append (h : Grounded code) (h' : Grounded more) : Grounded (code ++ more) :=
  h.behind fun before op after hsplit x hx => (h' before op after hsplit x hx).behind code

theorem push (h : Grounded code) {op : Op} (hop : ∀ x ∈ op.reads, Gives code x) :
    Grounded (code ++ [op]) :=
  h.behind fun before op' after hsplit => by
    obtain ⟨rfl, hop', -⟩ := List.append_eq_singleton_iff.mp hsplit.symm |>.resolve_right (by simp)
    simpa using hop

end Grounded

/-- Code from the beginning of a block on. Each exit ends a block, and the label of the next block
stands behind it. -/
inductive Blocks : List Op → Prop
  | nil : Blocks []
  | inner {op : Op} {code : List Op} : op.Inner → Blocks code → Blocks (op :: code)
  | exit {op : Op} {l : CodeLabel} {code : List Op} : op.exits ≠ [] → Blocks code →
    Blocks (op :: .label l :: code)

namespace Blocks

variable {code more : List Op} {op : Op} {l : CodeLabel} {i : Nat}

theorem append (h : Blocks code) (h' : Blocks more) : Blocks (code ++ more) := by
  induction h with
  | nil => exact h'
  | inner hop _ ih => exact .inner hop ih
  | exit hop _ ih => exact .exit hop ih

theorem label_behind_exit (h : Blocks code) (hi : code[i]? = some op) (hop : op.exits ≠ []) :
    ∃ l, code[i + 1]? = some (.label l) := by
  induction h generalizing i with
  | nil => simp at hi
  | inner hinner _ ih =>
    cases i with
    | zero =>
      obtain rfl := Option.some.inj hi
      exact absurd hinner.1 hop
    | succ i => exact ih hi
  | @exit _ l _ _ _ ih =>
    match i with
    | 0 => exact ⟨l, rfl⟩
    | 1 =>
      obtain rfl := Option.some.inj hi
      exact absurd rfl hop
    | i + 2 => exact ih hi

theorem exit_before_label (h : Blocks code) (hi : code[i]? = some (.label l)) :
    ∃ j op, i = j + 1 ∧ code[j]? = some op ∧ op.exits ≠ [] := by
  induction h generalizing i with
  | nil => simp at hi
  | inner hinner _ ih =>
    cases i with
    | zero =>
      obtain rfl := Option.some.inj hi
      exact absurd hinner.2 (by simp [Op.label?])
    | succ i =>
      obtain ⟨j, op, rfl, hj⟩ := ih hi
      exact ⟨j + 1, op, rfl, hj⟩
  | exit hexit _ ih =>
    match i with
    | 0 =>
      obtain rfl := Option.some.inj hi
      exact absurd rfl hexit
    | 1 => exact ⟨0, _, rfl, rfl, hexit⟩
    | i + 2 =>
      obtain ⟨j, op, rfl, hj⟩ := ih hi
      exact ⟨j + 2, op, rfl, hj⟩

end Blocks

/-- Code that goes on from a context, with the context behind it: its temporaries and conditions
have the next numbers in order, and it consists of blocks that read what they wrote. -/
structure Context.Continues (ctx : Context) (lowered : List Op × Context) : Prop where
  temps_eq : List.range ctx.nextTemp ++ temps lowered.1 = List.range lowered.2.nextTemp
  conditions_eq : List.range ctx.nextBlock ++ conditions lowered.1 = List.range lowered.2.nextBlock
  grounded : Grounded lowered.1
  blocks : Blocks lowered.1

namespace Context.Continues

variable {ctx mid last : Context} {xs ys : List Op} {op : Op}

theorem nil (ctx : Context) : ctx.Continues ([], ctx) where
  temps_eq := by simp
  conditions_eq := by simp
  grounded := .nil
  blocks := .nil

theorem append (h : ctx.Continues (xs, mid)) (h' : mid.Continues (ys, last)) :
    ctx.Continues (xs ++ ys, last) where
  temps_eq := by rw [temps_append, ← List.append_assoc, h.temps_eq, h'.temps_eq]
  conditions_eq := by rw [conditions_append, ← List.append_assoc, h.conditions_eq, h'.conditions_eq]
  grounded := h.grounded.append h'.grounded
  blocks := h.blocks.append h'.blocks

theorem push (h : ctx.Continues (xs, mid)) (hinner : op.Inner)
    (hreads : ∀ x ∈ op.reads, Gives xs x)
    (htemp : List.range mid.nextTemp ++ temps [op] = List.range last.nextTemp)
    (hcondition : List.range mid.nextBlock ++ conditions [op] =
      List.range last.nextBlock) : ctx.Continues (xs ++ [op], last) where
  temps_eq := by rw [temps_append, ← List.append_assoc, h.temps_eq, htemp]
  conditions_eq := by rw [conditions_append, ← List.append_assoc, h.conditions_eq, hcondition]
  grounded := h.grounded.push hreads
  blocks := h.blocks.append (.inner hinner .nil)

theorem define (h : ctx.Continues (xs, mid)) (hinner : op.Inner)
    (hreads : ∀ x ∈ op.reads, Gives xs x) (hwrites : op.writes? = some (.temp mid.nextTemp)) :
    ctx.Continues (xs ++ [op], { mid with nextTemp := mid.nextTemp + 1 }) :=
  h.push hinner hreads (by simp [hwrites, Register.temp?, List.range_succ])
    (by simp [hwrites, Register.condition?])

theorem effect (h : ctx.Continues (xs, mid)) (hinner : op.Inner)
    (hreads : ∀ x ∈ op.reads, Gives xs x) (hwrites : op.writes? = none) :
    ctx.Continues (xs ++ [op], mid) :=
  h.push hinner hreads (by simp [hwrites]) (by simp [hwrites])

/-- An exit ends the open block, and the code behind the next label begins a new one. -/
theorem exit (h : ctx.Continues (xs, mid)) (l : CodeLabel) (h' : mid.Continues (ys, last))
    (hexit : op.exits ≠ []) (hwrites : op.writes? = none) (hreads : ∀ x ∈ op.reads, Gives xs x) :
    ctx.Continues (xs ++ op :: .label l :: ys, last) where
  temps_eq := by
    have hlabel : (Op.label l).writes? = none := rfl
    simp [hwrites, hlabel, ← h.temps_eq, ← h'.temps_eq]
  conditions_eq := by
    have hlabel : (Op.label l).writes? = none := rfl
    simp [hwrites, hlabel, ← h.conditions_eq, ← h'.conditions_eq]
  grounded := by
    have hlabel : Grounded ((xs ++ [op]) ++ [.label l]) :=
      (h.grounded.push hreads).push (by simp [Op.reads])
    simpa using hlabel.append h'.grounded
  blocks := h.blocks.append (.exit hexit h'.blocks)

theorem jump (h : ctx.Continues (xs, mid)) (target l : CodeLabel) (h' : mid.Continues (ys, last)) :
    ctx.Continues (xs ++ .jump target :: .label l :: ys, last) :=
  h.exit l h' (List.cons_ne_nil _ _) rfl (List.forall_mem_nil _)

theorem branch (h : ctx.Continues (xs, mid)) {block : Nat} (hgives : Gives xs (.condition block))
    (onTrue onFalse l : CodeLabel) (h' : mid.Continues (ys, last)) :
    ctx.Continues (xs ++ .branch block onTrue onFalse :: .label l :: ys, last) :=
  h.exit l h' (List.cons_ne_nil _ _) rfl (List.forall_mem_singleton.mpr hgives)

end Context.Continues
end FortressLang
