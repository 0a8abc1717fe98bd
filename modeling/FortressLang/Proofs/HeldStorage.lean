import FortressLang.Proofs.HoistedStorage

/-! Hoisting against allocating in place. Lowering in two contexts that differ only in whether they
hold storage back gives code that differs only in the storage, whatever is taken in between. -/
namespace FortressLang

def Op.allocated? : Op → Option String
  | alloc name => some name
  | _ => none

theorem Op.allocated?_eq_some {op : Op} {name : String} :
    op.allocated? = some name ↔ op = .alloc name := by
  cases op <;> simp [allocated?]

def Op.isAlloc (op : Op) : Bool := op.allocated?.isSome

theorem Op.isAlloc_of_keepsStorage {op : Op} (h : op.keepsStorage = true) :
    op.allocated? = none := by
  cases op <;> first | rfl | cases h

def withoutStorage (code : List Op) : List Op := code.filter (!·.isAlloc)

def storageIn (code : List Op) : List Op := code.filter Op.isAlloc

/-- The variables that the code makes storage for, the last first. -/
def newStorage (code : List Op) : List String := (code.filterMap Op.allocated?).reverse

section

variable (code more : List Op)

@[simp] theorem withoutStorage_append :
    withoutStorage (code ++ more) = withoutStorage code ++ withoutStorage more := by
  simp [withoutStorage]

@[simp] theorem storageIn_append :
    storageIn (code ++ more) = storageIn code ++ storageIn more := by
  simp [storageIn]

@[simp] theorem newStorage_append :
    newStorage (code ++ more) = newStorage more ++ newStorage code := by
  simp [newStorage]

theorem map_newStorage : (newStorage code).reverse.map Op.alloc = storageIn code := by
  rw [newStorage, List.reverse_reverse]
  induction code with
  | nil => rfl
  | cons op code ih =>
    rw [storageIn] at ih ⊢
    cases hop : op.allocated? with
    | none => simp [hop, Op.isAlloc, ih]
    | some name =>
      obtain rfl := Op.allocated?_eq_some.mp hop
      simp [hop, Op.isAlloc, ih]

variable {code}

theorem withoutStorage_of_keepsStorage (h : ∀ op ∈ code, op.keepsStorage = true) :
    withoutStorage code = code := by
  refine List.filter_eq_self.mpr fun op hop => ?_
  simp [Op.isAlloc, Op.isAlloc_of_keepsStorage (h op hop)]

theorem newStorage_of_keepsStorage (h : ∀ op ∈ code, op.keepsStorage = true) :
    newStorage code = [] := by
  have hnone : code.filterMap Op.allocated? = [] :=
    List.filterMap_eq_nil_iff.mpr fun op hop => Op.isAlloc_of_keepsStorage (h op hop)
  simp [newStorage, hnone]

end

/-- The same context, but storage is held back, and so far that of these variables is. -/
def Context.holdingBack (ctx : Context) (names : List String) : Context :=
  { ctx with held := some names }

section

variable (ctx : Context) (names : List String)

@[simp] theorem Context.nextTemp_holdingBack :
    (ctx.holdingBack names).nextTemp = ctx.nextTemp := rfl

@[simp] theorem Context.nextBlock_holdingBack :
    (ctx.holdingBack names).nextBlock = ctx.nextBlock := rfl

@[simp] theorem Context.inside_holdingBack (c : Condition) :
    (ctx.holdingBack names).inside c = (ctx.inside c).holdingBack names := rfl

theorem Context.takeHeld_holdingBack : (ctx.holdingBack names).takeHeld =
    (names.reverse.map .alloc, ctx.holdingBack []) := rfl

end

/-- What is lowered holding back is what is lowered in place without its storage, and the storage is
held back behind what was already. -/
structure HoldsBack (names : List String) (inPlace hoisted : List Op × Context) : Prop where
  held : inPlace.2.held = none
  code : hoisted.1 = withoutStorage inPlace.1
  context : hoisted.2 = Context.holdingBack inPlace.2 (newStorage inPlace.1 ++ names)

namespace HoldsBack

variable {ctx : Context} {names : List String} {code : List Op}
  {inPlace hoisted inPlace' hoisted' : List Op × Context}

theorem of_keepsStorage (hctx : ctx.held = none) (hcode : ∀ op ∈ code, op.keepsStorage = true) :
    HoldsBack names (code, ctx) (code, ctx.holdingBack names) where
  held := hctx
  code := (withoutStorage_of_keepsStorage hcode).symm
  context := by simp [newStorage_of_keepsStorage hcode]

theorem append (h : HoldsBack names inPlace hoisted)
    (h' : HoldsBack (newStorage inPlace.1 ++ names) inPlace' hoisted') :
    HoldsBack names (inPlace.1 ++ inPlace'.1, inPlace'.2)
      (hoisted.1 ++ hoisted'.1, hoisted'.2) where
  held := h'.held
  code := by simp [h.code, h'.code]
  context := by simp [h'.context]

/-- Behind the code may stand operations that keep the storage as it is. -/
theorem marks (h : HoldsBack names inPlace hoisted) (more : List Op)
    (hmore : ∀ op ∈ more, op.keepsStorage = true) :
    HoldsBack names (inPlace.1 ++ more, inPlace.2) (hoisted.1 ++ more, hoisted.2) := by
  have hmarks := h.append (of_keepsStorage h.held hmore)
  rwa [← h.context] at hmarks

theorem next (h : HoldsBack names inPlace hoisted) {lower : Context → List Op × Context}
    (hlower : ∀ ctx names, ctx.held = none →
      HoldsBack names (lower ctx) (lower (ctx.holdingBack names))) :
    HoldsBack names (inPlace.1 ++ (lower inPlace.2).1, (lower inPlace.2).2)
      (hoisted.1 ++ (lower hoisted.2).1, (lower hoisted.2).2) := by
  have hnext := hlower inPlace.2 (newStorage inPlace.1 ++ names) h.held
  rw [← h.context] at hnext
  exact h.append hnext

theorem store (ctx : Context) (names : List String) (hctx : ctx.held = none) (src : Nat)
    (name : String) :
    HoldsBack names ((ctx.allocate name).1 ++ [.store src name], (ctx.allocate name).2)
      (((ctx.holdingBack names).allocate name).1 ++ [.store src name],
        ((ctx.holdingBack names).allocate name).2) := by
  obtain ⟨temp, block, allocated, held⟩ := ctx
  obtain rfl : held = none := hctx
  by_cases hname : name ∈ allocated <;> constructor <;>
    simp [Context.allocate, Context.holdingBack, hname, withoutStorage, newStorage, Op.isAlloc,
      Op.allocated?]

end HoldsBack

theorem HoldsBack.test {ctx : Context} (names : List String) (hctx : ctx.held = none)
    (c : Condition) (before after : List Op) (hbefore : ∀ op ∈ before, op.keepsStorage = true)
    (hafter : ∀ op ∈ after, op.keepsStorage = true) :
    HoldsBack names
      (before ++ (c.lower ctx.nextBlock ctx.nextTemp).1 ++ after, ctx.inside c)
      (before ++ (c.lower ctx.nextBlock ctx.nextTemp).1 ++ after,
        (ctx.inside c).holdingBack names) := by
  refine .of_keepsStorage hctx ?_
  simp only [List.forall_mem_append]
  exact ⟨⟨hbefore, c.keepsStorage_lower _ _⟩, hafter⟩

mutual

/-- Lowering a statement makes storage in the one context and holds it back in the other. -/
theorem Statement.holdsBack_lower (ctx : Context) (names : List String) (h : ctx.held = none) :
    ∀ s : Statement, HoldsBack names (s.lower ctx) (s.lower (ctx.holdingBack names))
  | .assign target value => by
    let src := (value.lower ctx.nextTemp).2 - 1
    let read : Context := { ctx with nextTemp := (value.lower ctx.nextTemp).2 }
    have hvalue : HoldsBack names ((value.lower ctx.nextTemp).1, read)
        ((value.lower ctx.nextTemp).1, read.holdingBack names) :=
      .of_keepsStorage h (value.keepsStorage_lower ctx.nextTemp)
    have hstore := hvalue.next fun ctx' names' hctx =>
      HoldsBack.store ctx' names' hctx src target
    simpa [lower, Context.holdingBack, src, read] using hstore
  | .print name => .of_keepsStorage h (by simp [Op.keepsStorage])
  | .read name => by
    let src := ctx.nextTemp
    have hread : HoldsBack names ([.read src], { ctx with nextTemp := src + 1 })
        ([.read src], Context.holdingBack { ctx with nextTemp := src + 1 } names) :=
      .of_keepsStorage h (by simp [Op.keepsStorage])
    have hstore := hread.next fun ctx' names' hctx => HoldsBack.store ctx' names' hctx src name
    simpa [lower, Context.holdingBack, src] using hstore
  | .branch c ts es => by
    let n := ctx.nextBlock
    have htest := HoldsBack.test names h c []
      [.branch n (.thenPart n) (.elsePart n), .label (.thenPart n)] (by simp)
      (by simp [Op.keepsStorage])
    have hthen := htest.next fun ctx' names' hctx =>
      Statement.holdsBack_lowerAll ctx' names' hctx ts
    have hmiddle := hthen.marks [.jump (.finish n), .label (.elsePart n)]
      (by simp [Op.keepsStorage])
    have helse := hmiddle.next fun ctx' names' hctx =>
      Statement.holdsBack_lowerAll ctx' names' hctx es
    have hend := helse.marks [.jump (.finish n), .label (.finish n)] (by simp [Op.keepsStorage])
    rw [lower_branch, lower_branch]
    simpa [n] using hend
  | .loop c ss => by
    let n := ctx.nextBlock
    have htest := HoldsBack.test names h c [.jump (.test n), .label (.test n)]
      [.branch n (.body n) (.finish n), .label (.body n)] (by simp [Op.keepsStorage])
      (by simp [Op.keepsStorage])
    have hbody := htest.next fun ctx' names' hctx =>
      Statement.holdsBack_lowerAll ctx' names' hctx ss
    have hend := hbody.marks [.jump (.test n), .label (.finish n)] (by simp [Op.keepsStorage])
    rw [lower_loop, lower_loop]
    simpa [n] using hend

theorem Statement.holdsBack_lowerAll (ctx : Context) (names : List String) (h : ctx.held = none) :
    ∀ ss : List Statement, HoldsBack names (lowerAll ctx ss) (lowerAll (ctx.holdingBack names) ss)
  | [] => .of_keepsStorage h (by simp)
  | s :: ss =>
    (Statement.holdsBack_lower ctx names h s).next fun ctx' names' hctx =>
      Statement.holdsBack_lowerAll ctx' names' hctx ss

end

/-- Lowers pieces of a sequence of statements, and takes the storage held back behind each piece.
Storage that is taken again at once is behind an empty piece. -/
def Context.lowerPieces (ctx : Context) : List (List Statement) → List (List Op × List Op) × Context
  | [] => ([], ctx)
  | ss :: pieces =>
    let (code, ctx) := Statement.lowerAll ctx ss
    let (taken, ctx) := ctx.takeHeld
    let (rest, ctx) := ctx.lowerPieces pieces
    ((code, taken) :: rest, ctx)

theorem Statement.lowerAll_append (ctx : Context) (ss more : List Statement) :
    lowerAll ctx (ss ++ more) =
      ((lowerAll ctx ss).1 ++ (lowerAll (lowerAll ctx ss).2 more).1,
        (lowerAll (lowerAll ctx ss).2 more).2) := by
  induction ss generalizing ctx with
  | nil => simp [lowerAll]
  | cons s ss ih => simp [lowerAll, ih]

theorem Context.lowerPieces_holdingBack (ctx : Context) (h : ctx.held = none)
    (pieces : List (List Statement)) :
    let hoisted := (ctx.holdingBack []).lowerPieces pieces
    let inPlace := Statement.lowerAll ctx pieces.flatten
    hoisted.1.flatMap Prod.fst = withoutStorage inPlace.1 ∧
      hoisted.1.flatMap Prod.snd = storageIn inPlace.1 ∧
      hoisted.2 = inPlace.2.holdingBack [] := by
  induction pieces generalizing ctx with
  | nil => simp [lowerPieces, Statement.lowerAll, withoutStorage, storageIn]
  | cons ss pieces ih =>
    have hpiece := Statement.holdsBack_lowerAll ctx [] h ss
    obtain ⟨hcode, htaken, hlast⟩ := ih (Statement.lowerAll ctx ss).2 hpiece.held
    have hcontext := hpiece.context
    rw [List.append_nil] at hcontext
    simp only [lowerPieces, hcontext, takeHeld_holdingBack, hpiece.code, List.flatMap_cons,
      List.flatten_cons, Statement.lowerAll_append, withoutStorage_append, storageIn_append,
      map_newStorage, hcode, htaken, hlast, and_self]

/-- For all statements and all places between them at which storage is taken: hoisting gives the
code that is lowered in place without its storage, with the same numbers throughout; it makes none
itself; and what is taken is the storage that was left out, in its order. -/
theorem hoisting_moves_only_storage (pieces : List (List Statement)) :
    let hoisted := Context.hoisting.lowerPieces pieces
    let inPlace := Statement.lowerAll .inPlace pieces.flatten
    hoisted.1.flatMap Prod.fst = inPlace.1.filter (!·.isAlloc) ∧
      (∀ name, .alloc name ∉ hoisted.1.flatMap Prod.fst) ∧
      hoisted.1.flatMap Prod.snd = inPlace.1.filter Op.isAlloc ∧
      hoisted.2 = { inPlace.2 with held := some [] } := by
  obtain ⟨hcode, htaken, hlast⟩ := Context.inPlace.lowerPieces_holdingBack rfl pieces
  refine ⟨hcode, fun name hname => ?_, htaken, hlast⟩
  have hbare : Op.alloc name ∈ withoutStorage _ := hcode ▸ hname
  simp [withoutStorage, Op.isAlloc, Op.allocated?] at hbare

/-- A variable that has storage gets none behind a later piece. -/
example : (Context.hoisting.lowerPieces
    [[.read "a"], [], [.read "b", .read "a"]]).1.map Prod.snd =
      [[.alloc "a"], [], [.alloc "b"]] := by decide

end FortressLang
