import Mathlib.Data.List.Basic
import Wordlang.IR.Module

/-!
# Drafts

Every function that lowering builds has one block, and that block lists the values of the function
in the order of their creation. Such a function is determined by its head, its values and the value
it returns, if it returns one yet: a draft. The building operations of a module are described here
by what they do to the drafts of its functions.

How often a value is used is bookkeeping that no other part of a module depends on. `core` leaves it
out, and drafts describe a module up to it.
-/

namespace Wordlang.IR

/-- A value apart from the number of its uses. -/
def Value.core (v : Value) : Value := { v with uses := 0 }

/-- A function apart from the number of uses of its values. -/
def Func.core (f : Func) : Func := { f with values := f.values.map Value.core }

/-- A module apart from the number of uses of its values. -/
def Module.core (m : Module) : Module := { m with funcs := m.funcs.map Func.core }

/-- A function with one block at most. -/
structure Draft where
  /-- Its symbol. -/
  name : String
  /-- Its parameter and result types. -/
  sig : Signature
  /-- The names of its parameters. -/
  paramNames : List String := []
  /-- Whether its body lives outside the module. -/
  external : Bool := false
  /-- Its values, in the order of their creation. -/
  code : List Value := []
  /-- What it returns, if its block has been ended. -/
  result : Option ValueRef := none
  deriving DecidableEq, Repr

namespace Draft

/-- The values of a draft, as its block lists them. -/
def refs (place n : Nat) : List ValueRef := (List.range n).map (ValueRef.mk place)

/-- The block of the draft at the given place. -/
def block (place : Nat) (d : Draft) : Block where
  kind := if d.result.isSome then .ret else .plain
  controls := d.result.toList.map some
  values := refs place d.code.length
  owner := place

/-- The function that a draft describes. -/
def func (place : Nat) (d : Draft) : Func :=
  if d.external then
    { name := d.name, sig := some d.sig, paramNames := d.paramNames, external := true }
  else
    { name := d.name, sig := some d.sig, paramNames := d.paramNames, values := d.code,
      blocks := [d.block place], body := [0], entry := some ⟨place, 0⟩ }

/-- The value `v` with the given arguments, as it stands in the draft at `place`. -/
def placed (place : Nat) (v : Value) (args : List ValueRef) : Value :=
  { v with block := some ⟨place, 0⟩, uses := 0, args := args.map some }

/-- Appends a value. -/
def push (d : Draft) (v : Value) : Draft := { d with code := d.code ++ [v] }

/-- Ends the block by returning `r`. -/
def ret (d : Draft) (r : ValueRef) : Draft := { d with result := some r }

@[simp] theorem name_func (place : Nat) (d : Draft) : (d.func place).name = d.name := by
  unfold func
  split <;> rfl

@[simp] theorem sig_func (place : Nat) (d : Draft) : (d.func place).sig = some d.sig := by
  unfold func
  split <;> rfl

@[simp] theorem foreign_func (place : Nat) (d : Draft) : (d.func place).foreign = false := by
  unfold func
  split <;> rfl

end Draft

/-- The functions of a module are as the drafts describe them. -/
def Module.Drafted (m : Module) (ds : List Draft) : Prop := m.core.funcs = ds.mapIdx Draft.func

/-- A change of one entry and a change of all entries that commute. -/
theorem map_modify {α β : Type} {f : α → β} {g : α → α} {g' : β → β}
    (h : ∀ x, f (g x) = g' (f x)) (l : List α) (i : Nat) :
    (l.modify i g).map f = (l.map f).modify i g' := by
  apply List.ext_getElem?
  intro j
  simp only [List.getElem?_map, List.getElem?_modify]
  cases l[j]? with
  | none => rfl
  | some x => by_cases hj : i = j <;> simp [hj, h]

/-- What a new entry has in common with the old one stays the same. -/
theorem map_set_of_eq {α β : Type} {f : α → β} {l : List α} {i : Nat} {x y : α} (hx : l[i]? = some x)
    (h : f y = f x) : (l.set i y).map f = l.map f := by
  obtain ⟨hi, rfl⟩ := List.getElem?_eq_some_iff.1 hx
  have hset : (l.map f).set i (f l[i]) = l.map f := by
    rw [← List.map_set, List.set_getElem_self]
  rw [List.map_set, h, hset]

/-! ## Changes up to uses -/

namespace Module

variable {m : Module}

theorem core_modifyFunc {g : Func → Func} (g' : Func → Func) (hg : ∀ f, (g f).core = g' f.core)
    (f : Nat) : (m.modifyFunc f g).core = m.core.modifyFunc f g' := by
  simp only [core, modifyFunc, map_modify hg]

theorem core_modifyValue {g : Value → Value} (g' : Value → Value)
    (hg : ∀ v, (g v).core = g' v.core) (r : ValueRef) :
    (m.modifyValue r g).core = m.core.modifyValue r g' := by
  apply core_modifyFunc
  intro f
  simp only [Func.core, map_modify hg]

theorem core_modifyBlock (g : Block → Block) (r : BlockRef) :
    (m.modifyBlock r g).core = m.core.modifyBlock r g := by
  apply core_modifyFunc
  intro f
  rfl

theorem modifyFunc_id (f : Nat) : m.modifyFunc f id = m := by
  rw [modifyFunc, List.modify_id]

theorem modifyValue_id (r : ValueRef) : m.modifyValue r id = m := by
  simp only [modifyValue, List.modify_id]
  exact modifyFunc_id _

theorem core_countUse (r : ValueRef) : (m.countUse r).core = m.core := by
  have h : (m.countUse r).core = m.core.modifyValue r id := by
    apply core_modifyValue
    intro v
    rfl
  rw [h, modifyValue_id]

theorem core_addArg (r a : ValueRef) :
    (m.addArg r a).core = m.core.modifyValue r fun v => { v with args := v.args ++ [some a] } := by
  rw [addArg, core_countUse]
  apply core_modifyValue
  intro v
  rfl

theorem modifyValue_modifyValue (r : ValueRef) (g h : Value → Value) :
    (m.modifyValue r g).modifyValue r h = m.modifyValue r (h ∘ g) := by
  simp only [modifyValue, modifyFunc, List.modify_modify_eq]
  congr 2
  funext f
  simp [List.modify_modify_eq]

theorem core_foldl_addArg (r : ValueRef) (args : List ValueRef) :
    (args.foldl (fun m a => m.addArg r a) m).core =
      m.core.modifyValue r fun v => { v with args := v.args ++ args.map some } := by
  induction args generalizing m with
  | nil =>
    simp only [List.foldl_nil, List.map_nil, List.append_nil]
    exact (modifyValue_id r).symm
  | cons a args ih =>
    rw [List.foldl_cons, ih, core_addArg, modifyValue_modifyValue]
    congr 1
    funext v
    simp

/-- What a module has beside its functions. -/
def rest (m : Module) : String × String × List Global × List (String × Nat) :=
  (m.name, m.triple, m.globals, m.symbols)

theorem rest_foldl_addArg (r : ValueRef) (args : List ValueRef) :
    (args.foldl (fun m a => m.addArg r a) m).rest = m.rest := by
  induction args generalizing m with
  | nil => rfl
  | cons a args ih => exact ih

/-! ## Drafts of the functions -/

namespace Drafted

variable {ds : List Draft} {d : Draft} {f : Nat}

theorem length_funcs (h : m.Drafted ds) : m.funcs.length = ds.length := by
  have := congrArg List.length h
  simpa [core] using this

theorem getElem?_core (h : m.Drafted ds) (i : Nat) :
    m.core.funcs[i]? = (ds[i]?).map (Draft.func i) := by
  rw [h, List.getElem?_mapIdx]

theorem getElem?_funcs (h : m.Drafted ds) (hd : ds[f]? = some d) :
    ∃ x, m.funcs[f]? = some x ∧ x.core = d.func f := by
  have hx := h.getElem?_core f
  rw [hd, core, List.getElem?_map] at hx
  exact Option.map_eq_some_iff.1 hx

/-- What does not depend on uses can be read off the drafts. -/
theorem map_funcs {α : Type} {g : Func → α} {g' : Draft → α} (h : m.Drafted ds)
    (hcore : ∀ f, g f.core = g f) (hfunc : ∀ i d, g (d.func i) = g' d) :
    m.funcs.map g = ds.map g' := by
  have hfuncs : m.core.funcs.map g = m.funcs.map g := by
    rw [core, List.map_map]
    exact List.map_congr_left fun f _ => hcore f
  rw [← hfuncs, h]
  apply List.ext_getElem?
  intro i
  cases hd : ds[i]? <;> simp [hd, hfunc]

theorem map_name (h : m.Drafted ds) : m.funcs.map (·.name) = ds.map (·.name) :=
  h.map_funcs (fun _ => rfl) Draft.name_func

/-- Changing one function amounts to changing its draft. -/
theorem of_modifyFunc {m' : Module} {g : Func → Func} {d' : Draft} (h : m.Drafted ds)
    (hm : m'.core = m.core.modifyFunc f g) (hd : ds[f]? = some d)
    (hg : g (d.func f) = d'.func f) : m'.Drafted (ds.set f d') := by
  apply List.ext_getElem?
  intro i
  rw [hm, List.getElem?_mapIdx]
  show (m.core.funcs.modify f g)[i]? = _
  rw [List.getElem?_modify, h.getElem?_core]
  by_cases hi : f = i
  · subst hi
    have hlt : f < ds.length := (List.getElem?_eq_some_iff.1 hd).1
    rw [List.getElem?_set_self hlt, hd]
    simp [hg]
  · rw [List.getElem?_set_ne hi]
    simp [hi]

theorem modify_concat {α : Type} (l : List α) (x : α) (g : α → α) :
    (l ++ [x]).modify l.length g = l ++ [g x] := by
  induction l with
  | nil => rfl
  | cons a l ih => rw [List.cons_append, List.length_cons, List.modify_succ_cons, ih]; rfl

/-- Creating a value appends it to the draft. -/
theorem addValue (h : m.Drafted ds) (hd : ds[f]? = some d) (he : d.external = false)
    (v : Value) (args : List ValueRef) :
    (m.addValue f ⟨f, 0⟩ v args).1 = ⟨f, d.code.length⟩ ∧
      (m.addValue f ⟨f, 0⟩ v args).2.Drafted (ds.set f (d.push (Draft.placed f v args))) := by
  obtain ⟨x, hx, hxd⟩ := h.getElem?_funcs hd
  have hn : ((m.funcs[f]?).map (·.values.length)).getD 0 = d.code.length := by
    have := congrArg (fun y : Func => y.values.length) hxd
    simpa [hx, Func.core, Draft.func, he] using this
  refine ⟨by simp only [Module.addValue, hn], ?_⟩
  have hcore : (m.addValue f ⟨f, 0⟩ v args).2.core = m.core.modifyFunc f fun y => { y with
      values := (y.values ++ [{ v with block := some ⟨f, 0⟩, uses := 0, args := [] }]).modify
        d.code.length (fun v => { v with args := v.args ++ args.map some })
      blocks := y.blocks.modify 0 fun b =>
        { b with values := b.values ++ [⟨f, d.code.length⟩] } } := by
    simp only [Module.addValue, hn]
    rw [core_modifyBlock, core_foldl_addArg, core_modifyFunc fun y => { y with
      values := y.values ++ [{ v with block := some ⟨f, 0⟩, uses := 0, args := [] }] }]
    · simp only [modifyBlock, modifyValue, modifyFunc, List.modify_modify_eq]
      rfl
    · intro y
      simp [Func.core, Value.core]
  apply h.of_modifyFunc hcore hd
  simp only [Draft.func, he, Draft.push, Bool.false_eq_true, if_false, modify_concat]
  simp [Draft.block, Draft.refs, List.range_succ, Draft.placed]

theorem rest_addValue (g : Nat) (b : BlockRef) (v : Value) (args : List ValueRef) :
    (m.addValue g b v args).2.rest = m.rest := by
  simp only [Module.addValue]
  exact rest_foldl_addArg _ _

/-- Ending the block of a function sets the result of its draft. -/
theorem setReturn (h : m.Drafted ds) (hd : ds[f]? = some d) (he : d.external = false)
    (r : ValueRef) : (m.setReturn ⟨f, 0⟩ (some r)).Drafted (ds.set f (d.ret r)) := by
  have hcore : (m.setReturn ⟨f, 0⟩ (some r)).core = m.core.modifyFunc f fun y => { y with
      blocks := y.blocks.modify 0 fun b => { b with kind := .ret, controls := [some r] } } := by
    simp only [Module.setReturn, setControl]
    rw [core_countUse, core_modifyBlock, core_modifyBlock]
    simp only [modifyBlock, modifyFunc, List.modify_modify_eq]
    congr 2
    funext y
    simp only [Function.comp, List.modify_modify_eq]
    rfl
  apply h.of_modifyFunc hcore hd
  simp [Draft.func, he, Draft.ret, Draft.block]

theorem funcs_freshSymbol (m : Module) (name : String) :
    (m.freshSymbol name).2.funcs = m.funcs ∧ (m.freshSymbol name).2.globals = m.globals := by
  unfold freshSymbol
  split <;> exact ⟨rfl, rfl⟩

theorem concat {m' : Module} (h : m.Drafted ds)
    (hm : m'.core.funcs = m.core.funcs ++ [d.func ds.length]) : m'.Drafted (ds ++ [d]) := by
  rw [Module.Drafted, hm, h, List.mapIdx_concat]

/-- Adding a function appends a draft without code. -/
theorem addFunc (h : m.Drafted ds) (name : String) (sig : Signature) (params : List String) :
    (m.addFunc name sig params).1 = ds.length ∧
      (m.addFunc name sig params).2.Drafted
        (ds ++ [{ name := (m.freshSymbol name).1, sig, paramNames := params }]) := by
  have hf := (funcs_freshSymbol m name).1
  refine ⟨?_, h.concat ?_⟩
  · simp only [Module.addFunc, addDeclaration, hf, h.length_funcs]
  · simp only [Module.addFunc, addDeclaration, addBlock, modifyFunc, core, hf,
      modify_concat, List.map_append]
    simp [Draft.func, Draft.block, Draft.refs, Func.core, h.length_funcs]

/-- The rest of a module after a function was added: only the symbols changed. -/
theorem addFunc_rest (m : Module) (name : String) (sig : Signature) (params : List String) :
    (m.addFunc name sig params).2.rest = (m.freshSymbol name).2.rest := rfl

theorem internString (h : m.Drafted ds) (data : List UInt8) :
    (m.internString data).2.Drafted ds := by
  unfold Module.internString
  split
  · exact h
  · exact h

end Drafted

end Module

end Wordlang.IR
