import Wordlang.Proofs.LLVM.Requests
import Wordlang.Proofs.Verify.Rules

/-!
# Modules as they are built

A module is built by edits, in any order: functions and strings are asked for, blocks and values
are created, arguments are added and blocks are ended. Two things hold of whatever is built. Every
value that a block lists is there. And the number of times a value was used is the number of
references to it, together with those that were given up: ending a block anew replaces its control,
and the use of the one that is replaced stays counted. Nothing keeps a value from being a control
more often than a word can count, so that the count that is kept is this number as a word.
-/

namespace Wordlang.IR

/-! ## Lists with one element changed -/

section

variable {α β : Type} {l : List α} {i : Nat} {x y : α}

theorem mem_modify {g : α → α} (h : y ∈ l.modify i g) : y ∈ l ∨ ∃ x, l[i]? = some x ∧ y = g x := by
  obtain ⟨j, hj⟩ := List.getElem?_of_mem h
  rw [List.getElem?_modify] at hj
  obtain ⟨x, hx, hy⟩ := Option.map_eq_some_iff.1 hj
  by_cases hij : i = j
  · rw [if_pos hij] at hy
    exact .inr ⟨x, hij ▸ hx, hy.symm⟩
  · rw [if_neg hij] at hy
    exact .inl (hy ▸ List.mem_of_getElem? hx)

theorem flatMap_modify {k : α → List β} {g : α → α} (h : ∀ x, k (g x) = k x) :
    (l.modify i g).flatMap k = l.flatMap k := by
  induction l generalizing i with
  | nil => simp
  | cons x l ih =>
    cases i with
    | zero => simp [h]
    | succ i => simp [ih]

/-- What the changed element holds takes the place of what it held. -/
theorem count_flatMap_modify [BEq β] {k : α → List β} (hx : l[i]? = some x) (g : α → α)
    (b : β) : ((l.modify i g).flatMap k).count b + (k x).count b =
      (l.flatMap k).count b + (k (g x)).count b := by
  induction l generalizing i with
  | nil => simp at hx
  | cons y l ih =>
    cases i with
    | zero =>
      obtain rfl : y = x := by simpa using hx
      simp only [List.modify_zero_cons, List.flatMap_cons, List.count_append]
      omega
    | succ i =>
      have hrest := ih (i := i) (by simpa using hx)
      simp only [List.modify_succ_cons, List.flatMap_cons, List.count_append]
      omega

end

/-! ## References -/

/-- The references in a function: the arguments of its values and the controls of its blocks. -/
def Func.references (f : Func) : List (Option ValueRef) :=
  f.values.flatMap (·.args) ++ f.blocks.flatMap (·.controls)

/-- The values that the blocks of a function list. -/
def Func.listed (f : Func) : List ValueRef := f.blocks.flatMap (·.values)

/-- Another use adds one to the word that is kept. -/
theorem Value.useCount_succ (v : Value) :
    ({ v with uses := v.uses + 1 } : Value).useCount = v.useCount + 1 := Int32.ofNat_add _ _

/-- How often the value with the given number was used. -/
def Func.uses (f : Func) (i : Nat) : Nat := f.values[i]?.elim 0 (·.uses)

namespace Module

/-- The references in a module. -/
def references (m : Module) : List (Option ValueRef) := m.funcs.flatMap Func.references

/-- The values that the blocks of a module list. -/
def listed (m : Module) : List ValueRef := m.funcs.flatMap Func.listed

/-- How often a value was used; one that is not there was not. -/
def uses (m : Module) (r : ValueRef) : Nat := (m.value? r).elim 0 (·.uses)

variable {m m' : Module} {f : Nat} {r a x : ValueRef} {v : Value} {b : BlockRef} {k : Block}

theorem value?_modifyFunc (m : Module) (f : Nat) (k : Func → Func) (r : ValueRef) :
    (m.modifyFunc f k).value? r =
      m.funcs[r.func]?.bind fun g => (if f = r.func then k g else g).values[r.index]? := by
  show (m.funcs.modify f k)[r.func]?.bind (·.values[r.index]?) = _
  rw [List.getElem?_modify]
  cases m.funcs[r.func]? with
  | none => rfl
  | some g =>
    by_cases hf : f = r.func
    · simp [hf]
    · simp [hf]

theorem value?_modifyValue (m : Module) (r : ValueRef) (g : Value → Value) (x : ValueRef) :
    (m.modifyValue r g).value? x = if x = r then (m.value? x).map g else m.value? x := by
  rw [modifyValue, value?_modifyFunc]
  show _ = if x = r then (m.funcs[x.func]?.bind (·.values[x.index]?)).map g
    else m.funcs[x.func]?.bind (·.values[x.index]?)
  cases m.funcs[x.func]? with
  | none => simp
  | some h =>
    obtain ⟨i, j⟩ := r
    obtain ⟨i', j'⟩ := x
    by_cases hi : i = i'
    · by_cases hj : j = j'
      · simp [hi, hj]
      · simp [hi, hj, Ne.symm hj]
    · simp [hi, Ne.symm hi]

/-- A function may be changed in other respects than its values. -/
theorem value?_of_values {k : Func → Func} (hk : ∀ g, (k g).values = g.values) (r : ValueRef) :
    (m.modifyFunc f k).value? r = m.value? r := by
  rw [value?_modifyFunc]
  show _ = m.funcs[r.func]?.bind (·.values[r.index]?)
  refine congrArg (Option.bind _) (funext fun g => ?_)
  split
  · rw [hk]
  · rfl

/-- The new arguments of a value take the place of its old ones. -/
theorem count_modifyValue (hv : m.value? r = some v) (g : Value → Value)
    (c : Option ValueRef) : (m.modifyValue r g).references.count c + v.args.count c =
      m.references.count c + (g v).args.count c := by
  obtain ⟨f, hf, hfv⟩ := Option.bind_eq_some_iff.1 hv
  have hfuncs := count_flatMap_modify (k := Func.references) hf
    (fun f => { f with values := f.values.modify r.index g }) c
  have hvalues := count_flatMap_modify (k := fun v : Value => v.args) hfv g c
  simp only [Func.references, List.count_append] at hfuncs
  show ((m.funcs.modify r.func _).flatMap Func.references).count c + _ =
    (m.funcs.flatMap Func.references).count c + _
  omega

/-- The new controls of a block take the place of its old ones. -/
theorem count_modifyBlock (hb : m.block? b = some k) (g : Block → Block)
    (c : Option ValueRef) : (m.modifyBlock b g).references.count c + k.controls.count c =
      m.references.count c + (g k).controls.count c := by
  obtain ⟨f, hf, hfk⟩ := Option.bind_eq_some_iff.1 hb
  have hfuncs := count_flatMap_modify (k := Func.references) hf
    (fun f => { f with blocks := f.blocks.modify b.index g }) c
  have hblocks := count_flatMap_modify (k := fun k : Block => k.controls) hfk g c
  simp only [Func.references, List.count_append] at hfuncs
  show ((m.funcs.modify b.func _).flatMap Func.references).count c + _ =
    (m.funcs.flatMap Func.references).count c + _
  omega

/-! ## What is true of a module that was built -/

/-- Uses are references, those that were given up included; and what a block lists is there. -/
structure Accounted (m : Module) (past : List (Option ValueRef)) : Prop where
  uses : ∀ r, m.uses r = (m.references ++ past).count (some r)
  listed : ∀ r ∈ m.listed, (m.value? r).isSome

variable {past : List (Option ValueRef)}

theorem accounted_empty (name triple : String) : Accounted (.empty name triple) [] :=
  ⟨fun _ => rfl, by simp [listed, empty]⟩

/-- Only the functions count. -/
theorem Accounted.congr (h : Accounted m past) (hfuncs : m'.funcs = m.funcs) :
    Accounted m' past := by
  obtain ⟨huses, hlisted⟩ := h
  unfold Module.uses references value? at huses
  unfold Module.listed value? at hlisted
  rw [← hfuncs] at huses hlisted
  exact ⟨huses, hlisted⟩

/-- A new function has no values and refers to none. -/
theorem Accounted.append {g : Func} (h : Accounted m past) (hvalues : g.values = [])
    (hblocks : g.blocks = []) (hfuncs : m'.funcs = m.funcs ++ [g]) : Accounted m' past := by
  have hvalue : ∀ r, m'.value? r = m.value? r := by
    intro r
    show m'.funcs[r.func]?.bind (·.values[r.index]?) = m.funcs[r.func]?.bind (·.values[r.index]?)
    rw [hfuncs]
    by_cases hlt : r.func < m.funcs.length
    · rw [List.getElem?_append_left hlt]
    · have hold : m.funcs[r.func]? = none := List.getElem?_eq_none (by omega)
      rw [hold, List.getElem?_append_right (by omega)]
      cases hg : [g][r.func - m.funcs.length]? with
      | none => rfl
      | some g' =>
        obtain rfl := List.mem_singleton.1 (List.mem_of_getElem? hg)
        simp [hvalues]
  have hreferences : m'.references = m.references := by
    simp [references, hfuncs, Func.references, hvalues, hblocks]
  have hlisted : m'.listed = m.listed := by
    simp [Module.listed, hfuncs, Func.listed, hblocks]
  refine ⟨fun r => ?_, fun r hr => ?_⟩
  · rw [Module.uses, hvalue, hreferences]
    exact h.uses r
  · rw [hvalue]
    exact h.listed r (hlisted ▸ hr)

/-- A change of a function that neither refers to values nor uses them. -/
structure Silent (k : Func → Func) : Prop where
  references : ∀ g, (k g).references = g.references
  uses : ∀ g i, (k g).uses i = g.uses i
  length : ∀ g, g.values.length ≤ (k g).values.length

theorem uses_modifyFunc {k : Func → Func} (hk : ∀ g i, (k g).uses i = g.uses i) (r : ValueRef) :
    (m.modifyFunc f k).uses r = m.uses r := by
  rw [uses, uses, value?_modifyFunc]
  show _ = (m.funcs[r.func]?.bind (·.values[r.index]?)).elim 0 _
  cases m.funcs[r.func]? with
  | none => rfl
  | some g =>
    by_cases hf : f = r.func
    · simpa [hf, Func.uses] using hk g r.index
    · simp [hf]

theorem isSome_modifyFunc {k : Func → Func} (hk : ∀ g, g.values.length ≤ (k g).values.length)
    (h : (m.value? r).isSome) : ((m.modifyFunc f k).value? r).isSome := by
  obtain ⟨v, hv⟩ := Option.isSome_iff_exists.1 h
  obtain ⟨g, hg, hgv⟩ := Option.bind_eq_some_iff.1 hv
  have hlt := (List.getElem?_eq_some_iff.1 hgv).1
  have hlength := hk g
  rw [value?_modifyFunc, hg, Option.bind_some]
  split
  · rw [List.getElem?_eq_getElem (by omega)]
    rfl
  · rw [hgv]
    rfl

theorem Accounted.modifyFunc {k : Func → Func} (h : Accounted m past) (hk : Silent k)
    (hlisted : ∀ g, m.funcs[f]? = some g → ∀ r ∈ (k g).listed,
      r ∈ g.listed ∨ ((m.modifyFunc f k).value? r).isSome) :
    Accounted (m.modifyFunc f k) past := by
  have hreferences : (m.modifyFunc f k).references = m.references := flatMap_modify hk.references
  refine ⟨fun r => ?_, fun r hr => ?_⟩
  · rw [uses_modifyFunc hk.uses, hreferences]
    exact h.uses r
  · obtain ⟨g, hg, hr⟩ := List.mem_flatMap.1 hr
    have hold : ∀ g ∈ m.funcs, r ∈ g.listed → ((m.modifyFunc f k).value? r).isSome := by
      intro g hg hr
      exact isSome_modifyFunc hk.length (h.listed r (List.mem_flatMap.2 ⟨g, hg, hr⟩))
    rcases mem_modify hg with hg | ⟨g', hg', rfl⟩
    · exact hold g hg hr
    · rcases hlisted g' hg' r hr with hr | hr
      · exact hold g' (List.mem_of_getElem? hg') hr
      · exact hr

/-! ## Arguments and controls -/

theorem isSome_modifyValue (m : Module) (r : ValueRef) (g : Value → Value) (x : ValueRef) :
    ((m.modifyValue r g).value? x).isSome = (m.value? x).isSome := by
  rw [value?_modifyValue]
  split
  · rw [Option.isSome_map]
  · rfl

theorem listed_modifyValue (m : Module) (r : ValueRef) (g : Value → Value) :
    (m.modifyValue r g).listed = m.listed := flatMap_modify fun _ => rfl

theorem uses_modifyValue {g : Value → Value} (hg : ∀ v, (g v).uses = v.uses) (r x : ValueRef) :
    (m.modifyValue r g).uses x = m.uses x := by
  rw [uses, uses, value?_modifyValue]
  split
  · cases m.value? x with
    | none => rfl
    | some v => exact hg v
  · rfl

theorem references_countUse (m : Module) (a : ValueRef) :
    (m.countUse a).references = m.references := by
  refine flatMap_modify fun g => ?_
  exact congrArg (· ++ _) (flatMap_modify fun _ => rfl)

theorem uses_countUse (ha : (m.value? a).isSome) (x : ValueRef) :
    (m.countUse a).uses x = m.uses x + if a = x then 1 else 0 := by
  rw [uses, uses, countUse, value?_modifyValue]
  by_cases hx : a = x
  · obtain ⟨v, hv⟩ := Option.isSome_iff_exists.1 ha
    simp [← hx, hv]
  · simp [hx, Ne.symm hx]

/-- A reference that was written down is counted. -/
theorem accounted_countUse (ha : (m.value? a).isSome)
    (hlisted : ∀ r ∈ m.listed, (m.value? r).isSome)
    (huses : ∀ x, m.uses x + (if a = x then 1 else 0) = (m.references ++ past).count (some x)) :
    Accounted (m.countUse a) past := by
  refine ⟨fun x => ?_, fun x hx => ?_⟩
  · rw [uses_countUse ha, references_countUse, huses]
  · rw [countUse, isSome_modifyValue]
    rw [countUse, listed_modifyValue] at hx
    exact hlisted x hx

theorem Accounted.addArg (h : Accounted m past) (hr : (m.value? r).isSome)
    (ha : (m.value? a).isSome) : Accounted (m.addArg r a) past := by
  obtain ⟨v, hv⟩ := Option.isSome_iff_exists.1 hr
  let pass : Value → Value := fun v => { v with args := v.args ++ [some a] }
  refine accounted_countUse (m := m.modifyValue r pass) ?_ ?_ ?_
  · rwa [isSome_modifyValue]
  · intro x hx
    rw [listed_modifyValue] at hx
    rw [isSome_modifyValue]
    exact h.listed x hx
  · intro x
    have hcount := count_modifyValue hv pass (some x)
    have hadded : [some a].count (some x) = if a = x then 1 else 0 := by
      simp [List.count_singleton]
    have hbefore := h.uses x
    rw [List.count_append] at hbefore hcount
    have hsame := uses_modifyValue (m := m) (g := pass) (fun _ => rfl) r x
    rw [hsame, List.count_append]
    omega

/-- The control of a block gives way to another. -/
theorem Accounted.setControl {c : Option ValueRef} (h : Accounted m past)
    (hb : m.block? b = some k) (hc : ∀ r, c = some r → (m.value? r).isSome) :
    Accounted (m.setControl b c) (past ++ k.controls) := by
  let replace : Block → Block := fun k => { k with controls := [c] }
  have hvalue : ∀ x, (m.modifyBlock b replace).value? x = m.value? x :=
    value?_of_values fun _ => rfl
  have hlisted : (m.modifyBlock b replace).listed = m.listed :=
    flatMap_modify fun _ => flatMap_modify fun _ => rfl
  have huses : ∀ x, (m.modifyBlock b replace).uses x + [c].count (some x) =
      ((m.modifyBlock b replace).references ++ (past ++ k.controls)).count (some x) := by
    intro x
    have hcount := count_modifyBlock hb replace (some x)
    have hbefore := h.uses x
    have hsame : (m.modifyBlock b replace).uses x = m.uses x := by
      rw [Module.uses, Module.uses, hvalue]
    rw [List.count_append] at hbefore
    rw [hsame, List.count_append, List.count_append]
    simp only [replace] at hcount ⊢
    omega
  have hthere : ∀ r ∈ (m.modifyBlock b replace).listed,
      ((m.modifyBlock b replace).value? r).isSome := by
    intro r hr
    rw [hvalue]
    exact h.listed r (hlisted ▸ hr)
  cases c with
  | none =>
    refine ⟨fun x => ?_, hthere⟩
    have hnone : [none].count (some x) = 0 := by simp
    have hx := huses x
    rw [hnone, Nat.add_zero] at hx
    exact hx
  | some a =>
    refine accounted_countUse (m := m.modifyBlock b replace) ?_ hthere fun x => ?_
    · rw [hvalue]
      exact hc a rfl
    · rw [← huses x]
      simp [List.count_singleton]

theorem Accounted.setReturn {c : Option ValueRef} (h : Accounted m past)
    (hb : m.block? b = some k) (hc : ∀ r, c = some r → (m.value? r).isSome) :
    Accounted (m.setReturn b c) (past ++ k.controls) := by
  let close : Block → Block := fun k => { k with kind := .ret }
  have hclosed : Accounted (m.modifyBlock b close) past := by
    refine h.modifyFunc ⟨fun g => ?_, fun _ _ => rfl, fun _ => Nat.le_refl _⟩ fun g _ r hr => ?_
    · exact congrArg (_ ++ ·) (flatMap_modify fun _ => rfl)
    · left
      have hsame : ({ g with blocks := g.blocks.modify b.index close } : Func).listed = g.listed :=
        flatMap_modify fun _ => rfl
      exact hsame ▸ hr
  have hblock : (m.modifyBlock b close).block? b = some (close k) := by
    obtain ⟨g, hg, hgk⟩ := Option.bind_eq_some_iff.1 hb
    show (m.funcs.modify b.func _)[b.func]?.bind (·.blocks[b.index]?) = some (close k)
    rw [List.getElem?_modify, hg]
    simp [hgk]
  have hvalue : ∀ x, (m.modifyBlock b close).value? x = m.value? x :=
    value?_of_values fun _ => rfl
  exact hclosed.setControl (k := close k) hblock fun r hr => (hvalue r).symm ▸ hc r hr

/-! ## New functions, blocks and values -/

theorem Accounted.addBlock (h : Accounted m past) (f : Nat) (kind : BlockKind) :
    Accounted (m.addBlock f kind) past := by
  refine h.modifyFunc ⟨fun g => ?_, fun _ _ => rfl, fun _ => Nat.le_refl _⟩ fun g _ r hr => ?_
  · simp [Func.references]
  · left
    simpa [Func.listed] using hr

theorem Accounted.addDeclaration (h : Accounted m past) (name : String) (sig : Signature)
    (external : Bool) (params : List String) :
    Accounted (m.addDeclaration name sig external params).2 past := by
  have hfuncs := (Drafted.funcs_freshSymbol m name).1
  exact h.append rfl rfl (congrArg (· ++ [_]) hfuncs)

theorem Accounted.serve (h : Accounted m past) (q : Request) : Accounted (q.serve m).2 past := by
  cases q with
  | func name sig params =>
    have hblock := (h.addDeclaration name sig false params).addBlock
      (m.addDeclaration name sig false params).1 .plain
    exact hblock.modifyFunc ⟨fun _ => rfl, fun _ _ => rfl, fun _ => Nat.le_refl _⟩
      fun g _ r hr => .inl hr
  | external name sig params => exact h.addDeclaration name sig true params
  | string data =>
    refine h.congr ?_
    show (m.internString data).2.funcs = m.funcs
    unfold internString
    split
    · rfl
    · rfl

theorem isSome_addArg (m : Module) (r a x : ValueRef) :
    ((m.addArg r a).value? x).isSome = (m.value? x).isSome := by
  rw [addArg, countUse, isSome_modifyValue, isSome_modifyValue]

/-- Arguments are added one after the other, to a value that is there. -/
theorem Accounted.addArgs {args : List ValueRef} (h : Accounted m past) (hr : (m.value? r).isSome)
    (hargs : ∀ a ∈ args, (m.value? a).isSome) :
    Accounted (args.foldl (fun m a => m.addArg r a) m) past ∧
      ((args.foldl (fun m a => m.addArg r a) m).value? r).isSome := by
  induction args generalizing m with
  | nil => exact ⟨h, hr⟩
  | cons a args ih =>
    obtain ⟨ha, hrest⟩ := List.forall_mem_cons.1 hargs
    refine ih (h.addArg hr ha) ?_ fun b hb => ?_
    · rwa [isSome_addArg]
    · rw [isSome_addArg]
      exact hrest b hb

/-- A value that is new refers to nothing and is not used. -/
theorem silent_append (hargs : v.args = []) (huses : v.uses = 0) :
    Silent fun g => { g with values := g.values ++ [v] } := by
  refine ⟨fun g => ?_, fun g i => ?_, fun g => ?_⟩
  · simp [Func.references, hargs]
  · show ((g.values ++ [v])[i]?).elim 0 (·.uses) = (g.values[i]?).elim 0 (·.uses)
    by_cases hi : i < g.values.length
    · rw [List.getElem?_append_left hi]
    · have hnone : g.values[i]? = none := List.getElem?_eq_none (by omega)
      rw [hnone, List.getElem?_append_right (by omega)]
      cases i - g.values.length with
      | zero => exact huses
      | succ j => rfl
  · simp

theorem Accounted.addValue {args : List ValueRef} (h : Accounted m past) (hf : f < m.funcs.length)
    (hargs : ∀ a ∈ args, (m.value? a).isSome) (v : Value) :
    Accounted (m.addValue f b v args).2 past := by
  let r : ValueRef := ⟨f, ((m.funcs[f]?).map (·.values.length)).getD 0⟩
  let start : Func → Func := fun g =>
    { g with values := g.values ++ [{ v with block := some b, uses := 0, args := [] }] }
  have hsilent : Silent start := silent_append rfl rfl
  have hstart : Accounted (m.modifyFunc f start) past :=
    h.modifyFunc hsilent fun g _ r hr => .inl hr
  have hnew : ((m.modifyFunc f start).value? r).isSome := by
    rw [value?_modifyFunc]
    simp [r, start, List.getElem?_eq_getElem hf]
  have hold : ∀ a ∈ args, ((m.modifyFunc f start).value? a).isSome :=
    fun a ha => isSome_modifyFunc hsilent.length (hargs a ha)
  obtain ⟨hpassed, hthere⟩ := hstart.addArgs hnew hold
  -- at last the block lists the value
  refine hpassed.modifyFunc ⟨fun g => ?_, fun _ _ => rfl, fun _ => Nat.le_refl _⟩
    fun g hg x hx => ?_
  · exact congrArg (_ ++ ·) (flatMap_modify fun _ => rfl)
  · obtain ⟨k, hk, hx⟩ := List.mem_flatMap.1 hx
    rcases mem_modify hk with hk | ⟨k', hk', rfl⟩
    · exact .inl (List.mem_flatMap.2 ⟨k, hk, hx⟩)
    · rcases List.mem_append.1 hx with hx | hx
      · exact .inl (List.mem_flatMap.2 ⟨k', List.mem_of_getElem? hk', hx⟩)
      · obtain rfl := List.mem_singleton.1 hx
        exact .inr (isSome_modifyFunc (fun _ => Nat.le_refl _) hthere)

end Module

/-! ## Edits -/

/-- A step in which a module is built. -/
inductive Edit where
  /-- A function or a string is asked for. -/
  | request (q : Request)
  | block (f : Nat) (kind : BlockKind)
  | value (f : Nat) (block : BlockRef) (v : Value) (args : List ValueRef)
  | addArg (r arg : ValueRef)
  | setControl (block : BlockRef) (c : Option ValueRef)
  | setReturn (block : BlockRef) (c : Option ValueRef)
  deriving DecidableEq, Repr

namespace Edit

/-- The module after an edit. -/
def apply (m : Module) : Edit → Module
  | request q => (q.serve m).2
  | block f kind => m.addBlock f kind
  | value f b v args => (m.addValue f b v args).2
  | addArg r arg => m.addArg r arg
  | setControl b c => m.setControl b c
  | setReturn b c => m.setReturn b c

/-- What the edit refers to is there. -/
def Valid (m : Module) : Edit → Prop
  | request _ => True
  | block f _ => f < m.funcs.length
  | value f b _ args =>
    f < m.funcs.length ∧ (m.block? b).isSome ∧ ∀ a ∈ args, (m.value? a).isSome
  | addArg r arg => (m.value? r).isSome ∧ (m.value? arg).isSome
  | setControl b c | setReturn b c =>
    (m.block? b).isSome ∧ ∀ r ∈ c, (m.value? r).isSome

instance (m : Module) : DecidablePred (Valid m)
  | request _ => inferInstanceAs (Decidable True)
  | block f _ => inferInstanceAs (Decidable (f < m.funcs.length))
  | value f b _ args => inferInstanceAs (Decidable (f < m.funcs.length ∧
      (m.block? b).isSome ∧ ∀ a ∈ args, (m.value? a).isSome))
  | addArg r arg => inferInstanceAs (Decidable ((m.value? r).isSome ∧ (m.value? arg).isSome))
  | setControl b c | setReturn b c =>
    inferInstanceAs (Decidable ((m.block? b).isSome ∧ ∀ r ∈ c, (m.value? r).isSome))

/-- The controls that give way to others. -/
def replaced (m : Module) : Edit → List (Option ValueRef)
  | setControl b _ | setReturn b _ => (m.block? b).elim [] (·.controls)
  | _ => []

theorem accounted {m : Module} {past : List (Option ValueRef)} {c : Edit}
    (h : m.Accounted past) (hc : c.Valid m) : (c.apply m).Accounted (past ++ c.replaced m) := by
  cases c with
  | request q =>
    show Module.Accounted _ (past ++ [])
    rw [List.append_nil]
    exact h.serve q
  | block f kind =>
    show Module.Accounted _ (past ++ [])
    rw [List.append_nil]
    exact h.addBlock f kind
  | value f b v args =>
    obtain ⟨hf, -, hargs⟩ := hc
    show Module.Accounted _ (past ++ [])
    rw [List.append_nil]
    exact h.addValue hf hargs v
  | addArg r arg =>
    show Module.Accounted _ (past ++ [])
    rw [List.append_nil]
    exact h.addArg hc.1 hc.2
  | setControl b c =>
    obtain ⟨hblock, hvalue⟩ := hc
    obtain ⟨k, hk⟩ := Option.isSome_iff_exists.1 hblock
    rw [replaced, hk]
    exact h.setControl hk hvalue
  | setReturn b c =>
    obtain ⟨hblock, hvalue⟩ := hc
    obtain ⟨k, hk⟩ := Option.isSome_iff_exists.1 hblock
    rw [replaced, hk]
    exact h.setReturn hk hvalue

end Edit

namespace Module

/-- The module after all edits. -/
def build (m : Module) : List Edit → Module
  | [] => m
  | c :: cs => (c.apply m).build cs

/-- What each edit refers to is there when its turn comes. -/
def Admits (m : Module) : List Edit → Prop
  | [] => True
  | c :: cs => c.Valid m ∧ (c.apply m).Admits cs

instance decidableAdmits (m : Module) : (cs : List Edit) → Decidable (m.Admits cs)
  | [] => inferInstanceAs (Decidable True)
  | c :: cs =>
    have := decidableAdmits (c.apply m) cs
    inferInstanceAs (Decidable (c.Valid m ∧ (c.apply m).Admits cs))

/-- The controls that gave way to others on the way. -/
def replaced (m : Module) : List Edit → List (Option ValueRef)
  | [] => []
  | c :: cs => c.replaced m ++ (c.apply m).replaced cs

variable {m : Module} {past : List (Option ValueRef)} {edits : List Edit} {name triple : String}

theorem Accounted.build (h : m.Accounted past) (hedits : m.Admits edits) :
    (m.build edits).Accounted (past ++ m.replaced edits) := by
  induction edits generalizing m past with
  | nil => simpa [Module.build, Module.replaced] using h
  | cons c edits ih =>
    obtain ⟨hc, hrest⟩ := hedits
    rw [Module.replaced, ← List.append_assoc]
    exact ih (c.accounted h hc) hrest

/-- Every value that a block of a module that was built lists is there. -/
theorem listed_build (hedits : (empty name triple).Admits edits) :
    ((empty name triple).build edits).Listed := by
  have hbuilt := (accounted_empty name triple).build hedits
  intro f hf r hr
  refine hbuilt.listed r (List.mem_flatMap.2 ⟨f, hf, ?_⟩)
  obtain ⟨x, hx, hr⟩ := List.mem_flatMap.1 hr
  obtain ⟨i, -, hi⟩ := List.mem_filterMap.1 hx
  obtain ⟨k, hk, rfl⟩ := Option.map_eq_some_iff.1 hi
  exact List.mem_flatMap.2 ⟨k, List.mem_of_getElem? hk, hr⟩

/-- In a module that was built by any edits, the use count of a value is the number of references to
it, and one more for each time that it was a control which gave way to another; as a word, which all
of these may be too many for. -/
theorem uses_build (name triple : String) (edits : List Edit)
    (hedits : (empty name triple).Admits edits) {r : ValueRef} {v : Value}
    (hv : ((empty name triple).build edits).value? r = some v) :
    v.useCount = Int32.ofNat (((empty name triple).build edits).references.count (some r) +
      ((empty name triple).replaced edits).count (some r)) := by
  have hbuilt := ((accounted_empty name triple).build hedits).uses r
  rw [Module.uses, hv, List.nil_append, List.count_append] at hbuilt
  exact congrArg Int32.ofNat hbuilt

/-- A function that returns a number, and is told to do so twice. -/
def emphatic : List Edit :=
  [.request (.func "main" { params := [], result := .i32 } []),
    .value 0 ⟨0, 0⟩ { op := .const32, type := .i32, number := 7 } [],
    .setReturn ⟨0, 0⟩ (some ⟨0, 0⟩),
    .setReturn ⟨0, 0⟩ (some ⟨0, 0⟩)]

theorem emphatic_uses : (empty "emphatic" "").Admits emphatic ∧
    ∃ v, ((empty "emphatic" "").build emphatic).value? ⟨0, 0⟩ = some v ∧
      v.useCount =
        Int32.ofNat (((empty "emphatic" "").build emphatic).references.count (some ⟨0, 0⟩) +
          ((empty "emphatic" "").replaced emphatic).count (some ⟨0, 0⟩)) := by
  have hedits : (empty "emphatic" "").Admits emphatic := by decide
  have hsome : (((empty "emphatic" "").build emphatic).value? ⟨0, 0⟩).isSome := by decide
  obtain ⟨v, hv⟩ := Option.isSome_iff_exists.1 hsome
  exact ⟨hedits, v, hv, uses_build "emphatic" "" emphatic hedits hv⟩

/-- The control that gave way is counted still. -/
theorem emphatic_counted : ¬ ∀ (name triple : String) (edits : List Edit),
    (empty name triple).Admits edits →
      ∀ r v, ((empty name triple).build edits).value? r = some v →
        v.useCount.toInt = ((empty name triple).build edits).references.count (some r) := by
  intro hall
  have hvalue : ((empty "emphatic" "").build emphatic).value? ⟨0, 0⟩ =
      some { op := .const32, type := .i32, number := 7, block := some ⟨0, 0⟩, uses := 2 } := by
    decide
  exact absurd (hall "emphatic" "" emphatic (by decide) _ _ hvalue) (by decide)

end Module

end Wordlang.IR
