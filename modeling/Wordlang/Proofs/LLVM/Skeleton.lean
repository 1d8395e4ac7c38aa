import Wordlang.Proofs.LLVM.Render
import Wordlang.Proofs.Lowering.Addresses

/-!
# Skeletons of modules

What is left of a module when positions, the names of slots, the names of parameters and the numbers
of uses are forgotten, and constants and addresses stand where they are used. What has a result is
kept with its number. A store has none; its number is forgotten too, and it is told by its place.

The lines of a readable module have its skeleton.
-/

namespace Wordlang

open IR

namespace Skeleton

/-- Where the value that is used comes from. -/
inductive Use where
  /-- It is a constant. -/
  | int (n : Int)
  /-- It is the address of the global with this name. -/
  | global (name : String)
  /-- It is the address of the function with this name. -/
  | func (name : String)
  /-- It is the argument with this number. -/
  | arg (n : Int)
  /-- It is computed by the value with this number. -/
  | value (n : Nat)
  deriving DecidableEq, Repr, Inhabited

/-- A value that is computed when it is reached. Where something is computed, `n` is its number. -/
inductive Step where
  /-- A slot. -/
  | alloca (n : Nat) (elem : Ty)
  /-- A read. -/
  | load (n : Nat) (type : Ty) (slot : Use)
  /-- A write, which has no result. -/
  | store (value : Ty × Use) (slot : Use)
  /-- A sum. -/
  | add32 (n : Nat) (a b : Use)
  /-- A call of the function with this name. -/
  | call (n : Nat) (callee : String) (args : List (Ty × Use))
  /-- A call through an address. -/
  | callIndirect (n : Nat) (sig : Signature) (callee : Use) (args : List (Ty × Use))
  deriving DecidableEq, Repr, Inhabited

/-- A function with one block, which returns a value. -/
structure Function where
  /-- Its symbol. -/
  name : String
  /-- The types of its parameters. -/
  params : List Ty
  /-- The type of its result. -/
  result : Ty
  /-- What it computes, in order. -/
  steps : List Step
  /-- What it returns. -/
  returned : Ty × Use
  deriving DecidableEq, Repr, Inhabited

end Skeleton

open Skeleton

/-- A module, apart from what is written where it is used and from what is for readers only. -/
structure Skeleton where
  /-- Its name. -/
  name : String
  /-- The target triple. -/
  triple : String
  /-- The string constants. -/
  globals : List Global
  /-- The functions whose bodies live elsewhere. -/
  externals : List (String × Signature)
  /-- The functions of the module. -/
  funcs : List Function
  deriving DecidableEq, Repr, Inhabited

namespace IR.Module

variable (m : Module)

/-- Where value number `n` of a function comes from. -/
def source? (n : Nat) (v : Value) : Option Use :=
  match v.op with
  | .const32 => some (.int v.number)
  | .globalAddr => match v.aux with
    | .global g => (m.globals[g]?).map (.global ·.name)
    | _ => none
  | .funcAddr => match v.aux with
    | .func f => (m.funcs[f]?).map (.func ·.name)
    | _ => none
  | .arg => some (.arg v.number)
  | _ => some (.value n)

/-- Where the value that a reference leads to comes from, with its type. -/
def use? (a : Option ValueRef) : Option (Ty × Use) := do
  let r ← a
  let v ← m.value? r
  return (v.type, ← m.source? r.index v)

/-- What value number `n` of a function computes when it is reached, if anything. -/
def steps? (n : Nat) (v : Value) : Option (List Step) :=
  match v.op with
  | .const32 | .globalAddr | .funcAddr | .arg => some []
  | .alloca => some [.alloca n v.elem]
  | .load => do return [.load n v.type (← m.use? (← v.args[0]?)).2]
  | .store => do return [.store (← m.use? (← v.args[1]?)) (← m.use? (← v.args[0]?)).2]
  | .add32 => do return [.add32 n (← m.use? (← v.args[0]?)).2 (← m.use? (← v.args[1]?)).2]
  | .call => do return [.call n (← m.callee? v).name (← v.args.mapM m.use?)]
  | .callIndirect => do
    let callee ← v.args[0]?
    return [.callIndirect n (← m.callSignature? v) (← m.use? callee).2 (← v.args.tail.mapM m.use?)]
  | _ => none

/-- What the values that a block lists compute, in order. -/
def blockSteps? (b : Block) : Option (List Step) := do
  return (← b.values.mapM fun r => do m.steps? r.index (← m.value? r)).flatten

/-- The skeleton of a function of the module. -/
def function? (f : Func) : Option Function := do
  let sig ← f.sig
  match f.bodyBlocks with
  | [(0, b)] =>
    match b.kind, b.controls with
    | .ret, [r] => return ⟨f.name, sig.params, sig.result, ← m.blockSteps? b, ← m.use? r⟩
    | _, _ => none
  | _ => none

/-- The skeleton of a module. -/
def skeleton? : Option Skeleton := do
  let externals ← (m.funcs.filter (·.external)).mapM fun f => f.sig.map (f.name, ·)
  let funcs ← (m.funcs.filter (!·.external)).mapM m.function?
  return ⟨m.name, m.triple, m.globals, externals, funcs⟩

end IR.Module

namespace LLVM

open Lowering

/-- Where an operand comes from, if `globals` are the names of the globals. -/
def Operand.use (globals : List String) : Operand → Use
  | const n => .int n
  | symbol name => if name ∈ globals then .global name else .func name
  | arg n => .arg n
  | value n => .value n

/-- The same for an operand with its type. -/
def typedUse (globals : List String) (a : Ty × Operand) : Ty × Use := (a.1, a.2.use globals)

/-- What an instruction computes. -/
def Inst.step? (globals : List String) : Inst → Option Step
  | alloca n elem _ => some (.alloca n elem)
  | load n type slot => some (.load n type (slot.use globals))
  | store type value slot => some (.store (type, value.use globals) (slot.use globals))
  | add n a b => some (.add32 n (a.use globals) (b.use globals))
  | call n _ (.symbol name) args => some (.call n name (args.map (typedUse globals)))
  | call n sig callee args =>
    some (.callIndirect n sig (callee.use globals) (args.map (typedUse globals)))
  | _ => none

/-- The skeleton of a function as it is rendered. -/
def Body.function? (globals : List String) (b : Body) : Option Function :=
  match b.stop with
  | .ret type x => do
    return ⟨b.name, b.params, b.result, ← b.code.mapM (Inst.step? globals), (type, x.use globals)⟩
  | _ => none

/-- The type can be told from its spelling. -/
def Spelled (t : Ty) : Prop := t = .i32 ∨ t = .ptr ∨ t = .void

/-- The instruction can be told from its text. -/
def Inst.Legible : Inst → Prop
  | alloca _ elem _ => Spelled elem
  | load _ type _ => Spelled type
  | store type _ _ => Spelled type
  | add .. => True
  | call _ sig callee args => Spelled sig.result ∧ (∀ a ∈ args, Spelled a.1) ∧
      ((∃ name, callee = .symbol name) ∨
        (∃ n, callee = .value n) ∧ sig = ⟨args.map (·.1), sig.result, false⟩)
  | ret type _ => Spelled type
  | _ => False

/-- The function can be told from its lines. -/
structure Body.Legible (b : Body) : Prop where
  params : ∀ t ∈ b.params, Spelled t
  result : Spelled b.result
  code : ∀ i ∈ b.code ++ [b.stop], i.Legible

/-! ## Values -/

section Values

variable {m : Module} {ds : List Draft} {place : Nat} {d : Draft} {code : List Value}

/-- The names of the globals of a module. -/
def globalNames (m : Module) : List String := m.globals.map (·.name)

/-- An operand is where the value comes from. -/
theorem source_of_operand (hs : Sound m ds) {sig : Signature} {n : Nat} {v : Value} {x : Operand}
    (hv : ValueOk (Draft.sigs ds) place sig code v) (hx : operand? m n v = some x) :
    m.source? n v = some (x.use (globalNames m)) := by
  cases hv with
  | globalAddr g pos =>
    obtain ⟨y, hy, rfl⟩ := Option.map_eq_some_iff.1 hx
    have hname : y.name ∈ globalNames m := List.mem_map_of_mem (List.mem_of_getElem? hy)
    show (m.globals[g]?).map _ = _
    rw [hy, Operand.use, if_pos hname]
    rfl
  | funcAddr f called pos hf =>
    obtain ⟨y, hy, rfl⟩ := Option.map_eq_some_iff.1 hx
    -- no function has the name of a global
    have hname : y.name ∉ globalNames m := by
      intro hmem
      have hdisjoint := (List.nodup_append'.1 hs.named.distinct).2.2 hmem
      rw [← hs.drafted.map_name] at hdisjoint
      exact hdisjoint (List.mem_map_of_mem (List.mem_of_getElem? hy))
    show (m.funcs[f]?).map _ = _
    rw [hy, Operand.use, if_neg hname]
    rfl
  | _ =>
    cases hx
    rfl

theorem use_of_typedOperand (hs : Sound m ds) {a : Option ValueRef} {y : Ty × Operand}
    (h : typedOperand? m a = some y) : m.use? a = some (typedUse (globalNames m) y) := by
  simp only [typedOperand?, Option.bind_eq_bind, Option.bind_eq_some_iff] at h
  obtain ⟨r, rfl, v, hv, x, hx, hy⟩ := h
  cases hy
  obtain ⟨e, he, -, hcore⟩ := hs.drafted.code_of_value hv
  have hsource := source_of_operand hs ((hs.ok _ e he).values _ _ hcore) hx
  have hsource' : m.source? r.index v = some (x.use (globalNames m)) := hsource
  simp [Module.use?, hv, hsource', typedUse]

theorem uses_of_typedOperands (hs : Sound m ds) {as : List (Option ValueRef)}
    {ys : List (Ty × Operand)} (h : as.mapM (typedOperand? m) = some ys) :
    as.mapM m.use? = some (ys.map (typedUse (globalNames m))) := by
  induction as generalizing ys with
  | nil =>
    cases h
    rfl
  | cons a as ih =>
    obtain ⟨y, zs, hy, hzs, rfl⟩ := mapM_cons_eq_some.1 h
    exact mapM_cons_some (use_of_typedOperand hs hy) (ih hzs)

/-- The type of an operand is that of its value. -/
theorem type_of_typedOperand (hfound : Found m place code) {r : ValueRef} {t : Ty}
    {y : Ty × Operand} (hr : Typed place code r t) (h : typedOperand? m (some r) = some y) :
    y.1 = t := by
  obtain ⟨v, hv, rfl⟩ := hfound.typed r t hr
  simp only [typedOperand?, Option.bind_eq_bind, Option.bind_some, hv,
    Option.bind_eq_some_iff] at h
  obtain ⟨x, -, hy⟩ := h
  cases hy
  rfl

/-- The types of arguments are those of the values that are passed. -/
theorem types_of_typedOperands (hfound : Found m place code) {sig : Signature}
    {args : List ValueRef} {ys : List (Ty × Operand)} (hargs : Passed place code sig args)
    (h : (args.map some).mapM (typedOperand? m) = some ys) :
    (∀ y ∈ ys, Spelled y.1) ∧ (sig.variadic = false → sig.params = ys.map (·.1)) := by
  obtain ⟨hlength, hget⟩ := getElem?_of_mapM h
  rw [List.length_map] at hlength
  have hys : ∀ (i : Nat) y, ys[i]? = some y →
      ∃ r, args[i]? = some r ∧ typedOperand? m (some r) = some y := by
    intro i y hy
    rw [hget, List.getElem?_map, Option.bind_map] at hy
    exact Option.bind_eq_some_iff.1 hy
  refine ⟨fun y hy => ?_, fun hvariadic => ?_⟩
  · obtain ⟨i, hi⟩ := List.getElem?_of_mem hy
    obtain ⟨r, hr, hry⟩ := hys i y hi
    obtain ⟨t, ht, htyped⟩ := hargs.known r (List.mem_of_getElem? hr)
    rw [type_of_typedOperand hfound htyped hry]
    exact ht.imp id .inl
  · have haccepted : sig.params.length = args.length := by
      simpa [Signature.accepts, hvariadic] using hargs.accepted
    apply List.ext_getElem (by rw [List.length_map, haccepted, hlength])
    intro i hi hi'
    rw [List.length_map] at hi'
    obtain ⟨r, hr, hry⟩ := hys i _ (List.getElem?_eq_getElem hi')
    have htyped := hargs.typed i _ r (List.getElem?_eq_getElem hi) hr
    rw [List.getElem_map, type_of_typedOperand hfound htyped hry]

theorem spelled_of_signature {s : Signature} (h : IsUser s ∨ s = outputSignature) :
    (∀ t ∈ s.params, Spelled t) ∧ s.result = .i32 := by
  rcases h with ⟨k, rfl⟩ | rfl
  · exact ⟨fun t ht => .inl (List.eq_of_mem_replicate ht), rfl⟩
  · exact ⟨List.forall_mem_singleton.2 (.inr (.inl rfl)), rfl⟩

/-- The lines are those of instructions that tell what value number `n` computes. -/
def Told (m : Module) (n : Nat) (v : Value) (R : Rendering) : Prop :=
  ∃ (insts : List Inst) (steps : List Step), R = .ofLines (insts.map .inst) ∧
    m.steps? n v = some steps ∧ insts.mapM (Inst.step? (globalNames m)) = some steps ∧
    ∀ i ∈ insts, i.Legible

theorem Told.single {n : Nat} {v : Value} {i : Inst} {s : Step} (hsteps : m.steps? n v = some [s])
    (hread : i.step? (globalNames m) = some s) (h : i.Legible) :
    Told m n v (.ofLines [.inst i]) :=
  ⟨[i], [s], rfl, hsteps, by simp [hread], List.forall_mem_singleton.2 h⟩

/-- A call is written with the values that are passed. -/
theorem args_of_renderCall (hs : Sound m ds) (hfound : Found m place code) {n : Nat}
    {sig : Signature} {callee : Operand} {args : List ValueRef} {R : Rendering}
    (hargs : Passed place code sig args)
    (h : renderCall? m n sig callee (args.map some) = some R) :
    ∃ ys, R = .ofLines [.inst (.call n sig callee ys)] ∧
      (args.map some).mapM m.use? = some (ys.map (typedUse (globalNames m))) ∧
      (∀ y ∈ ys, Spelled y.1) ∧ (sig.variadic = false → sig.params = ys.map (·.1)) := by
  obtain ⟨ys, hys, hR⟩ := Option.bind_eq_some_iff.1 h
  exact ⟨ys, (Option.some.inj hR).symm, uses_of_typedOperands hs hys,
    types_of_typedOperands hfound hargs hys⟩

/-- The address that is called is that of a load, which stands where it is. -/
theorem address_of_callIndirect (hr : m.Readable) {r p : ValueRef} {v : Value}
    {args : List (Option ValueRef)} (hv : m.value? r = some v) (hop : v.op = .callIndirect)
    (hargs : v.args = some p :: args) (hp : p.func = r.func) :
    ∃ t, typedOperand? m (some p) = some (t, .value p.index) := by
  obtain ⟨-, q, rest, u, hq, hu, hload⟩ := hr.indirect r v hv hop
  obtain rfl : q = p := by
    rw [hq] at hargs
    exact Option.some.inj (List.cons.inj hargs).1
  have hvalue : m.value? q = some u := by rw [← hu, ← hp]
  exact ⟨u.type, by simp [typedOperand?, hvalue, operand?, hload]⟩

/-- What a value computes is told by its line. -/
theorem told_of_line (hs : Sound m ds) (hr : m.Readable) (hd : ds[place]? = some d)
    (he : d.external = false) {n : Nat} {v : Value} (hn : d.code[n]? = some v) {f : Func}
    {R : Rendering} (hR : renderValue? m f n v = some R) : Told m n v R := by
  have hok := (hs.ok place d hd).values n v hn
  have hc : d.code.take n <+: d.code := List.take_prefix n d.code
  have hfound : Found m place (d.code.take n) := hs.drafted.found hd he hc
  have hslotted : ∀ {r t}, IsSlot place (d.code.take n) r t → Spelled t := fun hslot =>
    (slot_scalar hs hd hc hslot).imp id .inl
  cases hok with
  | const32 | globalAddr | funcAddr | arg =>
    cases hR
    exact ⟨[], [], rfl, rfl, rfl, by simp⟩
  | alloca t aux pos hscalar =>
    cases hR
    exact .single rfl rfl (hscalar.imp id .inl)
  | load t slot pos hslot =>
    obtain ⟨x, hx, hR⟩ := Option.bind_eq_some_iff.1 hR
    cases hR
    have hx : typedOperand? m (some slot) = some x := hx
    refine .single ?_ rfl (hslotted hslot)
    simp [Module.steps?, Draft.placed, use_of_typedOperand hs hx, typedUse]
  | store t slot v pos hslot hv =>
    obtain ⟨⟨t', y⟩, hy, hR⟩ := Option.bind_eq_some_iff.1 hR
    obtain ⟨x, hx, hR⟩ := Option.bind_eq_some_iff.1 hR
    cases hR
    have hx : typedOperand? m (some slot) = some x := hx
    have hy : typedOperand? m (some v) = some (t', y) := hy
    obtain rfl : t' = t := type_of_typedOperand hfound hv hy
    refine .single ?_ rfl (hslotted hslot)
    simp [Module.steps?, Draft.placed, use_of_typedOperand hs hx, use_of_typedOperand hs hy,
      typedUse]
  | add32 a b pos ha hb =>
    obtain ⟨x, hx, hR⟩ := Option.bind_eq_some_iff.1 hR
    obtain ⟨y, hy, hR⟩ := Option.bind_eq_some_iff.1 hR
    cases hR
    have hx : typedOperand? m (some a) = some x := hx
    have hy : typedOperand? m (some b) = some y := hy
    refine .single ?_ rfl trivial
    simp [Module.steps?, Draft.placed, use_of_typedOperand hs hx, use_of_typedOperand hs hy,
      typedUse]
  | call g called args pos hg hargs =>
    obtain ⟨x, hx, hsig⟩ := hs.drafted.funcSig hg
    have hcall : renderCall? m n called (.symbol x.name) (args.map some) = some R := by
      simpa [renderValue?, Draft.placed, Module.callee?, hx, hsig] using hR
    obtain ⟨ys, rfl, huses, hspelled, -⟩ := args_of_renderCall hs hfound hargs hcall
    have hresult := (spelled_of_signature (hr.sig x (List.mem_of_getElem? hx) called hsig)).2
    refine .single ?_ rfl ⟨.inl hresult, hspelled, .inl ⟨x.name, rfl⟩⟩
    simp [Module.steps?, Draft.placed, Module.callee?, hx, huses]
  | callIndirect called p args pos hp hargs =>
    obtain ⟨w, hw, hwv⟩ := value_of_code hs.drafted hd he hn
    have hop : w.op = .callIndirect := congrArg Value.op hwv
    have hsig : IsUser called := (hr.indirect _ w hw hop).1 called (congrArg Value.aux hwv)
    obtain ⟨t, haddress⟩ :=
      address_of_callIndirect hr hw hop (congrArg Value.args hwv :) hp.1
    have hcall : renderCall? m n called (.value p.index) (args.map some) = some R := by
      simpa [renderValue?, Draft.placed, Module.callSignature?, haddress] using hR
    obtain ⟨ys, rfl, huses, hspelled, hparams⟩ := args_of_renderCall hs hfound hargs hcall
    have hresult := (spelled_of_signature (.inl hsig)).2
    have hvariadic : called.variadic = false := by
      obtain ⟨k, rfl⟩ := hsig
      rfl
    refine .single ?_ rfl ⟨.inl hresult, hspelled, .inr ⟨⟨p.index, rfl⟩, ?_⟩⟩
    · simp [Module.steps?, Draft.placed, Module.callSignature?, use_of_typedOperand hs haddress,
        typedUse, huses]
    · rw [← hparams hvariadic, ← hvariadic]

/-- What the values of a list compute is told by their lines. -/
theorem steps_of_lines (hs : Sound m ds) (hr : m.Readable) {f : Func} {refs : List ValueRef}
    {Rs : List Rendering}
    (h : refs.mapM (fun r => do renderValue? m f r.index (← m.value? r)) = some Rs) :
    ∃ (insts : List Inst) (steps : List (List Step)),
      Rendering.concat Rs = .ofLines (insts.map .inst) ∧
      refs.mapM (fun r => do m.steps? r.index (← m.value? r)) = some steps ∧
      insts.mapM (Inst.step? (globalNames m)) = some steps.flatten ∧ ∀ i ∈ insts, i.Legible := by
  induction refs generalizing Rs with
  | nil =>
    cases h
    exact ⟨[], [], rfl, rfl, rfl, by simp⟩
  | cons r refs ih =>
    obtain ⟨R, Rs', hR, hRs, rfl⟩ := mapM_cons_eq_some.1 h
    obtain ⟨v, hv, hR⟩ := Option.bind_eq_some_iff.1 hR
    obtain ⟨d, hd, he, hcore⟩ := hs.drafted.code_of_value hv
    rw [← renderValue?_core] at hR
    obtain ⟨insts, steps, rfl, hsteps, hread, hlegible⟩ := told_of_line hs hr hd he hcore hR
    obtain ⟨insts', steps', hconcat, hsteps', hread', hlegible'⟩ := ih hRs
    have hsteps : m.steps? r.index v = some steps := hsteps
    refine ⟨insts ++ insts', steps :: steps', ?_, mapM_cons_some ?_ hsteps', ?_,
      List.forall_mem_append.2 ⟨hlegible, hlegible'⟩⟩
    · show Rendering.ofLines (insts.map .inst) ++ Rendering.concat Rs' = _
      rw [hconcat, ofLines_append, List.map_append]
    · simp [hv, hsteps]
    · simp [List.mapM_append, hread, hread']

/-- The skeleton of a function is told by its lines. -/
theorem function_of_lines (hs : Sound m ds) (hr : m.Readable) {f : Func} (hf : f ∈ m.funcs)
    (hinside : f.external = false) {b : Body} (h : renderFunc? m f = some (.ofLines b.lines))
    {x : Operand} (hstop : b.stop = .ret .i32 x) :
    b.Legible ∧ ∃ s, m.function? f = some s ∧ b.function? (globalNames m) = some s := by
  obtain ⟨place, d, hplace, hd, hcore⟩ := exists_draft hs.drafted hf
  have hsig := sig_of_core hcore
  have hblocks := bodyBlocks_of_core hcore ((external_of_core hcore).trans hinside)
  obtain ⟨hparams, hresult⟩ := spelled_of_signature (hr.sig f hf d.sig hsig)
  -- what was rendered is the head, the values and the end of the one block
  simp only [renderFunc?, hsig, hblocks, List.mapM_cons, List.mapM_nil, Option.bind_eq_bind,
    Option.bind_some, renderBlock?, Option.bind_assoc, Option.pure_def,
    Option.bind_eq_some_iff] at h
  obtain ⟨Rs, hRs, last, hlast, hlines⟩ := h
  obtain ⟨insts, steps, hconcat, hsteps, hread, hlegible⟩ := steps_of_lines hs hr hRs
  have hlines : (f.name = b.name ∧ d.sig.params = b.params ∧ d.sig.result = b.result) ∧
      insts.map Line.inst ++ [last, .close] = b.code.map Line.inst ++ [.inst b.stop, .close] := by
    rw [hconcat] at hlines
    simp only [ofLines_append, concat_singleton] at hlines
    have hlines := congrArg Rendering.lines (Option.some.inj hlines)
    simpa [Rendering.ofLines, Body.lines, and_assoc] using hlines
  obtain ⟨⟨hname, hparams', hresult'⟩, hlines⟩ := hlines
  obtain ⟨hinsts, hend⟩ := List.append_inj' hlines rfl
  obtain rfl : insts = b.code := List.map_injective_iff.2 (fun _ _ => Line.inst.inj) hinsts
  obtain rfl : last = .inst b.stop := (List.cons.inj hend).1
  -- the block returns, so that it has the result of the draft for its control
  obtain ⟨r, hr'⟩ : ∃ r, d.result = some r := by
    cases hnone : d.result with
    | none => simp [renderEnd?, Draft.block, hnone, hstop] at hlast
    | some r => exact ⟨r, rfl⟩
  have hreturned : typedOperand? m (some r) = some (.i32, x) := by
    simpa [renderEnd?, Draft.block, hr', hstop] using hlast
  refine ⟨⟨?_, ?_, ?_⟩, ⟨f.name, d.sig.params, d.sig.result, steps.flatten,
    (.i32, x.use (globalNames m))⟩, ?_, ?_⟩
  · rw [← hparams']
    exact hparams
  · rw [← hresult', hresult]
    exact .inl rfl
  · rw [List.forall_mem_append, List.forall_mem_singleton, hstop]
    exact ⟨hlegible, .inl rfl⟩
  · have huse := use_of_typedOperand hs hreturned
    have hblock : m.blockSteps? (d.block place) = some steps.flatten := by
      rw [Module.blockSteps?, hsteps]
      rfl
    have hkind : (d.block place).kind = .ret ∧ (d.block place).controls = [some r] := by
      simp [Draft.block, hr']
    rw [Module.function?, hsig, hblocks]
    simp [hkind, hblock, huse, typedUse]
  · simp [Body.function?, hstop, hread, hname, hparams', hresult']

end Values

end LLVM

end Wordlang
