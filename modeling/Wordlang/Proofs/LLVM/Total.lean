import Wordlang.Proofs.LLVM.Render
import Wordlang.Proofs.Verify.Exact

/-!
# Verified modules are rendered

A module in which the verifier finds nothing has everything that rendering reaches for: each operand
of a value and each result of a block can be written, and so can each line.
-/

namespace Wordlang.IR.Module

/-- A global that is referred to is there. -/
def Has (m : Module) : Aux → Prop
  | .global g => g < m.globals.length
  | _ => True

instance (m : Module) : DecidablePred m.Has
  | .global g => inferInstanceAs (Decidable (g < m.globals.length))
  | .none | .name _ | .func _ | .outerFunc .. | .outerGlobal _ | .signature _ | .number _
  | .noGlobal | .noFunc => inferInstanceAs (Decidable True)

/-- Every global that a listed value refers to is there. -/
def Supplied (m : Module) : Prop := ∀ f ∈ m.funcs, ∀ r ∈ f.sequence, ∀ v ∈ m.value? r, m.Has v.aux

instance (m : Module) : Decidable m.Supplied :=
  inferInstanceAs (Decidable (∀ f ∈ m.funcs, ∀ r ∈ f.sequence, ∀ v ∈ m.value? r, m.Has v.aux))

end Wordlang.IR.Module

namespace Wordlang.LLVM

open IR

variable {m : Module} {f : Func} {sig : Signature} {v : Value} {n place : Nat}

/-! ## Values -/

/-- A value that obeys its typing rule can be used as an operand. -/
theorem operand_of_rule (h : m.ValueRule f sig v) (haux : m.Has v.aux) (n : Nat) :
    ∃ x, operand? m n v = some x := by
  cases h with
  | const32 op => exact ⟨.const v.number, by simp [operand?, op]⟩
  | globalAddr op _ _ aux =>
    rcases aux with ⟨g, aux⟩ | ⟨name, aux⟩
    · rw [aux] at haux
      have hg : m.globals[g]? = some (m.globals.get ⟨g, haux⟩) := List.getElem?_eq_getElem haux
      exact ⟨.symbol (m.globals.get ⟨g, haux⟩).name, by simp [operand?, op, aux, hg]⟩
    · exact ⟨.symbol name, by simp [operand?, op, aux]⟩
  | funcAddr op _ _ aux =>
    obtain ⟨called, aux⟩ := aux
    generalize hv : v.aux = a at aux
    cases aux with
    | @listed i g hg => exact ⟨.symbol g.name, by simp [operand?, op, hv, hg]⟩
    | outer name sig => exact ⟨.symbol name, by simp [operand?, op, hv]⟩
  | arg i op => exact ⟨.arg v.number, by simp [operand?, op]⟩
  | alloca op => exact ⟨.value n, by simp [operand?, op]⟩
  | load p op => exact ⟨.value n, by simp [operand?, op]⟩
  | store p x t op => exact ⟨.value n, by simp [operand?, op]⟩
  | add32 x y op => exact ⟨.value n, by simp [operand?, op]⟩
  | call called op => exact ⟨.value n, by simp [operand?, op]⟩
  | callIndirect called p args op => exact ⟨.value n, by simp [operand?, op]⟩

/-- The arguments can be written. -/
def Written (m : Module) (args : List (Option ValueRef)) : Prop :=
  ∀ a ∈ args, ∃ x, typedOperand? m a = some x

theorem Written.renderCall {args : List (Option ValueRef)} (h : Written m args) (n : Nat)
    (called : Signature) (callee : Operand) :
    ∃ ls, renderCall? m n called callee args = some (.ofLines ls) := by
  obtain ⟨xs, hxs⟩ := exists_mapM (g := id) h
  rw [List.map_id] at hxs
  exact ⟨[.inst (.call n called callee xs)], by simp [renderCall?, hxs]⟩

/-- A value that obeys its typing rule is rendered if its arguments can be written. -/
theorem renderValue_of_rule (h : m.ValueRule f sig v) (hargs : Written m v.args) (n : Nat) :
    ∃ ls, renderValue? m f n v = some (.ofLines ls) := by
  cases h with
  | const32 op => exact ⟨[], by simp [renderValue?, op, Rendering.ofLines]⟩
  | globalAddr op => exact ⟨[], by simp [renderValue?, op, Rendering.ofLines]⟩
  | funcAddr op => exact ⟨[], by simp [renderValue?, op, Rendering.ofLines]⟩
  | arg i op => exact ⟨[], by simp [renderValue?, op, Rendering.ofLines]⟩
  | alloca op => exact ⟨[.inst (.alloca n v.elem _)], by simp only [renderValue?, op]; rfl⟩
  | load p op args =>
    obtain ⟨x, hx⟩ := hargs (some p) (by simp [args])
    exact ⟨[.inst (.load n v.type x.2)], by simp [renderValue?, op, argument?, args, hx]⟩
  | store p x t op type args =>
    obtain ⟨a, ha⟩ := hargs (some p) (by simp [args])
    obtain ⟨b, hb⟩ := hargs (some x) (by simp [args])
    exact ⟨[.inst (.store b.1 b.2 a.2)], by simp [renderValue?, op, argument?, args, ha, hb]⟩
  | add32 x y op type args =>
    obtain ⟨a, ha⟩ := hargs (some x) (by simp [args])
    obtain ⟨b, hb⟩ := hargs (some y) (by simp [args])
    exact ⟨[.inst (.add n a.2 b.2)], by simp [renderValue?, op, argument?, args, ha, hb]⟩
  | call called op aux =>
    obtain ⟨g, hg, hsig⟩ := (Module.refersTo_iff (.inl op)).1 aux
    obtain ⟨ls, hls⟩ := hargs.renderCall n called (.symbol g.name)
    exact ⟨ls, by simp [renderValue?, op, hg, hsig, hls]⟩
  | callIndirect called p args op aux type args_eq =>
    obtain ⟨x, hx⟩ := hargs p (by simp [args_eq])
    have hpassed : Written m args := fun a ha => hargs a (args_eq ▸ List.mem_cons_of_mem p ha)
    obtain ⟨ls, hls⟩ := hpassed.renderCall n called x.2
    exact ⟨ls, by simp [renderValue?, op, Module.callSignature?, aux, args_eq, hx, hls]⟩

/-! ## Functions -/

/-- What is known of the values of a body that obeys the rules: each can be written where it is used,
and each has its lines. -/
structure Ready (m : Module) (f : Func) (r : ValueRef) (v : Value) : Prop where
  operand : ∃ x, typedOperand? m (some r) = some x
  lines : ∃ ls, renderValue? m f r.index v = some (.ofLines ls)

theorem ready_of_rule (hbody : m.BodyRule place f sig) (hreached : m.Reached f.sequence)
    (haux : ∀ r ∈ f.sequence, ∀ v ∈ m.value? r, m.Has v.aux) :
    ∀ r ∈ f.sequence, ∃ v, m.value? r = some v ∧ Ready m f r v := by
  have hoperand : ∀ r ∈ f.sequence, ∃ x, typedOperand? m (some r) = some x := by
    intro r hr
    obtain ⟨v, hv⟩ := Option.isSome_iff_exists.1 (hreached r hr)
    obtain ⟨x, hx⟩ := operand_of_rule (hbody.values r hr v hv) (haux r hr v hv) r.index
    exact ⟨(v.type, x), by simp [typedOperand?, hv, hx]⟩
  intro r hr
  obtain ⟨v, hv⟩ := Option.isSome_iff_exists.1 (hreached r hr)
  have hargs : Written m v.args := by
    intro a ha
    obtain ⟨before, after, hsplit⟩ := List.append_of_mem hr
    obtain ⟨x, hx, rfl⟩ := hbody.arguments before r after hsplit v hv a ha
    exact hoperand x (by simp [hsplit, hx])
  exact ⟨v, hv, hoperand r hr, renderValue_of_rule (hbody.values r hr v hv) hargs r.index⟩

/-- A block is rendered that lists such values and returns one of them. -/
theorem renderBlock_of_ready {b : Block} {t : Ty} {computed : List ValueRef}
    (hready : ∀ r ∈ f.sequence, ∃ v, m.value? r = some v ∧ Ready m f r v)
    (hvalues : b.values ⊆ f.sequence) (hcomputed : computed ⊆ f.sequence)
    (hreturns : m.Returns t computed b) : ∃ ls, renderBlock? m f n b = some (.ofLines ls) := by
  obtain ⟨hkind, r, hcontrols, hr, -⟩ := hreturns
  obtain ⟨-, -, ⟨x, hx⟩, -⟩ := hready r (hcomputed hr)
  have hlines : ∀ r ∈ b.values, ∃ ls,
      (do renderValue? m f r.index (← m.value? r)) = some (Rendering.ofLines ls) := by
    intro r hr
    obtain ⟨v, hv, -, ls, hls⟩ := hready r (hvalues hr)
    exact ⟨ls, by simp [hv, hls]⟩
  obtain ⟨pieces, hpieces⟩ := exists_mapM hlines
  have hend : renderEnd? m b = some (.inst (.ret x.1 x.2)) := by
    simp [renderEnd?, hkind, hcontrols, hx]
  refine ⟨[.label n] ++ pieces.flatten ++ [.inst (.ret x.1 x.2)], ?_⟩
  rw [renderBlock?, hpieces, hend]
  simp only [Option.bind_eq_bind, Option.bind_some, concat_ofLines, ofLines_append]
  rfl

theorem renderFunc_of_rule (hsig : f.sig = some sig) (hbody : m.BodyRule place f sig)
    (hreached : m.Reached f.sequence) (haux : ∀ r ∈ f.sequence, ∀ v ∈ m.value? r, m.Has v.aux) :
    ∃ ls, renderFunc? m f = some (.ofLines ls) := by
  have hready := ready_of_rule hbody hreached haux
  have hblocks : ∀ x ∈ f.bodyBlocks, ∃ ls,
      renderBlock? m f x.1 x.2 = some (Rendering.ofLines ls) := by
    intro x hx
    obtain ⟨before, after, hsplit⟩ := List.append_of_mem hx
    have hsequence : f.sequence =
        before.flatMap (·.2.values) ++ x.2.values ++ after.flatMap (·.2.values) := by
      rw [Func.sequence, hsplit, List.flatMap_append, List.flatMap_cons, List.append_assoc]
    refine renderBlock_of_ready hready ?_ ?_ (hbody.returns before x after hsplit)
    · rw [hsequence]
      exact fun r hr => List.mem_append_left _ (List.mem_append_right _ hr)
    · rw [hsequence]
      exact List.subset_append_left _ _
  obtain ⟨pieces, hpieces⟩ := exists_mapM hblocks
  refine ⟨[.blank, .define f.name sig.params sig.result] ++ pieces.flatten ++ [.close], ?_⟩
  have hrender : renderFunc? m f = (do
      let sig ← f.sig
      let blocks ← f.bodyBlocks.mapM fun x => renderBlock? m f x.1 x.2
      return .ofLines [.blank, .define f.name sig.params sig.result] ++ .concat blocks ++
        .ofLines [.close]) := rfl
  rw [hrender, hsig, Option.bind_eq_bind, Option.bind_some, hpieces, Option.bind_eq_bind,
    Option.bind_some, concat_ofLines, ofLines_append, ofLines_append]
  rfl

/-! ## Modules -/

/-- Verified modules are always rendered. Nothing that rendering reaches for is missing in a module in
which the verifier finds nothing, when the values that its blocks list and the globals that these
refer to are there; and all lines are delivered, without an error, where none is refused. -/
theorem verified_renders (m : Module) (hlisted : m.Listed) (hsupplied : m.Supplied)
    (hverified : m.verify = []) :
    ∃ r, render? m = some r ∧ r.deliver none = (r.lines, none) := by
  obtain ⟨-, hfuncs⟩ := List.append_eq_nil_iff.1 hverified
  obtain ⟨-, -, hrules⟩ := (Module.verifyFuncs_eq_nil hlisted).1 hfuncs
  simp only [Nat.zero_add] at hrules
  have hdeclare : ∀ f ∈ m.funcs.filter (·.external), ∃ l, declare? f = some (id l) := by
    intro f hf
    obtain ⟨place, hplace⟩ := List.mem_iff_getElem?.1 (List.mem_of_mem_filter hf)
    cases hrules place f hplace with
    | external sig hsig => exact ⟨.declare f.name sig, by simp [declare?, hsig]⟩
    | defined sig hsig => exact ⟨.declare f.name sig, by simp [declare?, hsig]⟩
  have hdefine : ∀ f ∈ m.funcs.filter (!·.external), ∃ ls,
      renderFunc? m f = some (Rendering.ofLines ls) := by
    intro f hf
    obtain ⟨hmem, hinside⟩ := List.mem_filter.1 hf
    obtain ⟨place, hplace⟩ := List.mem_iff_getElem?.1 hmem
    cases hrules place f hplace with
    | external sig hsig hexternal => simp [hexternal] at hinside
    | defined sig hsig _ hbody =>
      exact renderFunc_of_rule hsig hbody (hlisted f hmem) (hsupplied f hmem)
  obtain ⟨declared, hdeclared⟩ := exists_mapM hdeclare
  obtain ⟨pieces, hpieces⟩ := exists_mapM hdefine
  rw [List.map_id] at hdeclared
  refine ⟨.ofLines (frontLines m declared ++ pieces.flatten), ?_, rfl⟩
  rw [render?, hdeclared, hpieces]
  simp only [Option.bind_eq_bind, Option.bind_some, concat_ofLines, ofLines_append]
  rfl

theorem sampler_renders : Module.sampler.Listed ∧ Module.sampler.Supplied ∧
    Module.sampler.verify = [] ∧
    ∃ r, render? Module.sampler = some r ∧ r.deliver none = (r.lines, none) := by
  have hlisted : Module.sampler.Listed := by decide
  have hsupplied : Module.sampler.Supplied := by decide
  have hverified : Module.sampler.verify = [] := by decide
  exact ⟨hlisted, hsupplied, hverified,
    verified_renders Module.sampler hlisted hsupplied hverified⟩

end Wordlang.LLVM
