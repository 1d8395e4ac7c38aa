import Wordlang.Proofs.Lowering.Links

/-!
# The addresses that calls are made through

An indirect call is made through the value right before it, which was read from a slot. So no
function is called through an address that is written where it is used, and calls of functions can
be told from calls through addresses.
-/

namespace Wordlang

open IR

namespace Lowering

open Builder

/-- Each indirect call among the values, the first of which has number `k`, is made through the
value before it, and that is read from a slot. -/
def Addressed (k : Nat) (vs : List Value) : Prop :=
  ∀ j v, vs[j]? = some v → v.op = .callIndirect →
    ∃ i p args, j = i + 1 ∧ v.args = some p :: args ∧ p.index = k + i ∧
      ∃ w, vs[i]? = some w ∧ w.op = .load

theorem Addressed.of_none {k : Nat} {vs : List Value} (h : ∀ v ∈ vs, v.op ≠ .callIndirect) :
    Addressed k vs := fun _ _ hv hop => absurd hop (h _ (List.mem_of_getElem? hv))

theorem Addressed.append {k : Nat} {vs ws : List Value} (hvs : Addressed k vs)
    (hws : Addressed (k + vs.length) ws) : Addressed k (vs ++ ws) := by
  intro j v hv hop
  rcases Nat.lt_or_ge j vs.length with hj | hj
  · rw [List.getElem?_append_left hj] at hv
    obtain ⟨i, p, args, rfl, hargs, hp, w, hw, hload⟩ := hvs _ v hv hop
    refine ⟨i, p, args, rfl, hargs, hp, w, ?_, hload⟩
    rw [List.getElem?_append_left (by omega), hw]
  · rw [List.getElem?_append_right hj] at hv
    obtain ⟨i, p, args, hi, hargs, hp, w, hw, hload⟩ := hws _ v hv hop
    refine ⟨vs.length + i, p, args, by omega, hargs, by omega, w, ?_, hload⟩
    rw [List.getElem?_append_right (by omega), Nat.add_sub_cancel_left, hw]

/-- What makes no indirect call can be put before and behind. -/
theorem Addressed.concat {k : Nat} {vs ws : List Value} (hvs : Addressed k vs)
    (hws : ∀ v ∈ ws, v.op ≠ .callIndirect) : Addressed k (vs ++ ws) := hvs.append (.of_none hws)

/-- Reading calls nothing. -/
theorem ne_callIndirect_of_load {v : Value} (h : v.op = .load) : v.op ≠ .callIndirect := by
  rw [h]
  exact nofun

/-- Keeping the parameters calls nothing. -/
theorem spillCode_ne_callIndirect (f k i : Nat) (ps : List Ident) :
    ∀ v ∈ spillCode f k i ps, v.op ≠ .callIndirect := by
  intro v hv
  rcases op_spillCode hv with h | h | h
  all_goals
    rw [h]
    exact nofun

theorem op_keepCode (f k : Nat) (t : Ty) (name : String) (pos : Position) :
    ∀ v ∈ keepCode f k t name pos, v.op ≠ .callIndirect :=
  List.forall_mem_cons.2 ⟨nofun, List.forall_mem_singleton.2 nofun⟩

theorem addressed_callCode (f k : Nat) (t : Target) (sig : Signature) (args : List ValueRef)
    (pos : Position) : Addressed k (callCode f k t sig args pos) := by
  cases t with
  | direct g => exact .of_none (List.forall_mem_singleton.2 nofun)
  | indirect slot =>
    intro j v hv hop
    match j, hv with
    | 0, hv =>
      cases hv
      cases hop
    | 1, hv =>
      cases hv
      exact ⟨0, ⟨f, k⟩, args.map some, rfl, rfl, rfl, _, rfl, rfl⟩

mutual

theorem addressed_of_lowers {f k n : Nat} {env env' : Env} {e : Expr} {x : Operand}
    {vs : List Value} {new : List Draft} :
    Lowers f env k n e x env' vs new → Addressed k vs ∧ ∀ d ∈ new, Addressed 0 d.code
  | .int f k n env pos i => ⟨.of_none (List.forall_mem_singleton.2 nofun), by simp⟩
  | .string f k n g env pos content => ⟨.of_none (List.forall_mem_singleton.2 nofun), by simp⟩
  | .variable f k n env id v hv => ⟨.of_none (by simp), by simp⟩
  | .function f k n env id c hv hc => ⟨.of_none (List.forall_mem_singleton.2 nofun), by simp⟩
  | .define f k n env env' p pos target params body names symbol xs last vs new _ hbody _ _ => by
    obtain ⟨hvs, hnew⟩ := addressed_of_lowersAll hbody
    refine ⟨.of_none (List.forall_mem_singleton.2 nofun), List.forall_mem_cons.2 ⟨?_, hnew⟩⟩
    have hspill : Addressed 0 (spillCode n 0 0 names) := .of_none (spillCode_ne_callIndirect _ _ _ _)
    rw [← Nat.zero_add (spillCode n 0 0 names).length] at hvs
    exact (hspill.append hvs).concat fun v hv => ne_callIndirect_of_load (op_readCode hv)
  | .assign f k n env env' pos target e x slot vs ws new _ he _ hslot => by
    obtain ⟨hvs, hnew⟩ := addressed_of_lowers he
    refine ⟨hvs.concat ?_, hnew⟩
    have hws : ∀ v ∈ ws, v.op ≠ .callIndirect := by
      cases hslot with
      | old v hv ht => simp
      | new hv => exact List.forall_mem_singleton.2 nofun
    have hread : ∀ v ∈ readCode f pos x, v.op ≠ .callIndirect := fun v hv =>
      ne_callIndirect_of_load (op_readCode hv)
    exact List.forall_mem_append.2 ⟨List.forall_mem_append.2 ⟨hread, hws⟩,
      List.forall_mem_singleton.2 nofun⟩
  | .call f k n env env' pos callee args xs t sig vs ws new hargs _ _ _ hws => by
    obtain ⟨hvs, hnew⟩ := addressed_of_lowersAll hargs
    refine ⟨hvs.append (.concat ?_ (op_keepCode _ _ _ _ _)), hnew⟩
    rw [hws]
    have hreads : ∀ v ∈ readsCode f xs, v.op ≠ .callIndirect := fun v hv =>
      ne_callIndirect_of_load (op_readsCode hv)
    exact (Addressed.of_none hreads).append (addressed_callCode _ _ _ _ _ _)

theorem addressed_of_lowersAll {f k n : Nat} {env env' : Env} {es : List Expr}
    {xs : List (Position × Operand)} {vs : List Value} {new : List Draft} :
    LowersAll f env k n es xs env' vs new → Addressed k vs ∧ ∀ d ∈ new, Addressed 0 d.code
  | .nil f k n env => ⟨.of_none (by simp), by simp⟩
  | .cons f k n env env' env'' e es x xs vs ws new new' he hes => by
    obtain ⟨hvs, hnew⟩ := addressed_of_lowers he
    obtain ⟨hws, hnew'⟩ := addressed_of_lowersAll hes
    exact ⟨hvs.append hws, List.forall_mem_append.2 ⟨hnew, hnew'⟩⟩

end

end Lowering

open Lowering

/-- What text must rely on to be read: functions have signatures of the language, the output
function apart, and an indirect call is made through such a signature and through an address that
was read from a slot. -/
structure IR.Module.Readable (m : Module) : Prop where
  sig : ∀ f ∈ m.funcs, ∀ s, f.sig = some s → IsUser s ∨ s = outputSignature
  indirect : ∀ r v, m.value? r = some v → v.op = .callIndirect →
    (∀ s, v.aux = .signature s → IsUser s) ∧
      ∃ p args w, v.args = some p :: args ∧ m.value? ⟨r.func, p.index⟩ = some w ∧ w.op = .load

/-- The drafts of a program have readable code. -/
theorem Lowering.addressed_program {env' : Env} {es : List Expr} {xs : List (Position × Operand)}
    {vs : List Value} {new : List Draft}
    (h : LowersAll entryPlace startEnv 0 startDrafts.length es xs env' vs new) :
    ∀ d ∈ programDrafts vs new, (IsUser d.sig ∨ d.sig = outputSignature) ∧ Addressed 0 d.code ∧
      ∀ v ∈ d.code, ∀ s, v.aux = .signature s → IsUser s := by
  have hlinked := linked_program h
  obtain ⟨hvs, hnew⟩ := addressed_of_lowersAll h
  have hstart : ∀ d ∈ startDrafts, ∀ v ∈ d.code, v.op ≠ .callIndirect := by decide
  refine List.forall_mem_append.2 ⟨?_, fun d hd => ?_⟩
  · intro d hd
    rcases List.mem_or_eq_of_mem_set hd with hd | rfl
    · obtain ⟨hsig, hcode⟩ := linked_startDrafts d hd
      exact ⟨hsig, .of_none (hstart d hd), fun v hv => (hcode v hv).signature⟩
    · -- the entry function returns a constant behind what its expressions added
      have hentry : entryDraft.append vs ∈
          startDrafts.set entryPlace (entryDraft.append vs) ++ new :=
        List.mem_append_left _ (List.mem_set (by decide) _)
      obtain ⟨hsig, hcode⟩ := hlinked _ hentry
      refine ⟨hsig, hvs.concat (List.forall_mem_singleton.2 nofun), ?_⟩
      exact List.forall_mem_append.2 ⟨fun v hv => (hcode v hv).signature,
        List.forall_mem_singleton.2 nofun⟩
  · obtain ⟨hsig, hcode⟩ := hlinked d (List.mem_append_right _ hd)
    exact ⟨hsig, hnew d hd, fun v hv => (hcode v hv).signature⟩

/-- A program that is accepted has a readable module. -/
theorem lower_readable {o : CompileOptions} {es : List Expr} (h : (lower o es).failure = none) :
    (lower o es).module.Readable := by
  obtain ⟨xs, env, vs, new, hlowers, hdrafted, -⟩ := lower_derived h
  have hall := addressed_program hlowers
  refine ⟨?_, ?_⟩
  · intro f hf s hs
    obtain ⟨place, hplace⟩ := List.getElem?_of_mem hf
    obtain ⟨d, hd, hcore⟩ := hdrafted.draft_of_func hplace
    have hsig : f.sig = some d.sig := by rw [← Draft.sig_func place d, ← hcore]; rfl
    obtain rfl := Option.some.inj (hsig.symm.trans hs)
    exact (hall d (List.mem_of_getElem? hd)).1
  · intro r v hv hop
    obtain ⟨d, hd, he, hvd⟩ := hdrafted.code_of_value hv
    obtain ⟨-, haddressed, hsignature⟩ := hall d (List.mem_of_getElem? hd)
    obtain ⟨i, p, args, hi, hargs, hp, w, hw, hload⟩ := haddressed _ _ hvd hop
    refine ⟨hsignature v.core (List.mem_of_getElem? hvd), p, args, ?_⟩
    have hslot := hdrafted.value? hd he p.index
    rw [hp, Nat.zero_add, hw] at hslot
    obtain ⟨u, hu, rfl⟩ := Option.map_eq_some_iff.1 hslot
    refine ⟨u, hargs, ?_, hload⟩
    rw [hp, Nat.zero_add, hu]

end Wordlang
