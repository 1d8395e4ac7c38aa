import Wordlang.Proofs.Simulation.Frame

/-!
# Running the code of a step

What the machine does when it runs the code that one step of lowering writes, in a frame that holds
an activation: reading operands, calling, keeping a result, assigning and binding parameters.
-/

namespace Wordlang.Meaning

open IR IR.Machine Lowering Builder Outcome

/-- The evaluator and the machine end alike: both succeed and what they reach is related by `Q`, or
the calls nest too deeply for both. -/
def Sim {σ τ α β : Type} (r : EStateM.Result Stop σ α) (r' : EStateM.Result Fault τ β)
    (Q : α → σ → β → τ → Prop) : Prop :=
  match r, r' with
  | .ok a s, .ok b t => Q a s b t
  | .error .tooDeep _, .error .tooDeep _ => True
  | _, _ => False

theorem Sim.bind {σ τ α β α' β' : Type} {g : EStateM Stop σ α} {g' : EStateM Fault τ β}
    {k : α → EStateM Stop σ α'} {k' : β → EStateM Fault τ β'} {s : σ} {t : τ}
    {Q : α → σ → β → τ → Prop} {Q' : α' → σ → β' → τ → Prop} (h : Sim (g s) (g' t) Q)
    (hk : ∀ a s b t, Q a s b t → Sim (k a s) (k' b t) Q') :
    Sim ((g >>= k) s) ((g' >>= k') t) Q' := by
  cases hg : g s with
  | ok a s₁ =>
    cases hg' : g' t with
    | ok b t₁ =>
      rw [hg, hg'] at h
      rw [bind_ok hg, bind_ok hg']
      exact hk a s₁ b t₁ h
    | error e' t₁ =>
      rw [hg, hg'] at h
      exact h.elim
  | error e s₁ =>
    cases hg' : g' t with
    | ok b t₁ =>
      rw [hg, hg'] at h
      cases e <;> exact h.elim
    | error e' t₁ =>
      rw [hg, hg'] at h
      rw [bind_error hg, bind_error hg']
      cases e <;> cases e' <;> exact h

/-- A call that ends alike does so inside an activation. -/
theorem Sim.onOutput {τ α β : Type} {g : EStateM Stop String α} {r : EStateM.Result Fault τ β}
    {s : State} {Q : α → String → β → τ → Prop} (h : Sim (g s.out) r Q) :
    Sim (Meaning.onOutput g s) r fun a s' b t => ∃ out, s' = { s with out } ∧ Q a out b t := by
  cases hg : g s.out with
  | ok a out =>
    rw [hg] at h
    rw [onOutput_eq hg]
    cases r with
    | ok b t => exact ⟨out, rfl, h⟩
    | error e t => exact h.elim
  | error e out =>
    rw [hg] at h
    rw [Meaning.onOutput, hg]
    cases r with
    | ok b t => cases e <;> exact h.elim
    | error e' t => cases e <;> cases e' <;> exact h

/-- An activation that ends alike leaves its output. -/
theorem Sim.inActivation {τ α β : Type} {g : EStateM Stop State α} {r : EStateM.Result Fault τ β}
    {vars : List (String × Val)} {out : String} {Q : α → String → β → τ → Prop}
    (h : Sim (g { vars, out }) r fun a s => Q a s.out) :
    Sim (Meaning.inActivation vars g out) r Q := by
  rw [Meaning.inActivation]
  cases hg : g { vars, out } with
  | ok a s =>
    rw [hg] at h
    cases r with
    | ok b t => exact h
    | error e t => exact h.elim
  | error e s =>
    rw [hg] at h
    cases r with
    | ok b t => cases e <;> exact h.elim
    | error e' t => cases e <;> cases e' <;> exact h

/-! ## Single values -/

section Compute

variable {checked : Bool} {sigs : Nat → Option Signature} {callee : Nat → List Datum → Exec Datum}
  {args : List Datum} {vals : Vals} {μ : Memory} {f : Nat} {pos : Position}

theorem operand_eq {r : ValueRef} {w : Datum} (h : vals.lookup r = some w) :
    operand vals (some r) = w := by
  simp [operand, h]

theorem runCode_cons {k : Nat} {v : Value} {w : Datum} {μ' : Memory} (vs : List Value)
    (h : compute checked sigs callee args vals v μ = .ok w μ') :
    runCode checked sigs callee args f k vals (v :: vs) μ =
      runCode checked sigs callee args f (k + 1) ((⟨f, k⟩, w) :: vals) vs μ' := by
  rw [runCode, bind_ok h]

theorem compute_const (n : Int32) :
    compute checked sigs callee args vals (constCode f n pos) μ = .ok (.int n) μ := by
  show EStateM.Result.ok (Datum.int (Int32.ofInt n.toInt)) μ = _
  rw [Int32.ofInt_toInt]

theorem run_const (k : Nat) (n : Int32) :
    runCode checked sigs callee args f k vals [constCode f n pos] μ =
      .ok ((⟨f, k⟩, .int n) :: vals) μ := by
  rw [runCode_cons [] (compute_const n)]
  rfl

theorem compute_load {slot : ValueRef} {i : Nat} {w : Datum}
    (hslot : vals.lookup slot = some (.cell i)) (hcell : μ.cells[i]? = some (some w)) (type : Ty) :
    compute checked sigs callee args vals (loadCode f type slot pos) μ = .ok w μ := by
  show load checked (operand vals (some slot)) μ = _
  have hget : (get : Exec Memory) μ = .ok μ μ := rfl
  rw [operand_eq hslot, load, bind_ok hget, hcell]
  rfl

theorem compute_slot (elem : Ty) (name : String) :
    compute checked sigs callee args vals (slotCode f elem name pos) μ =
      .ok (.cell μ.cells.length) { μ with cells := μ.cells ++ [none] } := rfl

theorem compute_store {slot r : ValueRef} {i : Nat} {w : Datum}
    (hslot : vals.lookup slot = some (.cell i)) (hi : i < μ.cells.length)
    (hr : vals.lookup r = some w) :
    compute checked sigs callee args vals (storeCode f slot r pos) μ =
      .ok .nil { μ with cells := μ.cells.set i (some w) } := by
  show store (operand vals (some r)) (operand vals (some slot)) μ = _
  have hget : (get : Exec Memory) μ = .ok μ μ := rfl
  rw [operand_eq hslot, operand_eq hr, store, bind_ok hget, if_pos hi]
  rfl

theorem compute_arg {i : Nat} {w : Datum} (h : args[i]? = some w) (name : String) :
    compute checked sigs callee args vals (Draft.placed f (argValue i name pos) []) μ = .ok w μ := by
  have hi : ¬ (i : Int) < 0 := by omega
  simp only [compute, Draft.placed, argValue, hi, if_false, Int.toNat_natCast, h]
  rfl

theorem compute_call (g : Nat) (type : Ty) (refs : List ValueRef) :
    compute checked sigs callee args vals
        (Draft.placed f { op := .call, type, aux := .func g, pos } refs) =
      callee g (refs.map fun r => operand vals (some r)) := by
  show callee g ((refs.map some).map (operand vals)) = _
  rw [List.map_map]
  rfl

theorem compute_callIndirect {g : Nat} {sig : Signature} {r : ValueRef}
    (hr : vals.lookup r = some (.func g)) (hsig : sigs g = some sig) (type : Ty)
    (refs : List ValueRef) :
    compute checked sigs callee args vals
        (Draft.placed f { op := .callIndirect, type, aux := .signature sig, pos } (r :: refs)) =
      callee g (refs.map fun r => operand vals (some r)) := by
  show callThrough checked sigs callee (.signature sig) ((refs.map some).map (operand vals))
    (operand vals (some r)) = _
  rw [operand_eq hr, callThrough, hsig, if_neg (by simp), List.map_map]
  rfl

end Compute

/-! ## Reading -/

section Run

variable {checked : Bool} {sigs : Nat → Option Signature} {callee : Nat → List Datum → Exec Datum}
  {args : List Datum} {defs : List Definition} {f k n : Nat} {env : Env} {s : State} {vals : Vals}
  {μ : Memory} {pos : Position}

theorem run_read {sig : Option Signature} {x : Operand} {a : Answer}
    (hm : Matches defs f k env s vals μ) (hx : Shows defs env vals μ sig x a) (pos : Position) :
    ∃ u w vals', s.read? a = some u ∧ Rep defs u w x.type sig ∧
      runCode checked sigs callee args f k vals (readCode f pos x) μ = .ok vals' μ ∧
      vals'.lookup (readRef f k x) = some w ∧ Kept vals vals' ∧
      Fresh f (k + (readCode f pos x).length) vals' := by
  obtain ⟨u, w, hu, hrep, hvalue, hslot⟩ := hx.read hm
  unfold readCode readRef
  cases hslotted : x.isSlot with
  | false => exact ⟨u, w, vals, hu, hrep, rfl, hvalue hslotted, .refl vals, hm.fresh⟩
  | true =>
    obtain ⟨i, hi, hcell⟩ := hslot hslotted
    refine ⟨u, w, (⟨f, k⟩, w) :: vals, hu, hrep, ?_, lookup_push f k w vals, .push hm.fresh w,
      hm.fresh.push w⟩
    rw [if_pos rfl, runCode_cons [] (compute_load hi hcell x.type)]
    rfl

/-- The operands stand for the answers, one by one. -/
def ShowsAll (defs : List Definition) (env : Env) (vals : Vals) (μ : Memory)
    (xs : List (Position × Operand)) (as : List Answer) : Prop :=
  List.Forall₂ (fun x a => ∃ sig, Shows defs env vals μ sig x.2 a) xs as

theorem ShowsAll.advance {xs : List (Position × Operand)} {as : List Answer} {env' : Env}
    {vals' : Vals} {μ' : Memory} (h : ShowsAll defs env vals μ xs as)
    (ha : Advance env vals μ env' vals' μ') : ShowsAll defs env' vals' μ' xs as := by
  refine List.Forall₂.imp ?_ h
  rintro x a ⟨sig, hx⟩
  exact hx.advance ha

/-- Reading operands that are integers finds the integers of their answers, and they stay known. -/
theorem run_reads {xs : List (Position × Operand)} {as : List Answer}
    (hm : Matches defs f k env s vals μ) (hxs : ShowsAll defs env vals μ xs as)
    (htypes : ∀ x ∈ xs, x.2.type = .i32) :
    ∃ (ns : List Int32) (vals' : Vals), as.mapM s.read? = some (ns.map .int) ∧
      ns.length = xs.length ∧
      runCode checked sigs callee args f k vals (readsCode f xs) μ = .ok vals' μ ∧
      (∀ later, Kept vals' later →
        (readRefs f k xs).map (fun r => operand later (some r)) = ns.map .int) ∧
      Kept vals vals' ∧ Fresh f (k + (readsCode f xs).length) vals' := by
  induction xs generalizing k vals as with
  | nil =>
    cases hxs
    exact ⟨[], vals, rfl, rfl, rfl, fun _ _ => rfl, .refl vals, hm.fresh⟩
  | cons x xs ih =>
    obtain ⟨pos, x⟩ := x
    cases hxs with
    | @cons _ a _ as hx hxs =>
      obtain ⟨sig, hx⟩ := hx
      obtain ⟨u, w, vals₁, hu, hrep, hrun, hlookup, hkept, hfresh⟩ := run_read hm hx pos
      have htype : x.type = .i32 := htypes (pos, x) List.mem_cons_self
      rw [htype] at hrep
      obtain ⟨i, rfl, rfl⟩ := hrep.int_of_i32
      have hm₁ := hm.grow hkept hfresh
      have hxs₁ := ShowsAll.advance hxs (hm.advance hkept List.prefix_rfl)
      obtain ⟨ns, vals₂, hns, hlength, hrun₂, hrefs, hkept₂, hfresh₂⟩ :=
        ih hm₁ hxs₁ fun y hy => htypes y (List.mem_cons_of_mem _ hy)
      refine ⟨i :: ns, vals₂, ?_, ?_, ?_, ?_, hkept.trans hkept₂, ?_⟩
      · rw [List.mapM_cons, hu, hns]
        rfl
      · rw [List.length_cons, List.length_cons, hlength]
      · rw [readsCode, List.flatMap_cons, runCode_append, bind_ok hrun]
        exact hrun₂
      · intro later hlater
        rw [readRefs, List.map_cons, List.map_cons, hrefs later hlater,
          operand_eq (hlater _ _ (hkept₂ _ _ hlookup))]
      · rw [readsCode, List.flatMap_cons, List.length_append, ← Nat.add_assoc]
        exact hfresh₂

/-! ## Keeping and assigning -/

/-- Keeping the last value makes a cell for it. -/
theorem run_keep {w : Datum} (hm : Matches defs f (k + 1) env s vals μ)
    (hw : vals.lookup ⟨f, k⟩ = some w) (type : Ty) (name : String) (pos : Position) :
    ∃ vals', runCode checked sigs callee args f (k + 1) vals (keepCode f (k + 1) type name pos) μ =
        .ok vals' { μ with cells := μ.cells ++ [some w] } ∧
      vals'.lookup ⟨f, k + 1⟩ = some (.cell μ.cells.length) ∧ Kept vals vals' ∧
      Fresh f (k + 1 + 2) vals' := by
  have hkept := Kept.push hm.fresh (.cell μ.cells.length)
  have hfresh := hm.fresh.push (.cell μ.cells.length)
  have hlast := lookup_push f (k + 1) (.cell μ.cells.length) vals
  refine ⟨(⟨f, k + 2⟩, .nil) :: (⟨f, k + 1⟩, .cell μ.cells.length) :: vals, ?_,
    Kept.push hfresh .nil _ _ hlast, hkept.trans (.push hfresh .nil), hfresh.push .nil⟩
  rw [keepCode, Nat.add_sub_cancel, runCode_cons _ (compute_slot type name),
    runCode_cons _ (compute_store hlast (by simp) (hkept _ _ hw))]
  show EStateM.Result.ok _ _ = _
  simp

/-- A fresh cell is no variable's. -/
theorem Matches.alloc (hm : Matches defs f k env s vals μ) :
    Matches defs f (k + 1) env s ((⟨f, k⟩, .cell μ.cells.length) :: vals)
      { μ with cells := μ.cells ++ [none] } :=
  hm.extend (.push hm.fresh _) (hm.fresh.push _) (List.prefix_append _ _) hm.out

/-- Storing a value in the cell of a variable, or in a new one, assigns to the variable. -/
theorem run_store {env₀ : Env} {vals₀ : Vals} {μ₀ : Memory} {name : String} {slot r : ValueRef}
    {i : Nat} {u : Val} {w : Datum} {elem : Ty} {sig : Option Signature}
    (hm : Matches defs f k env s vals μ) (ha : Advance env₀ vals₀ μ₀ env vals μ)
    (hslot : vals.lookup slot = some (.cell i)) (hi : i < μ.cells.length)
    (hr : vals.lookup r = some w) (hrep : Rep defs u w elem sig)
    (hother : ∀ x v, env.findVar? x = some v → vals.lookup v.slot = some (.cell i) → x = name)
    (hown : μ₀.cells.length ≤ i ∨ Held env vals i)
    (hvar : ∀ v, env.findVar? name = some v → v.slot = slot ∧ v.elem = elem) (pos : Position) :
    ∃ vals' μ', runCode checked sigs callee args f k vals [storeCode f slot r pos] μ =
        .ok vals' μ' ∧
      Matches defs f (k + 1) (bound env { name, slot, elem, sig }) (s.assign name u) vals' μ' ∧
      Kept vals vals' ∧ Advance env₀ vals₀ μ₀ (bound env { name, slot, elem, sig }) vals' μ' := by
  have hm' := hm.assign hslot hi hrep hother
  have hkept := Kept.push hm.fresh .nil
  refine ⟨(⟨f, k⟩, .nil) :: vals, { μ with cells := μ.cells.set i (some w) }, ?_,
    hm'.grow hkept (hm.fresh.push .nil), hkept, ?_⟩
  · rw [runCode_cons [] (compute_store hslot hi hr)]
    rfl
  · exact (ha.assign hm.opened hslot hown hvar sig w).trans (hm'.advance hkept List.prefix_rfl)

/-- Running the code of an assignment assigns the value that is read. -/
theorem run_assign {env₀ : Env} {vals₀ : Vals} {μ₀ : Memory} {name : String} {slot : ValueRef}
    {x : Operand} {a : Answer} {ws : List Value} (hm : Matches defs f k env s vals μ)
    (ha : Advance env₀ vals₀ μ₀ env vals μ) (hx : Shows defs env vals μ x.sig x a)
    (hslot : Assigns env f (k + (readCode f pos x).length) name x.type pos slot ws) :
    ∃ u w vals' μ', s.read? a = some u ∧ Rep defs u w x.type x.sig ∧
      runCode checked sigs callee args f k vals
        (readCode f pos x ++ ws ++ [storeCode f slot (readRef f k x) pos]) μ = .ok vals' μ' ∧
      Matches defs f (k + (readCode f pos x ++ ws ++ [storeCode f slot (readRef f k x) pos]).length)
        (bound env { name, slot, elem := x.type, sig := x.sig }) (s.assign name u) vals' μ' ∧
      vals'.lookup (readRef f k x) = some w ∧
      Advance env₀ vals₀ μ₀ (bound env { name, slot, elem := x.type, sig := x.sig }) vals' μ' := by
  obtain ⟨u, w, vals₁, hu, hrep, hrun, hlookup, hkept, hfresh⟩ := run_read hm hx pos
  have hm₁ := hm.grow hkept hfresh
  have ha₁ := ha.trans (hm.advance hkept List.prefix_rfl)
  cases hslot with
  | old v hv ht =>
    obtain ⟨i, u', w', hcell, hw', -, -⟩ := hm₁.bound name v hv
    obtain ⟨vals₂, μ₂, hrun₂, hm₂, hkept₂, ha₂⟩ := run_store hm₁ ha₁ hcell
      (List.getElem?_eq_some_iff.1 hw').1 hlookup hrep
      (fun y v' hv' hc => hm₁.apart y name v' v i hv' hv hc hcell) (.inr ⟨name, v, hv, hcell⟩)
      (fun v' hv' => by cases hv.symm.trans hv'; exact ⟨rfl, ht⟩) pos
    refine ⟨u, w, vals₂, μ₂, hu, hrep, ?_, ?_, hkept₂ _ _ hlookup, ha₂⟩
    · rw [List.append_nil, runCode_append, bind_ok hrun]
      exact hrun₂
    · rw [List.append_nil, List.length_append, ← Nat.add_assoc]
      exact hm₂
  | new hv =>
    have hkept' := Kept.push hfresh (.cell μ.cells.length)
    have ha₂ : Advance env₀ vals₀ μ₀ env _ { μ with cells := μ.cells ++ [none] } :=
      ha₁.trans (hm₁.advance hkept' (List.prefix_append _ _))
    have hcell := lookup_push f (k + (readCode f pos x).length) (.cell μ.cells.length) vals₁
    obtain ⟨vals₂, μ₂, hrun₂, hm₂, hkept₂, ha₃⟩ := run_store hm₁.alloc ha₂ hcell (by simp)
      (hkept' _ _ hlookup) hrep
      (fun y v hv' hc => absurd (hm₁.lt_of_held ⟨y, v, hv', hm₁.slot_of_kept hkept' hv' hc⟩)
        (Nat.lt_irrefl _))
      (.inl ha.cells) (fun v hv' => by cases hv.symm.trans hv') pos
    refine ⟨u, w, vals₂, μ₂, hu, hrep, ?_, ?_, hkept₂ _ _ (hkept' _ _ hlookup), ha₃⟩
    · rw [List.append_assoc, runCode_append, bind_ok hrun]
      exact (runCode_cons _ (compute_slot x.type name)).trans hrun₂
    · rw [List.length_append, List.length_append, ← Nat.add_assoc, ← Nat.add_assoc]
      exact hm₂

/-! ## Calling -/

/-- The machine calls functions as the evaluator does by its table: with as many integers as a
function has parameters both end alike, and a call changes no cell that was there before. -/
structure Agree (defs : List Definition) (sigs : Nat → Option Signature)
    (callee : Nat → List Datum → Exec Datum) (table : Table) : Prop where
  sig : ∀ c : Callee, c.Within defs → sigs c.place = some c.sig
  call : ∀ (c : Callee) (ns : List Int32) (μ : Memory), c.Within defs → ns.length = c.arity →
    Sim (table c (ns.map .int) μ.out) (callee c.place (ns.map .int) μ) fun u out w μ' =>
      (∃ n, u = .int n ∧ w = .int n) ∧ μ'.out = out ∧ μ.cells <+: μ'.cells

theorem types_of_fit {n : Nat} {xs : List (Position × Operand)}
    (hacc : (userSignature n).accepts xs.length = true) (hfit : Fit (userSignature n).params xs) :
    xs.length = n ∧ ∀ x ∈ xs, x.2.type = .i32 := by
  have hlength : xs.length = n := by
    simpa [Signature.accepts, userSignature, eq_comm] using hacc
  refine ⟨hlength, fun x hx => ?_⟩
  obtain ⟨i, hi⟩ := List.getElem?_of_mem hx
  have hlt : i < n := hlength ▸ (List.getElem?_eq_some_iff.1 hi).1
  exact hfit.type_eq (by simp [userSignature, hlt]) hi

/-- What a name is called as is the same for the evaluator and for lowering. -/
theorem callee_found {ds : List Definition} {name : String} {t : Target} {sig : Signature}
    (hm : Matches defs f k env s vals μ) (hl : Linked ds env n) (hds : ds <:+ defs)
    (hcalls : Calls env name t sig) :
    ∃ c, s.callee? ds name = some c ∧ c.Within defs ∧ c.sig = sig ∧
      (t = .direct c.place ∨ ∃ slot i, t = .indirect slot ∧ vals.lookup slot = some (.cell i) ∧
        μ.cells[i]? = some (some (.func c.place))) := by
  cases hcalls with
  | direct e he =>
    obtain ⟨c, hc, hplace, hsig⟩ := hl.resolve_eq he
    refine ⟨c, ?_, (resolve_within hc).mono hds, hsig, .inl (by rw [hplace])⟩
    rw [State.callee?, hc]
  | indirect v sig he hv hs =>
    obtain ⟨i, u, w, hcell, hw, hu, hrep⟩ := hm.bound name v hv
    rw [hs] at hrep
    obtain ⟨c, rfl, rfl, hc, hsig⟩ := hrep.func_of_sig
    refine ⟨c, ?_, hc, hsig, .inr ⟨v.slot, i, rfl, hcell, hw⟩⟩
    rw [State.callee?, hl.resolve_none he, hu]

/-- Running the code of a call, and then `rest`, reads the arguments and calls the function before
`rest` is run. -/
theorem run_invoke {table : Table} {ds : List Definition} {name : String} {t : Target}
    {sig : Signature} {xs : List (Position × Operand)} {as : List Answer}
    (hagree : Agree defs sigs callee table) (hm : Matches defs f k env s vals μ)
    (hl : Linked ds env n) (hds : ds <:+ defs) (hcalls : Calls env name t sig)
    (hacc : sig.accepts xs.length = true) (hfit : Fit sig.params xs)
    (hxs : ShowsAll defs env vals μ xs as) (pos : Position) (rest : List Value) :
    ∃ (c : Callee) (ns : List Int32) (j : Nat) (vals' : Vals),
      s.callee? ds name = some c ∧ c.Within defs ∧ c.sig = sig ∧ ns.length = c.arity ∧
      as.mapM s.read? = some (ns.map .int) ∧ k + (invokeCode f k t sig xs pos).length = j + 1 ∧
      Kept vals vals' ∧ Fresh f j vals' ∧
      runCode checked sigs callee args f k vals (invokeCode f k t sig xs pos ++ rest) μ =
        (callee c.place (ns.map .int) >>= fun w =>
          runCode checked sigs callee args f (j + 1) ((⟨f, j⟩, w) :: vals') rest) μ := by
  obtain ⟨c, hc, hwithin, rfl, htarget⟩ := callee_found hm hl hds hcalls
  obtain ⟨hlength, htypes⟩ := types_of_fit hacc hfit
  obtain ⟨ns, vals₁, hns, hnsLength, hrun, hrefs, hkept, hfresh⟩ := run_reads hm hxs htypes
  rcases htarget with rfl | ⟨slot, i, rfl, hslot, hcell⟩
  · refine ⟨c, ns, k + (readsCode f xs).length, vals₁, hc, hwithin, rfl, hnsLength.trans hlength,
      hns, by simp [invokeCode, callCode, Nat.add_assoc], hkept, hfresh, ?_⟩
    rw [invokeCode, List.append_assoc, runCode_append, bind_ok hrun, callCode, List.cons_append,
      runCode, compute_call, hrefs vals₁ (.refl vals₁)]
    rfl
  · -- the address is read after the arguments
    have hload := hkept _ _ hslot
    have hkept₁ := Kept.push hfresh (.func c.place)
    refine ⟨c, ns, k + (readsCode f xs).length + 1,
      (⟨f, k + (readsCode f xs).length⟩, .func c.place) :: vals₁, hc, hwithin, rfl,
      hnsLength.trans hlength, hns, by simp [invokeCode, callCode, Nat.add_assoc],
      hkept.trans hkept₁, hfresh.push _, ?_⟩
    rw [invokeCode, List.append_assoc, runCode_append, bind_ok hrun, callCode, List.cons_append,
      runCode_cons _ (compute_load hload hcell .ptr), List.cons_append, runCode,
      compute_callIndirect (lookup_push _ _ _ _) (hagree.sig c hwithin), hrefs _ hkept₁]
    rfl

/-! ## Parameters -/

/-- Giving a parameter its slot assigns the argument to it, in a cell of its own. -/
theorem run_spillOne (checked : Bool) (sigs : Nat → Option Signature)
    (callee : Nat → List Datum → Exec Datum) {i : Nat} {n : Int32}
    (hm : Matches defs f k env s vals μ) (harg : args[i]? = some (.int n)) (p : Ident)
    (vs : List Value) :
    ∃ vals', Matches defs f (k + 3) (bound env { name := p.name, slot := ⟨f, k + 1⟩, elem := .i32 })
        (s.assign p.name (.int n)) vals' { μ with cells := μ.cells ++ [some (.int n)] } ∧
      vals'.lookup ⟨f, k + 1⟩ = some (.cell μ.cells.length) ∧ Kept vals vals' ∧
      runCode checked sigs callee args f k vals
        ([Draft.placed f (argValue i p.name p.pos) [], slotCode f .i32 p.name p.pos,
          storeCode f ⟨f, k + 1⟩ ⟨f, k⟩ p.pos] ++ vs) μ =
        runCode checked sigs callee args f (k + 3) vals' vs
          { μ with cells := μ.cells ++ [some (.int n)] } := by
  have hkept₁ := Kept.push hm.fresh (.int n)
  have hm₁ := hm.grow hkept₁ (hm.fresh.push _)
  have hkept₂ := Kept.push hm₁.fresh (.cell μ.cells.length)
  have hm₂ := hm₁.alloc
  have hslot := lookup_push f (k + 1) (.cell μ.cells.length) ((⟨f, k⟩, .int n) :: vals)
  have hn := hkept₂ _ _ (lookup_push f k (.int n) vals)
  have hi : μ.cells.length < (μ.cells ++ [none]).length := by simp
  have hm₃ : Matches defs f (k + 2) (bound env { name := p.name, slot := ⟨f, k + 1⟩, elem := .i32 })
      (s.assign p.name (.int n)) _ _ :=
    hm₂.assign hslot hi (.int n) fun y v hv hc =>
      absurd (hm₁.lt_of_held ⟨y, v, hv, hm₁.slot_of_kept hkept₂ hv hc⟩) (Nat.lt_irrefl _)
  have hcells : (μ.cells ++ [none]).set μ.cells.length (some (.int n)) =
      μ.cells ++ [some (.int n)] := by
    simp
  have hkept₃ := Kept.push hm₃.fresh .nil
  refine ⟨(⟨f, k + 2⟩, .nil) :: (⟨f, k + 1⟩, .cell μ.cells.length) :: (⟨f, k⟩, .int n) :: vals, ?_,
    hkept₃ _ _ hslot, (hkept₁.trans hkept₂).trans hkept₃, ?_⟩
  · rw [← hcells]
    exact hm₃.grow hkept₃ (hm₃.fresh.push _)
  · rw [List.cons_append, runCode_cons _ (compute_arg harg p.name), List.cons_append,
      runCode_cons _ (compute_slot .i32 p.name), List.cons_append,
      runCode_cons _ (compute_store hslot hi hn), hcells]
    rfl

/-- Giving the parameters their slots binds them to the arguments, in cells of their own. -/
theorem run_spill (checked : Bool) (sigs : Nat → Option Signature)
    (callee : Nat → List Datum → Exec Datum) {i base : Nat} {names : List Ident} {ns : List Int32}
    (hm : Matches defs f k env s vals μ) (hargs : args.drop i = ns.map .int)
    (hlength : names.length = ns.length) (hbase : base ≤ μ.cells.length)
    (hheld : ∀ j, Held env vals j → base ≤ j) :
    ∃ vals' μ', runCode checked sigs callee args f k vals (spillCode f k i names) μ = .ok vals' μ' ∧
      Matches defs f (k + (spillCode f k i names).length) (spillEnv f k env names)
        { s with vars := ((names.map (·.name)).zip (ns.map .int)).reverse ++ s.vars } vals' μ' ∧
      μ.cells <+: μ'.cells ∧ ∀ j, Held (spillEnv f k env names) vals' j → base ≤ j := by
  induction names generalizing k i env s vals μ ns with
  | nil =>
    refine ⟨vals, μ, rfl, ?_, List.prefix_rfl, hheld⟩
    simpa [spillCode, spillEnv] using hm
  | cons p ps ih =>
    cases ns with
    | nil => simp at hlength
    | cons n ns =>
      have harg : args[i]? = some (.int n) := by
        rw [← Nat.add_zero i, ← List.getElem?_drop, hargs]
        rfl
      have hrest : args.drop (i + 1) = ns.map .int := by
        rw [← List.drop_drop, hargs]
        rfl
      obtain ⟨vals₁, hm₁, hslot, hkept, hrun⟩ :=
        run_spillOne checked sigs callee hm harg p (spillCode f (k + 3) (i + 1) ps)
      have hheld₁ : ∀ j, Held (bound env { name := p.name, slot := ⟨f, k + 1⟩, elem := .i32 }) vals₁
          j → base ≤ j := by
        rintro j ⟨x, v, hv, hj⟩
        rw [findVar?_bound hm.opened] at hv
        split at hv
        · cases hv
          rw [hslot] at hj
          cases hj
          exact hbase
        · exact hheld j ⟨x, v, hv, hm.slot_of_kept hkept hv hj⟩
      obtain ⟨vals₂, μ₂, hrun₂, hm₂, hcells, hheld₂⟩ :=
        ih hm₁ hrest (by simpa using hlength) (by simp; omega) hheld₁
      refine ⟨vals₂, μ₂, ?_, ?_, (List.prefix_append _ _).trans hcells, hheld₂⟩
      · rw [spillCode, hrun, hrun₂]
      · have hsize : k + (spillCode f k i (p :: ps)).length =
            k + 3 + (spillCode f (k + 3) (i + 1) ps).length := by
          rw [spillCode, List.length_append]
          simp
          omega
        rw [hsize, spillEnv]
        simpa [State.assign] using hm₂

end Run

end Wordlang.Meaning
