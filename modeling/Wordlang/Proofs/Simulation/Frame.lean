import Wordlang.Proofs.Machine
import Wordlang.Proofs.Simulation.Functions

/-!
# Activations and frames

How an activation of a function of the program is held by the machine: the visible variables are in
cells, no two of them in the same one, and what a cell holds is the value of its variable, with the
type and the signature that lowering has on record for it.

What an expression yields is read later, when others have been evaluated. `Advance` says what holds
between the two moments: no cell changes that is not a variable's, and variables stay where they
are.
-/

namespace Wordlang.Meaning

open IR Lowering Builder

/-- What a value of a program with the definitions `defs` is when the program runs, and the type and
the signature on record for it. -/
inductive Rep (defs : List Definition) : Val → Datum → Ty → Option Signature → Prop
  | int (n : Int32) : Rep defs (.int n) (.int n) .i32 none
  | text (content : String) (g : Nat) : Rep defs (.text content) (.global g) .ptr none
  | func (c : Callee) (h : c.Within defs) : Rep defs (.func c) (.func c.place) .ptr (some c.sig)

theorem Rep.int_of_i32 {defs : List Definition} {u : Val} {w : Datum} {sig : Option Signature}
    (h : Rep defs u w .i32 sig) : ∃ n, u = .int n ∧ w = .int n := by
  cases h with
  | int n => exact ⟨n, rfl, rfl⟩

theorem Rep.func_of_sig {defs : List Definition} {u : Val} {w : Datum} {t : Ty} {sig : Signature}
    (h : Rep defs u w t (some sig)) :
    ∃ c, u = .func c ∧ w = .func c.place ∧ c.Within defs ∧ c.sig = sig := by
  cases h with
  | func c hc => exact ⟨c, rfl, rfl, hc, rfl⟩

/-! ## Values computed so far -/

/-- What has been computed stays known. -/
def Kept (vals vals' : Vals) : Prop := ∀ r w, vals.lookup r = some w → vals'.lookup r = some w

/-- The function `f` has computed no value from number `k` on. -/
def Fresh (f k : Nat) (vals : Vals) : Prop := ∀ i, k ≤ i → vals.lookup ⟨f, i⟩ = none

section Vals

variable {f k : Nat} {vals vals' vals'' : Vals}

theorem Kept.refl (vals : Vals) : Kept vals vals := fun _ _ h => h

theorem Kept.trans (h : Kept vals vals') (h' : Kept vals' vals'') : Kept vals vals'' :=
  fun r w hr => h' r w (h r w hr)

theorem lookup_push (f k : Nat) (w : Datum) (vals : Vals) :
    List.lookup ⟨f, k⟩ ((⟨f, k⟩, w) :: vals) = some w := by
  simp

theorem Fresh.push (h : Fresh f k vals) (w : Datum) : Fresh f (k + 1) ((⟨f, k⟩, w) :: vals) := by
  intro i hi
  have hne : (⟨f, i⟩ : ValueRef) ≠ ⟨f, k⟩ := by
    intro heq
    have := congrArg ValueRef.index heq
    simp at this
    omega
  rw [List.lookup_cons, beq_false_of_ne hne]
  exact h i (by omega)

theorem Kept.push (h : Fresh f k vals) (w : Datum) : Kept vals ((⟨f, k⟩, w) :: vals) := by
  intro r x hr
  have hne : r ≠ ⟨f, k⟩ := by
    rintro rfl
    rw [h k (Nat.le_refl k)] at hr
    cases hr
  rw [List.lookup_cons, beq_false_of_ne hne]
  exact hr

end Vals

/-! ## Frames -/

/-- The cell holds a visible variable. -/
def Held (env : Env) (vals : Vals) (i : Nat) : Prop :=
  ∃ x v, env.findVar? x = some v ∧ vals.lookup v.slot = some (.cell i)

/-- The activation `s` is held by the frame of the function `f`, which has computed `k` values. -/
structure Matches (defs : List Definition) (f k : Nat) (env : Env) (s : State) (vals : Vals)
    (μ : Memory) : Prop where
  opened : env.scopes ≠ []
  fresh : Fresh f k vals
  out : μ.out = s.out
  bound : ∀ x v, env.findVar? x = some v → ∃ i u w, vals.lookup v.slot = some (.cell i) ∧
    μ.cells[i]? = some (some w) ∧ s.vars.lookup x = some u ∧ Rep defs u w v.elem v.sig
  unbound : ∀ x, env.findVar? x = none → s.vars.lookup x = none
  apart : ∀ x y v w i, env.findVar? x = some v → env.findVar? y = some w →
    vals.lookup v.slot = some (.cell i) → vals.lookup w.slot = some (.cell i) → x = y

/-- What holds between two moments of one activation. -/
structure Advance (env : Env) (vals : Vals) (μ : Memory) (env' : Env) (vals' : Vals) (μ' : Memory) :
    Prop where
  kept : Kept vals vals'
  cells : μ.cells.length ≤ μ'.cells.length
  frame : ∀ i, i < μ.cells.length → ¬ Held env vals i → μ'.cells[i]? = μ.cells[i]?
  held : ∀ i, i < μ.cells.length → Held env' vals' i → Held env vals i
  vars : ∀ x v, env.findVar? x = some v →
    ∃ v', env'.findVar? x = some v' ∧ v'.slot = v.slot ∧ v'.elem = v.elem

variable {defs : List Definition} {f k k' : Nat} {env env' env'' : Env} {s : State}
  {vals vals' vals'' : Vals} {μ μ' μ'' : Memory}

theorem Advance.trans (h : Advance env vals μ env' vals' μ')
    (h' : Advance env' vals' μ' env'' vals'' μ'') : Advance env vals μ env'' vals'' μ'' := by
  refine ⟨h.kept.trans h'.kept, Nat.le_trans h.cells h'.cells, ?_, ?_, ?_⟩
  · intro i hi hnot
    have hi' : i < μ'.cells.length := Nat.lt_of_lt_of_le hi h.cells
    rw [h'.frame i hi' fun hheld => hnot (h.held i hi hheld), h.frame i hi hnot]
  · intro i hi hheld
    exact h.held i hi (h'.held i (Nat.lt_of_lt_of_le hi h.cells) hheld)
  · intro x v hv
    obtain ⟨v', hv', hslot, helem⟩ := h.vars x v hv
    obtain ⟨v'', hv'', hslot', helem'⟩ := h'.vars x v' hv'
    exact ⟨v'', hv'', hslot'.trans hslot, helem'.trans helem⟩

/-- Which functions the environment lists plays no part. -/
theorem findVar?_congr (h : env'.scopes = env.scopes) : env'.findVar? = env.findVar? := by
  funext x
  rw [Env.findVar?, Env.findVar?, h]

theorem Matches.congr (hm : Matches defs f k env s vals μ) (h : env'.scopes = env.scopes) :
    Matches defs f k env' s vals μ := by
  obtain ⟨hopened, hfresh, hout, hbound, hunbound, hapart⟩ := hm
  rw [← h] at hopened
  rw [← findVar?_congr h] at hbound hunbound hapart
  exact ⟨hopened, hfresh, hout, hbound, hunbound, hapart⟩

theorem Advance.congr (ha : Advance env vals μ env' vals' μ') (h : env''.scopes = env'.scopes) :
    Advance env vals μ env'' vals' μ' := by
  obtain ⟨hkept, hcells, hframe, hheld, hvars⟩ := ha
  have hsame : Held env'' vals' = Held env' vals' := by
    funext i
    rw [Held, Held, findVar?_congr h]
  rw [← hsame] at hheld
  rw [← findVar?_congr h] at hvars
  exact ⟨hkept, hcells, hframe, hheld, hvars⟩

theorem Matches.lt_of_held {i : Nat} (h : Matches defs f k env s vals μ) (hi : Held env vals i) :
    i < μ.cells.length := by
  obtain ⟨x, v, hv, hslot⟩ := hi
  obtain ⟨j, u, w, hslot', hcell, -, -⟩ := h.bound x v hv
  rw [hslot] at hslot'
  cases hslot'
  exact (List.getElem?_eq_some_iff.1 hcell).1

theorem Matches.slot_of_kept (h : Matches defs f k env s vals μ) (hkept : Kept vals vals')
    {x : String} {v : Binding} {i : Nat} (hv : env.findVar? x = some v)
    (hslot : vals'.lookup v.slot = some (.cell i)) : vals.lookup v.slot = some (.cell i) := by
  obtain ⟨j, u, w, hslot', -⟩ := h.bound x v hv
  have hsame := hkept _ _ hslot'
  rw [hslot] at hsame
  cases hsame
  exact hslot'

theorem Matches.held_of_kept {i : Nat} (h : Matches defs f k env s vals μ) (hkept : Kept vals vals')
    (hheld : Held env vals' i) : Held env vals i := by
  obtain ⟨x, v, hv, hslot⟩ := hheld
  exact ⟨x, v, hv, h.slot_of_kept hkept hv hslot⟩

/-- Computing more values, making more cells and writing output keeps the activation otherwise. -/
theorem Matches.extend {out : String} (h : Matches defs f k env s vals μ) (hkept : Kept vals vals')
    (hfresh : Fresh f k' vals') (hcells : μ.cells <+: μ'.cells) (hout : μ'.out = out) :
    Matches defs f k' env { s with out } vals' μ' := by
  refine ⟨h.opened, hfresh, hout, ?_, h.unbound, ?_⟩
  · intro x v hv
    obtain ⟨i, u, w, hslot, hcell, hu, hrep⟩ := h.bound x v hv
    exact ⟨i, u, w, hkept _ _ hslot, getElem?_later hcells hcell, hu, hrep⟩
  · intro x y v w i hx hy hv hw
    exact h.apart x y v w i hx hy (h.slot_of_kept hkept hx hv) (h.slot_of_kept hkept hy hw)

/-- The same when the memory is as before. -/
theorem Matches.grow (h : Matches defs f k env s vals μ) (hkept : Kept vals vals')
    (hfresh : Fresh f k' vals') : Matches defs f k' env s vals' μ :=
  h.extend hkept hfresh List.prefix_rfl h.out

theorem Matches.advance (h : Matches defs f k env s vals μ) (hkept : Kept vals vals')
    (hcells : μ.cells <+: μ'.cells) : Advance env vals μ env vals' μ' := by
  refine ⟨hkept, hcells.length_le, ?_, ?_, ?_⟩
  · intro i hi _
    have hi' : μ.cells[i]? = some μ.cells[i] := List.getElem?_eq_getElem hi
    rw [hi', getElem?_later hcells hi']
  · intro i _ hheld
    exact h.held_of_kept hkept hheld
  · intro x v hv
    exact ⟨v, hv, rfl, rfl⟩

/-! ## Assigning -/

theorem findVar?_bound (henv : env.scopes ≠ []) (v : Binding) (name : String) :
    (bound env v).findVar? name = if v.name = name then some v else env.findVar? name := by
  obtain ⟨scopes, funcs⟩ := env
  cases scopes with
  | nil => exact absurd rfl henv
  | cons s outer =>
    show (s.insert v).find? name = if v.name = name then some v else s.find? name
    simp only [Scope.find?, Scope.insert, List.find?_cons]
    by_cases hname : v.name = name
    · simp [hname]
    · simp only [hname, decide_false, if_false]
      rw [List.find?_filter]
      congr 1
      funext a
      by_cases ha : a.name = name
      · simp [ha, Ne.symm hname]
      · simp [ha]

theorem scopes_bound_ne (henv : env.scopes ≠ []) (v : Binding) : (bound env v).scopes ≠ [] := by
  obtain ⟨scopes, funcs⟩ := env
  cases scopes with
  | nil => exact absurd rfl henv
  | cons s outer => simp [Lowering.bound, Env.defineVar?]

/-- Writing a cell that no other variable is in, and binding a variable to it, assigns to the
variable. -/
theorem Matches.assign {name : String} {slot : ValueRef} {i : Nat} {u : Val} {w : Datum} {elem : Ty}
    {sig : Option Signature} (h : Matches defs f k env s vals μ)
    (hslot : vals.lookup slot = some (.cell i)) (hi : i < μ.cells.length)
    (hrep : Rep defs u w elem sig)
    (hother : ∀ x v, env.findVar? x = some v → vals.lookup v.slot = some (.cell i) → x = name) :
    Matches defs f k (Lowering.bound env { name, slot, elem, sig }) (s.assign name u) vals
      { μ with cells := μ.cells.set i (some w) } := by
  refine ⟨scopes_bound_ne h.opened _, h.fresh, h.out, ?_, ?_, ?_⟩
  · intro x v hv
    rw [findVar?_bound h.opened] at hv
    by_cases hx : name = x
    · rw [if_pos hx] at hv
      cases hv
      refine ⟨i, u, w, hslot, List.getElem?_set_self hi, ?_, hrep⟩
      simp [State.assign, hx]
    · rw [if_neg hx] at hv
      obtain ⟨j, u', w', hslot', hcell, hu, hrep'⟩ := h.bound x v hv
      have hij : i ≠ j := by
        rintro rfl
        exact hx (hother x v hv hslot').symm
      refine ⟨j, u', w', hslot', ?_, ?_, hrep'⟩
      · rw [← hcell]
        exact List.getElem?_set_ne hij
      · rw [← hu]
        simp [State.assign, List.lookup_cons, beq_false_of_ne (Ne.symm hx)]
  · intro x hv
    rw [findVar?_bound h.opened] at hv
    by_cases hx : name = x
    · rw [if_pos hx] at hv
      cases hv
    · rw [if_neg hx] at hv
      rw [← h.unbound x hv]
      simp [State.assign, List.lookup_cons, beq_false_of_ne (Ne.symm hx)]
  · intro x y v v' j hv hv' hj hj'
    rw [findVar?_bound h.opened] at hv hv'
    by_cases hx : name = x
    · by_cases hy : name = y
      · exact hx.symm.trans hy
      · rw [if_pos hx] at hv
        rw [if_neg hy] at hv'
        cases hv
        rw [hslot] at hj
        cases hj
        exact absurd (hother y v' hv' hj').symm hy
    · rw [if_neg hx] at hv
      by_cases hy : name = y
      · rw [if_pos hy] at hv'
        cases hv'
        rw [hslot] at hj'
        cases hj'
        exact absurd (hother x v hv hj).symm hx
      · rw [if_neg hy] at hv'
        exact h.apart x y v v' j hv hv' hj hj'

/-- An assignment writes the cell of its variable, or one that was made since. -/
theorem Advance.assign {name : String} {slot : ValueRef} {i : Nat} {elem : Ty}
    (h : Advance env vals μ env' vals' μ') (henv : env'.scopes ≠ [])
    (hslot : vals'.lookup slot = some (.cell i)) (hown : μ.cells.length ≤ i ∨ Held env' vals' i)
    (hvar : ∀ v, env'.findVar? name = some v → v.slot = slot ∧ v.elem = elem)
    (sig : Option Signature) (w : Datum) :
    Advance env vals μ (Lowering.bound env' { name, slot, elem, sig }) vals'
      { μ' with cells := μ'.cells.set i (some w) } := by
  refine ⟨h.kept, by simpa using h.cells, ?_, ?_, ?_⟩
  · intro j hj hnot
    have hij : i ≠ j := by
      rintro rfl
      rcases hown with hnew | hheld
      · omega
      · exact hnot (h.held i hj hheld)
    rw [← h.frame j hj hnot]
    exact List.getElem?_set_ne hij
  · rintro j hj ⟨x, v, hv, hcell⟩
    rw [findVar?_bound henv] at hv
    by_cases hx : name = x
    · rw [if_pos hx] at hv
      cases hv
      rw [hslot] at hcell
      cases hcell
      rcases hown with hnew | hheld
      · omega
      · exact h.held i hj hheld
    · rw [if_neg hx] at hv
      exact h.held j hj ⟨x, v, hv, hcell⟩
  · intro x v hv
    obtain ⟨v', hv', hs, he⟩ := h.vars x v hv
    rw [findVar?_bound henv]
    by_cases hx : name = x
    · rw [if_pos hx]
      subst hx
      obtain ⟨hs', he'⟩ := hvar v' hv'
      exact ⟨_, rfl, hs'.symm.trans hs, he'.symm.trans he⟩
    · rw [if_neg hx]
      exact ⟨v', hv', hs, he⟩

/-! ## Operands -/

/-- The operand stands for the answer: it is a value that has been computed, or a slot from which the
value can be read. The signature is that of the value it has now. -/
inductive Shows (defs : List Definition) (env : Env) (vals : Vals) (μ : Memory)
    (sig : Option Signature) (x : Operand) : Answer → Prop
  | value (u : Val) (w : Datum) (hx : x.isSlot = false) (hw : vals.lookup x.ref = some w)
    (hrep : Rep defs u w x.type sig) : Shows defs env vals μ sig x (.value u)
  | result (u : Val) (w : Datum) (i : Nat) (hx : x.isSlot = true)
    (hslot : vals.lookup x.ref = some (.cell i)) (hcell : μ.cells[i]? = some (some w))
    (hfree : ¬ Held env vals i) (hrep : Rep defs u w x.type sig) :
    Shows defs env vals μ sig x (.value u)
  | named (name : String) (v : Binding) (hx : x.isSlot = true)
    (hv : env.findVar? name = some v) (hslot : v.slot = x.ref) (helem : v.elem = x.type)
    (hsig : v.sig = sig) : Shows defs env vals μ sig x (.variable name)

variable {sig : Option Signature} {x : Operand} {a : Answer}

/-- An operand still stands for its answer when others have been evaluated, although a variable may
have been assigned a function of another signature. -/
theorem Shows.advance (h : Shows defs env vals μ sig x a) (ha : Advance env vals μ env' vals' μ') :
    ∃ sig', Shows defs env' vals' μ' sig' x a := by
  cases h with
  | value u w hx hw hrep => exact ⟨sig, .value u w hx (ha.kept _ _ hw) hrep⟩
  | result u w i hx hslot hcell hfree hrep =>
    have hi : i < μ.cells.length := (List.getElem?_eq_some_iff.1 hcell).1
    refine ⟨sig, .result u w i hx (ha.kept _ _ hslot) ?_ ?_ hrep⟩
    · rw [ha.frame i hi hfree, hcell]
    · exact fun hheld => hfree (ha.held i hi hheld)
  | named name v hx hv hslot helem hsig =>
    obtain ⟨v', hv', hslot', helem'⟩ := ha.vars name v hv
    exact ⟨v'.sig, .named name v' hx hv' (hslot'.trans hslot) (helem'.trans helem) rfl⟩

/-- What is found when an operand is read is the value of its answer. -/
theorem Shows.read (h : Shows defs env vals μ sig x a) (hm : Matches defs f k env s vals μ) :
    ∃ u w, s.read? a = some u ∧ Rep defs u w x.type sig ∧
      (x.isSlot = false → vals.lookup x.ref = some w) ∧
      (x.isSlot = true → ∃ i, vals.lookup x.ref = some (.cell i) ∧
        μ.cells[i]? = some (some w)) := by
  cases h with
  | value u w hx hw hrep => exact ⟨u, w, rfl, hrep, fun _ => hw, by simp [hx]⟩
  | result u w i hx hslot hcell hfree hrep =>
    exact ⟨u, w, rfl, hrep, by simp [hx], fun _ => ⟨i, hslot, hcell⟩⟩
  | named name v hx hv hslot helem hsig =>
    obtain ⟨i, u, w, hcell, hw, hu, hrep⟩ := hm.bound name v hv
    rw [hslot] at hcell
    rw [helem, hsig] at hrep
    exact ⟨u, w, hu, hrep, by simp [hx], fun _ => ⟨i, hcell, hw⟩⟩

end Wordlang.Meaning
