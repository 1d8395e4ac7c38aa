import Wordlang.IR.Verify
import Wordlang.Proofs.Symbols

/-!
# Well-formed drafts

Typing rules for the values of a draft, one for each operation: what a value is computed from stands
before it in the same function and has the right type. A module whose drafts obey them passes the
verifier, except that each draft without a result is reported once, as a block that does not return.
-/

namespace Wordlang.IR

/-! ## Typing rules -/

/-- The value `r` of the function at `place` is in `code` and has the type `t`. -/
def Typed (place : Nat) (code : List Value) (r : ValueRef) (t : Ty) : Prop :=
  r.func = place ∧ ∃ v, code[r.index]? = some v ∧ v.type = t

/-- The value `r` of the function at `place` is in `code` and is a slot for values of type `t`. -/
def IsSlot (place : Nat) (code : List Value) (r : ValueRef) (t : Ty) : Prop :=
  r.func = place ∧ ∃ v, code[r.index]? = some v ∧ v.op = .alloca ∧ v.type = .ptr ∧ v.elem = t

/-- The arguments `args` can be passed to a function of the signature `sig`. -/
structure Passed (place : Nat) (code : List Value) (sig : Signature) (args : List ValueRef) :
    Prop where
  accepted : sig.accepts args.length = true
  known : ∀ r ∈ args, ∃ t, (t = .i32 ∨ t = .ptr) ∧ Typed place code r t
  typed : ∀ (i : Nat) t r, sig.params[i]? = some t → args[i]? = some r → Typed place code r t

/-- The value may follow `code` in the function at `place`, whose signature is `sig`, when the
functions of the module have the signatures `sigs`. -/
inductive ValueOk (sigs : Nat → Option Signature) (place : Nat) (sig : Signature)
    (code : List Value) : Value → Prop
  | const32 (n : Int) (pos : Position) :
    ValueOk sigs place sig code
      (Draft.placed place { op := .const32, type := .i32, number := n, pos } [])
  | globalAddr (g : Nat) (pos : Position) :
    ValueOk sigs place sig code
      (Draft.placed place { op := .globalAddr, type := .ptr, aux := .global g, pos } [])
  | funcAddr (f : Nat) (called : Signature) (pos : Position) (hf : sigs f = some called) :
    ValueOk sigs place sig code
      (Draft.placed place { op := .funcAddr, type := .ptr, aux := .func f, pos } [])
  | arg (i : Nat) (t : Ty) (aux : Aux) (pos : Position) (hi : sig.params[i]? = some t) :
    ValueOk sigs place sig code
      (Draft.placed place { op := .arg, type := t, number := i, aux, pos } [])
  | alloca (t : Ty) (aux : Aux) (pos : Position) (ht : t = .i32 ∨ t = .ptr) :
    ValueOk sigs place sig code
      (Draft.placed place { op := .alloca, type := .ptr, elem := t, aux, pos } [])
  | load (t : Ty) (slot : ValueRef) (pos : Position) (hs : IsSlot place code slot t) :
    ValueOk sigs place sig code (Draft.placed place { op := .load, type := t, pos } [slot])
  | store (t : Ty) (slot v : ValueRef) (pos : Position) (hs : IsSlot place code slot t)
    (hv : Typed place code v t) :
    ValueOk sigs place sig code (Draft.placed place { op := .store, type := .void, pos } [slot, v])
  | add32 (x y : ValueRef) (pos : Position) (hx : Typed place code x .i32)
    (hy : Typed place code y .i32) :
    ValueOk sigs place sig code (Draft.placed place { op := .add32, type := .i32, pos } [x, y])
  | call (f : Nat) (called : Signature) (args : List ValueRef) (pos : Position)
    (hf : sigs f = some called) (hargs : Passed place code called args) :
    ValueOk sigs place sig code
      (Draft.placed place { op := .call, type := called.result, aux := .func f, pos } args)
  | callIndirect (called : Signature) (p : ValueRef) (args : List ValueRef) (pos : Position)
    (hp : Typed place code p .ptr) (hargs : Passed place code called args) :
    ValueOk sigs place sig code
      (Draft.placed place
        { op := .callIndirect, type := called.result, aux := .signature called, pos } (p :: args))

namespace Draft

/-- The signatures of the functions that drafts describe. -/
def sigs (ds : List Draft) (f : Nat) : Option Signature := (ds[f]?).map (·.sig)

/-- A draft among `ds` obeys the typing rules. -/
structure Ok (ds : List Draft) (place : Nat) (d : Draft) : Prop where
  values : ∀ (j : Nat) v, d.code[j]? = some v → ValueOk (sigs ds) place d.sig (d.code.take j) v
  returns : ∀ r, d.result = some r → Typed place d.code r d.sig.result

/-- Whether the block of a draft has not been ended. -/
def isOpen (d : Draft) : Bool := !d.external && d.result.isNone

/-- What the verifier reports about a draft that obeys the typing rules. -/
def unfinished (d : Draft) : List Violation :=
  if d.isOpen then [⟨.block d.name 0, .notReturn .plain⟩] else []

end Draft

variable {place : Nat} {code code' : List Value} {r : ValueRef} {t : Ty} {sig : Signature}

theorem IsSlot.typed (h : IsSlot place code r t) : Typed place code r .ptr := by
  obtain ⟨hp, v, hv, -, ht, -⟩ := h
  exact ⟨hp, v, hv, ht⟩

theorem Typed.lt_length (h : Typed place code r t) : r.index < code.length := by
  obtain ⟨-, v, hv, -⟩ := h
  exact (List.getElem?_eq_some_iff.1 hv).1

/-! ## Later code keeps what holds -/

theorem getElem?_later {α : Type} {l l' : List α} {a : α} {i : Nat} (h : l <+: l')
    (hi : l[i]? = some a) : l'[i]? = some a := by
  obtain ⟨hlt, ha⟩ := List.getElem?_eq_some_iff.1 hi
  rw [List.prefix_iff_getElem?.1 h i hlt, ha]

theorem Typed.mono (h : Typed place code r t) (hc : code <+: code') : Typed place code' r t := by
  obtain ⟨hp, v, hv, ht⟩ := h
  exact ⟨hp, v, getElem?_later hc hv, ht⟩

theorem IsSlot.mono (h : IsSlot place code r t) (hc : code <+: code') : IsSlot place code' r t := by
  obtain ⟨hp, v, hv, ht⟩ := h
  exact ⟨hp, v, getElem?_later hc hv, ht⟩

theorem Passed.mono {args : List ValueRef} (h : Passed place code sig args) (hc : code <+: code') :
    Passed place code' sig args := by
  refine ⟨h.accepted, ?_, ?_⟩
  · intro r hr
    obtain ⟨t, hscalar, ht⟩ := h.known r hr
    exact ⟨t, hscalar, ht.mono hc⟩
  · intro i t r hi hr
    exact (h.typed i t r hi hr).mono hc

theorem ValueOk.mono {sigs sigs' : Nat → Option Signature} {v : Value}
    (h : ValueOk sigs place sig code v) (hs : ∀ f s, sigs f = some s → sigs' f = some s) :
    ValueOk sigs' place sig code v := by
  cases h with
  | const32 n pos => exact .const32 n pos
  | globalAddr g pos => exact .globalAddr g pos
  | funcAddr f called pos hf => exact .funcAddr f called pos (hs f called hf)
  | arg i t aux pos hi => exact .arg i t aux pos hi
  | alloca t aux pos ht => exact .alloca t aux pos ht
  | load t slot pos hslot => exact .load t slot pos hslot
  | store t slot v pos hslot hv => exact .store t slot v pos hslot hv
  | add32 x y pos hx hy => exact .add32 x y pos hx hy
  | call f called args pos hf hargs => exact .call f called args pos (hs f called hf) hargs
  | callIndirect called p args pos hp hargs => exact .callIndirect called p args pos hp hargs

/-! ## What the verifier finds -/

section Verified

variable {m : Module} {ds : List Draft} {d : Draft} {v : Value} {f : Func}

theorem Module.Drafted.value? (h : m.Drafted ds) (hd : ds[place]? = some d)
    (he : d.external = false) (j : Nat) : (m.value? ⟨place, j⟩).map Value.core = d.code[j]? := by
  obtain ⟨x, hx, hxd⟩ := h.getElem?_funcs hd
  have hvalues : x.values.map Value.core = d.code := by
    have := congrArg Func.values hxd
    simpa [Func.core, Draft.func, he] using this
  simp only [Module.value?, hx, Option.bind_eq_bind, Option.bind_some, ← hvalues,
    List.getElem?_map]

/-- Every function of a module has its draft. -/
theorem Module.Drafted.draft_of_func {i : Nat} (h : m.Drafted ds) (hf : m.funcs[i]? = some f) :
    ∃ d, ds[i]? = some d ∧ f.core = d.func i := by
  have hcore := h.getElem?_core i
  rw [core, List.getElem?_map, hf, Option.map_some, eq_comm, Option.map_eq_some_iff] at hcore
  obtain ⟨d, hd, hdf⟩ := hcore
  exact ⟨d, hd, hdf.symm⟩

/-- A value of a module is one of a draft. -/
theorem Module.Drafted.code_of_value (h : m.Drafted ds) (hv : m.value? r = some v) :
    ∃ d, ds[r.func]? = some d ∧ d.external = false ∧ d.code[r.index]? = some v.core := by
  obtain ⟨g, hg, hgv⟩ := Option.bind_eq_some_iff.1 hv
  obtain ⟨d, hd, hdg⟩ := h.draft_of_func hg
  have hvalue : g.core.values[r.index]? = some v.core := by
    show (g.values.map Value.core)[r.index]? = _
    rw [List.getElem?_map, hgv, Option.map_some]
  rw [hdg, Draft.func] at hvalue
  split at hvalue
  · cases hvalue
  · next he => exact ⟨d, hd, Bool.not_eq_true _ ▸ he, hvalue⟩

theorem Module.Drafted.funcSig (h : m.Drafted ds) {g : Nat} (hg : Draft.sigs ds g = some sig) :
    ∃ x, m.funcs[g]? = some x ∧ x.sig = some sig := by
  obtain ⟨e, he, hsig⟩ := Option.map_eq_some_iff.1 hg
  obtain ⟨x, hx, hxe⟩ := h.getElem?_funcs he
  refine ⟨x, hx, ?_⟩
  rw [← hsig, ← Draft.sig_func g e, ← hxe]
  rfl

/-- The values that a well-formed value is computed from can be looked up. -/
structure Found (m : Module) (place : Nat) (code : List Value) : Prop where
  typed : ∀ r t, Typed place code r t → ∃ v, m.value? r = some v ∧ v.type = t
  slot : ∀ r t, IsSlot place code r t →
    ∃ v, m.value? r = some v ∧ v.op = .alloca ∧ v.type = .ptr ∧ v.elem = t

theorem Module.Drafted.found (h : m.Drafted ds) (hd : ds[place]? = some d)
    (he : d.external = false) (hc : code <+: d.code) : Found m place code := by
  have look : ∀ (r : ValueRef) v, r.func = place → code[r.index]? = some v →
      ∃ w, m.value? r = some w ∧ w.core = v := by
    intro r v hr hv
    have hw := h.value? hd he r.index
    rw [getElem?_later hc hv] at hw
    obtain ⟨w, hw, hwv⟩ := Option.map_eq_some_iff.1 hw
    refine ⟨w, ?_, hwv⟩
    rw [← hw, ← hr]
  refine ⟨?_, ?_⟩
  · rintro r t ⟨hr, v, hv, rfl⟩
    obtain ⟨w, hw, rfl⟩ := look r v hr hv
    exact ⟨w, hw, rfl⟩
  · rintro r t ⟨hr, v, hv, hop, htype, rfl⟩
    obtain ⟨w, hw, rfl⟩ := look r v hr hv
    exact ⟨w, hw, hop, htype, rfl⟩

theorem report_false (p : Place) (flaw : Flaw) : report p false flaw = [] := rfl

/-- The arguments of a call that can be passed are not reported. -/
theorem Passed.verify_eq_nil (hfound : Found m place code) {args : List ValueRef}
    (h : Passed place code sig args) (here : Place) :
    ((sig.params.zip (args.map some)).zipIdx.flatMap fun ((want, a), i) =>
      match a.bind m.value? with
      | some x => report here (x.type != want) (.callArg i x.type want)
      | none => []) = [] := by
  rw [List.flatMap_eq_nil_iff]
  rintro ⟨⟨want, a⟩, i⟩ hmem
  obtain ⟨hwant, ha⟩ := List.getElem?_zip_eq_some.1 (List.mem_zipIdx_iff_getElem?.1 hmem)
  rw [List.getElem?_map] at ha
  obtain ⟨r, hr, rfl⟩ := Option.map_eq_some_iff.1 ha
  obtain ⟨x, hx, hxtype⟩ := hfound.typed _ _ (h.typed i want r hwant hr)
  simp [hx, hxtype, report]

/-- The verifier has nothing to say about a well-formed value. -/
theorem ValueOk.verify_eq_nil (h : m.Drafted ds) (hfound : Found m place code)
    (hv : ValueOk (Draft.sigs ds) place sig code v) (hf : f.entry = some ⟨place, 0⟩) (n : Nat) :
    m.verifyValue f sig n v = [] := by
  cases hv with
  | const32 n pos => simp [Module.verifyValue, Draft.placed, report]
  | globalAddr g pos => simp [Module.verifyValue, Draft.placed, report]
  | funcAddr g called pos hg =>
    obtain ⟨x, hx, -⟩ := h.funcSig hg
    simp [Module.verifyValue, Draft.placed, report, Module.callee?, hx]
  | arg i t aux pos hi =>
    have hneg : ¬ (i : Int) < 0 := by omega
    simp [Module.verifyValue, Draft.placed, report, hneg, hi]
  | alloca t aux pos ht =>
    rcases ht with rfl | rfl <;> simp [Module.verifyValue, Draft.placed, report, hf]
  | load t slot pos hs =>
    obtain ⟨p, hp, hop, htype, helem⟩ := hfound.slot _ _ hs
    simp [Module.verifyValue, Draft.placed, report, Module.operands?, hp, htype, helem]
  | store t slot x pos hs hx =>
    obtain ⟨p, hp, hop, htype, helem⟩ := hfound.slot _ _ hs
    obtain ⟨w, hw, hwtype⟩ := hfound.typed _ _ hx
    simp [Module.verifyValue, Draft.placed, report, Module.operands?, hp, hw, htype, helem, hwtype]
  | add32 x y pos hx hy =>
    obtain ⟨a, ha, hatype⟩ := hfound.typed _ _ hx
    obtain ⟨b, hb, hbtype⟩ := hfound.typed _ _ hy
    simp [Module.verifyValue, Draft.placed, report, Module.operands?, ha, hb, hatype, hbtype]
  | call g called args pos hg hargs =>
    obtain ⟨x, hx, hsig⟩ := h.funcSig hg
    have hpass := hargs.verify_eq_nil hfound (.value f.name n)
    simp only [Module.verifyValue, Draft.placed, Module.callSignature?, Module.callee?, hx,
      Option.bind_some, hsig, Value.callArgs, bne_self_eq_false, report_false, List.nil_append,
      reduceCtorEq, false_and, if_false, List.length_map, hargs.accepted, Bool.not_true,
      Bool.false_eq_true]
    exact hpass
  | callIndirect called p args pos hp hargs =>
    obtain ⟨w, hw, hwtype⟩ := hfound.typed _ _ hp
    have hpass := hargs.verify_eq_nil hfound (.value f.name n)
    simp only [Module.verifyValue, Draft.placed, Module.callSignature?, Value.callArgs,
      bne_self_eq_false, report_false, List.nil_append, if_true, List.map_cons, List.drop_one,
      List.tail_cons, List.head?_cons, Option.join_some, Option.bind_some, hw, Option.map_some,
      hwtype, ne_eq, not_true_eq_false, and_false, if_false, List.length_map, hargs.accepted,
      Bool.not_true, Bool.false_eq_true]
    exact hpass

/-- A well-formed value is computed from values that stand before it. -/
theorem ValueOk.args {sigs : Nat → Option Signature} (hv : ValueOk sigs place sig code v)
    {a : Option ValueRef} (ha : a ∈ v.args) : ∃ r t, a = some r ∧ Typed place code r t := by
  cases hv with
  | const32 | globalAddr | funcAddr | arg | alloca => simp [Draft.placed] at ha
  | load t slot pos hs =>
    obtain rfl : a = some slot := by simpa [Draft.placed] using ha
    exact ⟨slot, .ptr, rfl, hs.typed⟩
  | store t slot x pos hs hx =>
    obtain rfl | rfl : a = some slot ∨ a = some x := by simpa [Draft.placed] using ha
    · exact ⟨slot, .ptr, rfl, hs.typed⟩
    · exact ⟨x, t, rfl, hx⟩
  | add32 x y pos hx hy =>
    obtain rfl | rfl : a = some x ∨ a = some y := by simpa [Draft.placed] using ha
    · exact ⟨x, .i32, rfl, hx⟩
    · exact ⟨y, .i32, rfl, hy⟩
  | call g called args pos hg hargs =>
    obtain ⟨r, hr, rfl⟩ := List.mem_map.1 ha
    obtain ⟨t, -, ht⟩ := hargs.known r hr
    exact ⟨r, t, rfl, ht⟩
  | callIndirect called p args pos hp hargs =>
    obtain ⟨r, hr, rfl⟩ := List.mem_map.1 ha
    rcases List.mem_cons.1 hr with rfl | hr
    · exact ⟨r, .ptr, rfl, hp⟩
    · obtain ⟨t, -, ht⟩ := hargs.known r hr
      exact ⟨r, t, rfl, ht⟩

theorem mem_refs {n : Nat} : r ∈ Draft.refs place n ↔ r.func = place ∧ r.index < n := by
  obtain ⟨g, i⟩ := r
  simp only [Draft.refs, List.mem_map, List.mem_range, ValueRef.mk.injEq]
  constructor
  · rintro ⟨j, hj, rfl, rfl⟩
    exact ⟨rfl, hj⟩
  · rintro ⟨rfl, hi⟩
    exact ⟨i, hi, rfl, rfl⟩

theorem refs_succ (place n : Nat) :
    Draft.refs place (n + 1) = Draft.refs place n ++ [⟨place, n⟩] := by
  simp [Draft.refs, List.range_succ]

/-- The verifier does not report the arguments of a well-formed value, the `k`-th of its function. -/
theorem ValueOk.verifyArgs_eq_nil {sigs : Nat → Option Signature} {k : Nat}
    (hv : ValueOk sigs place sig (code.take k) v) (b n : Nat) :
    Module.verifyArgs f b n (Draft.refs place k).reverse v = [] := by
  rw [Module.verifyArgs, List.flatMap_eq_nil_iff]
  rintro ⟨a, i⟩ hmem
  obtain ⟨r, t, rfl, ht⟩ := hv.args (List.fst_mem_of_mem_zipIdx hmem)
  have hlt := ht.lt_length
  rw [List.length_take] at hlt
  have hr : r ∈ Draft.refs place k := mem_refs.2 ⟨ht.1, by omega⟩
  simp [report, hr]

theorem ValueOk.block {sigs : Nat → Option Signature} (hv : ValueOk sigs place sig code v) :
    v.block = some ⟨place, 0⟩ := by
  cases hv <;> rfl

/-- The verifier has nothing to say about the values of a well-formed draft from the `k`-th on. -/
theorem Draft.Ok.verifyValues_eq_nil (h : m.Drafted ds) (hd : ds[place]? = some d)
    (he : d.external = false) (hok : d.Ok ds place) (hf : f.entry = some ⟨place, 0⟩) (k n : Nat)
    (hn : k + n = d.code.length) :
    m.verifyValues f d.sig ⟨place, 0⟩ (refs place k).reverse
      ((List.range' k n).map (ValueRef.mk place)) = [] := by
  induction n generalizing k with
  | zero => rfl
  | succ n ih =>
    have hk : k < d.code.length := by omega
    have hv := hok.values k _ (List.getElem?_eq_getElem hk)
    have hw := h.value? hd he k
    rw [List.getElem?_eq_getElem hk] at hw
    obtain ⟨w, hw, hwv⟩ := Option.map_eq_some_iff.1 hw
    rw [← hwv] at hv
    have hfound := h.found hd he (List.take_prefix k d.code)
    -- the number of uses is the only difference between `w` and its core
    have hargs : Module.verifyArgs f 0 k (refs place k).reverse w = [] := hv.verifyArgs_eq_nil 0 k
    have hvalue : m.verifyValue f d.sig k w = [] := hv.verify_eq_nil h hfound hf k
    have hblock : w.block = some ⟨place, 0⟩ := hv.block
    have hrest := ih (k + 1) (by omega)
    rw [refs_succ, List.reverse_append, List.reverse_singleton, List.singleton_append] at hrest
    rw [List.range'_succ, List.map_cons, Module.verifyValues, hw, hrest]
    simp [report, hargs, hvalue, hblock]

/-- The verifier reports of a well-formed draft only that it has no result yet. -/
theorem Draft.Ok.verifyFunc_eq (h : m.Drafted ds) (hd : ds[place]? = some d)
    (hok : d.Ok ds place) : m.verifyFunc place (d.func place) = d.unfinished := by
  cases he : d.external with
  | true => simp [Module.verifyFunc, func, unfinished, isOpen, he, report]
  | false =>
    have hvalues : m.verifyValues (d.func place) d.sig ⟨place, 0⟩ []
        (refs place d.code.length) = [] := by
      have := hok.verifyValues_eq_nil h hd he (f := d.func place) (by simp [func, he]) 0
        d.code.length (by omega)
      rwa [← List.range_eq_range'] at this
    have hend : m.verifyEnd (d.func place) d.sig 0 ((refs place d.code.length).reverse ++ [])
        (d.block place) = d.unfinished := by
      cases hres : d.result with
      | none => simp [Module.verifyEnd, block, unfinished, isOpen, he, hres, func]
      | some r =>
        have htyped := hok.returns r hres
        obtain ⟨w, hw, hwtype⟩ := (h.found hd he (List.prefix_refl _)).typed _ _ htyped
        have hr : r ∈ refs place d.code.length := mem_refs.2 ⟨htyped.1, htyped.lt_length⟩
        simp [Module.verifyEnd, block, unfinished, isOpen, hres, report, hr, hw, hwtype]
    have hfunc : m.verifyFunc place (d.func place) =
        m.verifyBlocks place (d.func place) d.sig [] [(0, d.block place)] := by
      simp [Module.verifyFunc, func, he, report, Func.bodyBlocks]
    rw [hfunc]
    simp only [Module.verifyBlocks]
    rw [show (d.block place).values = refs place d.code.length from rfl, hvalues, hend]
    simp [report, block]

/-- The verifier reports of functions that are well-formed and have symbols of their own only those
without a result. -/
theorem verifyFuncs_eq (es : List Draft) (place : Nat) (seen : List String) (h : m.Drafted ds)
    (hes : ∀ (i : Nat) d, es[i]? = some d → ds[place + i]? = some d ∧ d.Ok ds (place + i))
    (hnames : (seen.reverse ++ es.map (·.name)).Nodup) :
    m.verifyFuncs place seen (es.mapIdx fun i d => d.func (place + i)) =
      es.flatMap Draft.unfinished := by
  induction es generalizing place seen with
  | nil => rfl
  | cons d es ih =>
    obtain ⟨hd, hok⟩ := hes 0 d rfl
    rw [Nat.add_zero] at hd hok
    have hrest := ih (place + 1) (d.name :: seen) ?_ (by simpa using hnames)
    · have hnot : d.name ∉ seen := by
        intro hmem
        have hdisjoint := (List.nodup_append'.1 hnames).2.2
        exact hdisjoint (List.mem_reverse.2 hmem) List.mem_cons_self
      rw [List.mapIdx_cons, Module.verifyFuncs, List.flatMap_cons, ← hrest]
      simp only [Nat.add_zero, hok.verifyFunc_eq h hd, Draft.name_func, Draft.foreign_func,
        List.contains_eq_mem, hnot, decide_false, report_false, List.nil_append, Nat.add_assoc,
        Nat.add_comm 1]
    · intro i e he
      have hi := hes (i + 1) e he
      rwa [Nat.add_assoc, Nat.add_comm 1 i]

theorem verifyGlobals_eq_nil (gs : List Global) (seen : List String)
    (h : (seen.reverse ++ gs.map (·.name)).Nodup) : m.verifyGlobals seen gs = [] := by
  induction gs generalizing seen with
  | nil => rfl
  | cons g gs ih =>
    have hnot : g.name ∉ seen := by
      intro hmem
      have hdisjoint := (List.nodup_append'.1 h).2.2
      exact hdisjoint (List.mem_reverse.2 hmem) List.mem_cons_self
    rw [Module.verifyGlobals, ih (g.name :: seen) (by simpa using h)]
    simp [report, hnot]

theorem verifyValues_core (b : BlockRef) (defined rs : List ValueRef) :
    m.verifyValues f.core sig b defined rs = m.verifyValues f sig b defined rs := by
  induction rs generalizing defined with
  | nil => rfl
  | cons r rs ih =>
    rw [Module.verifyValues, Module.verifyValues, ih]
    rfl

theorem verifyBlocks_core (defined : List ValueRef) (bs : List (Nat × Block)) :
    m.verifyBlocks place f.core sig defined bs = m.verifyBlocks place f sig defined bs := by
  induction bs generalizing defined with
  | nil => rfl
  | cons b bs ih =>
    rw [Module.verifyBlocks, Module.verifyBlocks, ih, verifyValues_core]
    rfl

theorem verifyFunc_core : m.verifyFunc place f.core = m.verifyFunc place f := by
  simp only [Module.verifyFunc, verifyBlocks_core]
  rfl

/-- The verifier does not look at how often values are used. -/
theorem verifyFuncs_core (place : Nat) (seen : List String) (fs : List Func) :
    m.verifyFuncs place seen (fs.map Func.core) = m.verifyFuncs place seen fs := by
  induction fs generalizing place seen with
  | nil => rfl
  | cons f fs ih =>
    rw [List.map_cons, Module.verifyFuncs, Module.verifyFuncs, ih, verifyFunc_core]
    rfl

/-- The verifier reports of a module whose drafts are well-formed and have symbols of their own only
the drafts without a result, in order. -/
theorem Module.Drafted.verify_eq (h : m.Drafted ds) (hnamed : m.Named ds)
    (hok : ∀ (i : Nat) d, ds[i]? = some d → d.Ok ds i) :
    m.verify = ds.flatMap Draft.unfinished := by
  have hglobals : m.verifyGlobals [] m.globals = [] := by
    apply verifyGlobals_eq_nil
    exact (List.nodup_append'.1 hnamed.distinct).1
  have hfuncs := verifyFuncs_eq ds 0 (m.globals.map (·.name)).reverse h
    (fun i d hd => by simpa [hd] using hok i d hd) (by simpa using hnamed.distinct)
  simp only [Nat.zero_add] at hfuncs
  rw [Module.verify, hglobals, ← verifyFuncs_core]
  show m.verifyFuncs 0 _ m.core.funcs = _
  rw [h]
  exact hfuncs

end Verified

end Wordlang.IR
