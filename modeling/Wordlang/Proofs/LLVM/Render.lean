import Wordlang.Proofs.Collect
import Wordlang.Proofs.LLVM.Body
import Wordlang.Proofs.Lowering.Tidy

/-!
# Rendering sound modules

A module that lowering builds is rendered without a gap, whether it is finished or not: each function
with a body of its own becomes straight-line code, in which the constants, addresses and arguments
are written where they are used and every other value has its line before.
-/

namespace Wordlang.LLVM

open IR Lowering

/-- The symbols of a module. -/
def symbolsOf (m : Module) : List String := m.globals.map (·.name) ++ m.funcs.map (·.name)

/-- The value has a line that defines its number. -/
def IsNumbered (v : Value) : Prop := v.op.isConst = false ∧ v.op.isVoid = false

theorem operand?_core (m : Module) (n : Nat) (v : Value) :
    operand? m n v.core = operand? m n v := rfl

theorem renderValue?_core (m : Module) (f : Func) (n : Nat) (v : Value) :
    renderValue? m f n v.core = renderValue? m f n v := rfl

theorem sig_of_core {f : Func} {d : Draft} {place : Nat} (h : f.core = d.func place) :
    f.sig = some d.sig := by
  rw [← Draft.sig_func place d, ← h]
  rfl

theorem name_of_core {f : Func} {d : Draft} {place : Nat} (h : f.core = d.func place) :
    f.name = d.name := by
  rw [← Draft.name_func place d, ← h]
  rfl

theorem external_of_core {f : Func} {d : Draft} {place : Nat} (h : f.core = d.func place) :
    d.external = f.external := by
  have hfunc : f.external = (d.func place).external := by rw [← h]; rfl
  rw [hfunc, Draft.func]
  split
  · assumption
  · next he => exact Bool.not_eq_true _ ▸ he

/-- A function with a body has one block. -/
theorem bodyBlocks_of_core {f : Func} {d : Draft} {place : Nat} (h : f.core = d.func place)
    (he : d.external = false) : f.bodyBlocks = [(0, d.block place)] := by
  have hbody : f.bodyBlocks = f.core.bodyBlocks := rfl
  rw [hbody, h]
  simp [Draft.func, he, Func.bodyBlocks]

section Values

variable {m : Module} {ds : List Draft} {q : String → Prop} {place : Nat} {d : Draft}
  {code : List Value} {values : List Nat}

theorem tidy_value (h : m.Tidy q) {r : ValueRef} {v : Value} (hv : m.value? r = some v) :
    v.Tidy q m.globals.length := by
  obtain ⟨f, hf, hv⟩ := Option.bind_eq_some_iff.1 hv
  exact (h.funcs f (List.mem_of_getElem? hf)).values v (List.mem_of_getElem? hv)

theorem value_of_code (h : m.Drafted ds) (hd : ds[place]? = some d) (he : d.external = false)
    {n : Nat} {v : Value} (hv : d.code[n]? = some v) :
    ∃ w, m.value? ⟨place, n⟩ = some w ∧ w.core = v := by
  have hw := h.value? hd he n
  rw [hv] at hw
  exact Option.map_eq_some_iff.1 hw

theorem mem_symbolsOf {f : Nat} {x : Func} (h : m.funcs[f]? = some x) : x.name ∈ symbolsOf m :=
  List.mem_append_right _ (List.mem_map_of_mem (List.mem_of_getElem? h))

/-- A value that stands before can be used as an operand. -/
theorem typedOperand_fits (hs : Sound m ds) (ht : m.Tidy q) (hd : ds[place]? = some d)
    (he : d.external = false) (hc : code <+: d.code)
    (hvalues : ∀ (j : Nat) v, code[j]? = some v → IsNumbered v → j ∈ values) {r : ValueRef} {t : Ty}
    (hr : Typed place code r t) (hscalar : IsScalar t) :
    ∃ x, typedOperand? m (some r) = some (t, x) ∧
      x.Fits (symbolsOf m) d.sig.params.length values := by
  obtain ⟨hplace, v, hv, rfl⟩ := hr
  have hv' := getElem?_later hc hv
  obtain ⟨w, hw, hwv⟩ := value_of_code hs.drafted hd he hv'
  have hok := (hs.ok place d hd).values r.index v hv'
  have htidy := tidy_value ht hw
  have hfits : ∃ x, operand? m r.index v = some x ∧
      x.Fits (symbolsOf m) d.sig.params.length values := by
    have hnumbered : IsNumbered v → Operand.Fits (symbolsOf m) d.sig.params.length values
        (.value r.index) := hvalues r.index v hv
    cases hok with
    | const32 n pos => exact ⟨.const n, rfl, trivial⟩
    | globalAddr g pos =>
      have hg : g < m.globals.length := htidy.global g (congrArg Value.aux hwv)
      refine ⟨.symbol (m.globals.get ⟨g, hg⟩).name, ?_, ?_⟩
      · show m.globals[g]?.map _ = _
        rw [List.getElem?_eq_getElem hg]
        rfl
      · exact List.mem_append_left _ (List.mem_map_of_mem (List.getElem_mem hg))
    | funcAddr f called pos hf =>
      obtain ⟨x, hx, -⟩ := hs.drafted.funcSig hf
      refine ⟨.symbol x.name, ?_, mem_symbolsOf hx⟩
      show m.funcs[f]?.map _ = _
      rw [hx]
      rfl
    | arg i t aux pos hi =>
      exact ⟨.arg i, rfl, i, (List.getElem?_eq_some_iff.1 hi).1, rfl⟩
    | alloca t aux pos hscalar => exact ⟨.value r.index, rfl, hnumbered ⟨rfl, rfl⟩⟩
    | load t slot pos hslot => exact ⟨.value r.index, rfl, hnumbered ⟨rfl, rfl⟩⟩
    | store t slot x pos hslot hx =>
      -- a store gives nothing that could be used
      rcases hscalar with h | h
      · cases h
      · cases h
    | add32 x y pos hx hy => exact ⟨.value r.index, rfl, hnumbered ⟨rfl, rfl⟩⟩
    | call f called args pos hf hargs => exact ⟨.value r.index, rfl, hnumbered ⟨rfl, rfl⟩⟩
    | callIndirect called p args pos hp hargs =>
      exact ⟨.value r.index, rfl, hnumbered ⟨rfl, rfl⟩⟩
  obtain ⟨x, hx, hfits⟩ := hfits
  refine ⟨x, ?_, hfits⟩
  have hw' : m.value? r = some w := by rw [← hw, ← hplace]
  rw [← hwv, operand?_core] at hx
  have htype : w.type = v.type := by rw [← hwv]; rfl
  simp [typedOperand?, hw', hx, htype]

/-- A slot holds an integer or an address. -/
theorem slot_scalar (hs : Sound m ds) (hd : ds[place]? = some d) (hc : code <+: d.code)
    {r : ValueRef} {t : Ty} (h : IsSlot place code r t) : IsScalar t := by
  obtain ⟨-, v, hv, hop, -, rfl⟩ := h
  have hok := (hs.ok place d hd).values r.index v (getElem?_later hc hv)
  cases hok with
  | alloca t aux pos hscalar => exact hscalar
  | _ => cases hop

/-- The instruction `i` is the line of value number `n`, when `values` stand before it. -/
structure IsLine (q : String → Prop) (symbols : List String) (arity : Nat) (values : List Nat)
    (n : Nat) (v : Value) (i : Inst) : Prop where
  dst : i.dst? = if v.op.isVoid then none else some n
  uses : ∀ x ∈ i.operands, x.Fits symbols arity values
  plain : i.isEnd = false
  raw : (Line.inst i).raw = "" ∨ q (Line.inst i).raw

/-- The values that stand before a call can be passed to it. -/
theorem mapM_typedOperand {args : List ValueRef}
    (h : ∀ r ∈ args, ∃ t x, typedOperand? m (some r) = some (t, x) ∧
      x.Fits (symbolsOf m) d.sig.params.length values) :
    ∃ xs, (args.map some).mapM (typedOperand? m) = some xs ∧
      ∀ a ∈ xs, a.2.Fits (symbolsOf m) d.sig.params.length values := by
  induction args with
  | nil => exact ⟨[], rfl, by simp⟩
  | cons r args ih =>
    obtain ⟨hr, hargs⟩ := List.forall_mem_cons.1 h
    obtain ⟨t, x, hx, hfits⟩ := hr
    obtain ⟨xs, hxs, hall⟩ := ih hargs
    exact ⟨(t, x) :: xs, mapM_cons_some hx hxs, List.forall_mem_cons.2 ⟨hfits, hall⟩⟩

/-- A value that is not written where it is used has a line. -/
theorem renderValue_ok (hs : Sound m ds) (ht : m.Tidy q) (hd : ds[place]? = some d)
    (he : d.external = false) {n : Nat} {v : Value} (hn : d.code[n]? = some v)
    (hvalues : ∀ (j : Nat) v, (d.code.take n)[j]? = some v → IsNumbered v → j ∈ values) (f : Func) :
    (v.op.isConst = true ∧ renderValue? m f n v = some (.ofLines [])) ∨
    ∃ i, v.op.isConst = false ∧ renderValue? m f n v = some (.ofLines [.inst i]) ∧
      IsLine q (symbolsOf m) d.sig.params.length values n v i := by
  have hc : d.code.take n <+: d.code := List.take_prefix n d.code
  have hok := (hs.ok place d hd).values n v hn
  have hfits : ∀ {r t}, Typed place (d.code.take n) r t → IsScalar t →
      ∃ x, typedOperand? m (some r) = some (t, x) ∧
        x.Fits (symbolsOf m) d.sig.params.length values :=
    fun hr hscalar => typedOperand_fits hs ht hd he hc hvalues hr hscalar
  have hpassed : ∀ {called args}, Passed place (d.code.take n) called args →
      ∃ xs, (args.map some).mapM (typedOperand? m) = some xs ∧
        ∀ a ∈ xs, a.2.Fits (symbolsOf m) d.sig.params.length values := by
    intro called args hargs
    apply mapM_typedOperand
    intro r hr
    obtain ⟨t, hscalar, htyped⟩ := hargs.known r hr
    exact ⟨t, hfits htyped hscalar⟩
  cases hok with
  | const32 | globalAddr | funcAddr | arg => exact .inl ⟨rfl, rfl⟩
  | alloca t aux pos hscalar =>
    obtain ⟨w, hw, hwv⟩ := value_of_code hs.drafted hd he hn
    obtain ⟨s, hs, hq⟩ := (tidy_value ht hw).name (congrArg Value.op hwv)
    obtain rfl : aux = .name s := (congrArg Value.aux hwv).symm.trans hs
    exact .inr ⟨.alloca n t s, rfl, rfl, rfl, by simp [Inst.operands], rfl, .inr hq⟩
  | load t slot pos hslot =>
    obtain ⟨x, hx, hxfits⟩ := hfits hslot.typed (.inr rfl)
    refine .inr ⟨.load n t x, rfl, ?_, rfl, by simpa [Inst.operands] using hxfits, rfl, .inl rfl⟩
    simp [renderValue?, argument?, Draft.placed, hx]
  | store t slot v pos hslot hv =>
    obtain ⟨x, hx, hxfits⟩ := hfits hslot.typed (.inr rfl)
    obtain ⟨y, hy, hyfits⟩ := hfits hv (slot_scalar hs hd hc hslot)
    refine .inr ⟨.store t y x, rfl, ?_, rfl, ?_, rfl, .inl rfl⟩
    · simp [renderValue?, argument?, Draft.placed, hx, hy]
    · simpa [Inst.operands] using And.intro hyfits hxfits
  | add32 a b pos ha hb =>
    obtain ⟨x, hx, hxfits⟩ := hfits ha (.inl rfl)
    obtain ⟨y, hy, hyfits⟩ := hfits hb (.inl rfl)
    refine .inr ⟨.add n x y, rfl, ?_, rfl, ?_, rfl, .inl rfl⟩
    · simp [renderValue?, argument?, Draft.placed, hx, hy]
    · simpa [Inst.operands] using And.intro hxfits hyfits
  | call g called args pos hg hargs =>
    obtain ⟨x, hx, hsig⟩ := hs.drafted.funcSig hg
    obtain ⟨xs, hxs, hall⟩ := hpassed hargs
    refine .inr ⟨.call n called (.symbol x.name) xs, rfl, ?_, rfl, ?_, rfl, .inl rfl⟩
    · simp [renderValue?, Draft.placed, Module.callee?, hx, hsig, renderCall?, hxs]
    · simp only [Inst.operands, List.forall_mem_cons, List.forall_mem_map]
      exact ⟨mem_symbolsOf hx, hall⟩
  | callIndirect called p args pos hp hargs =>
    obtain ⟨x, hx, hxfits⟩ := hfits hp (.inr rfl)
    obtain ⟨xs, hxs, hall⟩ := hpassed hargs
    refine .inr ⟨.call n called x xs, rfl, ?_, rfl, ?_, rfl, .inl rfl⟩
    · simp [renderValue?, Draft.placed, Module.callSignature?, hx, renderCall?, hxs]
    · simp only [Inst.operands, List.forall_mem_cons, List.forall_mem_map]
      exact ⟨hxfits, hall⟩

/-! ## Functions -/

/-- The instructions are the lines of the values, in order. -/
structure IsCode (q : String → Prop) (symbols : List String) (arity : Nat) (vs : List Value)
    (code : List Inst) : Prop where
  straight : Straight symbols arity code
  numbers : ∀ j, j ∈ defs code ↔ ∃ v, vs[j]? = some v ∧ IsNumbered v
  plain : ∀ i ∈ code, i.isEnd = false
  raw : ∀ i ∈ code, (Line.inst i).raw = "" ∨ q (Line.inst i).raw

section Code

variable {symbols : List String} {arity : Nat} {vs : List Value} {insts : List Inst} {v : Value}

theorem numbered_concat {j : Nat} : (∃ w, (vs ++ [v])[j]? = some w ∧ IsNumbered w) ↔
    (∃ w, vs[j]? = some w ∧ IsNumbered w) ∨ j = vs.length ∧ IsNumbered v := by
  rw [List.getElem?_append]
  split
  · next hj =>
    have hne : j ≠ vs.length := by omega
    simp [hne]
  · next hj =>
    have hnone : vs[j]? = none := List.getElem?_eq_none (by omega)
    by_cases heq : j = vs.length
    · simp [heq]
    · have hgt : ¬ j - vs.length = 0 := by omega
      simp [heq, hnone, hgt]

theorem IsCode.skip (h : IsCode q symbols arity vs insts) (hv : v.op.isConst = true) :
    IsCode q symbols arity (vs ++ [v]) insts := by
  refine ⟨h.straight, ?_, h.plain, h.raw⟩
  intro j
  have hnot : ¬ IsNumbered v := by
    rintro ⟨hconst, -⟩
    rw [hv] at hconst
    cases hconst
  rw [h.numbers, numbered_concat]
  simp [hnot]

theorem IsCode.concat (h : IsCode q symbols arity vs insts) (hv : v.op.isConst = false) {i : Inst}
    (hi : IsLine q symbols arity (defs insts) vs.length v i) :
    IsCode q symbols arity (vs ++ [v]) (insts ++ [i]) := by
  -- the new number is the place of the value, and all others are below it
  have hdst : ∀ j, j ∈ i.dst?.toList ↔ j = vs.length ∧ IsNumbered v := by
    intro j
    rw [hi.dst]
    cases hvoid : v.op.isVoid with
    | true => simp [IsNumbered, hvoid]
    | false => simp [IsNumbered, hvoid, hv]
  refine ⟨.concat h.straight ?_ hi.uses, ?_, ?_, ?_⟩
  · intro n hn hmem
    obtain ⟨rfl, -⟩ := (hdst n).1 (Option.mem_toList.2 hn)
    obtain ⟨w, hw, -⟩ := (h.numbers _).1 hmem
    simp at hw
  · intro j
    rw [defs_concat, List.mem_append, h.numbers, hdst, numbered_concat]
  · rw [List.forall_mem_append, List.forall_mem_singleton]
    exact ⟨h.plain, hi.plain⟩
  · rw [List.forall_mem_append, List.forall_mem_singleton]
    exact ⟨h.raw, hi.raw⟩

end Code

theorem ofLines_append (a b : List Line) :
    Rendering.ofLines a ++ Rendering.ofLines b = Rendering.ofLines (a ++ b) := rfl

theorem concat_ofLines (pieces : List (List Line)) :
    Rendering.concat (pieces.map .ofLines) = .ofLines pieces.flatten := by
  induction pieces with
  | nil => rfl
  | cons piece pieces ih =>
    show Rendering.ofLines piece ++ Rendering.concat (pieces.map .ofLines) = _
    rw [ih, ofLines_append, List.flatten_cons]

theorem concat_singleton (lines : List Line) :
    Rendering.concat [.ofLines lines] = .ofLines lines := by
  rw [← List.map_singleton, concat_ofLines, List.flatten_singleton]

/-- The values of a function are rendered to straight-line code. -/
theorem renderValues_ok (hs : Sound m ds) (ht : m.Tidy q) (hd : ds[place]? = some d)
    (he : d.external = false) (f : Func) (n : Nat) (hn : n ≤ d.code.length) :
    ∃ (pieces : List (List Line)) (insts : List Inst), (Draft.refs place n).mapM
        (fun r => do renderValue? m f r.index (← m.value? r)) = some (pieces.map .ofLines) ∧
      pieces.flatten = insts.map .inst ∧
      IsCode q (symbolsOf m) d.sig.params.length (d.code.take n) insts := by
  induction n with
  | zero => exact ⟨[], [], rfl, rfl, .nil, by simp [defs], by simp, by simp⟩
  | succ n ih =>
    obtain ⟨pieces, insts, hpieces, hflat, hcode⟩ := ih (by omega)
    have hlt : n < d.code.length := by omega
    obtain ⟨v, hv⟩ : ∃ v, d.code[n]? = some v := ⟨_, List.getElem?_eq_getElem hlt⟩
    obtain ⟨w, hw, hwv⟩ := value_of_code hs.drafted hd he hv
    have hlength : (d.code.take n).length = n := List.length_take_of_le (by omega)
    have htake : d.code.take (n + 1) = d.code.take n ++ [v] := by
      rw [List.take_add_one, hv]
      rfl
    have hvalues : ∀ (j : Nat) v, (d.code.take n)[j]? = some v → IsNumbered v → j ∈ defs insts :=
      fun j v hj hnumbered => (hcode.numbers j).2 ⟨v, hj, hnumbered⟩
    -- one more value gives one more piece
    have hpiece : ∀ piece, renderValue? m f n v = some (.ofLines piece) →
        (Draft.refs place (n + 1)).mapM (fun r => do renderValue? m f r.index (← m.value? r)) =
          some ((pieces ++ [piece]).map .ofLines) := by
      intro piece hp
      rw [← hwv, renderValue?_core] at hp
      rw [refs_succ, List.mapM_append, hpieces]
      simp [hw, hp]
    rw [htake]
    rcases renderValue_ok hs ht hd he hv hvalues f with ⟨hconst, hr⟩ | ⟨i, hconst, hr, hline⟩
    · exact ⟨_, insts, hpiece _ hr, by simp [hflat], hcode.skip hconst⟩
    · rw [← hlength] at hline
      exact ⟨_, insts ++ [i], hpiece _ hr, by simp [hflat], hcode.concat hconst hline⟩

/-- A function returns its result, and one without a result does not return. -/
theorem renderEnd_ok (hs : Sound m ds) (ht : m.Tidy q) (hd : ds[place]? = some d)
    (he : d.external = false) (hresult : d.sig.result = .i32)
    (hvalues : ∀ (j : Nat) v, d.code[j]? = some v → IsNumbered v → j ∈ values) :
    ∃ stop, renderEnd? m (d.block place) = some (.inst stop) ∧
      (stop = .unreachable ∧ d.isOpen = true ∨
        ∃ x, stop = .ret .i32 x ∧ d.isOpen = false ∧
          x.Fits (symbolsOf m) d.sig.params.length values) := by
  cases hr : d.result with
  | none =>
    refine ⟨.unreachable, ?_, .inl ⟨rfl, ?_⟩⟩
    · simp [renderEnd?, Draft.block, hr]
    · simp [Draft.isOpen, he, hr]
  | some r =>
    have htyped := (hs.ok place d hd).returns r hr
    rw [hresult] at htyped
    obtain ⟨x, hx, hfits⟩ :=
      typedOperand_fits hs ht hd he (List.prefix_refl _) hvalues htyped (.inl rfl)
    refine ⟨.ret .i32 x, ?_, .inr ⟨x, rfl, ?_, hfits⟩⟩
    · simp [renderEnd?, Draft.block, hr, hx]
    · simp [Draft.isOpen, hr]

/-- What is known of a function that is rendered, if `d` is its draft. -/
structure IsBody (q : String → Prop) (m : Module) (d : Draft) (b : Body) : Prop where
  name : b.name = d.name
  ok : b.Ok (symbolsOf m)
  unended : b.stop = .unreachable ↔ d.isOpen = true
  raw : ∀ l ∈ b.lines, l.raw = "" ∨ q l.raw

theorem isBody_of_code {insts : List Inst} {stop : Inst}
    (hcode : IsCode q (symbolsOf m) d.sig.params.length d.code insts)
    (hstop : stop = .unreachable ∧ d.isOpen = true ∨
      ∃ x, stop = .ret .i32 x ∧ d.isOpen = false ∧
        x.Fits (symbolsOf m) d.sig.params.length (defs insts)) :
    IsBody q m d ⟨d.name, d.sig.params, d.sig.result, insts, stop⟩ := by
  have hlines : (Line.inst stop).raw = "" →
      ∀ l ∈ Body.lines ⟨d.name, d.sig.params, d.sig.result, insts, stop⟩, l.raw = "" ∨ q l.raw := by
    intro hend l hl
    rcases Body.mem_lines hl with ⟨i, hi, rfl⟩ | hl
    · rcases List.mem_append.1 hi with hi | hi
      · exact hcode.raw i hi
      · obtain rfl := List.mem_singleton.1 hi
        exact .inl hend
    · simp only [List.mem_cons, List.not_mem_nil, or_false] at hl
      rcases hl with rfl | rfl | rfl | rfl
      all_goals exact .inl rfl
  rcases hstop with ⟨rfl, hopen⟩ | ⟨x, rfl, hclosed, hfits⟩
  · refine ⟨rfl, ⟨.concat hcode.straight ?_ ?_, hcode.plain, .inl rfl⟩, by simp [hopen], hlines rfl⟩
    · simp [Inst.dst?]
    · simp [Inst.operands]
  · refine ⟨rfl, ⟨.concat hcode.straight ?_ ?_, hcode.plain, .inr ⟨x, rfl⟩⟩, by simp [hclosed],
      hlines rfl⟩
    · simp [Inst.dst?]
    · simpa [Inst.operands] using hfits

/-- A function with a body is rendered to straight-line code. -/
theorem renderFunc_ok (hs : Sound m ds) (ht : m.Tidy q) (hd : ds[place]? = some d)
    (he : d.external = false) {f : Func} (hf : m.funcs[place]? = some f)
    (hcore : f.core = d.func place) :
    ∃ b, renderFunc? m f = some (.ofLines b.lines) ∧ IsBody q m d b := by
  obtain ⟨pieces, insts, hpieces, hflat, hcode⟩ :=
    renderValues_ok hs ht hd he f d.code.length (Nat.le_refl _)
  rw [List.take_length] at hcode
  have hsig := sig_of_core hcore
  have hblocks := bodyBlocks_of_core hcore he
  have hresult := (ht.funcs f (List.mem_of_getElem? hf)).result d.sig hsig
  obtain ⟨stop, hend, hstop⟩ := renderEnd_ok hs ht hd he hresult
    fun j v hj hnumbered => (hcode.numbers j).2 ⟨v, hj, hnumbered⟩
  refine ⟨⟨d.name, d.sig.params, d.sig.result, insts, stop⟩, ?_, isBody_of_code hcode hstop⟩
  have hblock : renderBlock? m f 0 (d.block place) =
      some (.ofLines ([.label 0] ++ insts.map .inst ++ [.inst stop])) := by
    have hrefs : (d.block place).values = Draft.refs place d.code.length := rfl
    rw [renderBlock?, hrefs, hpieces, hend, ← hflat]
    simp only [Option.bind_eq_bind, Option.bind_some, concat_ofLines, ofLines_append]
    rfl
  rw [renderFunc?, hsig, name_of_core hcore, hblocks]
  simp only [List.mapM_cons, List.mapM_nil, hblock, Option.bind_eq_bind, Option.bind_some,
    Option.pure_def, concat_singleton, ofLines_append]
  simp [Body.lines]

end Values

/-! ## Modules -/

section Modules

variable {m : Module} {ds : List Draft} {q : String → Prop}

/-- The line stands before the functions. -/
def Line.IsFront (m : Module) : Line → Prop
  | .moduleComment name => name = m.name
  | .triple t => t = m.triple
  | .define .. | .label _ | .inst _ | .close => False
  | _ => True

/-- What is known of the lines of a module. -/
structure Rendered (q : String → Prop) (m : Module) (ds : List Draft) (front : List Line)
    (bodies : List Body) : Prop where
  lines : render? m = some (.ofLines (front ++ bodies.flatMap Body.lines))
  isFront : ∀ l ∈ front, l.IsFront m
  introduced : front.filterMap Line.introduces? =
    m.globals.map (·.name) ++ (m.funcs.filter (·.external)).map (·.name)
  names : bodies.map (·.name) = (m.funcs.filter (!·.external)).map (·.name)
  bodies : ∀ b ∈ bodies, ∃ d ∈ ds, IsBody q m d b

theorem exists_draft (h : m.Drafted ds) {f : Func} (hf : f ∈ m.funcs) :
    ∃ (place : Nat) (d : Draft), m.funcs[place]? = some f ∧ ds[place]? = some d ∧
      f.core = d.func place := by
  obtain ⟨place, hplace⟩ := List.getElem?_of_mem hf
  obtain ⟨d, hd, hcore⟩ := h.draft_of_func hplace
  exact ⟨place, d, hplace, hd, hcore⟩

theorem declare_ok (h : m.Drafted ds) {f : Func} (hf : f ∈ m.funcs) :
    ∃ sig, declare? f = some (.declare f.name sig) := by
  obtain ⟨place, d, -, -, hcore⟩ := exists_draft h hf
  refine ⟨d.sig, ?_⟩
  rw [declare?, sig_of_core hcore]
  rfl

theorem define_ok (hs : Sound m ds) (ht : m.Tidy q) {f : Func} (hf : f ∈ m.funcs)
    (hinside : f.external = false) :
    ∃ b, renderFunc? m f = some (.ofLines b.lines) ∧ b.name = f.name ∧ ∃ d ∈ ds, IsBody q m d b := by
  obtain ⟨place, d, hplace, hd, hcore⟩ := exists_draft hs.drafted hf
  have he : d.external = false := (external_of_core hcore).trans hinside
  obtain ⟨b, hb, hbody⟩ := renderFunc_ok hs ht hd he hplace hcore
  refine ⟨b, hb, ?_, d, List.mem_of_getElem? hd, hbody⟩
  rw [hbody.name, name_of_core hcore]

theorem filterMap_group (lines : List Line) :
    (group lines).filterMap Line.introduces? = lines.filterMap Line.introduces? := by
  unfold group
  cases lines with
  | nil => rfl
  | cons l lines => rfl

theorem isFront_group {lines : List Line} (h : ∀ l ∈ lines, l.IsFront m) :
    ∀ l ∈ group lines, l.IsFront m := by
  unfold group
  split
  · simp
  · exact List.forall_mem_cons.2 ⟨trivial, h⟩

theorem isFront_header : ∀ l ∈ header m, l.IsFront m := by
  intro l hl
  rcases List.mem_append.1 hl with hl | hl
  · rcases List.mem_pair.1 hl with rfl | rfl
    · rfl
    · trivial
  · split at hl
    · cases hl
    · obtain rfl := List.mem_singleton.1 hl
      rfl

/-- The lines above the functions. -/
def frontLines (m : Module) (declared : List Line) : List Line :=
  header m ++ group (m.globals.map fun g => .global g.name g.data) ++ group declared

theorem isFront_frontLines {declared : List Line} (h : ∀ l ∈ declared, l.IsFront m) :
    ∀ l ∈ frontLines m declared, l.IsFront m := by
  have hconst : ∀ l ∈ m.globals.map fun g => Line.global g.name g.data, l.IsFront m := by
    intro l hl
    obtain ⟨g, -, rfl⟩ := List.mem_map.1 hl
    trivial
  rw [frontLines, List.forall_mem_append, List.forall_mem_append]
  exact ⟨⟨isFront_header, isFront_group hconst⟩, isFront_group h⟩

/-- Rendering meets no gap in a module that lowering built, finished or not. -/
theorem render_lines (hs : Sound m ds) (ht : m.Tidy q) :
    ∃ declared bodies, (m.funcs.filter (·.external)).mapM declare? = some declared ∧
      (m.funcs.filter (!·.external)).mapM (renderFunc? m) =
        some (bodies.map fun b => .ofLines b.lines) ∧
      Rendered q m ds (frontLines m declared) bodies := by
  have hdeclare : ∀ f ∈ m.funcs.filter (·.external), ∃ l, declare? f = some (id l) ∧
      l.introduces? = some f.name ∧ l.IsFront m := by
    intro f hf
    obtain ⟨sig, hsig⟩ := declare_ok hs.drafted (List.mem_of_mem_filter hf)
    exact ⟨.declare f.name sig, hsig, rfl, trivial⟩
  have hdefine : ∀ f ∈ m.funcs.filter (!·.external), ∃ b : Body,
      renderFunc? m f = some (.ofLines b.lines) ∧ b.name = f.name ∧ ∃ d ∈ ds, IsBody q m d b := by
    intro f hf
    obtain ⟨hmem, hinside⟩ := List.mem_filter.1 hf
    exact define_ok hs ht hmem (by simpa using hinside)
  obtain ⟨declared, hdeclared, hdecls, hfront⟩ := mapM_eq_some hdeclare
  obtain ⟨bodies, hbodies, hnames, hall⟩ := mapM_eq_some hdefine
  rw [List.map_id] at hdeclared
  refine ⟨declared, bodies, hdeclared, hbodies, ?_, ?_, ?_, hnames, hall⟩
  · rw [render?, hdeclared, hbodies]
    have hpieces : bodies.map (fun b => Rendering.ofLines b.lines) =
        (bodies.map Body.lines).map .ofLines := by simp
    simp only [Option.bind_eq_bind, Option.bind_some, hpieces, concat_ofLines, ofLines_append,
      List.flatMap]
    rfl
  · exact isFront_frontLines hfront
  · have hheader : (header m).filterMap Line.introduces? = [] := by
      unfold header
      split
      · rfl
      · rfl
    have hconst : (m.globals.map fun g => Line.global g.name g.data).filterMap Line.introduces? =
        m.globals.map (·.name) := by
      rw [List.filterMap_map, ← List.filterMap_eq_map']
      rfl
    have hdeclared : declared.filterMap Line.introduces? =
        (m.funcs.filter (·.external)).map (·.name) := by
      have hid := congrArg (List.filterMap id) hdecls
      simpa [List.filterMap_map] using hid
    rw [frontLines, List.filterMap_append, List.filterMap_append, filterMap_group, filterMap_group,
      hheader, hconst, hdeclared, List.nil_append]

end Modules

end Wordlang.LLVM
