import Wordlang.Proofs.Simulation.Expr

/-!
# Running whole programs

The machine calls the functions of a lowered program as the evaluator does, whatever the depth to
which calls may nest. Two results follow. A program and its module terminate with the same output,
if one of them terminates at all; and the module never goes wrong, so that nothing but recursion
without end keeps it from returning.
-/

namespace Wordlang

open IR IR.Machine Lowering Builder Outcome

namespace Meaning

/-! ## Calling the functions of a program -/

section Calls

variable {checked : Bool} {m : Module} {defs : List Definition} {code : List Value}
  {new : List Draft}

theorem call_add (hm : m.Drafted (programDrafts code new)) (depth : Nat) (x y : Int32)
    (μ : Memory) :
    Machine.call checked m (depth + 1) Callee.add.place [.int x, .int y] μ =
      .ok (.int (x + y)) μ := by
  have hd : (programDrafts code new)[1]? = startDrafts[1]? := rfl
  rw [Callee.place, call_succ hm hd rfl rfl]
  rfl

theorem call_print (hm : m.Drafted (programDrafts code new))
    (hformat : (m.globals[0]?).map (·.data) = some (Text.Utf8.ofString Builtin.printFormat))
    (depth : Nat) (x : Int32) (μ : Memory) :
    Machine.call checked m (depth + 1) Callee.print.place [.int x] μ =
      .ok (.int (Int32.ofNat (line x).utf8ByteSize)) { μ with out := μ.out ++ line x } := by
  have hd : (programDrafts code new)[2]? = startDrafts[2]? := rfl
  have hout : (programDrafts code new)[0]? = startDrafts[0]? := rfl
  have hcall : Machine.call checked m depth 0 [.global 0, .int x] μ =
      .ok (.int (Int32.ofNat (line x).utf8ByteSize)) { μ with out := μ.out ++ line x } := by
    rw [call_external hm hout rfl, output, if_pos ⟨rfl, hformat⟩]
    rfl
  rw [Callee.place, call_succ hm hd rfl rfl]
  show ((Machine.call checked m depth 0 [.global 0, .int x] >>= _) >>= _) μ = _
  rw [bind_assoc, bind_ok hcall]
  rfl

theorem ShowsAll.getLast? {env : Env} {vals : Vals} {μ : Memory} {xs : List (Position × Operand)}
    {as : List Answer} {x : Position × Operand} (h : ShowsAll defs env vals μ xs as)
    (hx : xs.getLast? = some x) :
    ∃ a sig, as.getLast? = some a ∧ Shows defs env vals μ sig x.2 a := by
  induction h with
  | nil => cases hx
  | @cons y b ys bs hy hys ih =>
    rw [List.getLast?_cons] at hx ⊢
    cases hlast : ys.getLast? with
    | some z =>
      rw [hlast] at hx
      cases hx
      obtain ⟨a, sig, ha, hshow⟩ := ih hlast
      exact ⟨a, sig, by rw [ha]; rfl, hshow⟩
    | none =>
      rw [hlast] at hx
      cases hx
      obtain ⟨sig, hy⟩ := hy
      rw [List.getLast?_eq_none_iff] at hlast
      subst hlast
      cases hys
      exact ⟨b, sig, rfl, hy⟩

/-- An activation starts without variables. -/
theorem matches_start (f : Nat) (env : Env) (title : String) (μ : Memory) :
    Matches defs f 0 (env.openScope title) { out := μ.out } [] μ := by
  have hnone : ∀ x, (env.openScope title).findVar? x = none := fun _ => rfl
  refine ⟨by simp [Env.openScope], fun _ _ => rfl, rfl, ?_, fun _ _ => rfl, ?_⟩
  · intro x v hv
    rw [hnone] at hv
    cases hv
  · intro x y v w i hv
    rw [hnone] at hv
    cases hv

/-- Running an activation to its end changes no cell that was there before it. -/
theorem Advance.keeps_cells {env env' : Env} {vals vals' : Vals} {μ₀ μ μ' : Memory}
    (h : Advance env vals μ env' vals' μ') (hcells : μ₀.cells <+: μ.cells)
    (hheld : ∀ i, Held env vals i → μ₀.cells.length ≤ i) : μ₀.cells <+: μ'.cells := by
  rw [List.prefix_iff_getElem?]
  intro i hi
  have hi' : i < μ.cells.length := Nat.lt_of_lt_of_le hi hcells.length_le
  have hfree : ¬ Held env vals i := fun hh => Nat.not_lt.2 (hheld i hh) hi
  rw [h.frame i hi' hfree, List.prefix_iff_getElem?.1 hcells i hi]

theorem bindParams_eq {params : List Expr} {names : List Ident} {ns : List Int32}
    (hnames : paramNames 0 params = .ok names) (hlength : ns.length = params.length) :
    bindParams params (ns.map .int) =
      some (((names.map (·.name)).zip (ns.map Val.int)).reverse) := by
  obtain ⟨hmap, hcount⟩ := paramNames_ok hnames
  have heq : (names.map (·.name)).length = (ns.map Val.int).length := by
    rw [List.length_map, List.length_map, hcount, hlength]
  rw [bindParams, hmap]
  exact if_pos heq

/-- Calling a definition runs the code of its body. -/
theorem call_defined {depth : Nat} {drafts : List Draft} {d : Definition}
    {before : List Definition} {ns : List Int32} (hm : m.Drafted drafts)
    (hagree : Agree defs (Draft.sigs drafts) (Machine.call checked m depth) (apply depth))
    (hc : Compiled drafts defs d before) (hlength : ns.length = d.params.length) (μ : Memory) :
    Sim (activate (apply depth) d before (ns.map .int) μ.out)
      (Machine.call checked m (depth + 1) (Callee.defined d before).place (ns.map .int) μ)
      fun u out w μ' => (∃ n, u = .int n ∧ w = .int n) ∧ μ'.out = out ∧ μ.cells <+: μ'.cells := by
  obtain ⟨n, env, env', names, symbol, xs, last, vs, new, hlinked, hnames, hbody, hlast, htype,
    hdraft, hinner⟩ := hc
  have hcount : names.length = ns.length := (paramNames_ok hnames).2.trans hlength.symm
  -- the parameters are bound to the arguments
  obtain ⟨vals₁, μ₁, hrun₁, hm₁, hcells₁, hheld₁⟩ :=
    run_spill checked (Draft.sigs drafts) (Machine.call checked m depth) (i := 0)
      (matches_start n
        (env.defineFunc { name := d.name, func := n, sig := userSignature names.length })
        ("function " ++ d.name) μ)
      rfl hcount (Nat.le_refl _) (by rintro j ⟨x, v, ⟨⟩, -⟩)
  rw [Nat.zero_add, List.append_nil] at hm₁
  have hsim : Sim _ (runCode checked (Draft.sigs drafts) (Machine.call checked m depth)
      (ns.map .int) n (spillCode n 0 0 names).length vals₁ vs μ₁) _ :=
    sim_exprs hagree (hlinked.body hnames) hinner hm₁ hbody
  have hplace : (Callee.defined d before).place = n := by rw [Callee.place, hlinked.count]
  rw [activate, bindParams_eq hnames hlength, hplace, call_succ hm hdraft rfl rfl]
  have hcode : (completed symbol names n vs last).code =
      spillCode n 0 0 names ++ (vs ++ readCode n last.1 last.2) := by
    simp [completed, header, Draft.ret]
  rw [hcode, runCode_append, bind_assoc, bind_ok hrun₁, runCode_append, bind_assoc, Nat.zero_add]
  refine Sim.inActivation (hsim.bind fun as s₂ vals₂ μ₂ hy => ?_)
  -- the last operand is an integer, and is what both return
  obtain ⟨a, sig, ha, hshow⟩ := hy.shows.getLast? hlast
  obtain ⟨u, w, vals₃, hu, hrep, hrun₃, hlookup, -⟩ := run_read hy.holds hshow last.1
  rw [htype] at hrep
  obtain ⟨i, rfl, rfl⟩ := hrep.int_of_i32
  rw [bind_ok hrun₃]
  show Sim (need (as.getLast?.bind s₂.read?) s₂) (.ok _ μ₂) _
  rw [ha, Option.bind_some, hu, List.length_append, operand_eq hlookup]
  exact ⟨⟨i, rfl, rfl⟩, hy.holds.out, hy.advance.keeps_cells hcells₁ hheld₁⟩

/-- Every function of the program has a body in the module, and its own signature. -/
theorem draft_found (hc : CompiledAll (programDrafts code new) defs defs) {c : Callee}
    (h : c.Within defs) : ∃ d, (programDrafts code new)[c.place]? = some d ∧ d.external = false ∧
      d.sig = c.sig := by
  cases c with
  | add => exact ⟨_, rfl, rfl, rfl⟩
  | print => exact ⟨_, rfl, rfl, rfl⟩
  | defined d before =>
    obtain ⟨n, env, env', names, symbol, xs, last, vs, inner, hlinked, hnames, hbody, hlast, htype,
      hdraft, hinner⟩ := hc d before h
    have hplace : (Callee.defined d before).place = n := by rw [Callee.place, hlinked.count]
    refine ⟨_, by rw [hplace]; exact hdraft, rfl, ?_⟩
    show userSignature names.length = _
    rw [(paramNames_ok hnames).2]
    rfl

/-- The machine calls the functions of a program as the evaluator does. -/
theorem agree (hm : m.Drafted (programDrafts code new))
    (hformat : (m.globals[0]?).map (·.data) = some (Text.Utf8.ofString Builtin.printFormat))
    (hc : CompiledAll (programDrafts code new) defs defs) (depth : Nat) :
    Agree defs (Draft.sigs (programDrafts code new)) (Machine.call checked m depth)
      (apply depth) := by
  have hsig : ∀ c : Callee, c.Within defs →
      Draft.sigs (programDrafts code new) c.place = some c.sig := by
    intro c h
    obtain ⟨d, hd, -, hdsig⟩ := draft_found hc h
    rw [Draft.sigs, hd, ← hdsig]
    rfl
  induction depth with
  | zero =>
    refine ⟨hsig, fun c ns μ h _ => ?_⟩
    obtain ⟨d, hd, hinside, -⟩ := draft_found hc h
    rw [call_zero hm hd hinside]
    trivial
  | succ depth ih =>
    refine ⟨hsig, fun c ns μ h hlength => ?_⟩
    cases c with
    | add =>
      obtain ⟨x, y, rfl⟩ := List.length_eq_two.1 hlength
      show Sim _ (Machine.call checked m (depth + 1) Callee.add.place [.int x, .int y] μ) _
      rw [call_add hm]
      exact ⟨⟨x + y, rfl, rfl⟩, rfl, List.prefix_rfl⟩
    | print =>
      obtain ⟨x, rfl⟩ := List.length_eq_one_iff.1 hlength
      show Sim _ (Machine.call checked m (depth + 1) Callee.print.place [.int x] μ) _
      rw [call_print hm hformat]
      exact ⟨⟨_, rfl, rfl⟩, rfl, List.prefix_rfl⟩
    | defined d before => exact call_defined hm ih (hc d before h) hlength μ

/-! ## Running programs -/

theorem findFunc?_eq {drafts : List Draft} (hm : m.Drafted drafts) (name : String) :
    m.findFunc? name = drafts.findIdx? fun d => decide (d.name = name) := by
  have h := congrArg (fun l => l.findIdx? fun n => decide (n = name)) hm.map_name
  simpa [List.findIdx?_map, Module.findFunc?, Function.comp_def] using h

/-- Calling the entry function runs the program. -/
theorem call_entry {o : CompileOptions} {es : List Expr} (h : (lower o es).failure = none)
    (checked : Bool) (depth : Nat) :
    Sim (evalAll (apply depth) [] es {})
      (Machine.call checked (lower o es).module (depth + 1) entryPlace [] {})
      fun _ s w μ => w = .int Builtin.entryStatus ∧ μ.out = s.out := by
  obtain ⟨xs, env, vs, new, hlow, hm, hformat⟩ := lower_derived h
  have hnew : ∀ (i : Nat) d, new[i]? = some d →
      (programDrafts vs new)[startDrafts.length + i]? = some d := by
    intro i d hd
    rw [programDrafts, List.getElem?_append_right (by simp [startDrafts])]
    simpa [startDrafts] using hd
  have hc : CompiledAll (programDrafts vs new) (afterAll [] es) (afterAll [] es) :=
    compiled_afterAll linked_start (by intro d before hd; simp at hd) List.suffix_rfl hlow hnew
  have hstart : Matches (afterAll [] es) entryPlace 0 startEnv {} [] {} :=
    matches_start entryPlace { funcs := startEnv.funcs } "program" {}
  have hsim : Sim _ (runCode checked (Draft.sigs (programDrafts vs new))
      (Machine.call checked (lower o es).module depth) [] entryPlace 0 [] vs {}) _ :=
    sim_exprs (agree hm hformat hc depth) linked_start List.suffix_rfl hstart hlow
  have hdraft : (programDrafts vs new)[entryPlace]? = some (programDraft vs) := rfl
  have hcode : (programDraft vs).code = vs ++ [constCode entryPlace Builtin.entryStatus {}] := by
    simp [programDraft, entryDraft, Draft.ret, statusCode, constCode]
  rw [call_succ hm hdraft rfl rfl, hcode, runCode_append, bind_assoc, Nat.zero_add,
    ← bind_pure (evalAll (apply depth) [] es)]
  refine hsim.bind fun as s vals μ hy => ?_
  rw [bind_ok (run_const vs.length Builtin.entryStatus)]
  exact ⟨operand_eq (lookup_push _ _ _ _), hy.holds.out⟩

theorem run_eq {o : CompileOptions} {es : List Expr} (h : (lower o es).failure = none)
    (checked : Bool) (depth : Nat) :
    Machine.run checked (lower o es).module depth =
      outcome (Machine.call checked (lower o es).module depth entryPlace [] {}) := by
  obtain ⟨xs, env, vs, new, -, hm, -⟩ := lower_derived h
  have hentry : (lower o es).module.findFunc? Builtin.entry = some entryPlace := by
    rw [findFunc?_eq hm]
    rfl
  simp only [Machine.run, hentry]

/-- The machine and the evaluator run a program alike, if the machine counts the entry function as a
call. -/
theorem run_program {o : CompileOptions} {es : List Expr} (h : (lower o es).failure = none)
    (checked : Bool) (depth : Nat) :
    (∃ as s, evalAll (apply depth) [] es {} = .ok as s ∧
      Machine.run checked (lower o es).module (depth + 1) = .ok (Builtin.entryStatus, s.out)) ∨
    (∃ s, evalAll (apply depth) [] es {} = .error .tooDeep s ∧
      Machine.run checked (lower o es).module (depth + 1) = .error .tooDeep) := by
  have hsim := call_entry h checked depth
  rw [run_eq h]
  revert hsim
  generalize evalAll (apply depth) [] es {} = r
  generalize Machine.call checked (lower o es).module (depth + 1) entryPlace [] {} = r'
  intro hsim
  rcases r with ⟨as, s⟩ | ⟨e, s⟩
  · rcases r' with ⟨w, μ⟩ | ⟨e', μ⟩
    · obtain ⟨rfl, hout⟩ := hsim
      exact .inl ⟨as, s, rfl, by rw [outcome, ← hout]⟩
    · exact hsim.elim
  · rcases r' with ⟨w, μ⟩ | ⟨e', μ⟩
    · cases e <;> exact hsim.elim
    · cases e with
      | stuck => exact hsim.elim
      | tooDeep =>
        cases e' with
        | tooDeep => exact .inr ⟨s, rfl, rfl⟩
        | _ => exact hsim.elim

theorem run_zero {o : CompileOptions} {es : List Expr} (h : (lower o es).failure = none)
    (checked : Bool) : Machine.run checked (lower o es).module 0 = .error .tooDeep := by
  obtain ⟨xs, env, vs, new, -, hm, -⟩ := lower_derived h
  have hdraft : (programDrafts vs new)[entryPlace]? = some (programDraft vs) := rfl
  rw [run_eq h, call_zero hm hdraft rfl]
  rfl

/-- A run returns if and only if the evaluator does at the same depth, and what it returns is
zero. -/
theorem run_eq_ok_iff {o : CompileOptions} {es : List Expr} (h : (lower o es).failure = none)
    (checked : Bool) (depth : Nat) (status : Int32) (out : String) :
    Machine.run checked (lower o es).module depth = .ok (status, out) ↔
      status = 0 ∧
        ∃ n as s, depth = n + 1 ∧ evalAll (apply n) [] es {} = .ok as s ∧ s.out = out := by
  cases depth with
  | zero =>
    rw [run_zero h]
    simp
  | succ depth =>
    rcases run_program h checked depth with ⟨as, s, heval, hrun⟩ | ⟨s, heval, hrun⟩
    · rw [hrun]
      constructor
      · intro heq
        cases heq
        exact ⟨rfl, depth, as, s, rfl, heval, rfl⟩
      · rintro ⟨rfl, n, as', s', hn, heval', rfl⟩
        cases hn
        rw [heval] at heval'
        cases heval'
        rfl
    · rw [hrun]
      constructor
      · intro heq
        cases heq
      · rintro ⟨-, n, as', s', hn, heval', -⟩
        cases hn
        rw [heval] at heval'
        cases heval'

/-- A run that does not return exceeds the depth. -/
theorem run_ok_or_tooDeep {o : CompileOptions} {es : List Expr} (h : (lower o es).failure = none)
    (checked : Bool) (depth : Nat) :
    (∃ out, Machine.run checked (lower o es).module depth = .ok (0, out)) ∨
      Machine.run checked (lower o es).module depth = .error .tooDeep := by
  cases depth with
  | zero => exact .inr (run_zero h checked)
  | succ depth =>
    rcases run_program h checked depth with ⟨as, s, -, hrun⟩ | ⟨s, -, hrun⟩
    · exact .inl ⟨s.out, hrun⟩
    · exact .inr hrun

end Calls

end Meaning

open Meaning

/-- Lowering preserves meaning: a program that is lowered without a failure terminates with some
output if and only if running its module does, and then the entry function returns zero. -/
theorem lower_preserves_meaning {o : CompileOptions} {es : List Expr}
    (h : (lower o es).failure = none) (checked : Bool) :
    (∀ out, (∃ depth status, Machine.run checked (lower o es).module depth = .ok (status, out)) ↔
      Terminates es out) ∧
    ∀ depth status out, Machine.run checked (lower o es).module depth = .ok (status, out) →
      status = 0 := by
  refine ⟨fun out => ⟨?_, ?_⟩, ?_⟩
  · rintro ⟨depth, status, hrun⟩
    obtain ⟨-, n, as, s, -, heval, hout⟩ := (run_eq_ok_iff h checked depth status out).1 hrun
    exact (terminates_iff es out).2 ⟨n, as, s, heval, hout⟩
  · intro hterm
    obtain ⟨n, as, s, heval, hout⟩ := (terminates_iff es out).1 hterm
    refine ⟨n + 1, 0, (run_eq_ok_iff h checked (n + 1) 0 out).2 ?_⟩
    exact ⟨rfl, n, as, s, rfl, heval, hout⟩
  · intro depth status out hrun
    exact ((run_eq_ok_iff h checked depth status out).1 hrun).1

/-- A program that calls a function through a variable after the name of the function has been
defined anew, and that assigns to a variable in a later argument of the call that reads it. -/
def shadowing : List Expr :=
  [.assign {} { name := "inc" } (.function {} [.name { name := "x" }]
      [.call {} { name := "+" } [.name { name := "x" }, .int {} 1]]),
    .assign {} { name := "f" } (.name { name := "inc" }),
    .assign {} { name := "inc" } (.function {} [.name { name := "x" }]
      [.assign {} { name := "dec" } (.function {} [.name { name := "y" }]
        [.call {} { name := "+" } [.name { name := "y" }, .int {} (-1)]]),
        .call {} { name := "dec" } [.name { name := "x" }]]),
    .assign {} { name := "n" } (.int {} 1),
    .call {} { name := "print" }
      [.call {} { name := "+" } [.name { name := "n" }, .assign {} { name := "n" } (.int {} 20)]],
    .call {} { name := "print" } [.call {} { name := "f" } [.name { name := "n" }]],
    .call {} { name := "print" } [.call {} { name := "inc" } [.name { name := "n" }]]]

theorem shadowing_terminates :
    (lower {} shadowing).failure = none ∧ Terminates shadowing "40\n21\n19\n" := by
  have h : (lower {} shadowing).failure = none := by decide +kernel
  have hrun : Machine.run false (lower {} shadowing).module 4 = .ok (0, "40\n21\n19\n") := by
    decide +kernel
  exact ⟨h, ((lower_preserves_meaning h false).1 _).1 ⟨4, 0, hrun⟩⟩

/-- Programs do not go wrong: when the module of a program that is lowered without a failure is run,
no check fails at any depth to which calls may nest. Either the calls nest too deeply for every
depth, or from some depth on the entry function returns zero. -/
theorem lower_safe {o : CompileOptions} {es : List Expr} (h : (lower o es).failure = none) :
    (∀ depth, (∃ out, Machine.run true (lower o es).module depth = .ok (0, out)) ∨
      Machine.run true (lower o es).module depth = .error .tooDeep) ∧
    ((∀ depth, Machine.run true (lower o es).module depth = .error .tooDeep) ∨
      ∃ enough out, ∀ depth, enough ≤ depth →
        Machine.run true (lower o es).module depth = .ok (0, out)) := by
  refine ⟨run_ok_or_tooDeep h true, ?_⟩
  by_cases hterm : ∃ out, Terminates es out
  · obtain ⟨out, as, s, heval, hout⟩ := hterm
    obtain ⟨n, hn⟩ := heval.settles
    refine .inr ⟨n + 1, out, fun depth hdepth => ?_⟩
    obtain ⟨k, rfl⟩ := Nat.exists_eq_add_of_le' (Nat.le_of_add_left_le hdepth)
    exact (run_eq_ok_iff h true (k + 1) 0 out).2
      ⟨rfl, k, as, s, rfl, hn k (Nat.le_of_succ_le_succ hdepth), hout⟩
  · refine .inl fun depth => ?_
    rcases run_ok_or_tooDeep h true depth with ⟨out, hrun⟩ | hrun
    · obtain ⟨-, n, as, s, -, heval, hout⟩ := (run_eq_ok_iff h true depth 0 out).1 hrun
      exact absurd ⟨out, (terminates_iff es out).2 ⟨n, as, s, heval, hout⟩⟩ hterm
    · exact hrun

theorem shadowing_safe : (lower {} shadowing).failure = none ∧
    ∀ depth, (∃ out, Machine.run true (lower {} shadowing).module depth = .ok (0, out)) ∨
      Machine.run true (lower {} shadowing).module depth = .error .tooDeep := by
  have h : (lower {} shadowing).failure = none := by decide +kernel
  exact ⟨h, (lower_safe h).1⟩

end Wordlang
