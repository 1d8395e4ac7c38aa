import Wordlang.Proofs.Lowering.Derivation

/-!
# What values refer to

A value that lowering writes refers to a function only if the table lists it, or if it was added by
lowering; and an indirect call is made through the signature of a function of the language. So
nothing refers to the entry function, which no name stands for.
-/

namespace Wordlang

open IR

namespace Lowering

open Builder

/-- The functions that the value refers to satisfy `q`, and the signature through which it calls is
one of a function of the language. -/
structure LinkedValue (q : Nat → Prop) (v : Value) : Prop where
  func : ∀ g, v.aux = .func g → q g
  signature : ∀ s, v.aux = .signature s → IsUser s

/-- The same for the values of a draft, which is one of a function of the language itself. -/
structure LinkedDraft (q : Nat → Prop) (d : Draft) : Prop where
  sig : IsUser d.sig
  code : ∀ v ∈ d.code, LinkedValue q v

/-- The same for what names stand for. -/
structure LinkedEnv (q : Nat → Prop) (env : Env) : Prop where
  funcs : ∀ n c, env.findFunc? n = some c → q c.func ∧ IsUser c.sig
  vars : ∀ s, env.scopes.head? = some s → ∀ v ∈ s.vars, ∀ t, v.sig = some t → IsUser t

variable {q : Nat → Prop} {f k n : Nat} {env : Env}

/-- A value that refers to neither a function nor a signature. -/
theorem LinkedValue.of_aux {v : Value} (hf : ∀ g, v.aux ≠ .func g)
    (hs : ∀ s, v.aux ≠ .signature s) : LinkedValue q v :=
  ⟨fun g h => absurd h (hf g), fun s h => absurd h (hs s)⟩

theorem LinkedEnv.findVar? (h : LinkedEnv q env) {name : String} {v : Binding}
    (hv : env.findVar? name = some v) : ∀ t, v.sig = some t → IsUser t := by
  obtain ⟨s, hs, hsv⟩ := Option.bind_eq_some_iff.1 hv
  exact h.vars s hs v (List.mem_of_find?_eq_some hsv)

theorem LinkedEnv.bound (h : LinkedEnv q env) {v : Binding}
    (hv : ∀ t, v.sig = some t → IsUser t) : LinkedEnv q (bound env v) := by
  obtain ⟨scopes, funcs⟩ := env
  cases scopes with
  | nil => exact h
  | cons s outer =>
    refine ⟨h.funcs, ?_⟩
    rintro t ⟨⟩ w hw
    rcases List.mem_cons.1 hw with rfl | hw
    · exact hv
    · exact h.vars s rfl w (List.mem_of_mem_filter hw)

/-- A function may be entered in the table, and the scope of its body opened. -/
theorem LinkedEnv.body (h : LinkedEnv q env) (hn : q n) (name : String) (names : List Ident) :
    LinkedEnv q (bodyEnv env name n names) := by
  have hopen : LinkedEnv q ((env.defineFunc
      { name, func := n, sig := userSignature names.length }).openScope ("function " ++ name)) := by
    refine ⟨?_, ?_⟩
    · intro m c hc
      have hc' : (env.defineFunc
        { name, func := n, sig := userSignature names.length }).findFunc? m = some c := hc
      rw [Env.findFunc?_defineFunc _ _ rfl] at hc'
      split at hc'
      · cases hc'
        exact ⟨hn, names.length, rfl⟩
      · exact h.funcs m c hc'
    · rintro s ⟨⟩ v hv
      cases hv
  have hspill : ∀ (ps : List Ident) (k : Nat) env, LinkedEnv q env →
      LinkedEnv q (spillEnv n k env ps) := by
    intro ps
    induction ps with
    | nil => exact fun _ _ h => h
    | cons p ps ih => exact fun k env h => ih _ _ (h.bound (by simp))
  exact hspill names 0 _ hopen

theorem linked_readCode (pos : Position) (x : Operand) :
    ∀ v ∈ readCode f pos x, LinkedValue q v := by
  unfold readCode
  split
  · intro v hv
    obtain rfl := List.mem_singleton.1 hv
    exact .of_aux (by simp [loadCode, Draft.placed]) (by simp [loadCode, Draft.placed])
  · simp

theorem linked_readsCode (xs : List (Position × Operand)) :
    ∀ v ∈ readsCode f xs, LinkedValue q v := by
  intro v hv
  obtain ⟨x, -, hx⟩ := List.mem_flatMap.1 hv
  exact linked_readCode x.1 x.2 v hx

theorem linked_storeCode (slot r : ValueRef) (pos : Position) :
    LinkedValue q (storeCode f slot r pos) :=
  .of_aux (by simp [storeCode, Draft.placed]) (by simp [storeCode, Draft.placed])

theorem linked_slotCode (t : Ty) (name : String) (pos : Position) :
    LinkedValue q (slotCode f t name pos) :=
  .of_aux (by simp [slotCode, Draft.placed]) (by simp [slotCode, Draft.placed])

theorem linked_spillCode (k i : Nat) (ps : List Ident) :
    ∀ v ∈ spillCode f k i ps, LinkedValue q v := by
  induction ps generalizing k i with
  | nil => simp [spillCode]
  | cons p ps ih =>
    have harg : LinkedValue q (Draft.placed f (argValue i p.name p.pos) []) :=
      .of_aux (by simp [argValue, Draft.placed]) (by simp [argValue, Draft.placed])
    intro v hv
    rcases List.mem_append.1 hv with hv | hv
    · simp only [List.mem_cons, List.not_mem_nil, or_false] at hv
      rcases hv with rfl | rfl | rfl
      · exact harg
      · exact linked_slotCode _ _ _
      · exact linked_storeCode _ _ _
    · exact ih _ _ v hv

theorem linked_callCode {name : String} {t : Target} {sig : Signature} (henv : LinkedEnv q env)
    (hcalls : Calls env name t sig) (args : List ValueRef) (pos : Position) :
    ∀ v ∈ callCode f k t sig args pos, LinkedValue q v := by
  cases hcalls with
  | direct c hc =>
    intro v hv
    obtain rfl := List.mem_singleton.1 hv
    refine ⟨?_, by simp [Draft.placed]⟩
    rintro g ⟨⟩
    exact (henv.funcs _ c hc).1
  | indirect b sig hc hb hs =>
    intro v hv
    rcases List.mem_pair.1 hv with rfl | rfl
    · exact .of_aux (by simp [loadCode, Draft.placed]) (by simp [loadCode, Draft.placed])
    · refine ⟨by simp [Draft.placed], ?_⟩
      rintro s ⟨⟩
      exact henv.findVar? hb sig hs

/-- What lowering yields is linked: the environment, the operands, and all the code. -/
structure LinkedAll (q : Nat → Prop) (xs : List Operand) (env : Env) (vs : List Value)
    (new : List Draft) : Prop where
  env : LinkedEnv q env
  operands : ∀ x ∈ xs, ∀ t, x.sig = some t → IsUser t
  code : ∀ v ∈ vs, LinkedValue q v
  drafts : ∀ d ∈ new, LinkedDraft q d

mutual

theorem linked_of_lowers {f k n : Nat} {env env' : Env} {e : Expr} {x : Operand} {vs : List Value}
    {new : List Draft} (hq : ∀ m, n ≤ m → q m) (henv : LinkedEnv q env) :
    Lowers f env k n e x env' vs new → LinkedAll q [x] env' vs new
  | .int f k n env pos i => by
    refine ⟨henv, by simp, ?_, by simp⟩
    exact List.forall_mem_singleton.2
      (.of_aux (by simp [constCode, Draft.placed]) (by simp [constCode, Draft.placed]))
  | .string f k n g env pos content => by
    refine ⟨henv, by simp, ?_, by simp⟩
    exact List.forall_mem_singleton.2
      (.of_aux (by simp [globalCode, Draft.placed]) (by simp [globalCode, Draft.placed]))
  | .variable f k n env id v hv =>
    ⟨henv, List.forall_mem_singleton.2 (henv.findVar? hv), by simp, by simp⟩
  | .function f k n env id c hv hc => by
    obtain ⟨hfunc, hsig⟩ := henv.funcs _ c hc
    refine ⟨henv, List.forall_mem_singleton.2 ?_, List.forall_mem_singleton.2 ⟨?_, ?_⟩, by simp⟩
    · rintro t ⟨⟩
      exact hsig
    · rintro g ⟨⟩
      exact hfunc
    · simp [addressCode, Draft.placed]
  | .define f k n env env' p pos target params body names symbol xs last vs new hnames hbody _ _ => by
    have hn := hq n (Nat.le_refl n)
    have hall := linked_of_lowersAll (fun m hm => hq m (by omega))
      (henv.body hn target.name names) hbody
    refine ⟨⟨hall.env.funcs, henv.vars⟩, ?_, ?_, ?_⟩
    · refine List.forall_mem_singleton.2 ?_
      rintro t ⟨⟩
      exact ⟨names.length, rfl⟩
    · refine List.forall_mem_singleton.2 ⟨?_, by simp [addressCode, Draft.placed]⟩
      rintro g ⟨⟩
      exact hn
    · refine List.forall_mem_cons.2 ⟨⟨⟨names.length, rfl⟩, ?_⟩, hall.drafts⟩
      intro v hv
      rcases List.mem_append.1 hv with hv | hv
      · rcases List.mem_append.1 hv with hv | hv
        · cases hv
        · rcases List.mem_append.1 hv with hv | hv
          · exact linked_spillCode _ _ _ v hv
          · exact hall.code v hv
      · exact linked_readCode _ _ v hv
  | .assign f k n env env' pos target e x slot vs ws new hnot he hfree hslot => by
    have hall := linked_of_lowers hq henv he
    have hx := List.forall_mem_singleton.1 hall.operands
    have hws : ∀ v ∈ ws, LinkedValue q v := by
      cases hslot with
      | old v hv ht => simp
      | new hv => exact List.forall_mem_singleton.2 (linked_slotCode _ _ _)
    refine ⟨hall.env.bound hx, List.forall_mem_singleton.2 hx, ?_, hall.drafts⟩
    intro v hv
    rcases List.mem_append.1 hv with hv | hv
    · exact hall.code v hv
    · rcases List.mem_append.1 hv with hv | hv
      · rcases List.mem_append.1 hv with hv | hv
        · exact linked_readCode _ _ v hv
        · exact hws v hv
      · obtain rfl := List.mem_singleton.1 hv
        exact linked_storeCode _ _ _
  | .call f k n env env' pos callee args xs t sig vs ws new hargs hcalls hacc hfit hws => by
    have hall := linked_of_lowersAll hq henv hargs
    refine ⟨hall.env, by simp, ?_, hall.drafts⟩
    intro v hv
    rcases List.mem_append.1 hv with hv | hv
    · exact hall.code v hv
    · rcases List.mem_append.1 hv with hv | hv
      · rw [hws] at hv
        rcases List.mem_append.1 hv with hv | hv
        · exact linked_readsCode xs v hv
        · exact linked_callCode hall.env hcalls _ _ v hv
      · rcases List.mem_pair.1 hv with rfl | rfl
        · exact linked_slotCode _ _ _
        · exact linked_storeCode _ _ _

theorem linked_of_lowersAll {f k n : Nat} {env env' : Env} {es : List Expr}
    {xs : List (Position × Operand)} {vs : List Value} {new : List Draft}
    (hq : ∀ m, n ≤ m → q m) (henv : LinkedEnv q env) :
    LowersAll f env k n es xs env' vs new → LinkedAll q (xs.map (·.2)) env' vs new
  | .nil f k n env => ⟨henv, by simp, by simp, by simp⟩
  | .cons f k n env env' env'' e es x xs vs ws new new' he hes => by
    have hfirst := linked_of_lowers hq henv he
    have hrest := linked_of_lowersAll (fun m hm => hq m (by omega)) hfirst.env hes
    refine ⟨hrest.env, ?_, ?_, ?_⟩
    · exact List.forall_mem_cons.2 ⟨List.forall_mem_singleton.1 hfirst.operands, hrest.operands⟩
    · exact List.forall_mem_append.2 ⟨hfirst.code, hrest.code⟩
    · exact List.forall_mem_append.2 ⟨hfirst.drafts, hrest.drafts⟩

end

/-! ## Whole programs -/

theorem linked_startEnv (h₁ : q 1) (h₂ : q 2) : LinkedEnv q startEnv := by
  refine ⟨?_, ?_⟩
  · intro n c hc
    rw [Env.findFunc?, startEnv, List.find?_cons, List.find?_cons, List.find?_cons] at hc
    split at hc
    · cases hc
      exact ⟨h₂, 1, rfl⟩
    · split at hc
      · cases hc
        exact ⟨h₁, 2, rfl⟩
      · split at hc <;> cases hc
  · rintro s ⟨⟩ v hv
    cases hv

/-- The functions that are there at the start refer to the output function at most. -/
theorem linked_startDrafts : ∀ d ∈ startDrafts, (IsUser d.sig ∨ d.sig = outputSignature) ∧
    ∀ v ∈ d.code, LinkedValue (· ≠ entryPlace) v := by
  have haux : ∀ d ∈ startDrafts, ∀ v ∈ d.code,
      v.aux ∈ [.none, .name "a", .name "b", .name "x", .func 0, .global 0] := by decide
  intro d hd
  refine ⟨?_, fun v hv => ⟨?_, ?_⟩⟩
  · simp only [startDrafts, List.mem_cons, List.not_mem_nil, or_false] at hd
    rcases hd with rfl | rfl | rfl | rfl
    · exact .inr rfl
    · exact .inl ⟨2, rfl⟩
    · exact .inl ⟨1, rfl⟩
    · exact .inl ⟨0, rfl⟩
  · intro g hg
    have hv' := haux d hd v hv
    rw [hg] at hv'
    obtain rfl : g = 0 := by simpa using hv'
    decide
  · intro s hs
    have hv' := haux d hd v hv
    rw [hs] at hv'
    simp at hv'

/-- All functions of a program refer to functions other than the entry function, and call through
signatures of the language. All but the output function have such signatures themselves. -/
theorem linked_program {env' : Env} {es : List Expr} {xs : List (Position × Operand)}
    {vs : List Value} {new : List Draft}
    (h : LowersAll entryPlace startEnv 0 startDrafts.length es xs env' vs new) :
    ∀ d ∈ startDrafts.set entryPlace (entryDraft.append vs) ++ new,
      (IsUser d.sig ∨ d.sig = outputSignature) ∧
        ∀ v ∈ d.code, LinkedValue (· ≠ entryPlace) v := by
  have hall := linked_of_lowersAll (q := (· ≠ entryPlace))
    (fun m hm => Nat.ne_of_gt hm) (linked_startEnv (by decide) (by decide)) h
  refine List.forall_mem_append.2 ⟨?_, fun d hd => ?_⟩
  · intro d hd
    rcases List.mem_or_eq_of_mem_set hd with hd | rfl
    · exact linked_startDrafts d hd
    · exact ⟨.inl ⟨0, rfl⟩, List.forall_mem_append.2 ⟨by simp [entryDraft], hall.code⟩⟩
  · exact ⟨.inl (hall.drafts d hd).sig, (hall.drafts d hd).code⟩

end Lowering

end Wordlang
