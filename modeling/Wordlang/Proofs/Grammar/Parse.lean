import Wordlang.Expr.Parse
import Wordlang.Proofs.Grammar.Unambiguous

/-!
# The parser and the grammar

The parser finds every derivation (`expr_yield` and its companions, by induction on the derivation)
and reads nothing else (`expr_sound` and its companions, by induction on the length of the text).
Together with the uniqueness of derivations this says what parsing a source gives.

The equations at the start describe one step of each parser without the bound that it carries.
-/

namespace Wordlang.Parse

open Grammar

variable {late : SyntaxError}

/-- What a parser read and what it left over, without the bound on it. -/
def result {α : Type} {n : Nat} (o : Outcome α n) : Except SyntaxError (α × List Lexeme) :=
  o.map fun p => (p.value, p.rest)

theorem result_map {α β : Type} {m n : Nat} (o : Outcome α m) (f : α → β) (h : m ≤ n) :
    result (o.map (·.map f h)) = (result o).map (Prod.map f id) := by
  cases o <;> rfl

theorem result_lt {α : Type} {n : Nat} {o : Outcome α n} {x : α} {rest : List Lexeme}
    (h : result o = .ok (x, rest)) : rest.length < n := by
  cases o with
  | error e => cases h
  | ok p =>
    cases h
    exact p.rest_lt

theorem result_token (t : Token) (l : Lexeme) (ls : List Lexeme) :
    result (token late t (l :: ls)) =
      if l.token = t then .ok ((), ls) else unexpected (.token t) l := by
  by_cases h : l.token = t
  · rw [token, if_pos h, if_pos h]; rfl
  · rw [token, if_neg h, if_neg h]; rfl

theorem result_names {l m : Lexeme} (hl : l.token = .name) (ls : List Lexeme) :
    result (names late (l :: m :: ls)) =
      if m.token = .comma then
        (result (names late ls)).map (Prod.map (Expr.name (ident l) :: ·) id)
      else if m.token = .closeParen then .ok ([.name (ident l)], ls)
      else unexpected (.token .closeParen) m := by
  rw [names]
  simp only [hl, if_true]
  by_cases hm : m.token = .comma
  · simp only [hm, if_true]
    exact result_map ..
  · by_cases hc : m.token = .closeParen
    · simp only [hc, if_true]
      rfl
    · simp only [hm, hc, if_false]
      rfl

theorem result_params (l : Lexeme) (ls : List Lexeme) :
    result (params late (l :: ls)) =
      if l.token = .closeParen then .ok ([], ls) else result (names late (l :: ls)) := by
  by_cases h : l.token = .closeParen
  · rw [params, if_pos h, if_pos h]; rfl
  · rw [params, if_neg h, if_neg h]

theorem result_expr_assign {l m : Lexeme} (hl : l.token = .name) (hm : m.token = .assign)
    (ls : List Lexeme) :
    result (expr late (l :: m :: ls)) =
      (result (expr late ls)).map (Prod.map (Expr.assign l.pos (ident l)) id) := by
  rw [expr]
  simp only [hl, hm]
  exact result_map ..

theorem result_expr_call {l m : Lexeme} (hl : l.token = .name) (hm : m.token = .openParen)
    (ls : List Lexeme) :
    result (expr late (l :: m :: ls)) =
      (result (args late ls)).map (Prod.map (Expr.call l.pos (ident l)) id) := by
  rw [expr]
  simp only [hl, hm]
  exact result_map ..

theorem result_expr_name {l m : Lexeme} (hl : l.token = .name) (ha : m.token ≠ .assign)
    (hp : m.token ≠ .openParen) (ls : List Lexeme) :
    result (expr late (l :: m :: ls)) = result (infixTail late (.name (ident l)) (m :: ls)) := by
  rw [expr]
  simp only [hl]

theorem result_expr_int {l : Lexeme} (hl : l.token = .int) (ls : List Lexeme) :
    result (expr late (l :: ls)) = result (infixTail late (.int l.pos (intValue l)) ls) := by
  rw [expr.eq_def]
  simp only [hl]

theorem result_expr_string {l : Lexeme} (hl : l.token = .string) (ls : List Lexeme) :
    result (expr late (l :: ls)) = result (infixTail late (.string l.pos l.text) ls) := by
  rw [expr.eq_def]
  simp only [hl]

theorem result_expr_function {l : Lexeme} (hl : l.token = .openParen) (ls : List Lexeme) :
    result (expr late (l :: ls)) = result (function late l.pos ls) := by
  rw [expr.eq_def]
  simp only [hl]

theorem result_infixTail (x : Expr) (l : Lexeme) (ls : List Lexeme) :
    result (infixTail late x (l :: ls)) =
      if l.token = .name then
        (result (expr late ls)).map (Prod.map (fun y => .call x.pos (ident l) [x, y]) id)
      else .ok (x, l :: ls) := by
  rw [infixTail]
  by_cases h : l.token = .name
  · simp only [h, if_true]
    exact result_map ..
  · simp only [h, if_false]
    rfl

theorem result_args (l : Lexeme) (ls : List Lexeme) :
    result (args late (l :: ls)) =
      if l.token = .closeParen then .ok ([], ls) else result (argList late (l :: ls)) := by
  rw [args]
  by_cases h : l.token = .closeParen
  · simp only [h, if_true]
    rfl
  · simp only [h, if_false]

theorem result_argList (ls : List Lexeme) :
    result (argList late ls) = (result (expr late ls)).bind fun
      | (_, []) => .error late
      | (x, l :: rest) =>
        if l.token = .comma then (result (argList late rest)).map (Prod.map (x :: ·) id)
        else if l.token = .closeParen then .ok ([x], rest)
        else unexpected (.token .closeParen) l := by
  rw [argList]
  cases expr late ls with
  | error e => rfl
  | ok p =>
    obtain ⟨x, rest, h⟩ := p
    cases rest with
    | nil => rfl
    | cons l rest =>
      simp only [bind, Except.bind, result, Except.map]
      by_cases hm : l.token = .comma
      · simp only [hm, if_true]
        cases argList late rest <;> rfl
      · by_cases hc : l.token = .closeParen
        · simp only [hc, if_true]
          rfl
        · simp only [hm, hc, if_false]
          rfl

theorem result_exprs_of_stop {close : Token} {l : Lexeme} (h : l.token = close ∨ l.token = .eof)
    (ls : List Lexeme) : result (exprs late close (l :: ls)) = .ok ([], l :: ls) := by
  rw [exprs]
  simp only [h, if_true]
  rfl

theorem result_exprs {close : Token} {l : Lexeme} (h : ¬ (l.token = close ∨ l.token = .eof))
    (ls : List Lexeme) :
    result (exprs late close (l :: ls)) = (result (expr late (l :: ls))).bind fun
      | (_, []) => .error late
      | (x, m :: rest) =>
        if m.token = .semicolon then (result (exprs late close rest)).map (Prod.map (x :: ·) id)
        else .ok ([x], m :: rest) := by
  rw [exprs]
  simp only [h, if_false]
  cases expr late (l :: ls) with
  | error e => rfl
  | ok p =>
    obtain ⟨x, rest, hr⟩ := p
    cases rest with
    | nil => rfl
    | cons m rest =>
      simp only [bind, Except.bind, result, Except.map]
      by_cases hm : m.token = .semicolon
      · simp only [hm, if_true]
        cases exprs late close rest <;> rfl
      · simp only [hm, if_false]

theorem result_function (pos : Position) (ls : List Lexeme) :
    result (function late pos ls) =
      (result (params late ls)).bind fun (ps, r₁) =>
      (result (token late .openBrace r₁)).bind fun (_, r₂) =>
      (result (exprs late .closeBrace r₂)).bind fun (body, r₃) =>
      (result (token late .closeBrace r₃)).bind fun (_, r₄) =>
      .ok (.function pos ps body, r₄) := by
  rw [function]
  cases params late ls with
  | error e => rfl
  | ok ps =>
    simp only [result, bind, Except.bind, Except.map]
    cases token late .openBrace ps.rest with
    | error e => rfl
    | ok opened =>
      dsimp only
      cases exprs late .closeBrace opened.rest with
      | error e => rfl
      | ok body =>
        dsimp only
        cases token late .closeBrace body.rest <;> rfl

theorem program_eq (ls : List Lexeme) :
    program late ls = (result (exprs late .eof ls)).bind fun
      | (_, []) => .error late
      | (es, l :: _) => if l.token = .eof then .ok es else unexpected .separator l := by
  rw [program]
  cases exprs late .eof ls with
  | error e => rfl
  | ok p =>
    obtain ⟨es, rest, h⟩ := p
    cases rest <;> rfl

/-- The value of an integer literal is that of its digits. -/
theorem decimal_eq_ofDigits (cs : List Char) :
    decimal cs = Nat.ofDigits 10 (cs.map fun c => c.toNat - '0'.toNat).reverse := by
  have h : ∀ n, cs.foldl (fun n c => n * 10 + (c.toNat - '0'.toNat)) n =
      n * 10 ^ cs.length + Nat.ofDigits 10 (cs.map fun c => c.toNat - '0'.toNat).reverse := by
    induction cs with
    | nil => intro n; simp
    | cons c cs ih =>
      intro n
      rw [List.foldl_cons, ih, List.map_cons, List.reverse_cons, Nat.ofDigits_append,
        List.length_reverse, List.length_map, Nat.ofDigits_singleton, List.length_cons, pow_succ]
      ring
  simpa [decimal] using h 0

/-- The value of an integer literal is that of its digits. -/
theorem intValue_eq (l : Lexeme) : intValue l = Int32.ofNat (decimalValue l.text) := by
  rw [intValue, decimal_eq_ofDigits, decimalValue]

/-! ## Every derivation is found -/

theorem names_yield (ns : NameList) (rest : List Lexeme) :
    result (names late (ns.yield ++ rest)) = .ok (ns.trees, rest) := by
  induction ns with
  | last name close =>
    show result (names late (name.val :: close.val :: rest)) = _
    rw [result_names name.property, if_neg (by rw [close.property]; decide),
      if_pos close.property]
    rfl
  | more name comma ns ih =>
    show result (names late (name.val :: comma.val :: (ns.yield ++ rest))) = _
    rw [result_names name.property, if_pos comma.property, ih]
    rfl

theorem params_yield (ps : Params) (rest : List Lexeme) :
    result (params late (ps.yield ++ rest)) = .ok (ps.trees, rest) := by
  cases ps with
  | empty close =>
    show result (params late (close.val :: rest)) = _
    rw [result_params, if_pos close.property]
    rfl
  | list ns =>
    obtain ⟨l, ls, hls⟩ := ns.yield_eq_cons
    have h : result (names late (ns.yield ++ rest)) = .ok (ns.trees, rest) := names_yield ns rest
    show result (params late (ns.yield ++ rest)) = .ok (ns.trees, rest)
    rw [hls, List.cons_append] at h ⊢
    rw [result_params, if_neg (by rw [l.property]; decide), h]

/-- An atom that no assignment and no call starts with is followed by an infix tail. -/
theorem atom_yield (a : Atom) {l : Lexeme} (ha : l.token ≠ .assign) (hp : l.token ≠ .openParen)
    (rest : List Lexeme) :
    result (expr late (a.lexeme :: l :: rest)) = result (infixTail late a.tree (l :: rest)) := by
  cases a with
  | name n => exact result_expr_name n.property ha hp rest
  | int n =>
    rw [Atom.lexeme, result_expr_int n.property, intValue_eq]
    rfl
  | string n => exact result_expr_string n.property _

theorem argList_of_expr {e : Phrase} {l : Lexeme} {rest : List Lexeme}
    (h : result (expr late (e.yield ++ l :: rest)) = .ok (e.tree, l :: rest)) :
    result (argList late (e.yield ++ l :: rest)) =
      if l.token = .comma then (result (argList late rest)).map (Prod.map (e.tree :: ·) id)
      else if l.token = .closeParen then .ok ([e.tree], rest)
      else unexpected (.token .closeParen) l := by
  rw [result_argList, h]
  rfl

theorem exprs_of_expr {e : Phrase} {stop : Token} (hs : stop ∈ [Token.closeBrace, .eof])
    {l : Lexeme} {rest : List Lexeme}
    (h : result (expr late (e.yield ++ l :: rest)) = .ok (e.tree, l :: rest)) :
    result (exprs late stop (e.yield ++ l :: rest)) =
      if l.token = .semicolon then
        (result (exprs late stop rest)).map (Prod.map (e.tree :: ·) id)
      else .ok ([e.tree], l :: rest) := by
  obtain ⟨m, ms, hm, hms, -⟩ := Phrase.yield_eq_cons e
  have hstop : ¬ (m.token = stop ∨ m.token = .eof) := by
    rintro (hc | hc)
    · exact hms.token_ne (List.mem_of_mem_drop (i := 3) hs) hc
    · exact hms.token_ne (by simp) hc
  rw [hm, List.cons_append] at h ⊢
  rw [result_exprs hstop, h]
  rfl

mutual

theorem expr_yield (p : Phrase) {rest : List Lexeme} (h : Follows rest) :
    result (expr late (p.yield ++ rest)) = .ok (p.tree, rest) := by
  match p with
  | .assign name sign value =>
    show result (expr late (name.val :: sign.val :: (value.yield ++ rest))) = _
    rw [result_expr_assign name.property sign.property, expr_yield value h]
    rfl
  | .call name paren args =>
    show result (expr late (name.val :: paren.val :: (args.yield ++ rest))) = _
    rw [result_expr_call name.property paren.property, args_yield args rest]
    rfl
  | .function paren params brace body close =>
    have hs : (Phrase.function paren params brace body close).yield ++ rest =
        paren.val :: (params.yield ++ brace.val :: (body.yield ++ close.val :: rest)) := by
      simp [Phrase.yield]
    have hb := block_yield body close.property (by simp) rest
    rw [hs, result_expr_function paren.property, result_function, params_yield]
    simp only [Except.bind]
    rw [result_token, if_pos brace.property]
    simp only [hb]
    rw [result_token, if_pos close.property]
    rfl
  | .atom a =>
    obtain ⟨l, rest, rfl, hl⟩ := h
    have hn : l.token ≠ .name ∧ l.token ≠ .assign ∧ l.token ≠ .openParen := by
      refine ⟨?_, ?_, ?_⟩ <;> (intro hc; rw [hc] at hl; simp at hl)
    show result (expr late (a.lexeme :: l :: rest)) = _
    rw [atom_yield a hn.2.1 hn.2.2, result_infixTail, if_neg hn.1]
    rfl
  | .operation a op rhs =>
    show result (expr late (a.lexeme :: op.val :: (rhs.yield ++ rest))) = _
    rw [atom_yield a (by rw [op.property]; decide) (by rw [op.property]; decide),
      result_infixTail, if_pos op.property, expr_yield rhs h, a.pos_tree]
    rfl

theorem args_yield (a : Args) (rest : List Lexeme) :
    result (args late (a.yield ++ rest)) = .ok (a.trees, rest) := by
  match a with
  | .empty close =>
    show result (args late (close.val :: rest)) = _
    rw [result_args, if_pos close.property]
    rfl
  | .list list =>
    have h := argList_yield list rest
    obtain ⟨l, ls, hls, hl⟩ := list.yield_eq_cons
    show result (args late (list.yield ++ rest)) = .ok (list.trees, rest)
    rw [hls, List.cons_append] at h ⊢
    rw [result_args, if_neg (hl.token_ne (by simp)), h]

theorem argList_yield (a : ArgList) (rest : List Lexeme) :
    result (argList late (a.yield ++ rest)) = .ok (a.trees, rest) := by
  match a with
  | .last e close =>
    rw [ArgList.yield, List.append_assoc, List.singleton_append,
      argList_of_expr (expr_yield e ⟨_, _, rfl, by simp [close.property]⟩),
      if_neg (by rw [close.property]; decide), if_pos close.property]
    rfl
  | .more e comma list =>
    rw [ArgList.yield, List.append_assoc, List.cons_append,
      argList_of_expr (expr_yield e ⟨_, _, rfl, by simp [comma.property]⟩),
      if_pos comma.property, argList_yield list rest]
    rfl

theorem block_yield (b : Block) {stop : Token} {l : Lexeme} (hl : l.token = stop)
    (hs : stop ∈ [Token.closeBrace, .eof]) (rest : List Lexeme) :
    result (exprs late stop (b.yield ++ l :: rest)) = .ok (b.trees, l :: rest) := by
  match b with
  | .empty => exact result_exprs_of_stop (.inl hl) rest
  | .list list => exact phrases_yield list hl hs rest

theorem phrases_yield (ps : Phrases) {stop : Token} {l : Lexeme} (hl : l.token = stop)
    (hs : stop ∈ [Token.closeBrace, .eof]) (rest : List Lexeme) :
    result (exprs late stop (ps.yield ++ l :: rest)) = .ok (ps.trees, l :: rest) := by
  match ps with
  | .last e =>
    have hf : l.token ∈ [Token.semicolon, .comma, .closeParen, .closeBrace, .eof] := by
      rw [hl]
      exact List.mem_of_mem_drop (i := 3) hs
    have hn : l.token ≠ .semicolon := by
      intro hc
      rw [← hl, hc] at hs
      simp at hs
    rw [Phrases.yield, exprs_of_expr hs (expr_yield e ⟨_, _, rfl, hf⟩), if_neg hn]
    rfl
  | .ended e semicolon =>
    rw [Phrases.yield, List.append_assoc, List.singleton_append,
      exprs_of_expr hs (expr_yield e ⟨_, _, rfl, by simp [semicolon.property]⟩),
      if_pos semicolon.property, result_exprs_of_stop (.inl hl)]
    rfl
  | .more e semicolon list =>
    rw [Phrases.yield, List.append_assoc, List.cons_append,
      exprs_of_expr hs (expr_yield e ⟨_, _, rfl, by simp [semicolon.property]⟩),
      if_pos semicolon.property, phrases_yield list hl hs rest]
    rfl

end

/-! ## Whatever is read has a derivation -/

/-- What `Except.map` gives is what it was given. -/
theorem map_eq_ok {α β : Type} {r : Except SyntaxError (α × List Lexeme)} {f : α → β}
    {y : β} {rest : List Lexeme} (h : r.map (Prod.map f id) = .ok (y, rest)) :
    ∃ x, r = .ok (x, rest) ∧ f x = y := by
  cases r with
  | error e => cases h
  | ok p =>
    cases h
    exact ⟨p.1, rfl, rfl⟩

theorem bind_eq_ok {α β : Type} {r : Except SyntaxError α} {f : α → Except SyntaxError β} {y : β}
    (h : r.bind f = .ok y) : ∃ x, r = .ok x ∧ f x = .ok y := by
  cases r with
  | error e => cases h
  | ok x => exact ⟨x, rfl, h⟩

theorem token_sound {t : Token} {ls rest : List Lexeme} {u : Unit}
    (h : result (token late t ls) = .ok (u, rest)) :
    ∃ l : Terminal t, ls = l.val :: rest := by
  cases ls with
  | nil => cases h
  | cons l ls =>
    rw [result_token] at h
    split at h
    · next hl =>
      cases h
      exact ⟨⟨l, hl⟩, rfl⟩
    · cases h

theorem names_sound {ls rest : List Lexeme} {es : List Expr}
    (h : result (names late ls) = .ok (es, rest)) :
    ∃ ns : NameList, ns.trees = es ∧ ns.yield ++ rest = ls := by
  match ls with
  | [] => cases h
  | l :: ls =>
    by_cases hl : l.token = .name
    · match ls with
      | [] =>
        rw [names.eq_def] at h
        simp only [hl, if_true] at h
        cases h
      | m :: ls =>
        rw [result_names hl] at h
        split at h
        · next hm =>
          obtain ⟨es', h', rfl⟩ := map_eq_ok h
          obtain ⟨ns, rfl, rfl⟩ := names_sound h'
          exact ⟨.more ⟨l, hl⟩ ⟨m, hm⟩ ns, rfl, rfl⟩
        · split at h
          · next hm =>
            cases h
            exact ⟨.last ⟨l, hl⟩ ⟨m, hm⟩, rfl, rfl⟩
          · cases h
    · rw [names.eq_def] at h
      simp only [hl, if_false] at h
      cases h
termination_by ls.length

theorem params_sound {ls rest : List Lexeme} {es : List Expr}
    (h : result (params late ls) = .ok (es, rest)) :
    ∃ ps : Params, ps.trees = es ∧ ps.yield ++ rest = ls := by
  match ls with
  | [] => cases h
  | l :: ls =>
    rw [result_params] at h
    split at h
    · next hl =>
      cases h
      exact ⟨.empty ⟨l, hl⟩, rfl, rfl⟩
    · obtain ⟨ns, hns, hy⟩ := names_sound h
      exact ⟨.list ns, hns, hy⟩

mutual

theorem expr_sound {ls rest : List Lexeme} {e : Expr}
    (h : result (expr late ls) = .ok (e, rest)) :
    ∃ p : Phrase, p.tree = e ∧ p.yield ++ rest = ls := by
  match ls with
  | [] =>
    rw [expr.eq_def] at h
    cases h
  | l :: ls =>
    cases hl : l.token
    case name =>
      match ls with
      | [] =>
        rw [expr.eq_def] at h
        simp only [hl] at h
        cases h
      | m :: ls =>
        by_cases ha : m.token = .assign
        · rw [result_expr_assign hl ha] at h
          obtain ⟨x, hx, rfl⟩ := map_eq_ok h
          obtain ⟨p, rfl, rfl⟩ := expr_sound hx
          exact ⟨.assign ⟨l, hl⟩ ⟨m, ha⟩ p, rfl, rfl⟩
        · by_cases hp : m.token = .openParen
          · rw [result_expr_call hl hp] at h
            obtain ⟨x, hx, rfl⟩ := map_eq_ok h
            obtain ⟨a, rfl, rfl⟩ := args_sound hx
            exact ⟨.call ⟨l, hl⟩ ⟨m, hp⟩ a, rfl, rfl⟩
          · rw [result_expr_name hl ha hp] at h
            exact infixTail_sound (.name ⟨l, hl⟩) h
    case int =>
      rw [result_expr_int hl, intValue_eq] at h
      exact infixTail_sound (.int ⟨l, hl⟩) h
    case string =>
      rw [result_expr_string hl] at h
      exact infixTail_sound (.string ⟨l, hl⟩) h
    case openParen =>
      rw [result_expr_function hl] at h
      exact function_sound hl h
    all_goals
      rw [expr.eq_def] at h
      simp only [hl] at h
      cases h
termination_by (ls.length, 0)

theorem infixTail_sound (a : Atom) {ls rest : List Lexeme} {e : Expr}
    (h : result (infixTail late a.tree ls) = .ok (e, rest)) :
    ∃ p : Phrase, p.tree = e ∧ p.yield ++ rest = a.lexeme :: ls := by
  match ls with
  | [] =>
    rw [infixTail] at h
    cases h
  | l :: ls =>
    rw [result_infixTail] at h
    split at h
    · next hl =>
      obtain ⟨x, hx, rfl⟩ := map_eq_ok h
      obtain ⟨p, rfl, rfl⟩ := expr_sound hx
      refine ⟨.operation a ⟨l, hl⟩ p, ?_, rfl⟩
      rw [a.pos_tree]
      rfl
    · cases h
      exact ⟨.atom a, rfl, rfl⟩
termination_by (ls.length, 1)

theorem args_sound {ls rest : List Lexeme} {es : List Expr}
    (h : result (args late ls) = .ok (es, rest)) :
    ∃ a : Args, a.trees = es ∧ a.yield ++ rest = ls := by
  match ls with
  | [] =>
    rw [args] at h
    cases h
  | l :: ls =>
    rw [result_args] at h
    split at h
    · next hl =>
      cases h
      exact ⟨.empty ⟨l, hl⟩, rfl, rfl⟩
    · obtain ⟨a, ha, hy⟩ := argList_sound h
      exact ⟨.list a, ha, hy⟩
termination_by (ls.length, 2)

theorem argList_sound {ls rest : List Lexeme} {es : List Expr}
    (h : result (argList late ls) = .ok (es, rest)) :
    ∃ a : ArgList, a.trees = es ∧ a.yield ++ rest = ls := by
  rw [result_argList] at h
  obtain ⟨⟨x, r⟩, hx, h⟩ := bind_eq_ok h
  obtain ⟨p, rfl, hp⟩ := expr_sound hx
  match r with
  | [] => cases h
  | l :: r =>
    have hlen : r.length < ls.length := by
      rw [← hp]
      simp only [List.length_append, List.length_cons]
      omega
    dsimp only at h
    split at h
    · next hl =>
      obtain ⟨x, hx, rfl⟩ := map_eq_ok h
      obtain ⟨a, rfl, rfl⟩ := argList_sound hx
      exact ⟨.more p ⟨l, hl⟩ a, rfl, by simp [ArgList.yield, ← hp]⟩
    · split at h
      · next hl =>
        cases h
        exact ⟨.last p ⟨l, hl⟩, rfl, by simp [ArgList.yield, ← hp]⟩
      · cases h
termination_by (ls.length, 1)

theorem function_sound {l : Lexeme} (hl : l.token = .openParen) {ls rest : List Lexeme} {e : Expr}
    (h : result (function late l.pos ls) = .ok (e, rest)) :
    ∃ p : Phrase, p.tree = e ∧ p.yield ++ rest = l :: ls := by
  rw [result_function] at h
  obtain ⟨⟨ps, r₁⟩, h₁, h⟩ := bind_eq_ok h
  obtain ⟨⟨u, r₂⟩, h₂, h⟩ := bind_eq_ok h
  obtain ⟨⟨es, r₃⟩, h₃, h⟩ := bind_eq_ok h
  obtain ⟨⟨u', r₄⟩, h₄, h⟩ := bind_eq_ok h
  cases h
  obtain ⟨ps, rfl, rfl⟩ := params_sound h₁
  obtain ⟨brace, rfl⟩ := token_sound h₂
  obtain ⟨close, rfl⟩ := token_sound h₄
  have hlen : r₂.length < (ps.yield ++ brace.val :: r₂).length := by
    simp only [List.length_append, List.length_cons]
    omega
  obtain ⟨b, rfl, rfl⟩ := exprs_sound h₃
  exact ⟨.function ⟨l, hl⟩ ps brace b close, rfl, by simp [Phrase.yield]⟩
termination_by (ls.length, 0)

theorem exprs_sound {stop : Token} {ls rest : List Lexeme} {es : List Expr}
    (h : result (exprs late stop ls) = .ok (es, rest)) :
    ∃ b : Block, b.trees = es ∧ b.yield ++ rest = ls := by
  match ls with
  | [] =>
    rw [exprs] at h
    cases h
  | l :: ls =>
    by_cases hs : l.token = stop ∨ l.token = .eof
    · rw [result_exprs_of_stop hs] at h
      cases h
      exact ⟨.empty, rfl, rfl⟩
    · rw [result_exprs hs] at h
      obtain ⟨⟨x, r⟩, hx, h⟩ := bind_eq_ok h
      obtain ⟨p, rfl, hp⟩ := expr_sound hx
      match r with
      | [] => cases h
      | m :: r =>
        have hlen : r.length < (l :: ls).length := by
          rw [← hp]
          simp only [List.length_append, List.length_cons]
          omega
        dsimp only at h
        split at h
        · next hm =>
          obtain ⟨x, hx, rfl⟩ := map_eq_ok h
          obtain ⟨b, rfl, rfl⟩ := exprs_sound hx
          match b with
          | .empty =>
            exact ⟨.list (.ended p ⟨m, hm⟩), rfl, by
              simp [Block.yield, Phrases.yield, ← hp]⟩
          | .list b =>
            exact ⟨.list (.more p ⟨m, hm⟩ b), rfl, by
              simp [Block.yield, Phrases.yield, ← hp]⟩
        · cases h
          exact ⟨.list (.last p), rfl, hp⟩
termination_by (ls.length, 1)

end

/-! ## Programs -/

theorem program_yield (p : Grammar.Program) : program late p.yield = .ok p.trees := by
  have h : result (exprs late .eof (p.block.yield ++ [p.stop.val])) =
      .ok (p.block.trees, [p.stop.val]) := block_yield p.block p.stop.property (by simp) []
  rw [program, Grammar.Program.yield]
  cases he : exprs late .eof (p.block.yield ++ [p.stop.val]) with
  | error e => rw [he] at h; cases h
  | ok r =>
    rw [he] at h
    obtain ⟨es, rest, hr⟩ := r
    cases h
    show (if _ then _ else _) = _
    rw [if_pos p.stop.property]
    rfl

theorem program_sound {ls : List Lexeme} {es : List Expr} (h : program late ls = .ok es) :
    ∃ b : Block, ∃ stop : Terminal .eof, ∃ rest,
      b.trees = es ∧ b.yield ++ stop.val :: rest = ls := by
  rw [program] at h
  cases he : exprs late .eof ls with
  | error e => rw [he] at h; cases h
  | ok r =>
    rw [he] at h
    obtain ⟨es', rest, hr⟩ := r
    have hresult : result (exprs late .eof ls) = .ok (es', rest) := by
      rw [he]
      rfl
    obtain ⟨b, rfl, hb⟩ := exprs_sound hresult
    cases rest with
    | nil => cases h
    | cons l rest =>
      simp only [bind, Except.bind] at h
      split at h
      · next hl =>
        cases h
        exact ⟨b, ⟨l, hl⟩, rest, rfl, hb⟩
      · cases h

end Wordlang.Parse

namespace Wordlang

open Grammar

/-! ## The lexemes of a source -/

/-- Only the last lexeme of a text is the end of the input. -/
theorem eq_nil_of_takeAll {stop : Position} {cs : List Located} {before after : List Lexeme}
    {l : Lexeme} (hl : l.token = .eof)
    (h : (takeAll stop cs).map Prod.snd = before ++ l :: after) : after = [] := by
  revert before
  fun_induction takeAll stop cs with
  | case1 cs t =>
    intro before h
    cases before with
    | nil => simpa using (List.cons.inj h).2.symm
    | cons b before => simpa using (List.cons.inj h).2
  | case2 cs t ht =>
    rename_i ih
    intro before h
    cases before with
    | nil =>
      obtain rfl : t.lexeme = l := (List.cons.inj h).1
      exact absurd hl ht
    | cons b before => exact ih (List.cons.inj h).2

/-- The digits of an integer literal spell a number that fits. -/
theorem decimal_cut_le {c : Located} {cs : List Located} (h : (cut c cs).token = .int) :
    decimal (cut c cs).text.toList ≤ maxInt := by
  unfold cut at h ⊢
  split at h
  · next t ht =>
    unfold Token.ofDelimiter? at ht
    split at ht <;> cases ht <;> cases h
  · split at h
    · unfold cutString at h
      split at h
      · cases h
      · split at h <;> cases h
    · split at h
      · simp only [cutWord, classifyWord] at h ⊢
        rw [if_neg ‹_›, if_pos ‹_›, String.toList_ofList]
        split at h
        · cases h
        · split at h
          · split at h
            · assumption
            · cases h
          · split at h <;> cases h
      · cases h

theorem decimal_takeAll_le {stop : Position} {cs : List Located} {l : Lexeme}
    (hm : l ∈ (takeAll stop cs).map Prod.snd) (hl : l.token = .int) :
    decimal l.text.toList ≤ maxInt := by
  have htake : ∀ cs, (take stop cs).lexeme.token = .int →
      decimal (take stop cs).lexeme.text.toList ≤ maxInt := by
    intro cs h
    unfold take at h ⊢
    split at h
    · cases h
    · exact decimal_cut_le h
  fun_induction takeAll stop cs with
  | case1 cs t =>
    obtain rfl : l = (take stop cs).lexeme := by simpa using hm
    exact htake cs hl
  | case2 cs t ht ih =>
    rw [List.map_cons, List.mem_cons] at hm
    rcases hm with rfl | hm
    · exact htake cs hl
    · exact ih hm

namespace Source

/-- The lexemes of a source, up to and including its end. -/
def tokens (s : Source) : List Lexeme := s.lexemes.map Prod.snd

theorem cleanLexemes_eq {ls : List (List LexicalError × Lexeme)} (h : ls.flatMap Prod.fst = []) :
    cleanLexemes ls = (ls.map Prod.snd, none) := by
  induction ls with
  | nil => rfl
  | cons l ls ih =>
    obtain ⟨es, l⟩ := l
    rw [List.flatMap_cons, List.append_eq_nil_iff] at h
    obtain ⟨rfl, h⟩ := h
    simp only [cleanLexemes, ih h, List.map_cons]

/-- Without a lexical error the parser runs on all lexemes of the source. -/
theorem parse_of_clean {s : Source} (h : s.lexicalErrors = []) : s.parse =
    Parse.program ⟨s.stop, .unexpected .expression ⟨.eof, "", s.stop⟩⟩ s.tokens := by
  rw [lexicalErrors, List.append_eq_nil_iff] at h
  simp only [parse, parserInput, h.1, cleanLexemes_eq h.2, tokens]

theorem parse_eq_program {s : Source} (h : s.lexicalErrors = []) :
    ∃ late, s.parse = Parse.program late s.tokens := ⟨_, parse_of_clean h⟩

/-- A source is parsed to `es` if its lexemes have a derivation that stands for `es`, and only
then. -/
theorem parse_eq_ok_iff {s : Source} (h : s.lexicalErrors = []) (es : List Expr) :
    s.parse = .ok es ↔ ∃ d : Grammar.Program, d.yield = s.tokens ∧ d.trees = es := by
  obtain ⟨late, hp⟩ := parse_eq_program h
  rw [hp]
  constructor
  · intro hes
    obtain ⟨b, stop, rest, rfl, hb⟩ := Parse.program_sound hes
    obtain rfl := eq_nil_of_takeAll stop.property hb.symm
    exact ⟨⟨b, stop⟩, hb, rfl⟩
  · rintro ⟨d, hd, rfl⟩
    rw [← hd, Parse.program_yield]

/-- Parsing accepts exactly the grammar. For a source without lexical errors:

* parsing succeeds if and only if the lexemes of the source have a derivation;
* the derivation is then the only one, and the result is the list of expressions it stands for;
* every expression stands where the first lexeme of its part of the source does, and so do the atoms
  and the names in it;
* an integer literal holds the number that its digits spell. -/
theorem parse_derivation (s : Source) (h : s.lexicalErrors = []) :
    ((∃ es, s.parse = .ok es) ↔ ∃ d : Grammar.Program, d.yield = s.tokens) ∧
    (∀ d : Grammar.Program, d.yield = s.tokens →
      s.parse = .ok d.trees ∧ ∀ d' : Grammar.Program, d'.yield = s.tokens → d' = d) ∧
    (∀ p : Phrase, p.yield.head?.map (·.pos) = some p.tree.pos) ∧
    (∀ a : Atom, a.tree.pos = a.lexeme.pos) ∧
    (∀ n : Terminal .name, n.ident.pos = n.val.pos) ∧
    (∀ l ∈ s.tokens, l.token = .int →
      (Int32.ofNat (decimalValue l.text)).toInt = decimalValue l.text) := by
  refine ⟨⟨?_, ?_⟩, ?_, ?_, Atom.pos_tree, fun _ => rfl, ?_⟩
  · rintro ⟨es, hes⟩
    obtain ⟨d, hd, -⟩ := (parse_eq_ok_iff h es).1 hes
    exact ⟨d, hd⟩
  · rintro ⟨d, hd⟩
    exact ⟨d.trees, (parse_eq_ok_iff h _).2 ⟨d, hd, rfl⟩⟩
  · intro d hd
    refine ⟨(parse_eq_ok_iff h _).2 ⟨d, hd, rfl⟩, fun d' hd' => ?_⟩
    exact Program.yield_inj (hd'.trans hd.symm)
  · intro p
    obtain ⟨l, ls, hp, -, hpos⟩ := p.yield_eq_cons
    rw [hp, hpos]
    rfl
  · intro l hl hi
    have hle := decimal_takeAll_le hl hi
    rw [Parse.decimal_eq_ofDigits] at hle
    exact Int32.toInt_ofNat_of_lt (Nat.lt_succ_of_le hle)

/-- A text that uses every kind of phrase. -/
def doubling : Source :=
  .ofBytes "f" (Text.Utf8.ofString "f = (x) { x + x }; s = \"doubled\"; print(f(21))")

/-- The lexeme with the given number, read as one of the kind that is asked for. -/
def doublingLexeme {t : Token} (i : Nat) : Terminal t :=
  ⟨{ doubling.tokens.getD i default with token := t }, rfl⟩

/-- The derivation of the text. -/
def doublingDerivation : Grammar.Program where
  block := .list <|
    .more (.assign (doublingLexeme 0) (doublingLexeme 1) <|
      .function (doublingLexeme 2) (.list (.last (doublingLexeme 3) (doublingLexeme 4)))
        (doublingLexeme 5)
        (.list (.last (.operation (.name (doublingLexeme 6)) (doublingLexeme 7)
          (.atom (.name (doublingLexeme 8))))))
        (doublingLexeme 9)) (doublingLexeme 10) <|
    .more (.assign (doublingLexeme 11) (doublingLexeme 12) (.atom (.string (doublingLexeme 13))))
      (doublingLexeme 14) <|
    .last (.call (doublingLexeme 15) (doublingLexeme 16) (.list (.last
      (.call (doublingLexeme 17) (doublingLexeme 18) (.list (.last
        (.atom (.int (doublingLexeme 19))) (doublingLexeme 20)))) (doublingLexeme 21))))
  stop := doublingLexeme 22

theorem doubling_parse : doubling.lexicalErrors = [] ∧
    doublingDerivation.yield = doubling.tokens ∧ doubling.parse = .ok doublingDerivation.trees := by
  have h : doubling.lexicalErrors = [] := by decide +kernel
  have hd : doublingDerivation.yield = doubling.tokens := by decide +kernel
  exact ⟨h, hd, ((parse_derivation doubling h).2.1 doublingDerivation hd).1⟩

end Source

end Wordlang
