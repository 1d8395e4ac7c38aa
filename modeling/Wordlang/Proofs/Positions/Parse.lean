import Wordlang.Proofs.Positions
import Wordlang.Proofs.Shape.Parse

/-!
# Layout does not matter

The parser looks at the kind and at the text of a lexeme and only copies its position. So parsing
lexemes without positions gives what is left of the outcome when positions are forgotten, and sources
with the same tokens are parsed to trees that differ in positions only, or are refused with the same
message.
-/

namespace Wordlang

open Parse

/-! ## Forgetting positions -/

def Lexeme.erase (l : Lexeme) : Lexeme := { l with pos := {} }

def SyntaxFault.erase : SyntaxFault → SyntaxFault
  | .unexpected want found => .unexpected want found.erase
  | fault => fault

def SyntaxError.erase (e : SyntaxError) : SyntaxError := ⟨{}, e.fault.erase⟩

theorem SyntaxFault.message_erase (fault : SyntaxFault) : fault.erase.message = fault.message := by
  cases fault <;> rfl

theorem map_erase_eq {ls ls' : List Lexeme} (h : ls.map Lexeme.key = ls'.map Lexeme.key) :
    ls.map Lexeme.erase = ls'.map Lexeme.erase := by
  have hkey : Lexeme.erase = (fun k : Token × String => ⟨k.1, k.2, {}⟩) ∘ Lexeme.key := rfl
  rw [hkey, ← List.map_map, ← List.map_map, h]

namespace Parse

variable {α β γ δ : Type} {late : SyntaxError}

/-- What is left of what was read and left over, if `g` forgets the positions of what was read. -/
def eraseRead (g : α → β) (o : Except SyntaxError (α × List Lexeme)) :
    Except SyntaxError (β × List Lexeme) :=
  (o.map (Prod.map g (List.map Lexeme.erase))).mapError SyntaxError.erase

theorem eraseRead_map {g : α → β} {h : γ → δ} {f : α → γ} {f' : β → δ} (hf : ∀ x, f' (g x) = h (f x))
    (o : Except SyntaxError (α × List Lexeme)) :
    (eraseRead g o).map (Prod.map f' id) = eraseRead h (o.map (Prod.map f id)) := by
  cases o with
  | error e => rfl
  | ok p =>
    show Except.ok (f' (g p.1), _) = Except.ok (h (f p.1), _)
    rw [hf]
    rfl

theorem eraseRead_bind {g : α → β} {h : γ → δ} {o : Except SyntaxError (α × List Lexeme)}
    {k : α × List Lexeme → Except SyntaxError (γ × List Lexeme)}
    {k' : β × List Lexeme → Except SyntaxError (δ × List Lexeme)}
    (hk : ∀ x r, o = .ok (x, r) → k' (g x, r.map Lexeme.erase) = eraseRead h (k (x, r))) :
    (eraseRead g o).bind k' = eraseRead h (o.bind k) := by
  cases o with
  | error e => rfl
  | ok p => exact hk p.1 p.2 rfl

theorem eraseRead_ite {g : α → β} {c : Prop} [Decidable c]
    {x x' : Except SyntaxError (α × List Lexeme)} {y y' : Except SyntaxError (β × List Lexeme)}
    (h : y = eraseRead g x) (h' : y' = eraseRead g x') :
    (if c then y else y') = eraseRead g (if c then x else x') := by
  split
  · exact h
  · exact h'

theorem token_erase (t : Token) (ls : List Lexeme) :
    result (token late.erase t (ls.map Lexeme.erase)) = eraseRead id (result (token late t ls)) := by
  cases ls with
  | nil => rfl
  | cons l ls =>
    rw [List.map_cons, result_token, result_token]
    exact eraseRead_ite rfl rfl

theorem names_erase (ls : List Lexeme) : result (names late.erase (ls.map Lexeme.erase)) =
    eraseRead Expr.eraseAll (result (names late ls)) := by
  cases ls with
  | nil => rfl
  | cons l ls =>
    by_cases hl : l.token = .name
    · cases ls with
      | nil =>
        rw [List.map_cons, List.map_nil, names.eq_def, names.eq_def]
        simp only [hl, show l.erase.token = l.token from rfl, if_true]
        rfl
      | cons m ls =>
        rw [List.map_cons, List.map_cons, result_names hl, result_names (l := l.erase) hl]
        refine eraseRead_ite ?_ (eraseRead_ite rfl rfl)
        rw [names_erase ls]
        refine eraseRead_map ?_ _
        intro y
        rfl
    · rw [List.map_cons, names.eq_def, names.eq_def]
      simp only [hl, show l.erase.token = l.token from rfl, if_false]
      rfl
termination_by ls.length

theorem params_erase (ls : List Lexeme) : result (params late.erase (ls.map Lexeme.erase)) =
    eraseRead Expr.eraseAll (result (params late ls)) := by
  cases ls with
  | nil => rfl
  | cons l ls =>
    rw [List.map_cons, result_params, result_params]
    exact eraseRead_ite rfl (names_erase (l :: ls))

mutual

theorem expr_erase (ls : List Lexeme) : result (expr late.erase (ls.map Lexeme.erase)) =
    eraseRead Expr.erase (result (expr late ls)) := by
  match ls with
  | [] =>
    rw [List.map_nil, expr.eq_def, expr.eq_def]
    rfl
  | l :: ls =>
    have htoken : l.erase.token = l.token := rfl
    rw [List.map_cons]
    cases hl : l.token
    case name =>
      match ls with
      | [] =>
        rw [List.map_nil, expr.eq_def, expr.eq_def]
        simp only [htoken, hl]
        rfl
      | m :: ls =>
        rw [List.map_cons]
        by_cases ha : m.token = .assign
        · rw [result_expr_assign hl ha, result_expr_assign (l := l.erase) hl (m := m.erase) ha,
            expr_erase ls]
          refine eraseRead_map ?_ _
          intro y
          rfl
        · by_cases hp : m.token = .openParen
          · rw [result_expr_call hl hp, result_expr_call (l := l.erase) hl (m := m.erase) hp,
              args_erase ls]
            refine eraseRead_map ?_ _
            intro y
            rfl
          · rw [result_expr_name hl ha hp, result_expr_name (l := l.erase) hl (m := m.erase) ha hp]
            exact infixTail_erase (.name (ident l)) (m :: ls)
    case int =>
      rw [result_expr_int hl, result_expr_int (l := l.erase) hl]
      exact infixTail_erase (.int l.pos (intValue l)) ls
    case string =>
      rw [result_expr_string hl, result_expr_string (l := l.erase) hl]
      exact infixTail_erase (.string l.pos l.text) ls
    case openParen =>
      rw [result_expr_function hl, result_expr_function (l := l.erase) hl]
      exact function_erase l.pos ls
    all_goals
      rw [expr.eq_def, expr.eq_def]
      simp only [htoken, hl]
      rfl
termination_by (ls.length, 0)

theorem infixTail_erase (x : Expr) (ls : List Lexeme) :
    result (infixTail late.erase x.erase (ls.map Lexeme.erase)) =
      eraseRead Expr.erase (result (infixTail late x ls)) := by
  match ls with
  | [] =>
    rw [List.map_nil, infixTail, infixTail]
    rfl
  | l :: ls =>
    rw [List.map_cons, result_infixTail, result_infixTail]
    refine eraseRead_ite ?_ rfl
    rw [expr_erase ls, Expr.pos_erase]
    refine eraseRead_map ?_ _
    intro y
    rfl
termination_by (ls.length, 1)

theorem args_erase (ls : List Lexeme) : result (args late.erase (ls.map Lexeme.erase)) =
    eraseRead Expr.eraseAll (result (args late ls)) := by
  match ls with
  | [] =>
    rw [List.map_nil, args, args]
    rfl
  | l :: ls =>
    rw [List.map_cons, result_args, result_args]
    exact eraseRead_ite rfl (argList_erase (l :: ls))
termination_by (ls.length, 2)

theorem argList_erase (ls : List Lexeme) : result (argList late.erase (ls.map Lexeme.erase)) =
    eraseRead Expr.eraseAll (result (argList late ls)) := by
  rw [result_argList, result_argList, expr_erase ls]
  refine eraseRead_bind ?_
  intro x r hx
  match r with
  | [] => rfl
  | l :: r =>
    have hlen : r.length < ls.length := Nat.lt_of_succ_lt (result_lt hx)
    refine eraseRead_ite ?_ (eraseRead_ite rfl rfl)
    rw [argList_erase r]
    refine eraseRead_map ?_ _
    intro y
    rfl
termination_by (ls.length, 1)

theorem function_erase (pos : Position) (ls : List Lexeme) :
    result (function late.erase {} (ls.map Lexeme.erase)) =
      eraseRead Expr.erase (result (function late pos ls)) := by
  rw [result_function, result_function, params_erase ls]
  refine eraseRead_bind fun ps r₁ h₁ => ?_
  dsimp only
  rw [token_erase]
  refine eraseRead_bind fun u r₂ h₂ => ?_
  have hlen : r₂.length < ls.length := Nat.lt_trans (result_lt h₂) (result_lt h₁)
  dsimp only
  rw [exprs_erase .closeBrace r₂]
  refine eraseRead_bind fun body r₃ _ => ?_
  dsimp only
  rw [token_erase]
  exact eraseRead_bind fun _ _ _ => rfl
termination_by (ls.length, 0)

theorem exprs_erase (stop : Token) (ls : List Lexeme) :
    result (exprs late.erase stop (ls.map Lexeme.erase)) =
      eraseRead Expr.eraseAll (result (exprs late stop ls)) := by
  match ls with
  | [] =>
    rw [List.map_nil, exprs, exprs]
    rfl
  | l :: ls =>
    by_cases hs : l.token = stop ∨ l.token = .eof
    · rw [List.map_cons, result_exprs_of_stop hs, result_exprs_of_stop (l := l.erase) hs]
      rfl
    · have hexpr := expr_erase (l :: ls)
      rw [List.map_cons] at hexpr ⊢
      rw [result_exprs hs, result_exprs (l := l.erase) hs, hexpr]
      refine eraseRead_bind fun x r hx => ?_
      match r with
      | [] => rfl
      | m :: r =>
        have hlen : r.length < (l :: ls).length := Nat.lt_of_succ_lt (result_lt hx)
        refine eraseRead_ite ?_ rfl
        rw [exprs_erase stop r]
        refine eraseRead_map ?_ _
        intro y
        rfl
termination_by (ls.length, 1)

end

theorem program_erase (ls : List Lexeme) : program late.erase (ls.map Lexeme.erase) =
    ((program late ls).map Expr.eraseAll).mapError SyntaxError.erase := by
  rw [program_eq, program_eq, exprs_erase]
  cases result (exprs late .eof ls) with
  | error e => rfl
  | ok p =>
    obtain ⟨es, r⟩ := p
    cases r with
    | nil => rfl
    | cons l r =>
      show (if l.token = .eof then _ else _) =
        ((if l.token = .eof then _ else _ : Except SyntaxError (List Expr)).map _).mapError _
      split <;> rfl

end Parse

namespace Source

/-- Parsing forgets what positions the tokens of a source have. -/
theorem parse_congr {s s' : Source} (h : s.lexicalErrors = []) (h' : s'.lexicalErrors = [])
    (hkeys : s.tokens.map Lexeme.key = s'.tokens.map Lexeme.key) :
    (s.parse.map Expr.eraseAll).mapError SyntaxError.erase =
      (s'.parse.map Expr.eraseAll).mapError SyntaxError.erase := by
  rw [parse_of_clean h, parse_of_clean h', ← Parse.program_erase, ← Parse.program_erase,
    map_erase_eq hkeys]
  rfl

end Source

end Wordlang
