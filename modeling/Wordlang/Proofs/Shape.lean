import Mathlib.Data.Nat.Digits.Lemmas
import Wordlang.Proofs.Lexical

/-!
# Well-shaped trees

The trees that have a spelling: without placeholders and holes, with names that are words of the
language and no other kind of token, and with literals that can be written down. Positions do not
matter.

`words` spells a well-shaped tree as a list of tokens, each with its literal. Every call is written
with parentheses, and a semicolon stands behind every expression of a sequence.
-/

namespace Wordlang

open Lexical

/-! ## Positions -/

def Ident.erase (id : Ident) : Ident := ⟨{}, id.name⟩

namespace Expr

mutual

/-- The tree without its positions. -/
def erase : Expr → Expr
  | .absent => .absent
  | .int _ n => .int {} n
  | .name id => .name id.erase
  | .string _ content => .string {} content
  | .assign _ target value => .assign {} target.erase (erase value)
  | .call _ callee args => .call {} callee.erase (eraseAll args)
  | .function _ params body => .function {} (eraseAll params) (eraseAll body)
  | .infixTail _ op rhs => .infixTail {} op.erase (erase rhs)
  | .empty _ => .empty {}

/-- The same for a list of trees. -/
def eraseAll : List Expr → List Expr
  | [] => []
  | e :: es => erase e :: eraseAll es

end

end Expr

/-! ## Shapes -/

/-- A word that is a name. -/
structure IsName (name : String) : Prop where
  filled : name ≠ ""
  chars : ∀ c ∈ name.toList, InWord c
  no_sign : name ≠ "@"
  no_int : ¬ Digits name.toList
  no_float : ¬ Decimals name.toList

namespace Expr

/-- A parameter of a function is a name. -/
def IsParameter : Expr → Prop
  | .name id => IsName id.name
  | _ => False

mutual

/-- The tree can be written down. -/
def Shaped : Expr → Prop
  | .int _ n => 0 ≤ n.toInt ∧ n.toInt ≤ 2147483647
  | .name id => IsName id.name
  | .string _ content => content ≠ "" ∧ '"' ∉ content.toList
  | .assign _ target value => IsName target.name ∧ Shaped value
  | .call _ callee args => IsName callee.name ∧ ShapedAll args
  | .function _ params body => (∀ p ∈ params, IsParameter p) ∧ ShapedAll body
  | .absent => False
  | .infixTail .. => False
  | .empty _ => False

/-- Each of the trees can be written down. -/
def ShapedAll : List Expr → Prop
  | [] => True
  | e :: es => Shaped e ∧ ShapedAll es

end

theorem shapedAll_iff (es : List Expr) : ShapedAll es ↔ ∀ e ∈ es, Shaped e := by
  induction es with
  | nil => simp [ShapedAll]
  | cons e es ih => simp [ShapedAll, ih]

theorem IsParameter.eq_name {p : Expr} (h : p.IsParameter) : ∃ id, p = .name id ∧ IsName id.name := by
  cases p with
  | name id => exact ⟨id, rfl, h⟩
  | _ => exact h.elim

theorem IsParameter.shaped {p : Expr} (h : p.IsParameter) : p.Shaped := by
  obtain ⟨id, rfl, hid⟩ := h.eq_name
  exact hid

theorem isParameter_erase (e : Expr) : IsParameter e.erase ↔ IsParameter e := by
  cases e <;> simp [erase, IsParameter, Ident.erase]

theorem forall_isParameter_eraseAll (es : List Expr) :
    (∀ p ∈ eraseAll es, IsParameter p) ↔ ∀ p ∈ es, IsParameter p := by
  induction es with
  | nil => simp [eraseAll]
  | cons e es ih => simp [eraseAll, ih, isParameter_erase]

mutual

theorem shaped_erase : ∀ e : Expr, Shaped e.erase ↔ Shaped e
  | .assign _ target value => by
    simp only [erase, Shaped, Ident.erase, shaped_erase value]
  | .call _ callee args => by
    simp only [erase, Shaped, Ident.erase, shapedAll_eraseAll args]
  | .function _ params body => by
    simp only [erase, Shaped, forall_isParameter_eraseAll params, shapedAll_eraseAll body]
  | .name id => by simp only [erase, Shaped, Ident.erase]
  | .int _ n => by simp only [erase, Shaped]
  | .string _ content => by simp only [erase, Shaped]
  | .absent => by simp only [erase, Shaped]
  | .infixTail .. => by simp only [erase, Shaped]
  | .empty _ => by simp only [erase, Shaped]

theorem shapedAll_eraseAll : ∀ es : List Expr, ShapedAll (eraseAll es) ↔ ShapedAll es
  | [] => by simp only [eraseAll]
  | e :: es => by simp only [eraseAll, ShapedAll, shaped_erase e, shapedAll_eraseAll es]

end

end Expr

/-! ## Spelling -/

namespace Spelling

/-- A delimiter as a token. -/
def mark (c : Char) (t : Token) : Token × String := (t, String.singleton c)

/-- The digits of a number, behind a zero: so there is one also for the number zero. -/
def numeral (n : Nat) : String := String.ofList ('0' :: (Nat.digits 10 n).reverse.map Nat.digitChar)

mutual

/-- The tokens of a tree. -/
def words : Expr → List (Token × String)
  | .int _ n => [(.int, numeral n.toInt.toNat)]
  | .name id => [(.name, id.name)]
  | .string _ content => [(.string, content)]
  | .assign _ target value => (.name, target.name) :: mark '=' .assign :: words value
  | .call _ callee args => (.name, callee.name) :: mark '(' .openParen :: listed args
  | .function _ params body =>
    mark '(' .openParen :: (listed params ++
      mark '\x7b' .openBrace :: (ended body ++ [mark '\x7d' .closeBrace]))
  | .absent => []
  | .infixTail .. => []
  | .empty _ => []

/-- Trees with commas between them and a parenthesis behind. -/
def listed : List Expr → List (Token × String)
  | [] => [mark ')' .closeParen]
  | [e] => words e ++ [mark ')' .closeParen]
  | e :: es => words e ++ mark ',' .comma :: listed es

/-- Trees with a semicolon behind each. -/
def ended : List Expr → List (Token × String)
  | [] => []
  | e :: es => words e ++ mark ';' .semicolon :: ended es

end

/-- The characters of a token with the given literal. -/
def spell : Token × String → List Char
  | (.string, content) => '"' :: (content.toList ++ ['"'])
  | (_, literal) => literal.toList

/-- The text of tokens, with a space behind each. -/
def text (ws : List (Token × String)) : List Char := ws.flatMap fun w => spell w ++ [' ']

end Spelling

end Wordlang
