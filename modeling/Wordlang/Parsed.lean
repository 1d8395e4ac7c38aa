/-!
# Reading with progress

A parser that returns what it left over together with the fact that this is shorter can be called
again on it, and the recursion ends by itself.
-/

namespace Wordlang

/-- What a parser read and the items it left over, fewer than `bound`. -/
structure Parsed (τ α : Type) (bound : Nat) where
  /-- What was read. -/
  value : α
  /-- The items left over. -/
  rest : List τ
  /-- There are fewer of them. -/
  rest_lt : rest.length < bound

/-- Changes what was read, and allows more items to be left over. -/
def Parsed.map {τ α β : Type} {m n : Nat} (p : Parsed τ α m) (f : α → β) (h : m ≤ n) :
    Parsed τ β n :=
  ⟨f p.value, p.rest, Nat.lt_of_lt_of_le p.rest_lt h⟩

end Wordlang
