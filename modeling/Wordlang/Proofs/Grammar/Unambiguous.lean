import Wordlang.Proofs.Grammar

/-!
# The grammar is unambiguous

No two derivations of a program have one yield. Read from the left, the first two lexemes of an
expression tell which alternative it takes, and the lexeme behind it tells where it ends: nothing
that may follow an expression can continue it. So the statements below carry the lexemes that follow
a derivation, and say that these are told apart from it as well.
-/

namespace Wordlang.Grammar

/-- The rest of a text starts with a token that may stand behind an expression. -/
def Follows (ls : List Lexeme) : Prop :=
  ∃ l rest, ls = l :: rest ∧ l.token ∈ [Token.semicolon, .comma, .closeParen, .closeBrace, .eof]

/-- A lexeme that can start an expression. -/
def Starts (l : Lexeme) : Prop := l.token ∈ [Token.name, .int, .string, .openParen]

theorem Follows.cons {l : Lexeme} (rest : List Lexeme)
    (h : l.token ∈ [Token.semicolon, .comma, .closeParen, .closeBrace, .eof]) :
    Follows (l :: rest) :=
  ⟨l, rest, rfl, h⟩

/-- Lexemes of different kinds differ. -/
theorem Terminal.val_ne {t u : Token} (h : t ≠ u) (a : Terminal t) (b : Terminal u) :
    a.val ≠ b.val := by
  intro hab
  apply h
  rw [← a.property, hab, b.property]

/-! ## The first lexeme -/

theorem Atom.starts (a : Atom) : Starts a.lexeme := by
  cases a with
  | name l => simp [Starts, lexeme, l.property]
  | int l => simp [Starts, lexeme, l.property]
  | string l => simp [Starts, lexeme, l.property]

theorem Atom.pos_tree (a : Atom) : a.tree.pos = a.lexeme.pos := by
  cases a <;> rfl

theorem NameList.yield_eq_cons (ns : NameList) :
    ∃ l : Terminal .name, ∃ ls, ns.yield = l.val :: ls := by
  cases ns with
  | last name close => exact ⟨name, _, rfl⟩
  | more name comma rest => exact ⟨name, _, rfl⟩

/-- An expression has a first lexeme, and stands where that does. -/
theorem Phrase.yield_eq_cons (p : Phrase) :
    ∃ l ls, p.yield = l :: ls ∧ Starts l ∧ p.tree.pos = l.pos := by
  cases p with
  | assign name sign value => exact ⟨_, _, rfl, by simp [Starts, name.property], rfl⟩
  | call name paren args => exact ⟨_, _, rfl, by simp [Starts, name.property], rfl⟩
  | function paren params brace body close =>
    exact ⟨_, _, rfl, by simp [Starts, paren.property], rfl⟩
  | atom a => exact ⟨_, _, rfl, a.starts, a.pos_tree⟩
  | operation a op rhs => exact ⟨_, _, rfl, a.starts, rfl⟩

theorem ArgList.yield_eq_cons (a : ArgList) : ∃ l ls, a.yield = l :: ls ∧ Starts l := by
  cases a with
  | last e close =>
    obtain ⟨l, ls, he, hl, -⟩ := e.yield_eq_cons
    exact ⟨l, ls ++ [close.val], by rw [yield, he]; rfl, hl⟩
  | more e comma rest =>
    obtain ⟨l, ls, he, hl, -⟩ := e.yield_eq_cons
    exact ⟨l, ls ++ comma.val :: rest.yield, by rw [yield, he]; rfl, hl⟩

theorem Phrases.yield_eq_cons (ps : Phrases) : ∃ l ls, ps.yield = l :: ls ∧ Starts l := by
  cases ps with
  | last e =>
    obtain ⟨l, ls, he, hl, -⟩ := e.yield_eq_cons
    exact ⟨l, ls, he, hl⟩
  | ended e semicolon =>
    obtain ⟨l, ls, he, hl, -⟩ := e.yield_eq_cons
    exact ⟨l, ls ++ [semicolon.val], by rw [yield, he]; rfl, hl⟩
  | more e semicolon rest =>
    obtain ⟨l, ls, he, hl, -⟩ := e.yield_eq_cons
    exact ⟨l, ls ++ semicolon.val :: rest.yield, by rw [yield, he]; rfl, hl⟩

/-- What can start an expression does not end one. -/
theorem Starts.token_ne {l : Lexeme} (h : Starts l) {t : Token}
    (ht : t ∈ [Token.semicolon, .comma, .closeParen, .closeBrace, .eof]) : l.token ≠ t := by
  rintro rfl
  simp only [Starts, List.mem_cons, List.not_mem_nil, or_false] at h ht
  rcases h with h | h | h | h <;> simp [h] at ht

/-! ## Telling the alternatives apart -/

/-- The alternatives of `expr`. -/
inductive Form where
  /-- `NAME "=" expr`. -/
  | assign
  /-- `NAME "(" args`. -/
  | call
  /-- `"(" params "{" [ exprs ] "}"`. -/
  | function
  /-- `atom`. -/
  | atom
  /-- `atom NAME expr`. -/
  | operation
  deriving DecidableEq

/-- The alternative that the first two tokens call for. -/
def Form.ofTokens (first second : Token) : Form :=
  if first = .openParen then .function
  else if second = .assign then .assign
  else if second = .openParen then .call
  else if second = .name then .operation
  else .atom

/-- The alternative that a derivation takes. -/
def Phrase.form : Phrase → Form
  | .assign .. => .assign
  | .call .. => .call
  | .function .. => .function
  | .atom _ => .atom
  | .operation .. => .operation

theorem Atom.token_ne_openParen (a : Atom) : a.lexeme.token ≠ .openParen := by
  cases a with
  | name l => simp [lexeme, l.property]
  | int l => simp [lexeme, l.property]
  | string l => simp [lexeme, l.property]

theorem Phrase.form_yield (p : Phrase) {rest : List Lexeme} (h : Follows rest) :
    ∃ l m ls, p.yield ++ rest = l :: m :: ls ∧ Form.ofTokens l.token m.token = p.form := by
  cases p with
  | assign name sign value =>
    exact ⟨_, _, _, rfl, by simp [Form.ofTokens, form, name.property, sign.property]⟩
  | call name paren args =>
    exact ⟨_, _, _, rfl, by simp [Form.ofTokens, form, name.property, paren.property]⟩
  | function paren params brace body close =>
    obtain ⟨m, ls, hm⟩ : ∃ m ls, (params.yield ++ brace.val :: (body.yield ++ [close.val])) ++
        rest = m :: ls := List.exists_cons_of_ne_nil (by simp)
    exact ⟨paren.val, m, ls, by rw [← hm]; rfl, by simp [Form.ofTokens, form, paren.property]⟩
  | atom a =>
    obtain ⟨l, rest, rfl, hl⟩ := h
    refine ⟨a.lexeme, l, rest, rfl, ?_⟩
    simp only [List.mem_cons, List.not_mem_nil, or_false] at hl
    rcases hl with hl | hl | hl | hl | hl <;>
      simp [Form.ofTokens, form, a.token_ne_openParen, hl]
  | operation a op rhs =>
    exact ⟨_, _, _, rfl, by simp [Form.ofTokens, form, a.token_ne_openParen, op.property]⟩

/-- Derivations of one text take the same alternative. -/
theorem Phrase.form_eq {p q : Phrase} {r s : List Lexeme} (hr : Follows r) (hs : Follows s)
    (h : p.yield ++ r = q.yield ++ s) : p.form = q.form := by
  obtain ⟨l, m, ls, hp, hpf⟩ := p.form_yield hr
  obtain ⟨l', m', ls', hq, hqf⟩ := q.form_yield hs
  rw [hp, hq, List.cons.injEq, List.cons.injEq] at h
  rw [← hpf, h.1, h.2.1, hqf]

/-! ## Yields are injective -/

theorem Atom.lexeme_inj {a b : Atom} (h : a.lexeme = b.lexeme) : a = b := by
  cases a <;> cases b
  case name.name l m => rw [Subtype.ext h]
  case int.int l m => rw [Subtype.ext h]
  case string.string l m => rw [Subtype.ext h]
  all_goals exact absurd h (Terminal.val_ne (by decide) _ _)

theorem NameList.yield_inj {a b : NameList} {r s : List Lexeme}
    (h : a.yield ++ r = b.yield ++ s) : a = b ∧ r = s := by
  induction a generalizing b with
  | last n c =>
    cases b with
    | last n' c' =>
      simp only [yield, List.cons_append, List.cons.injEq] at h
      exact ⟨by rw [Subtype.ext h.1, Subtype.ext h.2.1], h.2.2⟩
    | more n' c' b =>
      simp only [yield, List.cons_append, List.cons.injEq] at h
      exact absurd h.2.1 (Terminal.val_ne (by decide) _ _)
  | more n c a ih =>
    cases b with
    | last n' c' =>
      simp only [yield, List.cons_append, List.cons.injEq] at h
      exact absurd h.2.1 (Terminal.val_ne (by decide) _ _)
    | more n' c' b =>
      simp only [yield, List.cons_append, List.cons.injEq] at h
      obtain ⟨rfl, hr⟩ := ih h.2.2
      exact ⟨by rw [Subtype.ext h.1, Subtype.ext h.2.1], hr⟩

theorem Params.yield_inj {a b : Params} {r s : List Lexeme}
    (h : a.yield ++ r = b.yield ++ s) : a = b ∧ r = s := by
  cases a with
  | empty c =>
    cases b with
    | empty c' =>
      simp only [yield, List.cons_append, List.cons.injEq] at h
      exact ⟨by rw [Subtype.ext h.1], h.2⟩
    | list ns =>
      obtain ⟨l, ls, hl⟩ := ns.yield_eq_cons
      simp only [yield, hl, List.cons_append, List.cons.injEq] at h
      exact absurd h.1 (Terminal.val_ne (by decide) _ _)
  | list ns =>
    cases b with
    | empty c =>
      obtain ⟨l, ls, hl⟩ := ns.yield_eq_cons
      simp only [yield, hl, List.cons_append, List.cons.injEq] at h
      exact absurd h.1 (Terminal.val_ne (by decide) _ _)
    | list ns' =>
      obtain ⟨rfl, hr⟩ := NameList.yield_inj h
      exact ⟨rfl, hr⟩

mutual

theorem Phrase.yield_inj (p : Phrase) {q : Phrase} {r s : List Lexeme} (hr : Follows r)
    (hs : Follows s) (h : p.yield ++ r = q.yield ++ s) : p = q ∧ r = s := by
  have hf := Phrase.form_eq hr hs h
  match p with
  | .assign n c v =>
    cases q with
    | assign n' c' v' =>
      simp only [Phrase.yield, List.cons_append, List.cons.injEq] at h
      obtain ⟨rfl, hrs⟩ := Phrase.yield_inj v hr hs h.2.2
      exact ⟨by rw [Subtype.ext h.1, Subtype.ext h.2.1], hrs⟩
    | _ => cases hf
  | .call n c a =>
    cases q with
    | call n' c' a' =>
      simp only [Phrase.yield, List.cons_append, List.cons.injEq] at h
      obtain ⟨rfl, hrs⟩ := Args.yield_inj a h.2.2
      exact ⟨by rw [Subtype.ext h.1, Subtype.ext h.2.1], hrs⟩
    | _ => cases hf
  | .function o ps b body c =>
    cases q with
    | function o' ps' b' body' c' =>
      simp only [Phrase.yield, List.cons_append, List.append_assoc, List.cons.injEq] at h
      obtain ⟨rfl, hps⟩ := Params.yield_inj h.2
      rw [List.cons.injEq] at hps
      obtain ⟨rfl, hbody⟩ := Block.yield_inj body (.inl c.property) (.inl c'.property) hps.2
      rw [List.cons.injEq] at hbody
      exact ⟨by rw [Subtype.ext h.1, Subtype.ext hps.1, Subtype.ext hbody.1], hbody.2⟩
    | _ => cases hf
  | .atom a =>
    cases q with
    | atom a' =>
      simp only [Phrase.yield, List.cons_append, List.nil_append, List.cons.injEq] at h
      exact ⟨by rw [Atom.lexeme_inj h.1], h.2⟩
    | _ => cases hf
  | .operation a op v =>
    cases q with
    | operation a' op' v' =>
      simp only [Phrase.yield, List.cons_append, List.cons.injEq] at h
      obtain ⟨rfl, hrs⟩ := Phrase.yield_inj v hr hs h.2.2
      exact ⟨by rw [Atom.lexeme_inj h.1, Subtype.ext h.2.1], hrs⟩
    | _ => cases hf

theorem Args.yield_inj (a : Args) {b : Args} {r s : List Lexeme}
    (h : a.yield ++ r = b.yield ++ s) : a = b ∧ r = s := by
  match a with
  | .empty c =>
    cases b with
    | empty c' =>
      simp only [Args.yield, List.cons_append, List.nil_append, List.cons.injEq] at h
      exact ⟨by rw [Subtype.ext h.1], h.2⟩
    | list l =>
      obtain ⟨m, ms, hm, hms⟩ := l.yield_eq_cons
      simp only [Args.yield, hm, List.cons_append, List.cons.injEq] at h
      exact absurd (h.1 ▸ c.property) (hms.token_ne (by simp))
  | .list l =>
    cases b with
    | empty c =>
      obtain ⟨m, ms, hm, hms⟩ := l.yield_eq_cons
      simp only [Args.yield, hm, List.cons_append, List.cons.injEq] at h
      exact absurd (h.1 ▸ c.property) (hms.token_ne (by simp))
    | list l' =>
      obtain ⟨rfl, hrs⟩ := ArgList.yield_inj l h
      exact ⟨rfl, hrs⟩

theorem ArgList.yield_inj (a : ArgList) {b : ArgList} {r s : List Lexeme}
    (h : a.yield ++ r = b.yield ++ s) : a = b ∧ r = s := by
  match a with
  | .last e c =>
    cases b with
    | last e' c' =>
      simp only [ArgList.yield, List.append_assoc, List.cons_append, List.nil_append] at h
      obtain ⟨rfl, hrs⟩ := Phrase.yield_inj e (.cons _ (by simp [c.property]))
        (.cons _ (by simp [c'.property])) h
      rw [List.cons.injEq] at hrs
      exact ⟨by rw [Subtype.ext hrs.1], hrs.2⟩
    | more e' c' l' =>
      simp only [ArgList.yield, List.append_assoc, List.cons_append, List.nil_append] at h
      have hrs := (Phrase.yield_inj e (.cons _ (by simp [c.property]))
        (.cons _ (by simp [c'.property])) h).2
      rw [List.cons.injEq] at hrs
      exact absurd hrs.1 (Terminal.val_ne (by decide) _ _)
  | .more e c l =>
    cases b with
    | last e' c' =>
      simp only [ArgList.yield, List.append_assoc, List.cons_append, List.nil_append] at h
      have hrs := (Phrase.yield_inj e (.cons _ (by simp [c.property]))
        (.cons _ (by simp [c'.property])) h).2
      rw [List.cons.injEq] at hrs
      exact absurd hrs.1 (Terminal.val_ne (by decide) _ _)
    | more e' c' l' =>
      simp only [ArgList.yield, List.append_assoc, List.cons_append] at h
      obtain ⟨rfl, hrs⟩ := Phrase.yield_inj e (.cons _ (by simp [c.property]))
        (.cons _ (by simp [c'.property])) h
      rw [List.cons.injEq] at hrs
      obtain ⟨rfl, hl⟩ := ArgList.yield_inj l hrs.2
      exact ⟨by rw [Subtype.ext hrs.1], hl⟩

theorem Block.yield_inj (a : Block) {b : Block} {l m : Lexeme} {r s : List Lexeme}
    (hl : l.token = .closeBrace ∨ l.token = .eof) (hm : m.token = .closeBrace ∨ m.token = .eof)
    (h : a.yield ++ l :: r = b.yield ++ m :: s) : a = b ∧ l :: r = m :: s := by
  match a with
  | .empty =>
    cases b with
    | empty => exact ⟨rfl, h⟩
    | list ps =>
      obtain ⟨k, ks, hk, hks⟩ := ps.yield_eq_cons
      simp only [Block.yield, hk, List.nil_append, List.cons_append, List.cons.injEq] at h
      rcases hl with hl | hl <;> exact absurd (h.1 ▸ hl) (hks.token_ne (by simp))
  | .list ps =>
    cases b with
    | empty =>
      obtain ⟨k, ks, hk, hks⟩ := ps.yield_eq_cons
      simp only [Block.yield, hk, List.nil_append, List.cons_append, List.cons.injEq] at h
      rcases hm with hm | hm <;> exact absurd (h.1 ▸ hm) (hks.token_ne (by simp))
    | list ps' =>
      obtain ⟨rfl, hrs⟩ := Phrases.yield_inj ps hl hm h
      exact ⟨rfl, hrs⟩

theorem Phrases.yield_inj (a : Phrases) {b : Phrases} {l m : Lexeme} {r s : List Lexeme}
    (hl : l.token = .closeBrace ∨ l.token = .eof) (hm : m.token = .closeBrace ∨ m.token = .eof)
    (h : a.yield ++ l :: r = b.yield ++ m :: s) : a = b ∧ l :: r = m :: s := by
  have hlf : ∀ ls, Follows (l :: ls) := fun ls => .cons _ (by rcases hl with hl | hl <;> simp [hl])
  have hmf : ∀ ls, Follows (m :: ls) := fun ls => .cons _ (by rcases hm with hm | hm <;> simp [hm])
  have hcf : ∀ (c : Terminal .semicolon) ls, Follows (c.val :: ls) := fun c ls =>
    .cons _ (by simp [c.property])
  -- The lexeme behind the first expression tells the three alternatives apart.
  have hlc : ∀ c : Terminal .semicolon, l ≠ c.val := by
    rintro c rfl
    simp [c.property] at hl
  have hmc : ∀ c : Terminal .semicolon, c.val ≠ m := by
    rintro c rfl
    simp [c.property] at hm
  match a with
  | .last e =>
    cases b with
    | last e' =>
      obtain ⟨rfl, hrs⟩ := Phrase.yield_inj e (hlf _) (hmf _) h
      exact ⟨rfl, hrs⟩
    | ended e' c' =>
      simp only [Phrases.yield, List.append_assoc, List.cons_append, List.nil_append] at h
      exact absurd (List.cons.inj (Phrase.yield_inj e (hlf _) (hcf c' _) h).2).1 (hlc c')
    | more e' c' b =>
      simp only [Phrases.yield, List.append_assoc, List.cons_append] at h
      exact absurd (List.cons.inj (Phrase.yield_inj e (hlf _) (hcf c' _) h).2).1 (hlc c')
  | .ended e c =>
    simp only [Phrases.yield, List.append_assoc, List.cons_append, List.nil_append] at h
    cases b with
    | last e' =>
      exact absurd (List.cons.inj (Phrase.yield_inj e (hcf c _) (hmf _) h).2).1 (hmc c)
    | ended e' c' =>
      simp only [Phrases.yield, List.append_assoc, List.cons_append, List.nil_append] at h
      obtain ⟨rfl, hrs⟩ := Phrase.yield_inj e (hcf c _) (hcf c' _) h
      rw [List.cons.injEq] at hrs
      exact ⟨by rw [Subtype.ext hrs.1], hrs.2⟩
    | more e' c' b =>
      simp only [Phrases.yield, List.append_assoc, List.cons_append] at h
      obtain ⟨rfl, hrs⟩ := Phrase.yield_inj e (hcf c _) (hcf c' _) h
      obtain ⟨k, ks, hk, hks⟩ := b.yield_eq_cons
      simp only [hk, List.cons_append, List.cons.injEq] at hrs
      rcases hl with hl | hl <;> exact absurd (hrs.2.1 ▸ hl) (hks.token_ne (by simp))
  | .more e c a =>
    simp only [Phrases.yield, List.append_assoc, List.cons_append] at h
    cases b with
    | last e' =>
      exact absurd (List.cons.inj (Phrase.yield_inj e (hcf c _) (hmf _) h).2).1 (hmc c)
    | ended e' c' =>
      simp only [Phrases.yield, List.append_assoc, List.cons_append, List.nil_append] at h
      obtain ⟨rfl, hrs⟩ := Phrase.yield_inj e (hcf c _) (hcf c' _) h
      obtain ⟨k, ks, hk, hks⟩ := a.yield_eq_cons
      simp only [hk, List.cons_append, List.cons.injEq] at hrs
      rcases hm with hm | hm <;> exact absurd (hrs.2.1 ▸ hm) (hks.token_ne (by simp))
    | more e' c' b =>
      simp only [Phrases.yield, List.append_assoc, List.cons_append] at h
      obtain ⟨rfl, hrs⟩ := Phrase.yield_inj e (hcf c _) (hcf c' _) h
      rw [List.cons.injEq] at hrs
      obtain ⟨rfl, hlm⟩ := Phrases.yield_inj a hl hm hrs.2
      exact ⟨by rw [Subtype.ext hrs.1], hlm⟩

end

/-- No two derivations of a program have one yield. -/
theorem Program.yield_inj {p q : Program} (h : p.yield = q.yield) : p = q := by
  obtain ⟨hb, hs⟩ := Block.yield_inj p.block (.inr p.stop.property) (.inr q.stop.property) h
  rw [List.cons.injEq] at hs
  cases p
  cases q
  cases hb
  cases Subtype.ext hs.1
  rfl

end Wordlang.Grammar
