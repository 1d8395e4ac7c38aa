import Wordlang.Proofs.Lowering.Derivation
import Wordlang.Proofs.Lowering.Literals

/-!
# String constants

The globals of a module hold the contents of the string literals of the program, in the order of the
text and each content once, and every string literal becomes the address of the global that holds its
content.
-/

namespace Wordlang

open IR Outcome

/-! ## Escapes -/

/-- How a line feed is written in a string literal. -/
def lineFeedEscape : List Char := ['\\', 'n']

/-- The text is the content with every escape replaced by a line feed: the pieces between the escapes
are the same in both. -/
def Unescapes (content text : List Char) : Prop :=
  ∃ pieces : List (List Char), (∀ p ∈ pieces, ¬ lineFeedEscape <:+: p) ∧
    content = lineFeedEscape.intercalate pieces ∧ text = ['\n'].intercalate pieces

namespace Lowering

theorem unescape_cons {c : Char} {cs : List Char} (h : ¬ lineFeedEscape <+: c :: cs) :
    unescape (c :: cs) = c :: unescape cs := by
  rw [unescape.eq_def]
  split
  · rename_i heq
    cases heq
    exact absurd (List.prefix_append lineFeedEscape _) h
  · rename_i heq
    cases heq
    rfl
  · rename_i heq
    cases heq

/-- Text without an escape stays as it is. -/
theorem unescape_free {p : List Char} (h : ¬ lineFeedEscape <:+: p) : unescape p = p := by
  induction p with
  | nil => rfl
  | cons c p ih =>
    rw [List.infix_cons_iff, not_or] at h
    rw [unescape_cons h.1, ih h.2]

/-- The first escape becomes a line feed. -/
theorem unescape_append {p : List Char} (h : ¬ lineFeedEscape <:+: p) (cs : List Char) :
    unescape (p ++ lineFeedEscape ++ cs) = p ++ '\n' :: unescape cs := by
  induction p with
  | nil => rfl
  | cons c p ih =>
    rw [List.infix_cons_iff, not_or] at h
    have hnot : ¬ lineFeedEscape <+: c :: (p ++ lineFeedEscape ++ cs) := by
      intro hprefix
      cases p with
      | nil => simp [lineFeedEscape] at hprefix
      | cons c' p =>
        refine h.1 ?_
        simpa [lineFeedEscape, List.cons_prefix_cons] using hprefix
    rw [List.cons_append, List.cons_append, unescape_cons hnot, ih h.2, List.cons_append]

/-- Every content consists of pieces with escapes between them. -/
theorem exists_pieces (cs : List Char) : ∃ (p : List Char) (ps : List (List Char)),
    (∀ q ∈ p :: ps, ¬ lineFeedEscape <:+: q) ∧ cs = lineFeedEscape.intercalate (p :: ps) := by
  fun_induction unescape cs with
  | case1 cs ih =>
    obtain ⟨p, ps, hfree, heq⟩ := ih
    refine ⟨[], p :: ps, ?_, ?_⟩
    · intro q hq
      rcases List.mem_cons.1 hq with rfl | hq
      · simp [lineFeedEscape]
      · exact hfree q hq
    · rw [List.intercalate_cons_cons, ← heq]
      rfl
  | case2 c cs hnot ih =>
    obtain ⟨p, ps, hfree, heq⟩ := ih
    have hfirst : p <+: cs := by
      rw [heq]
      cases ps with
      | nil => exact ⟨[], by rw [List.append_nil, List.intercalate_singleton]⟩
      | cons q qs =>
        rw [List.intercalate_cons_cons, List.append_assoc]
        exact List.prefix_append _ _
    refine ⟨c :: p, ps, ?_, ?_⟩
    · intro q hq
      rcases List.mem_cons.1 hq with rfl | hq
      · rw [List.infix_cons_iff, not_or]
        refine ⟨fun hprefix => ?_, hfree p List.mem_cons_self⟩
        -- an escape across the seam would have been read as one
        obtain ⟨rest, hrest⟩ := hprefix.trans (List.cons_prefix_cons.2 ⟨rfl, hfirst⟩)
        obtain ⟨rfl, hcs⟩ := List.cons.inj hrest
        exact hnot rest rfl hcs.symm
      · exact hfree q (List.mem_cons_of_mem _ hq)
    · cases ps with
      | nil => rw [heq, List.intercalate_singleton, List.intercalate_singleton]
      | cons q qs =>
        rw [heq, List.intercalate_cons_cons, List.intercalate_cons_cons]
        rfl
  | case3 => exact ⟨[], [], by simp [lineFeedEscape], rfl⟩

theorem unescape_intercalate {ps : List (List Char)} (h : ∀ p ∈ ps, ¬ lineFeedEscape <:+: p) :
    unescape (lineFeedEscape.intercalate ps) = ['\n'].intercalate ps := by
  induction ps with
  | nil => rfl
  | cons p ps ih =>
    have hp := h p List.mem_cons_self
    have hps := ih fun q hq => h q (List.mem_cons_of_mem _ hq)
    cases ps with
    | nil => rw [List.intercalate_singleton, List.intercalate_singleton, unescape_free hp]
    | cons q qs =>
      rw [List.intercalate_cons_cons, List.intercalate_cons_cons, unescape_append hp, hps,
        List.append_assoc, List.singleton_append]

/-- Interpreting a content replaces the escapes, all of them and nothing else. -/
theorem unescapes_iff (content text : List Char) :
    Unescapes content text ↔ text = unescape content := by
  constructor
  · rintro ⟨pieces, hfree, rfl, rfl⟩
    rw [unescape_intercalate hfree]
  · rintro rfl
    obtain ⟨p, ps, hfree, heq⟩ := exists_pieces content
    exact ⟨p :: ps, hfree, heq, by rw [heq, unescape_intercalate hfree]⟩

end Lowering

/-! ## String literals in the text -/

/-- A string literal. -/
structure StringLiteral where
  /-- Where it stands. -/
  pos : Position
  /-- What stands between the quotes. -/
  content : String

/-- The bytes of the string that a literal stands for. -/
def StringLiteral.data (l : StringLiteral) : List UInt8 :=
  Text.Utf8.ofString (String.ofList (Lowering.unescape l.content.toList))

namespace Expr

mutual

/-- The string literals in an expression, in the order of the text. -/
def stringLiterals : Expr → List StringLiteral
  | .string pos content => [⟨pos, content⟩]
  | .assign _ _ value => stringLiterals value
  | .call _ _ args => stringLiteralsAll args
  | .function _ params body => stringLiteralsAll params ++ stringLiteralsAll body
  | .infixTail _ _ rhs => stringLiterals rhs
  | _ => []

/-- The same for expressions that stand one after the other. -/
def stringLiteralsAll : List Expr → List StringLiteral
  | [] => []
  | e :: es => stringLiterals e ++ stringLiteralsAll es

end

mutual

/-- The string literals in an expression that stand in no function literal. -/
def outerStrings : Expr → List StringLiteral
  | .string pos content => [⟨pos, content⟩]
  | .assign _ _ value => outerStrings value
  | .call _ _ args => outerStringsAll args
  | .infixTail _ _ rhs => outerStrings rhs
  | _ => []

/-- The same for expressions that stand one after the other. -/
def outerStringsAll : List Expr → List StringLiteral
  | [] => []
  | e :: es => outerStrings e ++ outerStringsAll es

end

theorem stringLiteralsAll_names (names : List Ident) :
    stringLiteralsAll (names.map .name) = [] := by
  induction names with
  | nil => rfl
  | cons id ids ih => exact ih

end Expr

/-- The value is the address of the global that holds the string of the literal. -/
def StringLiteral.AddressedBy (gs : List Global) (l : StringLiteral) (v : Value) : Prop :=
  v.op = .globalAddr ∧ v.pos = l.pos ∧
    ∃ (i : Nat) (g : Global), v.aux = .global i ∧ gs[i]? = some g ∧ g.data = l.data

theorem StringLiteral.AddressedBy.mono {gs gs' : List Global} {l : StringLiteral} {v : Value}
    (hgs : gs <+: gs') (h : l.AddressedBy gs v) : l.AddressedBy gs' v := by
  obtain ⟨hop, hpos, i, g, haux, hg, hdata⟩ := h
  exact ⟨hop, hpos, i, g, haux, getElem?_later hgs hg, hdata⟩

/-- Those of the values that are addresses of globals. -/
def addresses (vs : List Value) : List Value := vs.filter fun v => v.op = .globalAddr

@[simp] theorem addresses_append (vs ws : List Value) :
    addresses (vs ++ ws) = addresses vs ++ addresses ws := List.filter_append ..

theorem addresses_eq_nil {vs : List Value} (h : ∀ v ∈ vs, v.op ≠ .globalAddr) :
    addresses vs = [] := by
  rw [addresses, List.filter_eq_nil_iff]
  intro v hv
  simpa using h v hv

/-! ## Interning -/

namespace IR.Module

variable (m : Module) (data : List UInt8)

/-- The string is in the table afterwards, at the place that is returned. -/
theorem getElem?_internString : ∃ g, (m.internString data).2.globals[(m.internString data).1]? =
    some g ∧ g.data = data := by
  unfold internString
  split
  · rename_i i hi
    obtain ⟨hlt, hdata, -⟩ := List.findIdx?_eq_some_iff_getElem.1 hi
    exact ⟨_, List.getElem?_eq_getElem hlt, by simpa using hdata⟩
  · exact ⟨_, List.getElem?_concat_length, rfl⟩

/-- A table that holds each string of a sequence once holds, after a string is interned, each of the
sequence with this string once. -/
theorem data_internString {seen : List (List UInt8)}
    (h : m.globals.map (·.data) = seen.eraseDups) :
    (m.internString data).2.globals.map (·.data) = (seen ++ [data]).eraseDups := by
  have hmem : data ∈ m.globals.map (·.data) ↔ data ∈ seen := by rw [h, List.mem_eraseDups]
  rw [List.eraseDups_append, ← h]
  unfold internString
  split
  · rename_i i hi
    obtain ⟨hlt, hdata, -⟩ := List.findIdx?_eq_some_iff_getElem.1 hi
    have hin : data ∈ seen := by
      rw [← hmem]
      exact List.mem_map.2 ⟨_, List.getElem_mem hlt, by simpa using hdata⟩
    have hnone : [data].removeAll seen = [] := by simp [List.removeAll, hin]
    rw [hnone]
    simp
  · rename_i hi
    have hnotin : data ∉ seen := by
      rw [← hmem]
      intro hin
      obtain ⟨g, hg, hdata⟩ := List.mem_map.1 hin
      have := List.findIdx?_eq_none_iff.1 hi g hg
      simp [hdata] at this
    have hsome : [data].removeAll seen = [data] := by simp [List.removeAll, hnotin]
    rw [hsome]
    simp [List.eraseDups_cons]

end IR.Module

namespace Lowering

open Builder

variable {b b' : Builder} {ds : List Draft} {f : Nat} {d : Draft} {vs ws : List Value}
  {new : List Draft} {env : Env}

/-- The globals of the state `b'` are those of `b`, and after them the strings of the literals as far
as they are new. -/
structure Interned (b : Builder) (strings : List StringLiteral) (b' : Builder) : Prop where
  kept : b.module.globals <+: b'.module.globals
  data : ∀ seen, b.module.globals.map (·.data) = seen.eraseDups →
    b'.module.globals.map (·.data) = (seen ++ strings.map (·.data)).eraseDups

namespace Interned

variable {strings strings' : List StringLiteral}

theorem of_eq (h : b'.module.globals = b.module.globals) : Interned b [] b' := by
  refine ⟨h ▸ List.prefix_rfl, fun seen hseen => ?_⟩
  rw [h, hseen, List.map_nil, List.append_nil]

theorem trans {b'' : Builder} (h : Interned b strings b') (h' : Interned b' strings' b'') :
    Interned b (strings ++ strings') b'' := by
  refine ⟨h.kept.trans h'.kept, fun seen hseen => ?_⟩
  rw [h'.data _ (h.data seen hseen), List.map_append, List.append_assoc]

end Interned

/-- Every string literal in the text that led to the drafts is addressed: those outside of function
literals by the values `vs`, and those of each function literal by the draft of its function. -/
structure Referenced (gs : List Global) (strings outer : List StringLiteral)
    (ls : List FunctionLiteral) (vs : List Value) (new : List Draft) : Prop where
  split : strings.Perm (outer ++ ls.flatMap fun l => Expr.outerStringsAll l.body)
  outer : List.Forall₂ (StringLiteral.AddressedBy gs) outer (addresses vs)
  inner : List.Forall₂ (fun l d => d.external = false ∧ List.Forall₂ (StringLiteral.AddressedBy gs)
    (Expr.outerStringsAll l.body) (addresses d.code)) ls new

namespace Referenced

variable {gs gs' : List Global} {strings strings' outer outer' : List StringLiteral}
  {ls ls' : List FunctionLiteral} {new' : List Draft}

theorem none (h : addresses vs = []) : Referenced gs [] [] [] vs [] := by
  refine ⟨.nil, ?_, .nil⟩
  rw [h]
  exact .nil

theorem mono (hgs : gs <+: gs') (h : Referenced gs strings outer ls vs new) :
    Referenced gs' strings outer ls vs new :=
  ⟨h.split, h.outer.imp fun _ _ hv => hv.mono hgs,
    h.inner.imp fun _ _ hd => ⟨hd.1, hd.2.imp fun _ _ hv => hv.mono hgs⟩⟩

theorem append (h : Referenced gs strings outer ls vs new)
    (h' : Referenced gs strings' outer' ls' ws new') :
    Referenced gs (strings ++ strings') (outer ++ outer') (ls ++ ls') (vs ++ ws) (new ++ new') := by
  refine ⟨?_, ?_, List.rel_append h.inner h'.inner⟩
  · refine (h.split.append h'.split).trans ?_
    rw [List.flatMap_append, List.append_assoc, List.append_assoc]
    refine List.Perm.append_left _ ?_
    rw [← List.append_assoc, ← List.append_assoc]
    exact List.perm_append_comm.append_right _
  · rw [addresses_append]
    exact List.rel_append h.outer h'.outer

end Referenced

/-- The state `b'` is reached from `b` by lowering text with these literals: the values `vs` were
added to the function at hand, and the functions `new` to the module. -/
structure Collected (b : Builder) (ds : List Draft) (f : Nat) (d : Draft) (b' : Builder)
    (vs : List Value) (new : List Draft) (strings outer : List StringLiteral)
    (ls : List FunctionLiteral) : Prop where
  now : At b' (ds.set f (d.append vs) ++ new) f (d.append vs)
  interned : Interned b strings b'
  addressed : Referenced b'.module.globals strings outer ls vs new

namespace Collected

variable {strings strings' outer outer' : List StringLiteral} {ls ls' : List FunctionLiteral}

theorem of_wrote (hw : Wrote b ds f d vs env b') (hvs : ∀ v ∈ vs, v.op ≠ .globalAddr) :
    Collected b ds f d b' vs [] [] [] [] := by
  refine ⟨?_, .of_eq (globals_eq hw.rest_eq), .none (addresses_eq_nil hvs)⟩
  rw [List.append_nil]
  exact hw.now

theorem trans {b'' : Builder} {new' : List Draft} (hlt : f < ds.length)
    (h : Collected b ds f d b' vs new strings outer ls)
    (h' : Collected b' (ds.set f (d.append vs) ++ new) f (d.append vs) b'' ws new' strings' outer'
      ls') :
    Collected b ds f d b'' (vs ++ ws) (new ++ new') (strings ++ strings') (outer ++ outer')
      (ls ++ ls') := by
  refine ⟨?_, h.interned.trans h'.interned, (h.addressed.mono h'.interned.kept).append h'.addressed⟩
  have hnow := h'.now
  rw [List.set_append_left _ _ (by simpa using hlt), List.set_set, Draft.append_append,
    List.append_assoc] at hnow
  exact hnow

/-- Values that are no addresses change nothing. -/
theorem wrote {b'' : Builder} (hlt : f < ds.length)
    (h : Collected b ds f d b' vs new strings outer ls)
    (hw : Wrote b' (ds.set f (d.append vs) ++ new) f (d.append vs) ws env b'')
    (hws : ∀ v ∈ ws, v.op ≠ .globalAddr) :
    Collected b ds f d b'' (vs ++ ws) new strings outer ls := by
  have hall := h.trans hlt (of_wrote hw hws)
  rwa [List.append_nil, List.append_nil, List.append_nil, List.append_nil] at hall

end Collected

/-! ### Steps -/

theorem stringLiteral_collects (h : At b ds f d) (pos : Position) (content : String) :
    ∃ x b' vs, stringLiteral pos content b = .ok x b' ∧
      Collected b ds f d b' vs [] [⟨pos, content⟩] [⟨pos, content⟩] [] := by
  let l : StringLiteral := ⟨pos, content⟩
  have hat : At { b with module := (b.module.internString l.data).2 } ds f d :=
    ⟨h.drafted.internString l.data, h.site, h.here, h.inside⟩
  let v : Value :=
    { op := .globalAddr, type := .ptr, aux := .global (b.module.internString l.data).1, pos }
  obtain ⟨b', hb', hw⟩ := emit_spec hat v []
  have hglobals : b'.module.globals = (b.module.internString l.data).2.globals :=
    globals_eq hw.rest_eq
  obtain ⟨g, hg, hdata⟩ := b.module.getElem?_internString l.data
  refine ⟨{ ref := next f d, type := .ptr }, b', [Draft.placed f v []], ?_, ?_,
    ⟨?_, fun seen hseen => ?_⟩, .rfl, ?_, .nil⟩
  · have hsplit : stringLiteral pos content b =
        (emit v [] >>= fun r => (pure { ref := r, type := .ptr } : Lowering Operand))
          { b with module := (b.module.internString l.data).2 } := rfl
    rw [hsplit, bind_ok hb']
    rfl
  · rw [List.append_nil]
    exact hw.now
  · rw [hglobals]
    exact prefix_internString _ _
  · rw [hglobals]
    exact b.module.data_internString l.data hseen
  · rw [hglobals]
    exact .cons ⟨rfl, rfl, _, g, rfl, hg, hdata⟩ .nil

theorem op_assign {ls : List Value} {name : String} {type : Ty} {pos : Position} {k : Nat}
    {slot r : ValueRef} (hls : ∀ v ∈ ls, v.op = .load)
    (hslot : Assigns env f k name type pos slot ws) :
    ∀ v ∈ ls ++ ws ++ [storeCode f slot r pos], v.op ≠ .globalAddr := by
  have hws : ∀ v ∈ ws, v.op ≠ .globalAddr := by
    intro v hv
    cases hslot with
    | old => cases hv
    | new =>
      rw [List.mem_singleton.1 hv]
      rintro ⟨⟩
  intro v hv
  rw [List.mem_append, List.mem_append, List.mem_singleton] at hv
  rcases hv with (hv | hv) | rfl
  · rw [hls v hv]
    rintro ⟨⟩
  · exact hws v hv
  · rintro ⟨⟩

theorem op_call {k k' : Nat} {t : Target} {sig : Signature} {xs : List (Position × Operand)}
    {pos : Position} {type : Ty} {name : String} :
    ∀ v ∈ invokeCode f k t sig xs pos ++ keepCode f k' type name pos, v.op ≠ .globalAddr := by
  intro v hv
  simp only [invokeCode, List.append_assoc, List.mem_append] at hv
  rcases hv with hv | hv | hv
  · rw [op_readsCode hv]
    rintro ⟨⟩
  · cases t with
    | direct g =>
      rw [List.mem_singleton.1 hv]
      rintro ⟨⟩
    | indirect slot =>
      rcases List.mem_cons.1 hv with rfl | hv
      · rintro ⟨⟩
      · rw [List.mem_singleton.1 hv]
        rintro ⟨⟩
  · rcases List.mem_cons.1 hv with rfl | hv
    · rintro ⟨⟩
    · rw [List.mem_singleton.1 hv]
      rintro ⟨⟩

/-! ### The run -/

/-- Successful lowering of the expression collects its string literals. -/
def Collects (e : Expr) : Prop :=
  ∀ ⦃b ds f d x b'⦄, At b ds f d → expr e b = .ok x b' → ∃ vs new,
    Collected b ds f d b' vs new e.stringLiterals e.outerStrings e.functionLiterals

/-- The same for expressions one after the other. -/
def CollectsAll (es : List Expr) : Prop :=
  ∀ ⦃b ds f d xs b'⦄, At b ds f d → arguments es b = .ok xs b' → ∃ vs new,
    Collected b ds f d b' vs new (Expr.stringLiteralsAll es) (Expr.outerStringsAll es)
      (Expr.functionLiteralsAll es)

theorem int_collects (pos : Position) (n : Int32) : Collects (.int pos n) := by
  intro b ds f d x b' h hb
  obtain ⟨b₁, hb₁, hw⟩ := emit_spec h { op := .const32, type := .i32, number := n.toInt, pos } []
  rw [expr, emitConst, bind_ok hb₁] at hb
  cases hb
  refine ⟨_, _, .of_wrote hw fun v hv => ?_⟩
  rw [List.mem_singleton.1 hv]
  rintro ⟨⟩

theorem name_collects (id : Ident) : Collects (.name id) := by
  intro b ds f d x b' h hb
  rw [expr] at hb
  rcases nameValue_spec h id with ⟨v, -, hb₁⟩ | ⟨c, b₁, -, -, hb₁, hw⟩ | ⟨e, hb₁⟩
  · rw [hb₁] at hb
    cases hb
    exact ⟨_, _, .of_wrote (.refl h) (by simp)⟩
  · rw [hb₁] at hb
    cases hb
    refine ⟨_, _, .of_wrote hw fun v hv => ?_⟩
    rw [List.mem_singleton.1 hv]
    rintro ⟨⟩
  · rw [hb₁] at hb
    cases hb

theorem assign_collects {e : Expr} (he : Collects e)
    (hnot : ∀ pos params body, e ≠ .function pos params body) (pos : Position) (target : Ident) :
    Collects (.assign pos target e) := by
  intro b ds f d y b' h hb
  rw [expr_assign hnot] at hb
  obtain ⟨x, b₁, hx, hb₁⟩ := bind_eq_ok_iff.1 hb
  obtain ⟨vs, new, hcollected⟩ := he h hx
  rcases assignValue_spec hcollected.now pos target.name x with
    ⟨slot, ws, b₂, hb₂, -, hslot, hw⟩ | ⟨err, b₂, hb₂, -⟩
  swap
  · rw [hb₂] at hb₁
    cases hb₁
  rw [hb₂] at hb₁
  cases hb₁
  have hliterals : (Expr.assign pos target e).functionLiterals = e.functionLiterals := by
    rw [Expr.functionLiterals]
    exact hnot
  rw [hliterals, Expr.stringLiterals, Expr.outerStrings]
  exact ⟨_, _, hcollected.wrote h.lt_length hw (op_assign (fun _ hv => op_readCode hv) hslot)⟩

theorem call_collects {args : List Expr} (hargs : CollectsAll args) (pos : Position)
    (callee : Ident) : Collects (.call pos callee args) := by
  intro b ds f d y b' h hb
  rw [expr] at hb
  obtain ⟨xs, b₁, hxs, hb₁⟩ := bind_eq_ok_iff.1 hb
  obtain ⟨vs, new, hcollected⟩ := hargs h hxs
  rcases callNamed_spec hcollected.now pos callee.name xs with
    ⟨t, sig, k, b₂, hb₂, -, -, -, -, hw⟩ | ⟨err, ys, b₂, hb₂, -⟩
  swap
  · rw [hb₂] at hb₁
    cases hb₁
  rw [hb₂] at hb₁
  cases hb₁
  rw [Expr.stringLiterals, Expr.outerStrings, Expr.functionLiterals]
  exact ⟨_, _, hcollected.wrote h.lt_length hw op_call⟩

/-- A function whose body has been lowered addresses the string literals of the body. -/
theorem body_collects {body : List Expr} (hbody : CollectsAll body) {names : List Ident}
    {symbol name : String} {pos : Position} (h : At b ds f (header symbol names))
    (hb : funcBody name pos names body b = .ok () b') : ∃ d' new, d'.external = false ∧
      b'.module.Drafted (ds.set f d' ++ new) ∧
      Interned b (Expr.stringLiteralsAll body) b' ∧
      Referenced b'.module.globals (Expr.stringLiteralsAll body) (Expr.outerStringsAll body)
        (Expr.functionLiteralsAll body) d'.code new := by
  obtain ⟨b₁, hb₁, hw⟩ := spillParams_spec h 0 names
  rw [funcBody, bind_ok hb₁] at hb
  obtain ⟨t, b₂, hseq, hret⟩ := bind_eq_ok_iff.1 hb
  obtain ⟨xs, hxs, rfl⟩ := sequence_ok hseq
  have hspill : Collected b ds f (header symbol names) b₁ (spillCode f 0 0 names) [] [] [] [] :=
    .of_wrote hw fun v hv => by
      rcases op_spillCode hv with h | h | h
      all_goals
        rw [h]
        rintro ⟨⟩
  obtain ⟨vs, new, hcollected⟩ := hbody hspill.now hxs
  have hall := hspill.trans h.lt_length hcollected
  rcases returnTail_spec hall.now name pos xs.getLast? with
    ⟨last, x, b₃, -, hb₃, -, hnow, -, hrest⟩ | ⟨e, ws, b₃, hb₃, -⟩
  swap
  · rw [hb₃] at hret
    cases hret
  rw [hb₃] at hret
  cases hret
  have hglobals : b'.module.globals = b₂.module.globals := globals_eq hrest
  have hdrafted := hnow.drafted
  rw [List.set_append_left _ _ (by simpa using h.lt_length), List.set_set] at hdrafted
  refine ⟨_, _, rfl, hdrafted, ?_, ?_⟩
  · have hend := hall.interned.trans (.of_eq hglobals)
    simpa using hend
  · have hread : addresses (readCode f last x) = [] :=
      addresses_eq_nil fun v hv => by simp [op_readCode hv]
    rw [hglobals]
    have hend := hall.addressed.append (.none hread)
    simpa [Draft.ret, header] using hend

theorem define_collects {body : List Expr} (hbody : CollectsAll body) (p : Position)
    (target : Ident) (pos : Position) (params : List Expr) :
    Collects (.assign p target (.function pos params body)) := by
  intro b ds f d x b' h hb
  rcases declareFunc_spec h target pos params with
    ⟨names, b₁, hb₁, hnames, -, hnow, -, hrest⟩ | ⟨e, hb₁⟩
  swap
  · rw [expr, bind_error hb₁] at hb
    cases hb
  rw [expr_define hb₁] at hb
  obtain ⟨u, b₂, hscope, haddr⟩ := bind_eq_ok_iff.1 hb
  obtain ⟨b₃, hb₃, rfl⟩ := inScope_eq_ok hscope
  have hdeclared : Interned b [] b₁ := by
    apply Interned.of_eq
    rw [globals_eq hrest, (Module.Drafted.funcs_freshSymbol _ _).2]
  -- the body is lowered into the function that was declared last
  have hat : At
      { b₁ with env := b₁.env.openScope ("function " ++ target.name), site := ⟨ds.length, 0⟩ }
      (ds ++ [header (b.module.freshSymbol target.name).1 names]) ds.length
      (header (b.module.freshSymbol target.name).1 names) :=
    ⟨hnow.drafted, rfl, by simp, rfl⟩
  obtain ⟨d', new, hinside, hdrafted, hinterned, haddressed⟩ := body_collects hbody hat hb₃
  rw [set_length_append, List.append_assoc] at hdrafted
  have hback : At { b₃.closeScope with site := b₁.site } (ds ++ d' :: new) f d := by
    refine ⟨?_, hnow.site, ?_, h.inside⟩
    · show b₃.closeScope.module.Drafted _
      rw [(closeScope_eq b₃).1]
      exact hdrafted
    · rw [List.getElem?_append_left h.lt_length, h.here]
  obtain ⟨b₄, hb₄, hw⟩ := emitFuncAddr_spec hback ds.length (userSignature names.length) pos
  rw [hb₄] at haddr
  cases haddr
  have hglobals : b'.module.globals = b₃.module.globals := by
    rw [globals_eq hw.rest_eq]
    show b₃.closeScope.module.globals = _
    rw [(closeScope_eq b₃).1]
  have hstrings : Expr.stringLiterals (.assign p target (.function pos params body)) =
      Expr.stringLiteralsAll body := by
    rw [Expr.stringLiterals, Expr.stringLiterals, params_eq_of_paramNames hnames,
      Expr.stringLiteralsAll_names, List.nil_append]
  have houter : Expr.outerStrings (.assign p target (.function pos params body)) = [] := by
    simp [Expr.outerStrings]
  rw [hstrings, houter, Expr.functionLiterals]
  refine ⟨[addressCode f ds.length pos], d' :: new, ?_, ?_, ?_, ?_, ?_⟩
  · have hat' := hw.now
    rwa [List.set_append_left _ _ h.lt_length] at hat'
  · have hbodyInterned : Interned b₁ (Expr.stringLiteralsAll body) b₃ :=
      ⟨hinterned.kept, hinterned.data⟩
    have hend := (hdeclared.trans hbodyInterned).trans (.of_eq hglobals)
    rwa [List.nil_append, List.append_nil] at hend
  · rw [List.nil_append, List.flatMap_cons]
    exact haddressed.split
  · exact .nil
  · rw [hglobals]
    exact .cons ⟨hinside, haddressed.outer⟩ haddressed.inner

mutual

/-- Lowering collects string literals. -/
theorem expr_collects : ∀ e : Expr, Collects e
  | .int pos n => int_collects pos n
  | .name id => name_collects id
  | .string pos content => by
    intro b ds f d x b' h hb
    obtain ⟨y, b₁, vs, hb₁, hcollected⟩ := stringLiteral_collects h pos content
    rw [expr, hb₁] at hb
    cases hb
    exact ⟨_, _, hcollected⟩
  | .assign p target value => by
    have hvalue := expr_collects value
    cases value with
    | function pos params body => exact define_collects (arguments_collects body) p target pos params
    | _ => exact assign_collects hvalue (by simp) p target
  | .call pos callee args => call_collects (arguments_collects args) pos callee
  | .function .. => by
    intro b ds f d x b' _ hb
    simp only [expr] at hb
    cases hb
  | .absent => by
    intro b ds f d x b' _ hb
    simp only [expr] at hb
    cases hb
  | .infixTail .. => by
    intro b ds f d x b' _ hb
    simp only [expr] at hb
    cases hb
  | .empty .. => by
    intro b ds f d x b' _ hb
    simp only [expr] at hb
    cases hb

theorem arguments_collects : ∀ es : List Expr, CollectsAll es
  | [] => by
    intro b ds f d xs b' h hb
    rw [arguments] at hb
    cases hb
    exact ⟨_, _, .of_wrote (.refl h) (by simp)⟩
  | e :: es => by
    intro b ds f d xs b' h hb
    rw [arguments] at hb
    obtain ⟨x, b₁, hx, hb₁⟩ := bind_eq_ok_iff.1 hb
    obtain ⟨ys, b₂, hys, hb₂⟩ := bind_eq_ok_iff.1 hb₁
    cases hb₂
    obtain ⟨vs, new, hfirst⟩ := expr_collects e h hx
    obtain ⟨ws, new', hrest⟩ := arguments_collects es hfirst.now hys
    exact ⟨_, _, hfirst.trans h.lt_length hrest⟩

end

theorem topLevel_collects (i : Nat) (es : List Expr) (h : At b ds f d)
    (hb : topLevel i es b = .ok () b') : ∃ vs new,
      Collected b ds f d b' vs new (Expr.stringLiteralsAll es) (Expr.outerStringsAll es)
        (Expr.functionLiteralsAll es) := by
  induction es generalizing b ds d i with
  | nil =>
    cases hb
    exact ⟨_, _, .of_wrote (.refl h) (by simp)⟩
  | cons e es ih =>
    rw [topLevel_cons] at hb
    obtain ⟨x, b₁, hx, hb₁⟩ := bind_eq_ok_iff.1 hb
    obtain ⟨vs, new, hfirst⟩ := expr_collects e (h.with_events _) hx
    obtain ⟨ws, new', hrest⟩ := ih (i + 1) hfirst.now hb₁
    have hfirst' : Collected b ds f d b₁ vs new e.stringLiterals e.outerStrings
        e.functionLiterals := ⟨hfirst.now, ⟨hfirst.interned.kept, hfirst.interned.data⟩,
      hfirst.addressed⟩
    exact ⟨_, _, hfirst'.trans h.lt_length hrest⟩

end Lowering

/-! ## Whole programs -/

/-- The function has addresses for the string literals of its body that stand in no function literal
in it, in the order of the text. -/
def AddressesStrings (gs : List Global) (body : List Expr) (f : Func) : Prop :=
  List.Forall₂ (StringLiteral.AddressedBy gs) (Expr.outerStringsAll body)
    (addresses f.core.values)

theorem forall₂_comp {α β γ : Type} {R : α → β → Prop} {S : β → γ → Prop} {as : List α}
    {bs : List β} {cs : List γ} (h : List.Forall₂ R as bs) (h' : List.Forall₂ S bs cs) :
    List.Forall₂ (fun a c => ∃ b, R a b ∧ S b c) as cs := by
  induction h generalizing cs with
  | nil =>
    cases h'
    exact .nil
  | cons hab _ ih =>
    cases h' with
    | cons hbc hrest => exact .cons ⟨_, hab, hbc⟩ (ih hrest)

/-- The functions behind the first ones are as their drafts describe them. -/
theorem IR.Module.Drafted.forall₂_drop {m : Module} {ds new : List Draft}
    (h : m.Drafted (ds ++ new)) :
    List.Forall₂ (fun d f => ∃ i, f.core = d.func i) new (m.funcs.drop ds.length) := by
  have hlength : new.length = (m.funcs.drop ds.length).length := by
    rw [List.length_drop, h.length_funcs, List.length_append, Nat.add_sub_cancel_left]
  refine List.forall₂_iff_get.2 ⟨hlength, fun i hi hi' => ⟨ds.length + i, ?_⟩⟩
  have hd : (ds ++ new)[ds.length + i]? = some new[i] := by
    rw [List.getElem?_append_right (Nat.le_add_right _ _), Nat.add_sub_cancel_left,
      List.getElem?_eq_getElem hi]
  obtain ⟨f, hf, hcore⟩ := h.getElem?_funcs hd
  have hget : (m.funcs.drop ds.length)[i]? = some f := by rw [List.getElem?_drop, hf]
  rw [List.get_eq_getElem, List.get_eq_getElem, ← hcore,
    (List.getElem?_eq_some_iff.1 hget).2]

theorem values_of_core {f : Func} {d : Draft} {i : Nat} (h : f.core = d.func i)
    (hinside : d.external = false) : f.core.values = d.code := by
  rw [h, Draft.func, hinside]
  rfl

open Lowering in
/-- The globals of a program are the format of `print` and the strings of its literals in the order of
the text, each once; and every literal becomes the address of the global that holds its string. -/
theorem lower_strings {o : CompileOptions} {es : List Expr} (h : (lower o es).failure = none) :
    ((lower o es).module.globals.map fun g => g.data) =
      (Text.Utf8.ofString Builtin.printFormat ::
        (Expr.stringLiteralsAll es).map fun l => l.data).eraseDups ∧
    (∀ l ∈ Expr.stringLiteralsAll es, ∃ text, Unescapes l.content.toList text ∧
      l.data = Text.Utf8.ofString (String.ofList text)) ∧
    (Expr.stringLiteralsAll es).Perm (Expr.outerStringsAll es ++
      (Expr.functionLiteralsAll es).flatMap fun l => Expr.outerStringsAll l.body) ∧
    (∃ f, (lower o es).module.funcs[entryPlace]? = some f ∧
      AddressesStrings (lower o es).module.globals es f) ∧
    List.Forall₂ (fun l f => AddressesStrings (lower o es).module.globals l.body f)
      (Expr.functionLiteralsAll es) ((lower o es).module.funcs.drop startDrafts.length) := by
  have hinv := (initial_inv o.effectiveName o.triple).now
  cases htop : topLevel 0 es (Builder.initial o.effectiveName o.triple) with
  | error e b =>
    simp only [lower, htop] at h
    cases h
  | ok u b =>
    obtain ⟨vs, new, hcollected⟩ := topLevel_collects 0 es hinv htop
    obtain ⟨hdrafted, hrest⟩ := finish_spec hcollected.now
    have hmodule : (lower o es).module = b.finish.module := by
      simp only [lower, htop]
      generalize (if o.verify then b.finish.module.verify else []) = violations
      cases violations <;> exact (closeScope_eq _).1
    have hglobals : (lower o es).module.globals = b.module.globals := by
      rw [hmodule, globals_eq hrest]
    have hm : (lower o es).module.Drafted (programDrafts vs new) := by
      rw [hmodule]
      exact hdrafted
    refine ⟨?_, fun l _ => ⟨_, (unescapes_iff _ _).2 rfl, rfl⟩, hcollected.addressed.split, ?_, ?_⟩
    · rw [hglobals]
      refine hcollected.interned.data [Text.Utf8.ofString Builtin.printFormat] ?_
      rw [initial_globals]
      rfl
    · have hdraft : (programDrafts vs new)[entryPlace]? = some (programDraft vs) := rfl
      obtain ⟨f, hf, hcore⟩ := hm.getElem?_funcs hdraft
      have haddresses : addresses (programDraft vs).code = addresses vs := by
        have hstatus : addresses [statusCode entryPlace] = [] := rfl
        simp [programDraft, entryDraft, Draft.ret, hstatus]
      refine ⟨f, hf, ?_⟩
      rw [AddressesStrings, values_of_core hcore rfl, haddresses, hglobals]
      exact hcollected.addressed.outer
    · have hfuncs : List.Forall₂ (fun d f => ∃ i, f.core = d.func i) new
          ((lower o es).module.funcs.drop startDrafts.length) := by
        have hdrop := hm.forall₂_drop
        rwa [List.length_set] at hdrop
      rw [hglobals]
      refine (forall₂_comp hcollected.addressed.inner hfuncs).imp ?_
      rintro l f ⟨d, ⟨hinside, hrefs⟩, i, hcore⟩
      rwa [AddressesStrings, values_of_core hcore hinside]

/-- Literals of two contents with the same string, one of them in a function, and one that is the
format of `print`. -/
def repeating : List Expr :=
  [.assign {} { name := "s" } (.string {} "a\\n"),
    .assign {} { name := "f" } (.function {} [.name { name := "x" }]
      [.string {} "b", .string {} "a\n", .name { name := "x" }]),
    .assign {} { name := "s" } (.string {} "%d\\n"),
    .string {} "b"]

/-- Of its five literals two get globals of their own. -/
theorem repeating_strings : (lower {} repeating).failure = none ∧
    ((lower {} repeating).module.globals.map fun g => g.data) =
      (Text.Utf8.ofString Builtin.printFormat ::
        (Expr.stringLiteralsAll repeating).map fun l => l.data).eraseDups ∧
    ((lower {} repeating).module.globals.map fun g => g.data) =
      ["%d\n", "a\n", "b"].map Text.Utf8.ofString := by
  have hnone : (lower {} repeating).failure = none := by decide +kernel
  exact ⟨hnone, (lower_strings hnone).1, by decide +kernel⟩

end Wordlang
