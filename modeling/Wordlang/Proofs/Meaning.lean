import Wordlang.Builtin
import Wordlang.Expr

/-!
# The meaning of programs

A big-step semantics of the language, without any reference to the code that programs are compiled
to.

Functions are found by the text of the program: a name stands for the latest definition of it that
precedes the place where it is used, the function itself inside its own body, and definitions inside
a body precede what follows that body. The definitions that precede a place are therefore known
without running anything; a function value carries those that precede its own body.

Variables belong to one activation of a function and are not seen by others. A variable used as an
argument is read only when all arguments of the call have been evaluated, so that an assignment in a
later argument is seen.
-/

namespace Wordlang.Meaning

/-- The definition of a function, `name = (params) { body }`. -/
structure Definition where
  /-- The name. -/
  name : String
  /-- The parameters. -/
  params : List Expr
  /-- The body. -/
  body : List Expr

/-- A function. -/
inductive Callee where
  /-- Integer addition. -/
  | add
  /-- Prints an integer and a line feed. -/
  | print
  /-- A function of the program, with the definitions that precede its own, the latest first. -/
  | defined (d : Definition) (before : List Definition)

/-- A value of the language. -/
inductive Val where
  /-- An integer. -/
  | int (n : Int32)
  /-- A string, by the text between its quotes. -/
  | text (content : String)
  /-- A function. -/
  | func (c : Callee)

/-- What an expression yields. -/
inductive Answer where
  /-- A value. -/
  | value (v : Val)
  /-- A variable, which is read when the answer is used. -/
  | variable (name : String)

/-- The state of an activation: its variables, the latest assignment first, and the output so far. -/
structure State where
  /-- The variables. -/
  vars : List (String × Val) := []
  /-- The output. -/
  out : String := ""

/-- Assigns to a variable. -/
def State.assign (s : State) (name : String) (v : Val) : State :=
  { s with vars := (name, v) :: s.vars }

/-! ## Definitions in the text -/

mutual

/-- The definitions that precede what follows an expression, when `ds` precede the expression. -/
def after (ds : List Definition) : Expr → List Definition
  | .assign _ target (.function _ params body) => afterAll (⟨target.name, params, body⟩ :: ds) body
  | .assign _ _ value => after ds value
  | .call _ _ args => afterAll ds args
  | _ => ds

/-- The same for several expressions. -/
def afterAll (ds : List Definition) : List Expr → List Definition
  | [] => ds
  | e :: es => afterAll (after ds e) es

end

/-- The function that a name stands for where `ds` precede. -/
def resolve : List Definition → String → Option Callee
  | d :: ds, name => if d.name = name then some (.defined d ds) else resolve ds name
  | [], name =>
    if name = Builtin.add then some .add
    else if name = Builtin.print then some .print
    else none

/-- The name that a parameter is. -/
def paramName? : Expr → Option String
  | .name id => some id.name
  | _ => none

/-- The variables of an activation of a function with the given parameters, if as many arguments are
passed; of parameters with one name the last counts. -/
def bindParams (params : List Expr) (vs : List Val) : Option (List (String × Val)) := do
  let names ← params.mapM paramName?
  if names.length = vs.length then some (names.zip vs).reverse else none

/-- What printing an integer writes. -/
def line (n : Int32) : String := toString n.toInt ++ "\n"

/-! ## Evaluation -/

/-- What an answer is when it is read. -/
def State.read? (s : State) : Answer → Option Val
  | .value v => some v
  | .variable name => s.vars.lookup name

/-- What a callee is where `ds` precede: a function, or else the function that a variable holds. -/
def State.callee? (s : State) (ds : List Definition) (name : String) : Option Callee :=
  match resolve ds name with
  | some c => some c
  | none =>
    match s.vars.lookup name with
    | some (.func c) => some c
    | _ => none

mutual

/-- Evaluating an expression where `ds` precede leads from one state to another and yields an
answer. -/
inductive Eval : List Definition → Expr → State → Answer → State → Prop
  | int (ds : List Definition) (pos : Position) (n : Int32) (s : State) :
    Eval ds (.int pos n) s (.value (.int n)) s
  | string (ds : List Definition) (pos : Position) (content : String) (s : State) :
    Eval ds (.string pos content) s (.value (.text content)) s
  | variable (ds : List Definition) (id : Ident) (v : Val) (s : State)
    (hv : s.vars.lookup id.name = some v) : Eval ds (.name id) s (.variable id.name) s
  | function (ds : List Definition) (id : Ident) (c : Callee) (s : State)
    (hv : s.vars.lookup id.name = none) (hc : resolve ds id.name = some c) :
    Eval ds (.name id) s (.value (.func c)) s
  | define (ds : List Definition) (pos : Position) (target : Ident) (fpos : Position)
    (params body : List Expr) (s : State) :
    Eval ds (.assign pos target (.function fpos params body)) s
      (.value (.func (.defined ⟨target.name, params, body⟩ ds))) s
  | assign (ds : List Definition) (pos : Position) (target : Ident) (e : Expr) (a : Answer)
    (v : Val) (s s' : State) (hnot : ∀ fpos params body, e ≠ .function fpos params body)
    (he : Eval ds e s a s') (hv : s'.read? a = some v) :
    Eval ds (.assign pos target e) s (.value v) (s'.assign target.name v)
  | call (ds : List Definition) (pos : Position) (callee : Ident) (args : List Expr)
    (as : List Answer) (c : Callee) (vs : List Val) (v : Val) (s s' : State) (out : String)
    (hargs : EvalAll ds args s as s') (hc : s'.callee? (afterAll ds args) callee.name = some c)
    (hvs : as.mapM s'.read? = some vs) (hcall : Call c vs s'.out v out) :
    Eval ds (.call pos callee args) s (.value v) { s' with out }

/-- Evaluating expressions one after the other. -/
inductive EvalAll : List Definition → List Expr → State → List Answer → State → Prop
  | nil (ds : List Definition) (s : State) : EvalAll ds [] s [] s
  | cons (ds : List Definition) (e : Expr) (es : List Expr) (a : Answer) (as : List Answer)
    (s s' s'' : State) (he : Eval ds e s a s') (hes : EvalAll (after ds e) es s' as s'') :
    EvalAll ds (e :: es) s (a :: as) s''

/-- Calling a function with arguments yields a value and extends the output. -/
inductive Call : Callee → List Val → String → Val → String → Prop
  | add (x y : Int32) (out : String) : Call .add [.int x, .int y] out (.int (x + y)) out
  | print (x : Int32) (out : String) :
    Call .print [.int x] out (.int (Int32.ofNat (line x).utf8ByteSize)) (out ++ line x)
  | defined (d : Definition) (before : List Definition) (vs : List Val)
    (vars : List (String × Val)) (as : List Answer) (a : Answer) (v : Val) (out : String)
    (s : State) (hvars : bindParams d.params vs = some vars)
    (hbody : EvalAll (d :: before) d.body { vars, out } as s) (hlast : as.getLast? = some a)
    (hv : s.read? a = some v) : Call (.defined d before) vs out v s.out

end

/-- The program terminates with the given output. -/
def Terminates (es : List Expr) (out : String) : Prop :=
  ∃ as s, EvalAll [] es {} as s ∧ s.out = out

end Wordlang.Meaning
