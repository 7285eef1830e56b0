import Kappai.Spec.JinjaFilters

/-! The evaluator of chat templates: operators, expressions, macro calls and statements, and
`jinja_render`. -/

namespace Kappai.Jinja

open Rising

section Operators

variable {F : Type} (P : Platform F) (c : Interp F)

/-- Two operands, from the left. -/
def evalBoth (a b : Expr) : Eval F (Obj F × Obj F) := do
  let x ← c.eval a
  let y ← c.eval b
  let ox ← objAt x
  let oy ← objAt y
  pure (ox, oy)

def evalPlus (a b : Expr) : Eval F Addr := do
  let (x, y) ← evalBoth c a b
  match numericValue x, numericValue y with
  | some m, some n => alloc (arith (· + ·) P.add m n)
  | _, _ => newString (valueAsCstr P x ++ valueAsCstr P y)

def evalMinus (a b : Expr) : Eval F Addr := do
  let (x, y) ← evalBoth c a b
  match numericValue x, numericValue y with
  | some m, some n => alloc (arith (· - ·) P.sub m n)
  | _, _ =>
    let d ← ofOption (checked (atol (valueAsCstr P x) - atol (valueAsCstr P y)))
    newString (intText d)

/-- `in` -/
def containedIn (heap : Heap F) (needle hay : Obj F) : Bool :=
  match hay with
  | .dict es => es.any fun e => e.1 = valueAsCstr P needle
  | .list items => items.any fun a => scalarEqual P (heap.obj a) needle
  | o => (splitAtFirst (valueAsCstr P needle) (valueAsCstr P o)).isSome

/-- The operators that ask something about both operands. -/
def compareOps : List (String × (Heap F → Obj F → Obj F → Bool)) :=
  [("==", fun _ x y => scalarEqual P x y), ("!=", fun _ x y => !scalarEqual P x y),
    (">", fun _ x y => numLt P (orderValue P y) (orderValue P x)),
    ("<", fun _ x y => numLt P (orderValue P x) (orderValue P y)),
    (">=", fun _ x y => numLe P (orderValue P y) (orderValue P x)),
    ("<=", fun _ x y => numLe P (orderValue P x) (orderValue P y)),
    ("in", containedIn P)]

/-- `eval_binop` -/
def evalBinop (op : Text) (a b : Expr) : Eval F Addr := do
  if op = "and".toList || op = "or".toList then
    let left ← c.eval a
    if truthy P (← objAt left) = (op = "or".toList) then pure left
    else c.eval b
  else if op = "+".toList then evalPlus P c a b
  else if op = "-".toList then evalMinus P c a b
  else
    match (compareOps P).find? fun f => f.1.toList = op with
    | some f =>
      let (x, y) ← evalBoth c a b
      let heap ← look State.heap
      alloc (.bool (f.2 heap x y))
    | none =>
      everr "unsupported operator"
      none'

end Operators

section Expressions

variable {F : Type} (P : Platform F) (c : Interp F)

def evalNumber (str : Text) : Eval F Addr :=
  if str.contains '.' || outOfRange str then alloc (.float (P.strtod str))
  else alloc (.int (atol str))

/-- The words that are values whatever the scopes say. -/
def keywords : List (String × Obj F) :=
  [("true", .bool true), ("True", .bool true), ("false", .bool false), ("False", .bool false),
    ("none", .none), ("None", .none)]

def evalIdent (str : Text) : Eval F Addr := do
  match keywords.find? fun k => k.1.toList = str with
  | some k => alloc k.2
  | none =>
    let scopes ← look State.scopes
    orNone (scopeLookup scopes str)

/-- The element at an index that counts from the end if it is negative. -/
def elementAt {α : Type} (items : List α) (idx : ℤ) : Option α :=
  let idx := if idx < 0 then idx + items.length else idx
  if idx < 0 then none else items[idx.toNat]?

def evalAttr (a : Expr) (str : Text) : Eval F Addr := do
  let base ← c.eval a
  match ← objAt base with
  | .list items =>
    if str ≠ [] && str.all Char.isDigit then orNone (elementAt items (atol str))
    else none'
  | o => orNone (dictGet o str)

def evalIndex (a : Expr) (str : Text) : Eval F Addr := do
  let base ← c.eval a
  let o ← objAt base
  orNone (if atol str < 0 then none else (itemsOf o)[(atol str).toNat]?)

/-- A bound of a slice, if it is written. -/
def evalBound : Option Expr → Eval F (Option ℤ)
  | some e => some <$> evalLong P c e
  | none => pure none

/-- What a slice reads of the elements of its base. -/
def evalSliceOf {α : Type} (items : List α) (b stop step : Option Expr) : Eval F (List α) := do
  let step ← evalBound P c step
  let start ← evalBound P c b
  let stop ← evalBound P c stop
  let step := if step.getD 1 = 0 then 1 else step.getD 1
  let positions ← ofOption (slicePositions items.length start stop step)
  pure (positions.filterMap fun i => items[i.toNat]?)

def evalSlice (a : Expr) (b stop step : Option Expr) : Eval F Addr := do
  let base ← c.eval a
  match ← objAt base with
  | .string s => newString (← evalSliceOf P c s b stop step)
  | .list items => alloc (.list (← evalSliceOf P c items b stop step))
  | _ => none'

def evalDynindex (a b : Expr) : Eval F Addr := do
  let base ← c.eval a
  let key ← c.eval b
  let key ← cstrAt P key
  match ← objAt base with
  | .string s =>
    match elementAt s (atol key) with
    | some ch => newString [ch]
    | none => none'
  | .list items => orNone (elementAt items (atol key))
  | o => orNone (dictGet o key)

def evalNamespace : List ExprArg → List (Text × Addr) → Eval F Addr
  | [], es => alloc (.dict es)
  | (some name, e) :: args, es => do
    let v ← c.eval e
    evalNamespace args (dictSet es name v)
  | (none, _) :: args, es => evalNamespace args es

def evalRangeArgs : List ExprArg → Eval F (ℤ × ℤ × ℤ)
  | [] => pure (0, 0, 1)
  | [a] => do
    let hi ← evalLong P c a.2
    pure (0, hi, 1)
  | [a, b] => do
    let lo ← evalLong P c a.2
    let hi ← evalLong P c b.2
    pure (lo, hi, 1)
  | a :: b :: s :: _ => do
    let lo ← evalLong P c a.2
    let hi ← evalLong P c b.2
    let step ← evalLong P c s.2
    pure (lo, hi, step)

def evalRange (args : List ExprArg) : Eval F Addr := do
  let (lo, hi, step) ← evalRangeArgs P c args
  match ← ofOption (rangeNumbers lo hi step) with
  | some ns =>
    let items ← ns.mapM fun n => alloc (.int n)
    alloc (.list items)
  | none =>
    everr ("range() exceeds " ++ toString maxRangeElems ++ " elements")
    alloc (.list [])

/-- `exec_stmts` -/
def execStmts : List Stmt → Eval F Unit
  | [] => pure ()
  | s :: ss => do
    if ← look fun st => st.failed.isSome || st.breakHit then pure ()
    else
      c.exec s
      execStmts ss

/-- The text that statements write. -/
def capture (body : List Stmt) : Eval F Text := do
  let saved ← swapOut []
  execStmts c body
  swapOut saved

/-- The arguments from the next one without a name on. -/
def nextPositional (args : List ExprArg) : List ExprArg := args.dropWhile fun a => a.1.isSome

/-- `bind_one_param`, for each parameter; `curPos` starts at the next argument without a name. -/
def bindParams (args : List ExprArg) : List MacroParam → List ExprArg → Scope → Eval F Scope
  | [], _, sc => pure sc
  | mp :: mps, curPos, sc => do
    match args.find? fun a => a.1 = some mp.name, curPos, mp.defaultVal with
    | some arg, _, _ =>
      let v ← c.eval arg.2
      bindParams args mps curPos (scopeAssign sc mp.name v)
    | none, arg :: rest, _ =>
      let v ← c.eval arg.2
      bindParams args mps (nextPositional rest) (scopeAssign sc mp.name v)
    | none, [], some e =>
      let v ← c.eval e
      bindParams args mps [] (scopeAssign sc mp.name v)
    | none, [], none =>
      let v ← none'
      bindParams args mps [] (scopeAssign sc mp.name v)

/-- `call_macro` -/
def callMacro (params : List MacroParam) (body : List Stmt) (args : List ExprArg) : Eval F Addr := do
  if 200 < (← look State.callDepth) then
    everr "macro recursion too deep"
    newString []
  else
    let sc ← bindParams c args params (nextPositional args) []
    pushScope sc
    setCallDepth (· + 1)
    let text ← capture c body
    setCallDepth (· - 1)
    let _ ← popScope
    newString text

def evalCall (str : Text) (args : List ExprArg) : Eval F Addr := do
  if str = "raise_exception".toList then
    everr "template raised an exception"
    none'
  else if str = "namespace".toList then evalNamespace c args []
  else if str = "range".toList then evalRange P c args
  else if str = "strftime_now".toList then
    let fmt ← argCstr P c "%d %b %Y".toList args[0]?
    newString (P.strftimeNow fmt)
  else
    let scopes ← look State.scopes
    match scopeLookup scopes str with
    | some macroVal =>
      match ← objAt macroVal with
      | .macroVal params body => callMacro c params body args
      | _ => none'
    | none => none'

/-- What a test asks about a value. -/
def kTests : List (String × (Obj F → Bool)) :=
  let isNone : Obj F → Bool := fun o => o.type = .none
  let isType (ts : List ValueType) : Obj F → Bool := fun o => ts.contains o.type
  let isBool (b : Bool) : Obj F → Bool
    | .bool b' => b' = b
    | _ => false
  [("none", isNone), ("Null", isNone), ("null", isNone), ("undefined", isNone),
    ("defined", fun o => !isNone o), ("string", isType [.string]), ("mapping", isType [.dict]),
    ("dict", isType [.dict]), ("iterable", isType [.list, .string]), ("number", isType [.int, .float]),
    ("integer", isType [.int]), ("float", isType [.float]), ("sequence", isType [.list]),
    ("boolean", isType [.bool]), ("true", isBool true), ("false", isBool false)]

def evalIsdefined (a : Expr) (str : Option Text) : Eval F Addr := do
  let v ← c.eval a
  match kTests.find? fun t => t.1.toList = str.getD "defined".toList with
  | some t =>
    let o ← objAt v
    alloc (.bool (t.2 o))
  | none =>
    everr "unsupported test"
    none'

def evalDict : List (Expr × Expr) → List (Text × Addr) → Eval F Addr
  | [], es => alloc (.dict es)
  | (k, v) :: rest, es => do
    let key ← c.eval k
    let ks ← objAt key
    let val ← c.eval v
    match ks with
    | .string s => evalDict rest (dictSet es s val)
    | _ => evalDict rest es

/-- The kinds of `eval_expr`. -/
def evalKind : Expr → Eval F Addr
  | .string str => newString str
  | .number str => evalNumber P str
  | .ident str => evalIdent str
  | .list items => do
    let vs ← items.mapM c.eval
    alloc (.list vs)
  | .dict entries => evalDict c entries []
  | .ternary a cond b => do
    if ← evalTruthy P c cond then c.eval a
    else
      match b with
      | some e => c.eval e
      | none => none'
  | .attr a str => evalAttr c a str
  | .index a str => evalIndex c a str
  | .slice a b stop step => evalSlice P c a b stop step
  | .dynindex a b => evalDynindex P c a b
  | .not a => do
    let b ← evalTruthy P c a
    alloc (.bool (!b))
  | .call str args => evalCall P c str args
  | .methodcall a str args => evalMethodcall P c a str args
  | .isdefined a str => evalIsdefined c a str
  | .filter a str args => do
    let base ← c.eval a
    applyFilter P c str base args
  | .binop op a b => evalBinop P c op a b

/-- `eval_expr` -/
def evalExpr (e : Expr) : Eval F Addr := do
  observe
  if ← isFailed then none' else evalKind P c e

end Expressions

end Kappai.Jinja

/-! The statements of chat templates, and `jinja_render`. -/

namespace Kappai.Jinja

open Rising

section Statements

variable {F : Type} (P : Platform F) (c : Interp F)

/-- The names that one turn of a loop binds in the loop's scope. -/
def bindItem (loopVar : Text) (loopVar2 : Option Text) (item : Addr) (sc : Scope) : Eval F Scope := do
  let o ← objAt item
  match loopVar2, itemsOf o with
  | some loopVar2, a :: b :: _ => pure (scopeAssign (scopeAssign sc loopVar a) loopVar2 b)
  | _, _ => pure (scopeAssign sc loopVar item)

/-- The loop's body in the loop's scope, which goes on to the next turn. -/
def execBody (body : List Stmt) (sc : Scope) : Eval F Scope := do
  pushScope sc
  setBreak false
  execStmts c body
  popScope

/-- The turns of a loop from the one at `i` on. `bind` is what a turn binds. -/
def loopTurns (bind : Addr → Scope → Eval F Scope) (body : List Stmt) (l : LoopObj) (n : ℕ) :
    ℕ → Option Addr → List Addr → Scope → Eval F Unit
  | _, _, [], _ => pure ()
  | i, prev, item :: rest, sc => do
    if ← isFailed then pure ()
    else
      let sc ← bind item sc
      beginTurn l i n prev rest.head?
      let sc ← execBody c body sc
      if ← look State.breakHit then setBreak false
      else loopTurns bind body l n (i + 1) (some item) rest sc

/-- The loop dictionary and the values that its entries take. -/
def newLoop : Eval F LoopObj := do
  let index0 ← alloc (.int 0)
  let index ← alloc (.int 1)
  let first ← alloc (.bool true)
  let last ← alloc (.bool false)
  let previtem ← none'
  let nextitem ← none'
  let obj ← alloc (.dict [("index0".toList, index0), ("index".toList, index), ("first".toList, first),
    ("last".toList, last), ("previtem".toList, previtem), ("nextitem".toList, nextitem)])
  let boolTrue ← alloc (.bool true)
  let boolFalse ← alloc (.bool false)
  let noneVal ← none'
  pure ⟨obj, index0, index, boolTrue, boolFalse, noneVal⟩

def execLoop (loopVar : Text) (loopVar2 : Option Text) (body : List Stmt) (items : List Addr) :
    Eval F Unit := do
  let l ← newLoop
  loopTurns c (bindItem loopVar loopVar2) body l items.length 0 none items [("loop".toList, l.obj)]

def execFor (loopVar : Text) (loopVar2 : Option Text) (iterable : Expr) (body : List Stmt) :
    Eval F Unit := do
  let iter ← c.eval iterable
  match ← objAt iter with
  | .none => pure ()
  | .list items => execLoop c loopVar loopVar2 body items
  | .dict es =>
    let items ← es.mapM fun e => newString e.1
    execLoop c loopVar loopVar2 body items
  | .string s =>
    let items ← s.mapM fun ch => newString [ch]
    execLoop c loopVar loopVar2 body items
  | _ => everr "for loop over non-list"

/-- The value of a set statement: that of its expression, or the text of its body. -/
def setValue (setVal : Option Expr) (body : List Stmt) : Eval F Addr :=
  match setVal with
  | some e => c.eval e
  | none => do
    let text ← capture c body
    newString text

def execSet (name : Text) (attr : Option Text) (setVal : Option Expr) (body : List Stmt) :
    Eval F Unit := do
  let val ← setValue c setVal body
  match attr with
  | none => assign name val
  | some attr =>
    let scopes ← look State.scopes
    match scopeLookup scopes name with
    | none => everr "set attribute on non-namespace value"
    | some target =>
      match ← objAt target with
      | .dict es => setAttr target es attr val
      | _ => everr "set attribute on non-namespace value"

/-- The statements of a list, which a break does not end. -/
def execItems : List Stmt → Eval F Unit
  | [] => pure ()
  | s :: ss => do
    if ← isFailed then pure ()
    else
      c.exec s
      execItems ss

/-- The kinds of `exec_stmt`. -/
def execKind : Stmt → Eval F Unit
  | .text text => puts text
  | .output expr => do
    let a ← c.eval expr
    let text ← cstrAt P a
    puts text
  | .if cond thenBody elseBody => do
    if ← evalTruthy P c cond then execStmts c thenBody
    else execStmts c elseBody
  | .for loopVar loopVar2 iterable body => execFor c loopVar loopVar2 iterable body
  | .set name attr setVal body => execSet c name attr setVal body
  | .macroDef name params body => do
    let m ← alloc (.macroVal params body)
    assign name m
  | .list items => execItems c items
  | .generation body => execStmts c body
  | .noop => pure ()
  | .break => setBreak true

/-- `exec_stmt` -/
def execStmt (s : Stmt) : Eval F Unit := do
  observe
  if ← isFailed then pure () else execKind P c s

/-- The filter that `map` applies, without arguments, or none. -/
def itemFilter (name : Text) (item : Addr) : Eval F Addr := applyFilter P c name item []

end Statements

section Render

variable {F : Type} (P : Platform F)

/-- The evaluator for calls of at most this depth. -/
def interp : ℕ → Interp F
  | 0 => ⟨fun _ => stuck, fun _ => stuck, fun _ _ => stuck⟩
  | n + 1 => ⟨evalExpr P (interp n), execStmt P (interp n), itemFilter P (interp n)⟩

/-- The scope of the globals: the last one comes first. -/
def globalScope (heap : Heap F) (globals : Addr) : Scope :=
  match heap.obj globals with
  | .dict es => es.reverse
  | _ => []

def State.start (heap : Heap F) (globals : Addr) : State F :=
  ⟨heap, [globalScope heap globals], [], [], [], none, 0, false⟩

/-- The run of `jinja_render` on values that are in the heap. -/
def renderRun (depth : ℕ) (prog : List Stmt) (heap : Heap F) (globals : Addr) :
    Option Unit × State F :=
  (execStmts (interp P depth) prog).run (State.start heap globals)

/-- `jinja_render`: the text, or the message of the first error. -/
def jinjaRender (depth : ℕ) (prog : List Stmt) (heap : Heap F) (globals : Addr) :
    Option (Except Text Text) :=
  match renderRun P depth prog heap globals with
  | (none, _) => none
  | (some (), s) =>
    match s.failed with
    | some msg => some (.error msg)
    | none => some (.ok s.out)

/-- Every moment of a rendering at which an expression or a statement was begun, and the last one. -/
def moments (depth : ℕ) (prog : List Stmt) (heap : Heap F) (globals : Addr) : List (Moment F) :=
  let s := (renderRun P depth prog heap globals).2
  s.past ++ [s.now]

end Render

end Kappai.Jinja
