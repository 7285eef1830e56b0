import Mathlib.Data.Char
import Mathlib.Data.List.Lex
import Kappai.Spec.JinjaText
import Kappai.Spec.JinjaValue

/-! How the evaluator of chat templates reads values, and its filters and methods. The elements of a list
are made before the object that holds them; nothing has its address until it is whole. -/

namespace Kappai.Jinja

open Rising

/-- What a comparison or a sum is about. -/
inductive Number (F : Type)
  | int (n : ℤ)
  | float (x : F)

/-- The floating point numbers and the clock. Two integers are compared and added without them. -/
structure Platform (F : Type) where
  strtod : Text → F
  text : F → Text
  isZero : F → Bool
  isfinite : F → Bool
  add : Number F → Number F → F
  sub : Number F → Number F → F
  eq : Number F → Number F → Bool
  lt : Number F → Number F → Bool
  le : Number F → Number F → Bool
  strftimeNow : Text → Text

/-- The parts of the evaluator that call it again, one level further in: `eval_expr`, `exec_stmt`, and
the filter that `map` applies to an item. -/
structure Interp (F : Type) where
  eval : Expr → Eval F Addr
  exec : Stmt → Eval F Unit
  itemFilter : Text → Addr → Eval F Addr

section Values

variable {F : Type} (P : Platform F)

def truthy : Obj F → Bool
  | .none => false
  | .bool b => b
  | .int n => n ≠ 0
  | .float x => !P.isZero x
  | .string s => s ≠ []
  | .list items => items ≠ []
  | .dict es => es ≠ []
  | .macroVal _ _ => true

/-- `value_as_cstr` -/
def valueAsCstr : Obj F → Text
  | .string s => s
  | .int n => intText n
  | .float x => P.text x
  | .bool b => if b then "True".toList else "False".toList
  | _ => []

/-- `dict_get` -/
def dictGet (o : Obj F) (key : Text) : Option Addr :=
  match o with
  | .dict es => es.lookup key
  | _ => none

/-- `numeric_value`, of what `is_numeric` -/
def numericValue : Obj F → Option (Number F)
  | .int n => some (.int n)
  | .float x => some (.float x)
  | _ => none

/-- What `>` and the like compare. -/
def orderValue (o : Obj F) : Number F := (numericValue o).getD (.int (atol (valueAsCstr P o)))

def numEq : Number F → Number F → Bool
  | .int a, .int b => a = b
  | a, b => P.eq a b

def numLt : Number F → Number F → Bool
  | .int a, .int b => a < b
  | a, b => P.lt a b

def numLe : Number F → Number F → Bool
  | .int a, .int b => a ≤ b
  | a, b => P.le a b

/-- `scalar_equal` -/
def scalarEqual (a b : Obj F) : Bool :=
  match numericValue a, numericValue b with
  | some x, some y => numEq P x y
  | _, _ => a.type = b.type && valueAsCstr P a = valueAsCstr P b

/-- A sum or a difference of two numbers; what 64 bits do not hold becomes a float. -/
def arith (exact : ℤ → ℤ → ℤ) (inexact : Number F → Number F → F) : Number F → Number F → Obj F
  | .int a, .int b =>
    match checked (exact a b) with
    | some n => .int n
    | none => .float (inexact (.int a) (.int b))
  | a, b => .float (inexact a b)

/-- The text that `jinja_float` caches: as many digits as it takes to read the number again. `fmt` is
`"%.*g"` with its precision. -/
def jinjaFloatText (fmt : ℕ → F → Text) (x : F) : Text :=
  let stops := fun precision =>
    !P.isfinite x || P.eq (.float (P.strtod (fmt precision x))) (.float x)
  let s := fmt (((List.range' 1 17).find? stops).getD 17) x
  if P.isfinite x ∧ '.' ∉ s ∧ 'e' ∉ s then s ++ ['.', '0'] else s

/-- The elements between the brackets of a JSON text. -/
def jsonElems (indent : ℤ) (level : ℕ) (opening closing : Text) (elems : List Text) : Text :=
  if elems = [] then opening ++ closing
  else
    let sep := if 0 < indent then [','] else [',', ' ']
    let line := if 0 < indent then jsonNewline indent (level + 1) else []
    let last := if 0 < indent then jsonNewline indent level else []
    opening ++ sep.intercalate (elems.map (line ++ ·)) ++ last ++ closing

/-- `json_to_json`, of values of at most some depth. -/
def jsonToJson (heap : Heap F) (indent : ℤ) : ℕ → Addr → ℕ → Option Text
  | 0, _, _ => none
  | depth + 1, a, level =>
    match heap.obj a with
    | .none => some "null".toList
    | .bool b => some (if b then "true".toList else "false".toList)
    | .int n => some (intText n)
    | .float x => some (if P.isfinite x then P.text x else "null".toList)
    | .string s => some (jsonStr s)
    | .macroVal _ _ => some (jsonStr [])
    | .dict es => do
      let elems ← es.mapM fun e =>
        (jsonToJson heap indent depth e.2 (level + 1)).map fun t => jsonStr e.1 ++ [':', ' '] ++ t
      some (jsonElems indent level ['\x7b'] ['\x7d'] elems)
    | .list items => do
      let elems ← items.mapM fun b => jsonToJson heap indent depth b (level + 1)
      some (jsonElems indent level ['['] [']'] elems)

end Values

section Evaluator

variable {F : Type} (P : Platform F) (c : Interp F)

def none' : Eval F Addr := alloc .none

def newString (s : Text) : Eval F Addr := alloc (.string s)

/-- `value_as_cstr` of what an address holds now. -/
def cstrAt (a : Addr) : Eval F Text := (valueAsCstr P ·) <$> objAt a

/-- `value_as_cstr(eval_expr(ctx, e))` -/
def evalCstr (e : Expr) : Eval F Text := do
  let a ← c.eval e
  cstrAt P a

def evalLong (e : Expr) : Eval F ℤ := atol <$> evalCstr P c e

def evalTruthy (e : Expr) : Eval F Bool := do
  let a ← c.eval e
  truthy P <$> objAt a

/-- The text of an argument, if there is one. -/
def argCstr (default : Text) : Option ExprArg → Eval F Text
  | some arg => evalCstr P c arg.2
  | none => pure default

/-- What may not be there is nothing. -/
def orNone : Option Addr → Eval F Addr
  | some a => pure a
  | none => none'

/-- A list of pairs of a key and its value. -/
def newPairs (es : List (Text × Addr)) : Eval F Addr := do
  let pairs ← es.mapM fun e => do
    let key ← newString e.1
    alloc (.list [key, e.2])
  alloc (.list pairs)

abbrev Filter (F : Type) := Addr → List ExprArg → Eval F Addr

/-- A filter of the text of its base. -/
def textFilter (g : Text → Text) : Filter F := fun base _ => do
  let s ← cstrAt P base
  newString (g s)

def filterTrim : Filter F := textFilter P fun s => trimDup s true true

def filterDefault : Filter F := fun base args => do
  if truthy P (← objAt base) then pure base
  else
    match args with
    | arg :: _ => c.eval arg.2
    | [] => newString []

def filterLength : Filter F := fun base _ => do
  match ← objAt base with
  | .list items => alloc (.int items.length)
  | .string s => alloc (.int s.length)
  | _ => alloc (.int 0)

def filterUpper : Filter F := textFilter P (List.map toupper)

def filterCapitalize : Filter F := textFilter P fun
  | [] => []
  | ch :: s => toupper ch :: s.map tolower

def filterReplace : Filter F := fun base args => do
  let old ← argCstr P c [] args[0]?
  let new ← argCstr P c [] args[1]?
  let s ← cstrAt P base
  newString (strReplaceAll s old new)

def filterLower : Filter F := textFilter P (List.map tolower)

/-- `strcmp` on two keys, not above. -/
def keyLe (a b : Text × Addr) : Bool := a.1 ≤ b.1

def filterDictsort : Filter F := fun base _ => do
  match ← objAt base with
  | .dict es => newPairs (es.mergeSort keyLe)
  | _ => alloc (.list [])

def filterInt : Filter F := fun base _ => do
  match ← objAt base with
  | .int n => alloc (.int n)
  | o => alloc (.int (atol (valueAsCstr P o)))

def itemsOf : Obj F → List Addr
  | .list items => items
  | _ => []

def filterFirst : Filter F := fun base _ => do
  let o ← objAt base
  orNone (itemsOf o).head?

def filterLast : Filter F := fun base _ => do
  let o ← objAt base
  orNone (itemsOf o).getLast?

def filterJoin : Filter F := fun base args => do
  let sep ← argCstr P c [] args[0]?
  let o ← objAt base
  let parts ← (itemsOf o).mapM fun a => cstrAt P a
  newString (sep.intercalate parts)

/-- The `int` that a 64-bit number is cut to. -/
def toInt32 (n : ℤ) : ℤ := n.bmod (2 ^ 32)

def tojsonIndent : List ExprArg → ℤ → Eval F ℤ
  | [], indent => pure indent
  | arg :: args, indent => do
    if arg.1 = some "indent".toList then
      let a ← c.eval arg.2
      match ← objAt a with
      | .int n => tojsonIndent args (toInt32 n)
      | _ => tojsonIndent args indent
    else tojsonIndent args indent

def filterTojson : Filter F := fun base args => do
  let indent ← tojsonIndent c args 0
  let text ← look fun s => jsonToJson P s.heap indent (s.heap.length + 1) base 0
  newString (← ofOption text)

def filterPassthrough : Filter F := fun base _ => pure base

def filterString : Filter F := textFilter P id

def filterItems : Filter F := fun base _ => do
  match ← objAt base with
  | .dict es => newPairs es
  | _ => alloc (.list [])

def filterMap : Filter F := fun base args => do
  let fname ← argCstr P c [] args[0]?
  let o ← objAt base
  let items ← (itemsOf o).mapM fun item => c.itemFilter fname item
  alloc (.list items)

def kFilterTable : List (String × Filter F) :=
  [("trim", filterTrim P), ("default", filterDefault P c), ("length", filterLength),
    ("upper", filterUpper P), ("capitalize", filterCapitalize P), ("replace", filterReplace P c),
    ("lower", filterLower P), ("dictsort", filterDictsort), ("int", filterInt P),
    ("first", filterFirst), ("last", filterLast), ("join", filterJoin P c),
    ("tojson", filterTojson P c), ("list", filterPassthrough), ("safe", filterPassthrough),
    ("string", filterString P), ("items", filterItems), ("map", filterMap P c)]

/-- `lookup_filter` -/
def lookupFilter (name : Text) : Option (Filter F) :=
  ((kFilterTable P c).find? fun f => f.1.toList = name).map Prod.snd

/-- The filter of that name, or the base itself. -/
def applyFilter (name : Text) : Filter F := (lookupFilter P c name).getD filterPassthrough

abbrev Method (F : Type) := Addr → List ExprArg → Text → Eval F Addr

def methodGet : Method F := fun base args _ => do
  let key ← argCstr P c [] args[0]?
  let o ← objAt base
  match dictGet o key, args[1]? with
  | some v, _ => pure v
  | none, some arg => c.eval arg.2
  | none, none => none'

def methodSplit : Method F := fun base args _ => do
  let sep ← argCstr P c [] args[0]?
  let s ← cstrAt P base
  let parts ← (if sep = [] then [s] else splitOn sep s).mapM newString
  alloc (.list parts)

def methodStrip : Method F := fun base _ name => do
  let s ← cstrAt P base
  newString (trimDup s (name ≠ "rstrip".toList) (name ≠ "lstrip".toList))

def methodStartswith : Method F := fun base args name => do
  let pre ← argCstr P c [] args[0]?
  let s ← cstrAt P base
  alloc (.bool (if name = "startswith".toList then pre.isPrefixOf s else pre.isSuffixOf s))

def methodFilterAlias : Method F := fun base args name => applyFilter P c name base args

def kMethodTable : List (String × Method F) :=
  [("get", methodGet P c), ("split", methodSplit P c), ("replace", methodFilterAlias P c),
    ("strip", methodStrip P), ("lstrip", methodStrip P), ("rstrip", methodStrip P),
    ("trim", methodStrip P), ("items", methodFilterAlias P c), ("join", methodFilterAlias P c),
    ("lower", methodFilterAlias P c), ("upper", methodFilterAlias P c),
    ("capitalize", methodFilterAlias P c), ("startswith", methodStartswith P c),
    ("endswith", methodStartswith P c)]

/-- `lookup_method` -/
def lookupMethod (name : Text) : Option (Method F) :=
  ((kMethodTable P c).find? fun f => f.1.toList = name).map Prod.snd

/-- `eval_methodcall` -/
def evalMethodcall (a : Expr) (name : Text) (args : List ExprArg) : Eval F Addr := do
  let base ← c.eval a
  match lookupMethod P c name with
  | some fn => fn base args name
  | none =>
    everr "unsupported method call"
    none'

end Evaluator

end Kappai.Jinja
