import Mathlib.Data.List.DropRight
import Kappai.Lib.Descent
import Kappai.Spec.JinjaLex

/-! The parser of chat templates: expressions with their precedences, statements with the blocks in
them, and `jinja_compile`. A block is the list of its statements, a null pointer the empty one. -/

namespace Kappai.Jinja

/-- What is written in the source, or the C string an escape stands for. -/
abbrev Text := List Char

/-- `expr_node`; the name of a kind is that of its `EX_` constant. -/
inductive Expr
  | string (str : Text)
  | number (str : Text)
  | ident (str : Text)
  | attr (a : Expr) (str : Text)
  | index (a : Expr) (str : Text)
  | slice (a : Expr) (b c step : Option Expr)
  | binop (op : Text) (a b : Expr)
  | not (a : Expr)
  | filter (a : Expr) (str : Text) (args : List (Option Text × Expr))
  | isdefined (a : Expr) (str : Option Text)
  | call (str : Text) (args : List (Option Text × Expr))
  | list (items : List Expr)
  | dict (entries : List (Expr × Expr))
  | ternary (a c : Expr) (b : Option Expr)
  | methodcall (a : Expr) (str : Text) (args : List (Option Text × Expr))
  | dynindex (a b : Expr)

abbrev ExprArg := Option Text × Expr

structure MacroParam where
  name : Text
  defaultVal : Option Expr

/-- `stmt_node`, without the pointer to the next one -/
inductive Stmt
  | text (text : Text)
  | output (expr : Expr)
  | if (cond : Expr) (thenBody elseBody : List Stmt)
  | for (loopVar : Text) (loopVar2 : Option Text) (iterable : Expr) (body : List Stmt)
  | list (items : List Stmt)
  | set (setName : Text) (setAttr : Option Text) (setVal : Option Expr) (body : List Stmt)
  | macroDef (macroName : Text) (macroParams : List MacroParam) (macroBody : List Stmt)
  | generation (body : List Stmt)
  | noop
  | break

abbrev Parser := Descent Tok String

def eofTok : Tok := ⟨.eof, 0, [], false, false⟩

/-- The current token of a list that ends with `TOK_EOF`. -/
def cur (ts : List Tok) : Tok := ts.headD eofTok

/-- What is asked about the current token. -/
def peek {β : Type} (g : Tok → β) : Parser β := fun p => some (g (cur p.toks), p)

def pcur : Parser Tok := peek id

def padvance : Parser Tok := fun p =>
  match p.toks with
  | [] => some (eofTok, p)
  | t :: ts => some (t, if t.type = .eof then p else { p with toks := ts })

def Tok.is (t : Tok) (type : TokType) : Bool := t.type = type
def Tok.identIs (t : Tok) (s : String) : Bool := t.type = .ident ∧ t.text = s.toList
def Tok.opIs (t : Tok) (s : String) : Bool := t.type = .op ∧ t.text = s.toList

abbrev ptokIs (type : TokType) : Parser Bool := peek fun t => t.is type
abbrev ptokIdentIs (s : String) : Parser Bool := peek fun t => t.identIs s
abbrev ptokOpIs (s : String) : Parser Bool := peek fun t => t.opIs s

/-- `stmt_kw_is` -/
abbrev stmtKwIs (kw : String) : Parser Bool := ptokIdentIs kw

/-- `perr` -/
def perr (msg : String) : Parser Unit := Descent.perr ("parse error: " ++ msg)

/-- The token a production goes on with, consumed, or an error that leaves the tokens alone. -/
def expectTok (g : Tok → Bool) (msg : String) : Parser Unit := do
  if ← peek g then
    let _ ← padvance
  else perr msg

def expect (type : TokType) (msg : String) : Parser Unit := expectTok (fun t => t.is type) msg

/-- `expect_stmt_close` -/
def expectStmtClose (context : String) : Parser Unit :=
  expect .stmtClose ("expected '%\x7d' after " ++ context)

/-- The end tag of a block, without its close. -/
def expectKw (kw : String) : Parser Unit := expectTok (fun t => t.identIs kw) ("expected '" ++ kw ++ "'")

/-- What is after a token that may stand here. -/
def unlessAt (stop stop' : TokType) (m : Parser Expr) : Parser (Option Expr) := do
  if ← ptokIs stop then pure none
  else if ← ptokIs stop' then pure none
  else some <$> m

def unescapeChar : Char → Char
  | 'n' => '\n'
  | 't' => '\t'
  | 'r' => '\r'
  | 'b' => '\x08'
  | 'f' => '\x0c'
  | 'v' => '\x0b'
  | 'a' => '\x07'
  | '0' => '\x00'
  | c => c

def unescape : Text → Text
  | '\\' :: e :: cs => unescapeChar e :: unescape cs
  | c :: cs => c :: unescape cs
  | [] => []

/-- `str_unescape`, read as a C string -/
def strUnescape (s : Text) : Text := (unescape s).takeWhile (· ≠ '\x00')

/-- The parsers that a production calls again, one turn further in. -/
structure Calls where
  primary : Parser Expr
  comparison : Parser Expr
  expr : Parser Expr

section Expressions

variable (c : Calls)

/-- The loops of `parse_call_args` and of the literals: one item, and another one after a comma. -/
def commaLoop {σ : Type} (stop : TokType) (item : σ → Parser (Turn σ σ)) : σ → Parser σ :=
  Descent.loop fun s => do
    if ← ptokIs stop then pure (.done s)
    else if ← ptokIs .eof then pure (.done s)
    else
      match ← item s with
      | .done s => pure (.done s)
      | .again s =>
        if ← ptokIs .comma then
          let _ ← padvance
          pure (.again s)
        else pure (.done s)

def parseArg : Parser ExprArg := fun p =>
  match p.toks with
  | nm :: eq :: ts =>
    if nm.is .ident && eq.opIs "=" then ((fun e => (some nm.text, e)) <$> c.expr) { p with toks := ts }
    else (Prod.mk none <$> c.expr) p
  | _ => (Prod.mk none <$> c.expr) p

/-- `parse_call_args` -/
def parseCallArgs : Parser (List ExprArg) := do
  let _ ← padvance
  let args ← commaLoop .rparen (fun args => do
    let arg ← parseArg c
    pure (.again (args ++ [arg]))) []
  expect .rparen "expected ')'"
  pure args

def parseDict : Parser Expr := do
  let _ ← padvance
  let entries ← commaLoop .rbrace (fun entries => do
    let key ← c.expr
    if ← ptokIs .colon then
      let _ ← padvance
      let val ← c.expr
      pure (.again (entries ++ [(key, val)]))
    else
      perr "expected ':' in dict literal"
      pure (.done entries)) []
  expect .rbrace "expected '\x7d'"
  pure (.dict entries)

def parseList : Parser Expr := do
  let _ ← padvance
  let items ← commaLoop .rbracket (fun items => do
    let item ← c.expr
    pure (.again (items ++ [item]))) []
  expect .rbracket "expected ']'"
  pure (.list items)

/-- A parenthesised expression, or a tuple, which is a list. -/
def parseParen : Parser Expr := do
  let _ ← padvance
  let n ← c.expr
  let n ← if ← ptokIs .comma then
      Expr.list <$> Descent.loop (fun items => do
        if ← ptokIs .comma then
          let _ ← padvance
          if ← ptokIs .rparen then pure (.done items)
          else
            let item ← c.expr
            pure (.again (items ++ [item]))
        else pure (.done items)) [n]
    else pure n
  expect .rparen "expected ')'"
  pure n

def parseAtom : Parser Expr := do
  if ← ptokIs .string then
    let t ← padvance
    pure (.string (strUnescape t.text))
  else if ← ptokIs .number then
    let t ← padvance
    pure (.number t.text)
  else if ← ptokIs .lbrace then parseDict c
  else if ← ptokIs .lbracket then parseList c
  else if ← ptokIs .ident then
    let t ← padvance
    if ← ptokIs .lparen then
      let args ← parseCallArgs c
      pure (.call t.text args)
    else pure (.ident t.text)
  else if ← ptokIs .lparen then parseParen c
  else
    perr "expected expression"
    pure (.string [])

/-- The end of a slice, from its first colon on. -/
def parseSlice (a : Expr) (b : Option Expr) : Parser Expr := do
  let _ ← padvance
  let e ← unlessAt .rbracket .colon c.expr
  if ← ptokIs .colon then
    let _ ← padvance
    let step ← unlessAt .rbracket .rbracket c.expr
    pure (.slice a b e step)
  else pure (.slice a b e none)

/-- What stands between the brackets after an expression. -/
def parseIndex (n : Expr) : Parser Expr := do
  if ← ptokIs .colon then parseSlice c n none
  else if ← ptokIs .string then
    let t ← padvance
    pure (.attr n (strUnescape t.text))
  else if ← ptokIs .number then
    let t ← padvance
    if ← ptokIs .colon then parseSlice c n (some (.string t.text))
    else pure (.index n t.text)
  else
    let start ← c.expr
    if ← ptokIs .colon then parseSlice c n (some start)
    else pure (.dynindex n start)

def parseSubscript (n : Expr) : Parser Expr := do
  let _ ← padvance
  let n ← parseIndex c n
  expect .rbracket "expected ']'"
  pure n

/-- One turn of the loop over what follows an atom. -/
def parsePostfix (n : Expr) : Parser (Turn Expr Expr) := do
  if ← ptokIs .dot then
    let _ ← padvance
    let t ← pcur
    if t.is .ident || t.is .number then
      let _ ← padvance
      if ← ptokIs .lparen then
        let args ← parseCallArgs c
        pure (.again (.methodcall n t.text args))
      else pure (.again (.attr n t.text))
    else
      perr "expected identifier after '.'"
      pure (.done n)
  else if ← ptokIs .lbracket then
    let n ← parseSubscript c n
    pure (.again n)
  else pure (.done n)

/-- `parse_primary` -/
def parsePrimary : Parser Expr := do
  if ← ptokOpIs "-" then
    let _ ← padvance
    let operand ← c.primary
    pure (.binop ['-'] (.number ['0']) operand)
  else
    let n ← parseAtom c
    Descent.loop (parsePostfix c) n

/-- `parse_filter` -/
def parseFilter : Parser Expr := do
  let n ← parsePrimary c
  Descent.loop (fun n => do
    if ← ptokIs .pipe then
      let _ ← padvance
      if ← ptokIs .ident then
        let t ← padvance
        if ← ptokIs .lparen then
          let args ← parseCallArgs c
          pure (.again (.filter n t.text args))
        else pure (.again (.filter n t.text []))
      else
        perr "expected filter name"
        pure (.done n)
    else pure (.done n)) n

/-- `parse_concat` -/
def parseConcat : Parser Expr := do
  let n ← parseFilter c
  Descent.loop (fun n => do
    let t ← pcur
    if t.opIs "+" || t.opIs "~" then
      let _ ← padvance
      let rhs ← parseFilter c
      pure (.again (.binop ['+'] n rhs))
    else if t.opIs "-" then
      let _ ← padvance
      let rhs ← parseFilter c
      pure (.again (.binop ['-'] n rhs))
    else pure (.done n)) n

/-- The comparisons that are one token and keep its text as their operator. -/
def comparisonOps : List Text := ["==", "!=", "in", ">", "<", ">=", "<="].map String.toList

/-- `not` and then `in`: the first token alone is left where it is. -/
def parseNotIn (n : Expr) : Parser (Turn Expr Expr) := fun p =>
  match p.toks with
  | _ :: t :: ts =>
    if t.opIs "in" then
      ((fun rhs => .again (.not (.binop "in".toList n rhs))) <$> parseConcat c) { p with toks := ts }
    else some (.done n, p)
  | _ => some (.done n, p)

/-- The name of a test, which may be missing. -/
def parseTest (n : Expr) : Parser Expr := do
  if ← ptokIs .ident then
    let t ← padvance
    pure (.isdefined n (some t.text))
  else pure (.isdefined n none)

def parseIs (n : Expr) : Parser Expr := do
  let _ ← padvance
  if ← ptokOpIs "not" then
    let _ ← padvance
    Expr.not <$> parseTest n
  else parseTest n

/-- `parse_comparison` -/
def parseComparison : Parser Expr := do
  if ← ptokOpIs "not" then
    let _ ← padvance
    Expr.not <$> c.comparison
  else
    let n ← parseConcat c
    Descent.loop (fun n => do
      let t ← pcur
      if t.is .op && comparisonOps.contains t.text then
        let _ ← padvance
        let rhs ← parseConcat c
        pure (.again (.binop t.text n rhs))
      else if t.opIs "not" then parseNotIn c n
      else if t.opIs "is" then Turn.again <$> parseIs n
      else pure (.done n)) n

/-- `parse_binop_left_assoc` -/
def parseBinopLeftAssoc (next : Parser Expr) (opToken : String) : Parser Expr := do
  let n ← next
  Descent.loop (fun n => do
    if ← ptokOpIs opToken then
      let _ ← padvance
      let rhs ← next
      pure (.again (.binop opToken.toList n rhs))
    else pure (.done n)) n

/-- `parse_and` -/
def parseAnd : Parser Expr := parseBinopLeftAssoc (parseComparison c) "and"

/-- `parse_or` -/
def parseOr : Parser Expr := parseBinopLeftAssoc (parseAnd c) "or"

/-- `parse_expr` -/
def parseExpr : Parser Expr := do
  let n ← parseOr c
  if ← ptokIdentIs "if" then
    let _ ← padvance
    let cond ← parseOr c
    if ← ptokIdentIs "else" then
      let _ ← padvance
      let elseVal ← c.expr
      pure (.ternary n cond (some elseVal))
    else pure (.ternary n cond none)
  else pure n

end Expressions

/-- Expressions of at most this depth. -/
def calls : ℕ → Calls
  | 0 => ⟨Descent.stuck, Descent.stuck, Descent.stuck⟩
  | n + 1 => ⟨parsePrimary (calls n), parseComparison (calls n), parseExpr (calls n)⟩

/-- `parse_expr` from outside an expression -/
def expression : Parser Expr := fun p => (calls (p.toks.length + 1)).expr p

/-- An error that leaves the tokens alone, unless the right one is there. -/
def check (type : TokType) (msg : String) : Parser Unit := do
  if ← ptokIs type then pure () else perr msg

/-- The parsers of the blocks further in. -/
structure BlockCalls where
  block : Parser (List Stmt)
  ifTail : Parser (List Stmt)

section Statements

variable (c : BlockCalls)

/-- `parse_if_tail`, for the `else_body` it sets -/
def parseIfTail : Parser (List Stmt) := do
  if ← stmtKwIs "elif" then
    let _ ← padvance
    let cond ← expression
    expectStmtClose "elif condition"
    let thenBody ← c.block
    let elseBody ← c.ifTail
    pure [.list [.if cond thenBody elseBody]]
  else if ← stmtKwIs "else" then
    let _ ← padvance
    expectStmtClose "else"
    let elseBody ← c.block
    expectKw "endif"
    pure elseBody
  else
    expectKw "endif"
    pure []

/-- `parse_if_stmt` -/
def parseIfStmt : Parser Stmt := do
  let _ ← padvance
  let cond ← expression
  expectStmtClose "if condition"
  let thenBody ← c.block
  let elseBody ← c.ifTail
  expectStmtClose "endif"
  pure (.if cond thenBody elseBody)

def parseLoopVar2 : Parser (Option Text) := do
  if ← ptokIs .comma then
    let _ ← padvance
    check .ident "expected second loop variable"
    let t ← padvance
    pure (some t.text)
  else pure none

/-- `parse_for_stmt` -/
def parseForStmt : Parser Stmt := do
  let _ ← padvance
  check .ident "expected loop variable"
  let loopVar ← padvance
  let loopVar2 ← parseLoopVar2
  expectTok (fun t => t.opIs "in") "expected 'in'"
  let iterable ← expression
  expectStmtClose "for"
  let body ← c.block
  expectKw "endfor"
  expectStmtClose "endfor"
  pure (.for loopVar.text loopVar2 iterable body)

/-- Error recovery: everything up to the end of the tag. -/
def skipTag : Parser Stmt := do
  Descent.loop (fun () => do
    if ← ptokIs .stmtClose then pure (.done ())
    else if ← ptokIs .eof then pure (.done ())
    else
      let _ ← padvance
      pure (.again ())) ()
  if ← ptokIs .stmtClose then
    let _ ← padvance
    pure .noop
  else pure .noop

/-- The attribute after a name that is set. -/
def parseSetAttr : Parser (Option Text) := do
  if ← ptokIs .dot then
    let _ ← padvance
    if ← ptokIs .ident then
      let t ← padvance
      pure (some t.text)
    else
      perr "expected attribute name after '.'"
      pure none
  else pure none

/-- `parse_set_stmt` -/
def parseSetStmt : Parser Stmt := do
  let _ ← padvance
  if ← ptokIs .ident then
    let name ← padvance
    let attr ← parseSetAttr
    if ← ptokOpIs "=" then
      let _ ← padvance
      let val ← expression
      expectStmtClose "set"
      pure (.set name.text attr (some val) [])
    else if ← ptokIs .stmtClose then
      let _ ← padvance
      let body ← c.block
      expectKw "endset"
      expectStmtClose "endset"
      pure (.set name.text attr none body)
    else
      perr "expected '=' after set target"
      pure (.set name.text attr none [])
  else
    perr "expected variable name after set"
    skipTag

/-- The parameters of a macro, between its parentheses. -/
def parseMacroParams : Parser (List MacroParam) := do
  let _ ← padvance
  let params ← commaLoop .rparen (fun params => do
    if ← ptokIs .ident then
      let name ← padvance
      if ← ptokOpIs "=" then
        let _ ← padvance
        let val ← expression
        pure (.again (params ++ [⟨name.text, some val⟩]))
      else pure (.again (params ++ [⟨name.text, none⟩]))
    else
      perr "expected parameter name"
      pure (.done params)) []
  expect .rparen "expected ')' after macro params"
  pure params

def parseSignature : Parser (List MacroParam) := do
  if ← ptokIs .lparen then parseMacroParams else pure []

/-- `parse_macro_stmt` -/
def parseMacroStmt : Parser Stmt := do
  let _ ← padvance
  check .ident "expected macro name"
  let name ← padvance
  let params ← parseSignature
  expectStmtClose "macro signature"
  let body ← c.block
  expectKw "endmacro"
  expectStmtClose "endmacro"
  pure (.macroDef name.text params body)

/-- The `generation` block of `parse_statement_tag`. -/
def parseGeneration : Parser Stmt := do
  let _ ← padvance
  expectStmtClose "generation tag"
  let body ← c.block
  expectKw "endgeneration"
  expectStmtClose "endgeneration"
  pure (.generation body)

/-- The keywords at which `parse_statement_tag` ends a block. -/
def endKws : List String := ["endif", "endfor", "else", "elif", "endmacro", "endset", "endgeneration"]

def Tok.isBlockEnd (t : Tok) : Bool := endKws.any t.identIs

/-- `parse_statement_tag`; `none` is the end of the block. -/
def parseStatementTag : Parser (Option Stmt) := do
  let t ← pcur
  if t.identIs "if" then some <$> parseIfStmt c
  else if t.identIs "for" then some <$> parseForStmt c
  else if t.isBlockEnd then pure none
  else if t.identIs "set" then some <$> parseSetStmt c
  else if t.identIs "generation" then some <$> parseGeneration c
  else if t.identIs "macro" then some <$> parseMacroStmt c
  else if t.identIs "break" || t.identIs "continue" then
    let _ ← padvance
    expectStmtClose "break/continue"
    pure (some (if t.identIs "break" then .break else .noop))
  else
    perr "unsupported statement"
    some <$> skipTag

/-- The text of a token, without the blanks that its tags strip. -/
def Tok.stripped (t : Tok) : Text :=
  let s := if t.stripLeft then t.text.dropWhile isspace else t.text
  if t.stripRight then s.rdropWhile isspace else s

/-- One turn of the loop of `parse_block`. -/
def parseItem (head : List Stmt) : Parser (Turn (List Stmt) (List Stmt)) := do
  if ← ptokIs .eof then pure (.done head)
  else if ← ptokIs .text then
    let t ← padvance
    pure (.again (if t.stripped = [] then head else head ++ [.text t.stripped]))
  else if ← ptokIs .exprOpen then
    let _ ← padvance
    let e ← expression
    expect .exprClose "expected '\x7d\x7d'"
    pure (.again (head ++ [.output e]))
  else if ← ptokIs .stmtOpen then
    let _ ← padvance
    match ← parseStatementTag c with
    | none => pure (.done head)
    | some s => pure (.again (head ++ [s]))
  else
    perr "unexpected token"
    let _ ← padvance
    pure (.again head)

/-- `JINJA_MAX_BLOCK_DEPTH` -/
def maxBlockDepth : ℕ := 100

def tooDeep (p : Reader Tok String) : String :=
  "parse error: template nesting too deep (>" ++ toString maxBlockDepth ++ ") at token offset " ++
    toString (cur p.toks).start

/-- `parse_block` -/
def parseBlock : Parser (List Stmt) :=
  Descent.nested maxBlockDepth tooDeep [] (Descent.loop (parseItem c) [])

end Statements

/-- Blocks of at most this depth, and chains of that many `elif` tags. -/
def blockCalls : ℕ → BlockCalls
  | 0 => ⟨Descent.stuck, Descent.stuck⟩
  | n + 1 => ⟨parseBlock (blockCalls n), parseIfTail (blockCalls n)⟩

def kTestNames : List Text :=
  ["none", "null", "Null", "defined", "undefined", "string", "mapping", "iterable", "number", "integer",
    "float", "sequence", "boolean", "true", "false", "dict"].map String.toList

def kSupportedOps : List Text :=
  ["and", "or", "+", "-", "==", "!=", ">", "<", ">=", "<=", "in"].map String.toList

/-- The names in `k_filter_table`. -/
def kFilterNames : List Text :=
  ["trim", "default", "length", "upper", "capitalize", "replace", "lower", "dictsort", "int", "first",
    "last", "join", "tojson", "list", "safe", "string", "items", "map"].map String.toList

/-- The names in `k_method_table`. -/
def kMethodNames : List Text :=
  ["get", "split", "replace", "strip", "lstrip", "rstrip", "trim", "items", "join", "lower", "upper",
    "capitalize", "startswith", "endswith"].map String.toList

/-- `report_unsupported_fn` and `report_unsupported`; the text is cut to its buffer of 128 bytes. -/
def reportUnsupported (name : Text) (supported : List Text) (pre post : String) : List String :=
  if supported.contains name then []
  else [String.ofList ((pre.toList ++ name ++ post.toList).take 127)]

mutual

/-- `scan_expr` -/
def scanExpr : Expr → List String
  | .filter a str args =>
    reportUnsupported str kFilterNames "unsupported filter '" "'" ++ scanExpr a ++ scanArgs args
  | .methodcall a str args =>
    reportUnsupported str kMethodNames "unsupported method '" "()'" ++ scanExpr a ++ scanArgs args
  | .isdefined a str =>
    (str.elim [] fun s => reportUnsupported s kTestNames "unsupported test 'is " "'") ++ scanExpr a
  | .binop op a b =>
    reportUnsupported op kSupportedOps "unsupported operator '" "'" ++ scanExpr a ++ scanExpr b
  | .not a => scanExpr a
  | .ternary a c b => scanExpr a ++ scanOpt b ++ scanExpr c
  | .attr a _ => scanExpr a
  | .index a _ => scanExpr a
  | .dynindex a b => scanExpr a ++ scanExpr b
  | .call _ args => scanArgs args
  | .slice a b c step => scanExpr a ++ scanOpt b ++ scanOpt c ++ scanOpt step
  | .list items => scanItems items
  | .dict entries => scanEntries entries
  | .string _ => []
  | .number _ => []
  | .ident _ => []

def scanOpt : Option Expr → List String
  | none => []
  | some e => scanExpr e

def scanArgs : List (Option Text × Expr) → List String
  | [] => []
  | (_, e) :: args => scanExpr e ++ scanArgs args

def scanItems : List Expr → List String
  | [] => []
  | e :: items => scanExpr e ++ scanItems items

def scanEntries : List (Expr × Expr) → List String
  | [] => []
  | (k, v) :: entries => scanExpr k ++ scanExpr v ++ scanEntries entries

end

mutual

/-- `scan_stmt`, for one statement -/
def scanStmt : Stmt → List String
  | .text _ => []
  | .output e => scanExpr e
  | .if cond thenBody elseBody => scanExpr cond ++ scanStmts thenBody ++ scanStmts elseBody
  | .for _ _ iterable body => scanExpr iterable ++ scanStmts body
  | .list items => scanStmts items
  | .set _ _ val body => scanStmts body ++ scanOpt val
  | .macroDef _ _ body => scanStmts body
  | .generation body => scanStmts body
  | .noop => []
  | .break => []

def scanStmts : List Stmt → List String
  | [] => []
  | s :: ss => scanStmt s ++ scanStmts ss

end

/-- The parser at the end of a token list, and the program it has built. -/
def parseTemplate (toks : List Tok) (diagnostics : List String) : Option (List Stmt × Reader Tok String) :=
  parseBlock (blockCalls (toks.length + 1)) ⟨toks, diagnostics, 0⟩

/-- `jinja_compile`. An error is a null pointer with the messages that are reported; there are none
for a template that has no statement. -/
def jinjaCompile (src : List Char) : Option (Except (List String) (List Stmt)) :=
  match jinjaLex src with
  | none => none
  | some (.error msg) => some (.error [msg])
  | some (.ok lx) =>
    match parseTemplate lx.toks lx.diagnostics with
    | none => none
    | some (prog, p) =>
      let combined := p.diagnostics ++ scanStmts prog
      some (if combined = [] ∧ prog ≠ [] then .ok prog else .error combined)

end Kappai.Jinja
