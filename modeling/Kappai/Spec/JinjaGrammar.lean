import Kappai.Spec.JinjaParse

/-! The grammar of chat templates. A derivation takes every token of its list in one place: the parts of
a production are laid end to end. What a template is for, and whether its tags match, is said here
without the parser. -/

namespace Kappai.Jinja

/-- The levels at which operators, or what follows an atom, are read from left to right. -/
inductive Level | or | and | comparison | concat | filter | primary

/-- The lists with commas between their elements. -/
inductive Listing | args | items | entries

abbrev Listing.Elem : Listing → Type
  | .args => ExprArg
  | .items => Expr
  | .entries => Expr × Expr

/-- The parts of an expression; where one has an argument, that is what was read before it. -/
inductive Nonterm
  | expr
  | opt
  | level (k : Level)
  | operand (k : Level)
  | tail (k : Level) (n : Expr)
  | args
  | slice (a : Expr) (b : Option Expr)
  | subscript (n : Expr)
  | tuple
  | elem (k : Listing)
  | listing (k : Listing)

abbrev Nonterm.Node : Nonterm → Type
  | .opt => Option Expr
  | .args => List ExprArg
  | .tuple => List Expr
  | .elem k => k.Elem
  | .listing k => List k.Elem
  | _ => Expr

/-- What may come after `is`. -/
inductive IsTest (n : Expr) : List Tok → Expr → Prop
  | bare : IsTest n [] (.isdefined n none)
  | named {t : Tok} : t.is .ident → IsTest n [t] (.isdefined n (some t.text))
  | not {o : Tok} : o.opIs "not" → IsTest n [o] (.not (.isdefined n none))
  | notNamed {o t : Tok} : o.opIs "not" → t.is .ident →
      IsTest n [o, t] (.not (.isdefined n (some t.text)))

/-- An expression and the tokens it is written with. -/
inductive Derives : (nt : Nonterm) → List Tok → nt.Node → Prop
  | plain {ts n} : Derives (.level .or) ts n → Derives .expr ts n
  | ternary {ts cs n c} {i : Tok} : Derives (.level .or) ts n → i.identIs "if" →
      Derives (.level .or) cs c → Derives .expr (ts ++ i :: cs) (.ternary n c none)
  | ternaryElse {ts cs es n c e} {i l : Tok} : Derives (.level .or) ts n → i.identIs "if" →
      Derives (.level .or) cs c → l.identIs "else" → Derives .expr es e →
      Derives .expr (ts ++ i :: (cs ++ l :: es)) (.ternary n c (some e))
  | absent : Derives .opt [] none
  | present {ts e} : Derives .expr ts e → Derives .opt ts (some e)
  | level {k ts us n e} : Derives (.operand k) ts n → Derives (.tail k n) us e →
      Derives (.level k) (ts ++ us) e
  | done {k n} : Derives (.tail k n) [] n
  | orOperand {ts n} : Derives (.level .and) ts n → Derives (.operand .or) ts n
  | andOperand {ts n} : Derives (.level .comparison) ts n → Derives (.operand .and) ts n
  | comparisonOperand {ts n} : Derives (.level .concat) ts n → Derives (.operand .comparison) ts n
  | concatOperand {ts n} : Derives (.level .filter) ts n → Derives (.operand .concat) ts n
  | filterOperand {ts n} : Derives (.level .primary) ts n → Derives (.operand .filter) ts n
  | or {ts us n m e} {o : Tok} : o.opIs "or" → Derives (.level .and) ts m →
      Derives (.tail .or (.binop "or".toList n m)) us e → Derives (.tail .or n) (o :: (ts ++ us)) e
  | and {ts us n m e} {o : Tok} : o.opIs "and" → Derives (.level .comparison) ts m →
      Derives (.tail .and (.binop "and".toList n m)) us e → Derives (.tail .and n) (o :: (ts ++ us)) e
  | not {ts e} {o : Tok} : o.opIs "not" → Derives (.level .comparison) ts e →
      Derives (.level .comparison) (o :: ts) (.not e)
  | compare {ts us n m e} {o : Tok} : o.is .op → comparisonOps.contains o.text →
      Derives (.level .concat) ts m → Derives (.tail .comparison (.binop o.text n m)) us e →
      Derives (.tail .comparison n) (o :: (ts ++ us)) e
  | notIn {ts us n m e} {o i : Tok} : o.opIs "not" → i.opIs "in" → Derives (.level .concat) ts m →
      Derives (.tail .comparison (.not (.binop "in".toList n m))) us e →
      Derives (.tail .comparison n) (o :: i :: (ts ++ us)) e
  | isTest {ts us n m e} {o : Tok} : o.opIs "is" → IsTest n ts m → Derives (.tail .comparison m) us e →
      Derives (.tail .comparison n) (o :: (ts ++ us)) e
  | plus {ts us n m e} {o : Tok} : (o.opIs "+" || o.opIs "~") → Derives (.level .filter) ts m →
      Derives (.tail .concat (.binop ['+'] n m)) us e → Derives (.tail .concat n) (o :: (ts ++ us)) e
  | minus {ts us n m e} {o : Tok} : o.opIs "-" → Derives (.level .filter) ts m →
      Derives (.tail .concat (.binop ['-'] n m)) us e → Derives (.tail .concat n) (o :: (ts ++ us)) e
  | filter {us n e} {p t : Tok} : p.is .pipe → t.is .ident →
      Derives (.tail .filter (.filter n t.text [])) us e → Derives (.tail .filter n) (p :: t :: us) e
  | filterArgs {ts us n as e} {p t : Tok} : p.is .pipe → t.is .ident → Derives .args ts as →
      Derives (.tail .filter (.filter n t.text as)) us e →
      Derives (.tail .filter n) (p :: t :: (ts ++ us)) e
  | neg {ts e} {o : Tok} : o.opIs "-" → Derives (.level .primary) ts e →
      Derives (.level .primary) (o :: ts) (.binop ['-'] (.number ['0']) e)
  | attr {us n e} {d t : Tok} : d.is .dot → (t.is .ident || t.is .number) →
      Derives (.tail .primary (.attr n t.text)) us e → Derives (.tail .primary n) (d :: t :: us) e
  | methodcall {ts us n as e} {d t : Tok} : d.is .dot → (t.is .ident || t.is .number) →
      Derives .args ts as → Derives (.tail .primary (.methodcall n t.text as)) us e →
      Derives (.tail .primary n) (d :: t :: (ts ++ us)) e
  | bracket {ts us n m e} {l r : Tok} : l.is .lbracket → Derives (.subscript n) ts m → r.is .rbracket →
      Derives (.tail .primary m) us e → Derives (.tail .primary n) (l :: (ts ++ r :: us)) e
  | string {t : Tok} : t.is .string → Derives (.operand .primary) [t] (.string (strUnescape t.text))
  | number {t : Tok} : t.is .number → Derives (.operand .primary) [t] (.number t.text)
  | dict {ts es} {l r : Tok} : l.is .lbrace → Derives (.listing .entries) ts es → r.is .rbrace →
      Derives (.operand .primary) (l :: (ts ++ [r])) (.dict es)
  | list {ts es} {l r : Tok} : l.is .lbracket → Derives (.listing .items) ts es → r.is .rbracket →
      Derives (.operand .primary) (l :: (ts ++ [r])) (.list es)
  | ident {t : Tok} : t.is .ident → Derives (.operand .primary) [t] (.ident t.text)
  | call {ts as} {t : Tok} : t.is .ident → Derives .args ts as →
      Derives (.operand .primary) (t :: ts) (.call t.text as)
  | paren {ts e} {l r : Tok} : l.is .lparen → Derives .expr ts e → r.is .rparen →
      Derives (.operand .primary) (l :: (ts ++ [r])) e
  | tuple {ts us e es} {l r : Tok} : l.is .lparen → Derives .expr ts e → Derives .tuple us es →
      r.is .rparen → Derives (.operand .primary) (l :: (ts ++ (us ++ [r]))) (.list (e :: es))
  | tupleEnd : Derives .tuple [] []
  | tupleComma {c : Tok} : c.is .comma → Derives .tuple [c] []
  | tupleItem {ts us e es} {c : Tok} : c.is .comma → Derives .expr ts e → Derives .tuple us es →
      Derives .tuple (c :: (ts ++ us)) (e :: es)
  | subSlice {ts n e} : Derives (.slice n none) ts e → Derives (.subscript n) ts e
  | subString {n} {t : Tok} : t.is .string → Derives (.subscript n) [t] (.attr n (strUnescape t.text))
  | subNumber {n} {t : Tok} : t.is .number → Derives (.subscript n) [t] (.index n t.text)
  | subNumberSlice {ts n e} {t : Tok} : t.is .number →
      Derives (.slice n (some (.string t.text))) ts e → Derives (.subscript n) (t :: ts) e
  | subExpr {ts n b} : Derives .expr ts b → Derives (.subscript n) ts (.dynindex n b)
  | subExprSlice {ts us n b e} : Derives .expr ts b → Derives (.slice n (some b)) us e →
      Derives (.subscript n) (ts ++ us) e
  | slice {ts a b c} {o : Tok} : o.is .colon → Derives .opt ts c →
      Derives (.slice a b) (o :: ts) (.slice a b c none)
  | sliceStep {ts us a b c step} {o o' : Tok} : o.is .colon → Derives .opt ts c → o'.is .colon →
      Derives .opt us step → Derives (.slice a b) (o :: (ts ++ o' :: us)) (.slice a b c step)
  | args {ts as} {l r : Tok} : l.is .lparen → Derives (.listing .args) ts as → r.is .rparen →
      Derives .args (l :: (ts ++ [r])) as
  | named {ts e} {t o : Tok} : t.is .ident → o.opIs "=" → Derives .expr ts e →
      Derives (.elem .args) (t :: o :: ts) (some t.text, e)
  | unnamed {ts e} : Derives .expr ts e → Derives (.elem .args) ts (none, e)
  | item {ts e} : Derives .expr ts e → Derives (.elem .items) ts e
  | entry {ts us key val} {o : Tok} : Derives .expr ts key → o.is .colon → Derives .expr us val →
      Derives (.elem .entries) (ts ++ o :: us) (key, val)
  | nil {k} : Derives (.listing k) [] []
  | single {k ts a} : Derives (.elem k) ts a → Derives (.listing k) ts [a]
  | cons {k ts us a as} {c : Tok} : Derives (.elem k) ts a → c.is .comma → Derives (.listing k) us as →
      Derives (.listing k) (ts ++ c :: us) (a :: as)

/-- A parameter of a macro. -/
inductive DerivesParam : List Tok → MacroParam → Prop
  | bare {t : Tok} : t.is .ident → DerivesParam [t] ⟨t.text, none⟩
  | default {ts e} {t o : Tok} : t.is .ident → o.opIs "=" → Derives .expr ts e →
      DerivesParam (t :: o :: ts) ⟨t.text, some e⟩

/-- The parameters of a macro, with commas between them. -/
inductive DerivesParams : List Tok → List MacroParam → Prop
  | nil : DerivesParams [] []
  | single {ts a} : DerivesParam ts a → DerivesParams ts [a]
  | cons {ts us a as} {c : Tok} : DerivesParam ts a → c.is .comma → DerivesParams us as →
      DerivesParams (ts ++ c :: us) (a :: as)

/-- The parameters with their parentheses, which may be left out. -/
inductive DerivesSignature : List Tok → List MacroParam → Prop
  | none : DerivesSignature [] []
  | params {ts as} {l r : Tok} : l.is .lparen → DerivesParams ts as → r.is .rparen →
      DerivesSignature (l :: (ts ++ [r])) as

/-- The variables of a loop. -/
inductive DerivesVars : List Tok → Text → Option Text → Prop
  | one {v : Tok} : v.is .ident → DerivesVars [v] v.text none
  | two {v c w : Tok} : v.is .ident → c.is .comma → w.is .ident → DerivesVars [v, c, w] v.text (some w.text)

/-- The attribute that is set. -/
inductive DerivesAttr : List Tok → Option Text → Prop
  | none : DerivesAttr [] none
  | some {d t : Tok} : d.is .dot → t.is .ident → DerivesAttr [d, t] (some t.text)

/-- An end tag `{% kw %}`. -/
def EndTag (kw : String) (ts : List Tok) : Prop :=
  ∃ o k c : Tok, o.is .stmtOpen ∧ k.identIs kw ∧ c.is .stmtClose ∧ ts = [o, k, c]

inductive StNonterm | stmt | ifTail | block

abbrev StNonterm.Node : StNonterm → Type
  | .stmt => Stmt
  | .ifTail => List Stmt
  | .block => List Stmt

/-- A statement, from the keyword of its tag to the end of its end tag; what an `if` has after its first
block, up to its end tag with it; and a block. -/
inductive Produces : (nt : StNonterm) → List Tok → nt.Node → Prop
  | if {ts bs es cond body els} {k c : Tok} : k.identIs "if" → Derives .expr ts cond → c.is .stmtClose →
      Produces .block bs body → Produces .ifTail es els →
      Produces .stmt (k :: (ts ++ c :: (bs ++ es))) (.if cond body els)
  | elif {ts bs es cond body els} {o k c : Tok} : o.is .stmtOpen → k.identIs "elif" →
      Derives .expr ts cond → c.is .stmtClose → Produces .block bs body → Produces .ifTail es els →
      Produces .ifTail (o :: k :: (ts ++ c :: (bs ++ es))) [.list [.if cond body els]]
  | else {bs es els} {o k c : Tok} : o.is .stmtOpen → k.identIs "else" → c.is .stmtClose →
      Produces .block bs els → EndTag "endif" es → Produces .ifTail (o :: k :: c :: (bs ++ es)) els
  | endif {es} : EndTag "endif" es → Produces .ifTail es []
  | for {vs ts bs es v w iterable body} {k i c : Tok} : k.identIs "for" → DerivesVars vs v w →
      i.opIs "in" → Derives .expr ts iterable → c.is .stmtClose → Produces .block bs body →
      EndTag "endfor" es →
      Produces .stmt (k :: (vs ++ i :: (ts ++ c :: (bs ++ es)))) (.for v w iterable body)
  | set {as ts attr val} {k t o c : Tok} : k.identIs "set" → t.is .ident → DerivesAttr as attr →
      o.opIs "=" → Derives .expr ts val → c.is .stmtClose →
      Produces .stmt (k :: t :: (as ++ o :: (ts ++ [c]))) (.set t.text attr (some val) [])
  | setBlock {as bs es attr body} {k t c : Tok} : k.identIs "set" → t.is .ident → DerivesAttr as attr →
      c.is .stmtClose → Produces .block bs body → EndTag "endset" es →
      Produces .stmt (k :: t :: (as ++ c :: (bs ++ es))) (.set t.text attr none body)
  | macroDef {ps bs es params body} {k t c : Tok} : k.identIs "macro" → t.is .ident →
      DerivesSignature ps params → c.is .stmtClose → Produces .block bs body → EndTag "endmacro" es →
      Produces .stmt (k :: t :: (ps ++ c :: (bs ++ es))) (.macroDef t.text params body)
  | generation {bs es body} {k c : Tok} : k.identIs "generation" → c.is .stmtClose →
      Produces .block bs body → EndTag "endgeneration" es →
      Produces .stmt (k :: c :: (bs ++ es)) (.generation body)
  | break {k c : Tok} : k.identIs "break" → c.is .stmtClose → Produces .stmt [k, c] .break
  | continue {k c : Tok} : k.identIs "continue" → c.is .stmtClose → Produces .stmt [k, c] .noop
  | nil : Produces .block [] []
  | text {ts ss} {t : Tok} : t.is .text → Produces .block ts ss →
      Produces .block (t :: ts) (if t.stripped = [] then ss else .text t.stripped :: ss)
  | output {es ts e ss} {o c : Tok} : o.is .exprOpen → Derives .expr es e → c.is .exprClose →
      Produces .block ts ss → Produces .block (o :: (es ++ c :: ts)) (.output e :: ss)
  | tag {us ts s ss} {o : Tok} : o.is .stmtOpen → Produces .stmt us s → Produces .block ts ss →
      Produces .block (o :: (us ++ ts)) (s :: ss)

/-- Nothing of the source is cut off but a newline at its end. -/
def Lexer.coversSource (lx : Lexer) : Prop :=
  lx.len = strlen lx.src ∨ lx.len + 1 = strlen lx.src ∧ byteAt lx.src lx.len = '\n'

/-- The lexer and the parser have gone over the whole source, and the program is what it is written as. -/
def WholeTemplate (src : List Char) (prog : List Stmt) : Prop :=
  ∃ lx body last p, jinjaLex src = some (.ok lx) ∧ lx.coversSource ∧ lx.toks = body ++ [last] ∧
    last.type = .eof ∧ parseTemplate lx.toks lx.diagnostics = some (prog, p) ∧ p.toks = [last] ∧
    Produces .block body prog

/-- A `set` tag opens a block unless a value is assigned in it. -/
def opensSet : List Tok → Bool
  | _ :: d :: ts => if d.is .dot then (cur ts.tail).is .stmtClose else d.is .stmtClose
  | _ => false

def openKws : List String := ["if", "for", "macro", "generation"]

/-- The tag at the start of the tokens opens a block. -/
def opensBlock : List Tok → Bool
  | [] => false
  | k :: ts => openKws.any k.identIs || k.identIs "set" && opensSet ts

/-- Going over the tags alone with so many blocks open, an end, `else` or `elif` tag is met outside every
block. -/
def strayTag : ℕ → List Tok → Bool
  | _, [] => false
  | d, t :: ts =>
    if t.is .stmtOpen then
      if (cur ts).isBlockEnd then
        d == 0 || strayTag (if (cur ts).identIs "else" || (cur ts).identIs "elif" then d else d - 1) ts
      else strayTag (if opensBlock ts then d + 1 else d) ts
    else strayTag d ts

/-- The tokens of a source, as far as it can be split into tokens. -/
def tokensOf (src : List Char) : List Tok :=
  match jinjaLex src with
  | some (.ok lx) => lx.toks
  | _ => []

end Kappai.Jinja
