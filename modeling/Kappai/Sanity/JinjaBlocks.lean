import Kappai.Sanity.JinjaExpr

/-! What the parser of blocks and statements reads. A block stops at the end of the tokens, or inside a
tag, after its opening, where the keyword ends a block. -/

namespace Kappai.Jinja

open Descent

variable {α β : Type} {ts : List Tok} {P : List Tok → α → Prop} {L : List Tok → List Tok → α → Prop}

/-- What a block has used, the opening of the tag it has stopped in with it. -/
def BlockRead (u r : List Tok) (b : List Stmt) : Prop :=
  ∃ body, Produces .block body b ∧ (u = body ∧ (cur r).is .eof ∨
    ∃ o : Tok, o.is .stmtOpen ∧ u = body ++ [o] ∧ (cur r).isBlockEnd)

/-- What stands between the opening of an `elif`, `else` or `endif` tag and the close of the last one. -/
def IfTailRead (u : List Tok) (b : List Stmt) : Prop :=
  (∃ k us, u = k :: us ∧ k.is .ident) ∧
    ∀ o c : Tok, o.is .stmtOpen → c.is .stmtClose → Produces .ifTail (o :: (u ++ [c])) b

theorem BlockRead.nil {r : List Tok} (h : (cur r).is .eof) : BlockRead [] r [] := ⟨[], .nil, .inl ⟨rfl, h⟩⟩

theorem BlockRead.stop {r : List Tok} {o : Tok} (ho : o.is .stmtOpen) (h : (cur r).isBlockEnd) :
    BlockRead [o] r [] := ⟨[], .nil, .inr ⟨o, ho, rfl, h⟩⟩

theorem BlockRead.cons {u r p : List Tok} {b b' : List Stmt} (h : BlockRead u r b)
    (hp : ∀ {body}, Produces .block body b → Produces .block (p ++ body) b') :
    BlockRead (p ++ u) r b' := by
  obtain ⟨body, hbody, ⟨rfl, hr⟩ | ⟨o, ho, rfl, hr⟩⟩ := h
  · exact ⟨_, hp hbody, .inl ⟨rfl, hr⟩⟩
  · exact ⟨_, hp hbody, .inr ⟨o, ho, (List.append_assoc ..).symm, hr⟩⟩

/-- With a keyword next, a block has stopped in a tag. -/
theorem BlockRead.opened {u r : List Tok} {b : List Stmt} (h : BlockRead u r b) (hr : (cur r).is .ident) :
    ∃ body o, Produces .block body b ∧ o.is .stmtOpen ∧ u = body ++ [o] := by
  obtain ⟨body, hbody, ⟨-, heof⟩ | ⟨o, ho, hu, -⟩⟩ := h
  · exact absurd ((of_decide_eq_true hr).symm.trans (of_decide_eq_true heof)) (by decide)
  · exact ⟨body, o, hbody, ho, hu⟩

theorem identIs_ident {t : Tok} {s : String} (h : t.identIs s) : t.is .ident :=
  decide_eq_true (of_decide_eq_true h).1

theorem runs_expectStmtClose {context : String} :
    Runs (expectStmtClose context) ts (fun _ _ => True) fun u _ _ => ∃ t : Tok, t.is .stmtClose ∧ u = [t] :=
  runs_expect (by decide)

theorem runs_expectKw {kw : String} :
    Runs (expectKw kw) ts (fun _ _ => True) fun u _ _ => ∃ t : Tok, t.identIs kw ∧ u = [t] :=
  runs_expectTok visible_identIs

/-- The end tag of a block, whose opening the block has used. -/
theorem runs_endTag {kw context : String} {a : α} :
    Runs (do
      expectKw kw
      expectStmtClose context
      pure a) ts (fun _ _ => True) fun u r b => b = a ∧ ∀ us bs, BlockRead us (u ++ r) bs →
        ∃ body es, Produces .block body bs ∧ EndTag kw es ∧ us ++ u = body ++ es := by
  refine Runs.bind runs_expectKw fun _ u r hu _ => Runs.bind runs_expectStmtClose fun _ u' r' hu' _ =>
    runs_pure trivial ?_
  rintro ⟨c, hc, rfl⟩ ⟨k, hk, rfl⟩
  refine ⟨rfl, fun us bs hread => ?_⟩
  obtain ⟨body, o, hbody, ho, rfl⟩ := hread.opened (identIs_ident hk)
  exact ⟨body, [o, k, c], hbody, ⟨o, k, c, ho, hk, hc, rfl⟩, by simp⟩

/-- Some token is passed over, unless there is none. -/
theorem runs_skip {A : Tok → Parser α} (h : ∀ t r, r.length ≤ ts.length →
      Runs (A t) r (fun _ _ => True) fun _ _ _ => True) :
    Runs (padvance >>= A) ts (fun _ _ => True) fun _ _ _ => True := by
  match ts, h with
  | [], h => exact h eofTok [] le_rfl
  | t :: r, h =>
    by_cases ht : t.type = .eof
    · intro ds d
      obtain ⟨a, u, r', new, hrun, hts, -⟩ := h t (t :: r) le_rfl ds d
      refine ⟨a, u, r', new, ?_, hts, trivial, fun _ => trivial⟩
      rw [← hrun]
      simp only [Bind.bind, StateT.bind, padvance, if_pos ht, Option.bind_some]
    · exact runs_padvance ht (h t r (Nat.le_succ _))

theorem runs_skipTag : Runs skipTag ts (fun _ _ => True) fun _ _ _ => True := by
  refine Runs.bind (runs_loop (T := fun _ _ _ _ => True) fun _ ts' _ => ?_) fun _ u r _ _ => ?_
  · refine runs_test (fun _ => runs_pure trivial trivial) fun _ => ?_
    refine runs_test (fun _ => runs_pure trivial trivial) fun h => ?_
    refine runs_shift (g := fun t => !t.is .eof) ?_ (by simp [h]) fun t r _ _ =>
      runs_pure (List.cons_ne_nil _ _) fun _ _ _ _ _ => trivial
    intro t ht heof
    simp [Tok.is, heof] at ht
  · exact runs_accept (visible_is (by decide)) (fun _ _ _ _ => runs_pure trivial fun _ => trivial) fun _ =>
      runs_pure trivial fun _ => trivial

/-- The blocks further in are read as they should on the lists that can still reach them. -/
structure BlockCalls.Read (c : BlockCalls) (n : ℕ) : Prop where
  block : ∀ ts, ts.length < n → Runs c.block ts (fun _ _ => True) BlockRead
  ifTail : ∀ ts, ts.length < n → Runs c.ifTail ts (fun _ _ => True) fun u _ b => IfTailRead u b

/-- A name that is read even if something else is there. -/
theorem runs_name {A : Tok → Parser α} {msg : String} {K : Tok → List Tok → List Tok → α → Prop}
    (hA : ∀ t r, r.length ≤ ts.length → Runs (A t) r (fun _ _ => True) (K t))
    (hL : ∀ t u r b, t.is .ident → K t u r b → L (t :: u) r b) :
    Runs (check .ident msg >>= fun _ => padvance >>= A) ts (fun _ _ => True) L := by
  have hcheck : Runs (check .ident msg) ts (fun u _ => u = []) fun _ _ _ => (cur ts).is .ident :=
    runs_test (fun h => runs_pure rfl h) fun _ => runs_perr_end rfl
  refine Runs.bind hcheck fun _ u r hr hu => ?_
  obtain rfl : r = ts := by rw [hr, hu, List.nil_append]
  subst hu
  cases hcur : (cur r).is .ident with
  | true =>
    refine runs_shift (visible_is (k := .ident) (by decide)) hcur fun t r' hr' ht => ?_
    refine (hA t r' (by rw [hr', List.length_cons]; omega)).mono (fun _ _ _ => trivial) ?_
    exact fun u r b _ h _ => hL t u r b ht h
  | false =>
    refine (runs_skip fun t r' hr' => (hA t r' hr').mono (fun _ _ h => h) fun _ _ _ _ _ => trivial).mono
      (fun _ _ _ => trivial) ?_
    exact fun _ _ _ _ _ h => absurd h Bool.false_ne_true

/-- The loop variables, the first of which has been read. -/
theorem runs_loopVar2 : Runs parseLoopVar2 ts (fun _ _ => True) fun u _ w => ∀ v : Tok, v.is .ident →
    DerivesVars (v :: u) v.text w := by
  refine runs_accept (visible_is (by decide)) (fun c r _ hc => ?_) fun _ =>
    runs_pure trivial fun v hv => .one hv
  refine runs_name (K := fun t u _ w => u = [] ∧ w = some t.text) (fun t r' _ =>
    runs_pure trivial ⟨rfl, rfl⟩) ?_
  rintro t _ r w ht ⟨rfl, rfl⟩ v hv
  exact .two hv hc ht

theorem runs_setAttr : Runs parseSetAttr ts (fun _ _ => True) fun u _ a => DerivesAttr u a := by
  refine runs_accept (visible_is (by decide)) (fun d r _ hd => ?_) fun _ => runs_pure trivial .none
  exact runs_accept (visible_is (by decide)) (fun t r' _ ht => runs_pure trivial (.some hd ht)) fun _ =>
    runs_perr (runs_pure trivial trivial)

theorem listed_params : Listed DerivesParam DerivesParams := ⟨.nil, .single, .cons⟩

theorem runs_signature : Runs parseSignature ts (fun _ _ => True) fun u _ a => DerivesSignature u a := by
  refine runs_test (fun h => ?_) fun _ => runs_pure trivial .none
  refine (runs_bracketed (f := id) listed_params (by decide) (by decide) h fun as ts' _ => ?_).mono
    (fun _ _ h => h) ?_
  swap
  · rintro u - as - ⟨l, r, us, as, hl, hr, rfl, has, rfl⟩
    exact .params hl has hr
  refine runs_accept (visible_is (by decide)) (fun t r _ ht => ?_) fun _ =>
    runs_perr (runs_pure trivial trivial)
  refine runs_accept visible_opIs (fun o r' _ ho => ?_) fun _ =>
    runs_pure trivial ⟨_, rfl, .bare ht⟩
  refine Runs.bind (runs_expression r') fun e u r'' _ _ => runs_pure trivial fun he => ⟨_, rfl, ?_⟩
  simpa using DerivesParam.default ht ho he

section Statements

variable {c : BlockCalls} {n : ℕ} (hc : c.Read n)

include hc

theorem runs_if (hts : ts.length ≤ n) (h : (cur ts).identIs "if") :
    Runs (parseIfStmt c) ts (fun _ _ => True) fun u _ s => Produces .stmt u s := by
  refine runs_shift (g := fun t => t.identIs "if") visible_identIs h fun k r hr hk => ?_
  refine Runs.bind (runs_expression r) fun cond u₁ r₁ h₁ _ => ?_
  refine Runs.bind runs_expectStmtClose fun _ u₂ r₂ h₂ _ => ?_
  have hlen : r₂.length < n := by
    rw [hr, h₁, h₂] at hts; simp only [List.length_cons, List.length_append] at hts; omega
  refine Runs.bind (hc.block r₂ hlen) fun body u₃ r₃ h₃ _ => ?_
  refine Runs.bind (hc.ifTail r₃ (by rw [h₃, List.length_append] at hlen; omega)) fun els u₄ r₄ h₄ _ => ?_
  refine Runs.bind runs_expectStmtClose fun _ u₅ r₅ h₅ _ => runs_pure trivial ?_
  rintro ⟨c', hc', rfl⟩ ⟨⟨k', us, rfl, hk'⟩, htail⟩ hblock ⟨c, hcl, rfl⟩ hcond
  obtain ⟨bs, o, hbody, ho, rfl⟩ := hblock.opened (by rw [h₄]; exact hk')
  simpa using Produces.if hk hcond hcl hbody (htail o c' ho hc')

theorem runs_for (hts : ts.length ≤ n) (h : (cur ts).identIs "for") :
    Runs (parseForStmt c) ts (fun _ _ => True) fun u _ s => Produces .stmt u s := by
  refine runs_shift (g := fun t => t.identIs "for") visible_identIs h fun k r hr hk => ?_
  refine runs_name (K := fun v u _ s => v.is .ident → Produces .stmt (k :: v :: u) s) (fun v r₁ h₁ => ?_)
    fun v u r b hv h => h hv
  refine Runs.bind runs_loopVar2 fun w u₂ r₂ h₂ _ => ?_
  refine Runs.bind (runs_expectTok visible_opIs) fun _ u₃ r₃ h₃ _ => ?_
  refine Runs.bind (runs_expression r₃) fun iterable u₄ r₄ h₄ _ => ?_
  refine Runs.bind runs_expectStmtClose fun _ u₅ r₅ h₅ _ => ?_
  have hlen : r₅.length < n := by
    rw [hr, List.length_cons] at hts
    rw [h₂, h₃, h₄, h₅] at h₁
    simp only [List.length_append] at h₁
    omega
  refine Runs.bind (hc.block r₅ hlen) fun body u₆ r₆ h₆ _ => ?_
  refine runs_endTag.mono (fun _ _ h => h) ?_
  rintro u₇ r₇ s hr₇ ⟨rfl, hend⟩ hblock ⟨cl, hcl, rfl⟩ hiter ⟨i, hi, rfl⟩ hvar hv
  obtain ⟨bs, es, hbody, hes, heq⟩ := hend u₆ body (hr₇ ▸ hblock)
  simpa [heq] using Produces.for hk (hvar v hv) hi hiter hcl hbody hes

theorem runs_set (hts : ts.length ≤ n) (h : (cur ts).identIs "set") :
    Runs (parseSetStmt c) ts (fun _ _ => True) fun u _ s => Produces .stmt u s := by
  refine runs_shift (g := fun t => t.identIs "set") visible_identIs h fun k r hr hk => ?_
  refine runs_accept (visible_is (by decide)) (fun t r₁ h₁ ht => ?_) fun _ => runs_perr runs_skipTag
  refine Runs.bind runs_setAttr fun attr u₂ r₂ h₂ _ => ?_
  refine runs_accept visible_opIs (fun o r₃ h₃ ho => ?_) fun _ => ?_
  · refine Runs.bind (runs_expression r₃) fun val u₄ r₄ h₄ _ => ?_
    refine Runs.bind runs_expectStmtClose fun _ u₅ r₅ h₅ _ => runs_pure trivial ?_
    rintro ⟨cl, hcl, rfl⟩ hval hattr
    simpa using Produces.set hk ht hattr ho hval hcl
  refine runs_accept (visible_is (by decide)) (fun cl r₃ h₃ hcl => ?_) fun _ =>
    runs_perr (runs_pure trivial trivial)
  have hlen : r₃.length < n := by
    rw [hr, h₁, h₂, h₃] at hts; simp only [List.length_cons, List.length_append] at hts; omega
  refine Runs.bind (hc.block r₃ hlen) fun body u₄ r₄ h₄ _ => ?_
  refine runs_endTag.mono (fun _ _ h => h) ?_
  rintro u₅ r₅ s hr₅ ⟨rfl, hend⟩ hblock hattr
  obtain ⟨bs, es, hbody, hes, heq⟩ := hend u₄ body (hr₅ ▸ hblock)
  simpa [heq] using Produces.setBlock hk ht hattr hcl hbody hes

theorem runs_macroStmt (hts : ts.length ≤ n) (h : (cur ts).identIs "macro") :
    Runs (parseMacroStmt c) ts (fun _ _ => True) fun u _ s => Produces .stmt u s := by
  refine runs_shift (g := fun t => t.identIs "macro") visible_identIs h fun k r hr hk => ?_
  refine runs_name (K := fun t u _ s => t.is .ident → Produces .stmt (k :: t :: u) s) (fun t r₁ h₁ => ?_)
    fun v u r b hv h => h hv
  refine Runs.bind runs_signature fun params u₂ r₂ h₂ _ => ?_
  refine Runs.bind runs_expectStmtClose fun _ u₃ r₃ h₃ _ => ?_
  have hlen : r₃.length < n := by
    rw [hr, List.length_cons] at hts
    rw [h₂, h₃] at h₁
    simp only [List.length_append] at h₁
    omega
  refine Runs.bind (hc.block r₃ hlen) fun body u₄ r₄ h₄ _ => ?_
  refine runs_endTag.mono (fun _ _ h => h) ?_
  rintro u₅ r₅ s hr₅ ⟨rfl, hend⟩ hblock ⟨cl, hcl, rfl⟩ hparams ht
  obtain ⟨bs, es, hbody, hes, heq⟩ := hend u₄ body (hr₅ ▸ hblock)
  simpa [heq] using Produces.macroDef hk ht hparams hcl hbody hes

theorem runs_generation (hts : ts.length ≤ n) (h : (cur ts).identIs "generation") :
    Runs (parseGeneration c) ts (fun _ _ => True) fun u _ s => Produces .stmt u s := by
  refine runs_shift (g := fun t => t.identIs "generation") visible_identIs h fun k r hr hk => ?_
  refine Runs.bind runs_expectStmtClose fun _ u₁ r₁ h₁ _ => ?_
  have hlen : r₁.length < n := by
    rw [hr, h₁] at hts; simp only [List.length_cons, List.length_append] at hts; omega
  refine Runs.bind (hc.block r₁ hlen) fun body u₂ r₂ h₂ _ => ?_
  refine runs_endTag.mono (fun _ _ h => h) ?_
  rintro u₃ r₃ s hr₃ ⟨rfl, hend⟩ hblock ⟨cl, hcl, rfl⟩
  obtain ⟨bs, es, hbody, hes, heq⟩ := hend u₂ body (hr₃ ▸ hblock)
  simpa [heq] using Produces.generation hk hcl hbody hes

/-- A tag's keyword and what comes after it, or the end of a block. -/
theorem runs_statementTag (hts : ts.length ≤ n) :
    Runs (parseStatementTag c) ts (fun _ _ => True) fun u r x => match x with
      | none => u = [] ∧ (cur r).isBlockEnd
      | some s => Produces .stmt u s := by
  refine runs_peek (g := id) ?_
  have hsome : ∀ {m : Parser Stmt}, Runs m ts (fun _ _ => True) (fun u _ s => Produces .stmt u s) →
      Runs (some <$> m) ts (fun _ _ => True) fun u r x => match x with
        | none => u = [] ∧ (cur r).isBlockEnd
        | some s => Produces .stmt u s := fun h =>
    (runs_map h).mono (fun _ _ _ => trivial) fun _ _ _ _ ⟨_, hx, hs⟩ => hx ▸ hs
  have hbare : ∀ {g : Tok → Bool} {s : Stmt} {context : String}, Visible g → g (cur ts) →
      (∀ {k cl : Tok}, g k → cl.is .stmtClose → Produces .stmt [k, cl] s) →
      Runs (padvance >>= fun _ => expectStmtClose context >>= fun _ => pure (some s)) ts (fun _ _ => True)
        fun u r x => match x with
          | none => u = [] ∧ (cur r).isBlockEnd
          | some s => Produces .stmt u s := fun hg h hs =>
    runs_shift hg h fun k r _ hk => Runs.bind runs_expectStmtClose fun _ u r' _ _ =>
      runs_pure trivial fun ⟨cl, hcl, hu⟩ => by subst hu; exact hs hk hcl
  simp only [id]
  split_ifs with h₁ h₂ h₃ h₄ h₅ h₆ h₇ h₈
  · exact hsome (runs_if hc hts h₁)
  · exact hsome (runs_for hc hts h₂)
  · exact runs_pure trivial ⟨rfl, h₃⟩
  · exact hsome (runs_set hc hts h₄)
  · exact hsome (runs_generation hc hts h₅)
  · exact hsome (runs_macroStmt hc hts h₆)
  · exact hbare visible_identIs h₈ fun hk hcl => .break hk hcl
  · exact hbare visible_identIs ((Bool.or_eq_true_iff.mp h₇).resolve_left h₈) fun hk hcl => .continue hk hcl
  · refine runs_perr ?_
    exact (runs_map runs_skipTag).mono (fun _ _ _ => trivial) fun _ _ _ _ _ => trivial

theorem turnRuns_item {head : List Stmt} (hts : ts.length ≤ n + 1) :
    TurnRuns (parseItem c) (fun head u r b => ∃ ss, b = head ++ ss ∧ BlockRead u r ss) head ts := by
  refine runs_test (fun h => runs_pure trivial ⟨[], (List.append_nil _).symm, .nil h⟩) fun heof => ?_
  refine runs_accept (visible_is (by decide)) (fun t r _ ht => ?_) fun _ => ?_
  · refine runs_pure (List.cons_ne_nil _ _) ?_
    rintro u' r' b - ⟨ss, rfl, hss⟩
    refine ⟨if t.stripped = [] then ss else .text t.stripped :: ss, ?_, hss.cons (p := [t]) (.text ht)⟩
    split_ifs <;> simp
  refine runs_accept (visible_is (by decide)) (fun o r _ ho => ?_) fun _ => ?_
  · refine Runs.bind (runs_expression r) fun e u₁ r₁ _ _ => Runs.bind (runs_expect (by decide))
      fun _ u₂ r₂ _ _ => runs_pure (List.cons_ne_nil _ _) ?_
    rintro ⟨cl, hcl, rfl⟩ he u' r' b - ⟨ss, rfl, hss⟩
    refine ⟨.output e :: ss, by simp, ?_⟩
    simpa using hss.cons (p := o :: (u₁ ++ [cl])) fun h => by simpa using Produces.output ho he hcl h
  refine runs_accept (visible_is (by decide)) (fun o r hr ho => ?_) fun _ => ?_
  · refine Runs.bind (runs_statementTag hc (by rw [hr, List.length_cons] at hts; omega))
      fun x u₁ r₁ _ _ => ?_
    cases x with
    | none =>
      refine runs_pure trivial ?_
      rintro ⟨rfl, hend⟩
      exact ⟨[], (List.append_nil _).symm, .stop ho hend⟩
    | some s =>
      refine runs_pure (List.cons_ne_nil _ _) ?_
      rintro hs u' r' b - ⟨ss, rfl, hss⟩
      refine ⟨s :: ss, by simp, ?_⟩
      simpa using hss.cons (p := o :: u₁) fun h => Produces.tag ho hs h
  · refine runs_perr (runs_shift (g := fun t => !t.is .eof) ?_ (by simp [heof]) fun t r _ _ =>
      runs_pure (List.cons_ne_nil _ _) trivial)
    intro t ht heof
    simp [Tok.is, heof] at ht

theorem runs_block (hts : ts.length ≤ n + 1) : Runs (parseBlock c) ts (fun _ _ => True) BlockRead := by
  refine runs_nested ?_ trivial
  refine (runs_loop fun head ts' hts' => turnRuns_item hc (hts'.trans hts)).mono (fun _ _ h => h) ?_
  rintro u r b - ⟨ss, rfl, hss⟩
  exact hss

theorem runs_ifTail (hts : ts.length ≤ n) :
    Runs (parseIfTail c) ts (fun _ _ => True) fun u _ b => IfTailRead u b := by
  refine runs_accept visible_identIs (fun k r hr hk => ?_) fun _ => ?_
  · refine Runs.bind (runs_expression r) fun cond u₁ r₁ h₁ _ => ?_
    refine Runs.bind runs_expectStmtClose fun _ u₂ r₂ h₂ _ => ?_
    have hlen : r₂.length < n := by
      rw [hr, h₁, h₂] at hts; simp only [List.length_cons, List.length_append] at hts; omega
    refine Runs.bind (hc.block r₂ hlen) fun body u₃ r₃ h₃ _ => ?_
    refine Runs.bind (hc.ifTail r₃ (by rw [h₃, List.length_append] at hlen; omega))
      fun els u₄ r₄ h₄ _ => runs_pure trivial ?_
    rintro ⟨⟨k', us, rfl, hk'⟩, htail⟩ hblock ⟨cl, hcl, rfl⟩ hcond
    obtain ⟨bs, o, hbody, ho, rfl⟩ := hblock.opened (by rw [h₄]; exact hk')
    refine ⟨⟨k, _, rfl, identIs_ident hk⟩, fun o' c' ho' hc' => ?_⟩
    simpa using Produces.elif ho' hk hcond hcl hbody (htail o c' ho hc')
  refine runs_accept visible_identIs (fun k r hr hk => ?_) fun _ => ?_
  · refine Runs.bind runs_expectStmtClose fun _ u₁ r₁ h₁ _ => ?_
    have hlen : r₁.length < n := by
      rw [hr, h₁] at hts; simp only [List.length_cons, List.length_append] at hts; omega
    refine Runs.bind (hc.block r₁ hlen) fun els u₂ r₂ h₂ _ => ?_
    refine Runs.bind runs_expectKw fun _ u₃ r₃ h₃ _ => runs_pure trivial ?_
    rintro ⟨k', hk', rfl⟩ hblock ⟨cl, hcl, rfl⟩
    obtain ⟨bs, o, hbody, ho, rfl⟩ := hblock.opened (by rw [h₃]; exact identIs_ident hk')
    refine ⟨⟨k, _, rfl, identIs_ident hk⟩, fun o' c' ho' hc' => ?_⟩
    simpa using Produces.else ho' hk hcl hbody ⟨o, k', c', ho, hk', hc', rfl⟩
  · refine Runs.bind runs_expectKw fun _ u r _ _ => runs_pure trivial ?_
    rintro ⟨k, hk, rfl⟩
    refine ⟨⟨k, [], rfl, identIs_ident hk⟩, fun o c ho hcl => ?_⟩
    exact .endif ⟨o, k, c, ho, hk, hcl, rfl⟩

end Statements

theorem blockCalls_read (n : ℕ) : (blockCalls n).Read n := by
  induction n with
  | zero => exact ⟨fun _ h => absurd h (Nat.not_lt_zero _), fun _ h => absurd h (Nat.not_lt_zero _)⟩
  | succ n ih =>
    exact ⟨fun _ h => runs_block ih (by omega), fun _ h => runs_ifTail ih (Nat.le_of_lt_succ h)⟩

/-- Every list of tokens is parsed to an end, and without an error the program is a block that the
tokens up to the end or up to the first tag that ends a block are written for. -/
theorem runs_template (ts : List Tok) :
    Runs (parseBlock (blockCalls (ts.length + 1))) ts (fun _ _ => True) BlockRead :=
  (blockCalls_read (ts.length + 2)).block ts (by omega)

/-! Going over the tags of what the grammar derives: every block is closed, so nothing is left open and
no tag is stray. -/

/-- A token of an expression: neither the opening of a tag nor the end. -/
def Tok.inner (t : Tok) : Prop := t.type ≠ .stmtOpen ∧ t.type ≠ .eof

theorem IsTest.inner {n e : Expr} {ts : List Tok} (h : IsTest n ts e) : ∀ t ∈ ts, t.inner := by
  cases h <;> simp_all [Tok.inner, Tok.is, Tok.opIs]

/-- An expression takes no token but those that stand inside a tag. -/
theorem Derives.inner {nt : Nonterm} {ts : List Tok} {n : nt.Node} (h : Derives nt ts n) :
    ∀ t ∈ ts, t.inner := by
  induction h with
  | isTest ho htest _ ih =>
    have := htest.inner
    simp_all [Tok.inner, Tok.opIs, or_imp, forall_and]
  | plus ho _ _ ih ih' =>
    rcases Bool.or_eq_true_iff.mp ho with ho | ho <;> simp_all [Tok.inner, Tok.opIs, or_imp, forall_and]
  | attr hd ht _ ih =>
    rcases Bool.or_eq_true_iff.mp ht with ht | ht <;> simp_all [Tok.inner, Tok.is, or_imp, forall_and]
  | methodcall hd ht _ _ ih ih' =>
    rcases Bool.or_eq_true_iff.mp ht with ht | ht <;> simp_all [Tok.inner, Tok.is, or_imp, forall_and]
  | _ => simp_all [Tok.inner, Tok.is, Tok.opIs, Tok.identIs, or_imp, forall_and]

theorem DerivesVars.inner {ts : List Tok} {v : Text} {w : Option Text} (h : DerivesVars ts v w) :
    ∀ t ∈ ts, t.inner := by
  cases h <;> simp_all [Tok.inner, Tok.is]

theorem DerivesAttr.inner {ts : List Tok} {a : Option Text} (h : DerivesAttr ts a) : ∀ t ∈ ts, t.inner := by
  cases h <;> simp_all [Tok.inner, Tok.is]

theorem DerivesParam.inner {ts : List Tok} {a : MacroParam} (h : DerivesParam ts a) : ∀ t ∈ ts, t.inner := by
  cases h with
  | bare ht => simp_all [Tok.inner, Tok.is]
  | default ht ho he =>
    have := he.inner
    simp_all [Tok.inner, Tok.is, Tok.opIs]

theorem DerivesParams.inner {ts : List Tok} {as : List MacroParam} (h : DerivesParams ts as) :
    ∀ t ∈ ts, t.inner := by
  induction h with
  | nil => simp
  | single h => exact h.inner
  | cons h hc _ ih =>
    have := h.inner
    simp_all [Tok.inner, Tok.is, or_imp, forall_and]

theorem DerivesSignature.inner {ts : List Tok} {as : List MacroParam} (h : DerivesSignature ts as) :
    ∀ t ∈ ts, t.inner := by
  cases h with
  | none => simp
  | params hl h hr =>
    have := h.inner
    simp_all [Tok.inner, Tok.is, or_imp, forall_and]

theorem stray_skip {t : Tok} (h : t.type ≠ .stmtOpen) (d : ℕ) (rest : List Tok) :
    strayTag d (t :: rest) = strayTag d rest := by
  simp [strayTag, Tok.is, h]

theorem stray_inner {ts : List Tok} (h : ∀ t ∈ ts, t.inner) (d : ℕ) (rest : List Tok) :
    strayTag d (ts ++ rest) = strayTag d rest := by
  induction ts with
  | nil => rfl
  | cons t ts ih =>
    rw [List.cons_append, stray_skip (h t List.mem_cons_self).1, ih fun u hu => h u (List.mem_cons_of_mem _ hu)]

theorem inner_opIs {t : Tok} {s : String} (h : t.opIs s) : t.inner := by
  simp_all [Tok.inner, Tok.opIs]

theorem is_type {t : Tok} {type : TokType} (h : t.is type) : t.type = type := of_decide_eq_true h

/-- A keyword is one string only. -/
theorem identIs_eq {t : Tok} {kw : String} (h : t.identIs kw) (s : String) : t.identIs s = decide (kw = s) := by
  obtain ⟨htype, htext⟩ := of_decide_eq_true h
  simp [Tok.identIs, htype, htext, String.toList_inj]

theorem isBlockEnd_eq {t : Tok} {kw : String} (h : t.identIs kw) :
    t.isBlockEnd = endKws.any fun s => decide (kw = s) := congrArg endKws.any (funext (identIs_eq h))

section Tags

variable {o k : Tok} {kw : String} {rest : List Tok} (d : ℕ)

/-- The tag that ends a block. -/
theorem stray_end (ho : o.is .stmtOpen) (hk : k.identIs kw)
    (hend : (endKws.any fun s => decide (kw = s)) = true) (helse : kw ≠ "else") (helif : kw ≠ "elif") :
    strayTag (d + 1) (o :: k :: rest) = strayTag d rest := by
  rw [strayTag, if_pos ho, show cur (k :: rest) = k from rfl, if_pos (by rw [isBlockEnd_eq hk, hend]),
    identIs_eq hk, identIs_eq hk, if_neg (by simp [helse, helif]), stray_skip (by
      rw [is_type (identIs_ident hk)]; decide)]
  simp

/-- A tag between two blocks of a statement. -/
theorem stray_middle (ho : o.is .stmtOpen) (hk : k.identIs kw) (h : kw = "else" ∨ kw = "elif") :
    strayTag (d + 1) (o :: k :: rest) = strayTag (d + 1) rest := by
  have hend : (endKws.any fun s => decide (kw = s)) = true := by rcases h with rfl | rfl <;> decide
  rw [strayTag, if_pos ho, show cur (k :: rest) = k from rfl, if_pos (by rw [isBlockEnd_eq hk, hend]),
    identIs_eq hk, identIs_eq hk, if_pos (by simpa using h), stray_skip (by
      rw [is_type (identIs_ident hk)]; decide)]
  simp

theorem stray_start (ho : o.is .stmtOpen) (hk : k.identIs kw)
    (hend : (endKws.any fun s => decide (kw = s)) = false) :
    strayTag d (o :: k :: rest) = strayTag (if opensBlock (k :: rest) then d + 1 else d) rest := by
  rw [strayTag, if_pos ho, show cur (k :: rest) = k from rfl, if_neg (by rw [isBlockEnd_eq hk, hend]; simp),
    stray_skip (by rw [is_type (identIs_ident hk)]; decide)]

/-- The tag that starts a block. -/
theorem stray_open (ho : o.is .stmtOpen) (hk : k.identIs kw)
    (hopen : (openKws.any fun s => decide (kw = s)) = true) :
    strayTag d (o :: k :: rest) = strayTag (d + 1) rest := by
  have hopens : opensBlock (k :: rest) = true := by
    simp [opensBlock, funext (identIs_eq hk), hopen]
  rw [stray_start d ho hk, hopens, if_pos rfl]
  revert hopen
  simp only [openKws, List.any_cons, List.any_nil, Bool.or_false, Bool.or_eq_true, decide_eq_true_eq]
  rintro (rfl | rfl | rfl | rfl) <;> decide

/-- A tag with a keyword that neither starts nor ends a block. -/
theorem stray_plain (ho : o.is .stmtOpen) (hk : k.identIs kw) (h : kw = "break" ∨ kw = "continue") :
    strayTag d (o :: k :: rest) = strayTag d rest := by
  have hopens : opensBlock (k :: rest) = false := by
    rcases h with rfl | rfl <;> simp [opensBlock, openKws, funext (identIs_eq hk), identIs_eq hk]
  rw [stray_start d ho hk (by rcases h with rfl | rfl <;> decide), hopens, if_neg Bool.false_ne_true]

theorem stray_set (ho : o.is .stmtOpen) (hk : k.identIs "set") :
    strayTag d (o :: k :: rest) = strayTag (if opensSet rest then d + 1 else d) rest := by
  have hopens : opensBlock (k :: rest) = opensSet rest := by
    simp [opensBlock, openKws, funext (identIs_eq hk), identIs_eq hk]
  rw [stray_start d ho hk (by decide), hopens]

/-- What comes after the target tells the two kinds of `set` apart. -/
theorem opensSet_eq {t c : Tok} {as : List Tok} {attr : Option Text} (h : DerivesAttr as attr)
    (hc : c.is .dot = false) : opensSet (t :: (as ++ c :: rest)) = c.is .stmtClose := by
  cases h with
  | none => simp [opensSet, hc]
  | some hd _ => simp [opensSet, hd, cur]

end Tags

/-- What the part of a statement does to the number of open blocks. -/
def Balanced : StNonterm → List Tok → Prop
  | .stmt, us => ∀ (o : Tok) (d : ℕ) (rest : List Tok), o.is .stmtOpen →
      strayTag d (o :: (us ++ rest)) = strayTag d rest
  | .ifTail, us => ∀ d rest, strayTag (d + 1) (us ++ rest) = strayTag d rest
  | .block, us => ∀ d rest, strayTag d (us ++ rest) = strayTag d rest

theorem EndTag.balanced {kw : String} {es : List Tok} (h : EndTag kw es)
    (hend : (endKws.any fun s => decide (kw = s)) = true) (helse : kw ≠ "else") (helif : kw ≠ "elif")
    (d : ℕ) (rest : List Tok) : strayTag (d + 1) (es ++ rest) = strayTag d rest := by
  obtain ⟨o, k, c, ho, hk, hc, rfl⟩ := h
  show strayTag (d + 1) (o :: k :: (c :: rest)) = _
  rw [stray_end d ho hk hend helse helif, stray_skip (by rw [is_type hc]; decide)]

theorem Produces.balanced {nt : StNonterm} {ts : List Tok} {n : nt.Node} (h : Produces nt ts n) :
    Balanced nt ts := by
  induction h with
  | nil => exact fun d rest => rfl
  | text ht _ ih =>
    intro d rest
    rw [List.cons_append, stray_skip (by rw [is_type ht]; decide), ih]
  | output ho he hc _ ih =>
    intro d rest
    rw [List.cons_append, stray_skip (by rw [is_type ho]; decide), List.append_assoc,
      stray_inner he.inner, List.cons_append, stray_skip (by rw [is_type hc]; decide), ih]
  | tag ho _ _ ih ih' =>
    intro d rest
    rw [List.cons_append, List.append_assoc, ih _ d _ ho, ih']
  | «break» hk hc =>
    intro o d rest ho
    show strayTag d (o :: _ :: (_ :: rest)) = _
    rw [stray_plain d ho hk (.inl rfl), stray_skip (by rw [is_type hc]; decide)]
  | «continue» hk hc =>
    intro o d rest ho
    show strayTag d (o :: _ :: (_ :: rest)) = _
    rw [stray_plain d ho hk (.inr rfl), stray_skip (by rw [is_type hc]; decide)]
  | «if» hk he hc _ _ ih ih' =>
    intro o d rest ho
    rw [List.cons_append, stray_open d ho hk (by decide), List.append_assoc, stray_inner he.inner,
      List.cons_append, stray_skip (by rw [is_type hc]; decide), List.append_assoc, ih, ih']
  | elif ho hk he hc _ _ ih ih' =>
    intro d rest
    rw [List.cons_append, List.cons_append, stray_middle d ho hk (.inr rfl), List.append_assoc,
      stray_inner he.inner, List.cons_append, stray_skip (by rw [is_type hc]; decide), List.append_assoc, ih,
      ih']
  | «else» ho hk hc _ hend ih =>
    intro d rest
    rw [List.cons_append, List.cons_append, stray_middle d ho hk (.inl rfl), List.cons_append,
      stray_skip (by rw [is_type hc]; decide), List.append_assoc, ih,
      hend.balanced (by decide) (by decide) (by decide)]
  | endif hend => exact hend.balanced (by decide) (by decide) (by decide)
  | «for» hk hv hi he hc _ hend ih =>
    intro o d rest ho
    rw [List.cons_append, stray_open d ho hk (by decide), List.append_assoc, stray_inner hv.inner,
      List.cons_append, stray_skip (inner_opIs hi).1, List.append_assoc, stray_inner he.inner,
      List.cons_append, stray_skip (by rw [is_type hc]; decide), List.append_assoc, ih,
      hend.balanced (by decide) (by decide) (by decide)]
  | set hk ht ha ho he hc =>
    intro o' d rest hopen
    have htype := (of_decide_eq_true ho).1
    rw [List.cons_append, stray_set d hopen hk, List.cons_append, List.append_assoc, List.cons_append,
      opensSet_eq ha (by simp [Tok.is, htype]), if_neg (by simp [Tok.is, htype]),
      stray_skip (by rw [is_type ht]; decide), stray_inner ha.inner, stray_skip (inner_opIs ho).1,
      List.append_assoc, stray_inner he.inner]
    exact stray_skip (by rw [is_type hc]; decide) d rest
  | setBlock hk ht ha hc _ hend ih =>
    intro o d rest ho
    rw [List.cons_append, stray_set d ho hk, List.cons_append, List.append_assoc, List.cons_append,
      opensSet_eq ha (by simp [Tok.is, is_type hc]), if_pos hc, stray_skip (by rw [is_type ht]; decide),
      stray_inner ha.inner, stray_skip (by rw [is_type hc]; decide), List.append_assoc, ih,
      hend.balanced (by decide) (by decide) (by decide)]
  | macroDef hk ht hp hc _ hend ih =>
    intro o d rest ho
    rw [List.cons_append, stray_open d ho hk (by decide), List.cons_append,
      stray_skip (by rw [is_type ht]; decide), List.append_assoc, stray_inner hp.inner,
      List.cons_append, stray_skip (by rw [is_type hc]; decide), List.append_assoc, ih,
      hend.balanced (by decide) (by decide) (by decide)]
  | generation hk hc _ hend ih =>
    intro o d rest ho
    rw [List.cons_append, stray_open d ho hk (by decide), List.cons_append,
      stray_skip (by rw [is_type hc]; decide), List.append_assoc, ih,
      hend.balanced (by decide) (by decide) (by decide)]

theorem EndTag.visible {kw : String} {es : List Tok} (h : EndTag kw es) : ∀ t ∈ es, t.type ≠ .eof := by
  obtain ⟨o, k, c, ho, hk, hc, rfl⟩ := h
  simp [is_type ho, is_type (identIs_ident hk), is_type hc]

theorem seen_is {t : Tok} {type : TokType} (h : t.is type) (hne : type ≠ .eof) : t.type ≠ .eof :=
  is_type h ▸ hne

theorem seen_inner {ts : List Tok} (h : ∀ t ∈ ts, t.inner) : ∀ t ∈ ts, t.type ≠ .eof :=
  fun t ht => (h t ht).2

/-- The end of the tokens is no part of a statement. -/
theorem Produces.visible {nt : StNonterm} {ts : List Tok} {n : nt.Node} (h : Produces nt ts n) :
    ∀ t ∈ ts, t.type ≠ .eof := by
  have hkw : ∀ {t : Tok} {kw : String}, t.identIs kw → t.type ≠ .eof := fun h =>
    seen_is (identIs_ident h) (by decide)
  have hclose : ∀ {t : Tok}, t.is .stmtClose → t.type ≠ .eof := fun h => seen_is h (by decide)
  have hopen : ∀ {t : Tok}, t.is .stmtOpen → t.type ≠ .eof := fun h => seen_is h (by decide)
  have hname : ∀ {t : Tok}, t.is .ident → t.type ≠ .eof := fun h => seen_is h (by decide)
  induction h with
  | nil => simp
  | «if» hk he hc _ _ ih ih' =>
    simp only [List.forall_mem_cons, List.forall_mem_append]
    exact ⟨hkw hk, seen_inner he.inner, hclose hc, ih, ih'⟩
  | elif ho hk he hc _ _ ih ih' =>
    simp only [List.forall_mem_cons, List.forall_mem_append]
    exact ⟨hopen ho, hkw hk, seen_inner he.inner, hclose hc, ih, ih'⟩
  | «else» ho hk hc _ hend ih =>
    simp only [List.forall_mem_cons, List.forall_mem_append]
    exact ⟨hopen ho, hkw hk, hclose hc, ih, hend.visible⟩
  | endif hend => exact hend.visible
  | «for» hk hv hi he hc _ hend ih =>
    simp only [List.forall_mem_cons, List.forall_mem_append]
    exact ⟨hkw hk, seen_inner hv.inner, (inner_opIs hi).2, seen_inner he.inner, hclose hc, ih, hend.visible⟩
  | set hk ht ha ho he hc =>
    simp only [List.forall_mem_cons, List.forall_mem_append]
    exact ⟨hkw hk, hname ht, seen_inner ha.inner, (inner_opIs ho).2, seen_inner he.inner, hclose hc, by simp⟩
  | setBlock hk ht ha hc _ hend ih =>
    simp only [List.forall_mem_cons, List.forall_mem_append]
    exact ⟨hkw hk, hname ht, seen_inner ha.inner, hclose hc, ih, hend.visible⟩
  | macroDef hk ht hp hc _ hend ih =>
    simp only [List.forall_mem_cons, List.forall_mem_append]
    exact ⟨hkw hk, hname ht, seen_inner hp.inner, hclose hc, ih, hend.visible⟩
  | generation hk hc _ hend ih =>
    simp only [List.forall_mem_cons, List.forall_mem_append]
    exact ⟨hkw hk, hclose hc, ih, hend.visible⟩
  | «break» hk hc =>
    simp only [List.forall_mem_cons]
    exact ⟨hkw hk, hclose hc, by simp⟩
  | «continue» hk hc =>
    simp only [List.forall_mem_cons]
    exact ⟨hkw hk, hclose hc, by simp⟩
  | text ht _ ih =>
    simp only [List.forall_mem_cons]
    exact ⟨seen_is ht (by decide), ih⟩
  | output ho he hc _ ih =>
    simp only [List.forall_mem_cons, List.forall_mem_append]
    exact ⟨seen_is ho (by decide), seen_inner he.inner, seen_is hc (by decide), ih⟩
  | tag ho _ _ ih ih' =>
    simp only [List.forall_mem_cons, List.forall_mem_append]
    exact ⟨hopen ho, ih, ih'⟩

end Kappai.Jinja
