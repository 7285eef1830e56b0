import Kappai.Spec.JinjaGrammar

/-! What the parser of expressions reads: a run without a new error has derived its result from the
tokens it used, and every run ends. -/

namespace Kappai.Jinja

open Descent

variable {α β σ : Type} {ts : List Tok} {P : List Tok → α → Prop} {L : List Tok → List Tok → α → Prop}

section Tokens

variable {g : Tok → Bool} {A : Tok → Parser α} {B : Parser α}

/-- A test that the end of the tokens fails. -/
def Visible (g : Tok → Bool) : Prop := ∀ t : Tok, g t → t.type ≠ .eof

theorem visible_is {k : TokType} (h : k ≠ .eof) : Visible fun t => t.is k :=
  fun _ ht heof => h ((of_decide_eq_true ht).symm.trans heof)

theorem visible_opIs {s : String} : Visible fun t => t.opIs s :=
  fun _ ht heof => nomatch (of_decide_eq_true ht).1.symm.trans heof

theorem visible_identIs {s : String} : Visible fun t => t.identIs s :=
  fun _ ht heof => nomatch (of_decide_eq_true ht).1.symm.trans heof

theorem Visible.or {g' : Tok → Bool} (h : Visible g) (h' : Visible g') : Visible fun t => g t || g' t :=
  fun t ht => (Bool.or_eq_true_iff.mp ht).elim (h t) (h' t)

theorem cur_visible (hg : Visible g) (h : g (cur ts)) : ∃ t r, ts = t :: r ∧ g t ∧ t.type ≠ .eof := by
  cases ts with
  | nil => exact absurd rfl (hg _ h)
  | cons t r => exact ⟨t, r, rfl, h, hg t h⟩

theorem runs_peek {f : β → Parser α} {g : Tok → β} (h : Runs (f (g (cur ts))) ts P L) :
    Runs (peek g >>= f) ts P L := h

theorem runs_test {A : Parser α} (h : g (cur ts) = true → Runs A ts P L)
    (h' : g (cur ts) = false → Runs B ts P L) :
    Runs (peek g >>= fun b => if b = true then A else B) ts P L := by
  refine runs_peek ?_
  cases hb : g (cur ts) with
  | true => exact h hb
  | false => exact h' hb

theorem runs_padvance {t : Tok} {r : List Tok} (ht : t.type ≠ .eof)
    (h : Runs (A t) r (fun u => P (t :: u)) fun u => L (t :: u)) : Runs (padvance >>= A) (t :: r) P L := by
  intro ds d
  obtain ⟨a, u, r', new, hrun, hr, hp, hl⟩ := h ds d
  refine ⟨a, t :: u, r', new, ?_, by rw [hr, List.cons_append], hp, hl⟩
  rw [← hrun]
  simp only [Bind.bind, StateT.bind, padvance, if_neg ht, Option.bind_some]

/-- A token that may stand here is consumed. -/
theorem runs_accept (hg : Visible g)
    (h : ∀ t r, ts = t :: r → g t → Runs (A t) r (fun u => P (t :: u)) fun u => L (t :: u))
    (h' : g (cur ts) = false → Runs B ts P L) :
    Runs (peek g >>= fun b => if b = true then padvance >>= A else B) ts P L := by
  refine runs_test (fun hc => ?_) h'
  obtain ⟨t, r, rfl, ht, hne⟩ := cur_visible hg hc
  exact runs_padvance hne (h t r rfl ht)

/-- A choice by the current token, which is consumed in one case. -/
theorem runs_choose (hg : Visible g)
    (h : ∀ t r, ts = t :: r → g t → Runs (A t) r (fun u => P (t :: u)) fun u => L (t :: u))
    (h' : g (cur ts) = false → Runs B ts P L) :
    Runs (if g (cur ts) = true then padvance >>= A else B) ts P L := by
  cases hc : g (cur ts) with
  | true =>
    obtain ⟨t, r, rfl, ht, hne⟩ := cur_visible hg hc
    rw [if_pos rfl]
    exact runs_padvance hne (h t r rfl ht)
  | false =>
    rw [if_neg Bool.false_ne_true]
    exact h' hc

theorem runs_current {A : Tok → Tok → Parser α} {B : Tok → Parser α} (hg : Visible g)
    (h : ∀ t r, ts = t :: r → g t → Runs (A t t) r (fun u => P (t :: u)) fun u => L (t :: u))
    (h' : g (cur ts) = false → Runs (B (cur ts)) ts P L) :
    Runs (pcur >>= fun c => if g c = true then padvance >>= A c else B c) ts P L := by
  refine runs_peek (g := id) (runs_choose (A := A (cur ts)) hg (fun t r hts ht => ?_) h')
  subst hts
  exact h t r rfl ht

theorem runs_shift (hg : Visible g) (hc : g (cur ts))
    (h : ∀ t r, ts = t :: r → g t → Runs (A t) r (fun u => P (t :: u)) fun u => L (t :: u)) :
    Runs (padvance >>= A) ts P L := by
  obtain ⟨t, r, rfl, ht, hne⟩ := cur_visible hg hc
  exact runs_padvance hne (h t r rfl ht)

theorem runs_expectTok {msg : String} (hg : Visible g) :
    Runs (expectTok g msg) ts (fun _ _ => True) fun u _ _ => ∃ t : Tok, g t ∧ u = [t] :=
  runs_accept hg (fun t _ _ ht => runs_pure trivial ⟨t, ht, rfl⟩) fun _ => runs_perr_end trivial

theorem runs_expect {type : TokType} {msg : String} (h : type ≠ .eof) :
    Runs (expect type msg) ts (fun _ _ => True) fun u _ _ => ∃ t : Tok, t.is type ∧ u = [t] :=
  runs_expectTok (visible_is h)

/-- What is done with the closing token of a production. -/
theorem runs_close {type : TokType} {msg : String} {n : α} (h : type ≠ .eof) :
    Runs (do
      expect type msg
      pure n) ts (fun _ _ => True) fun u _ b => ∃ t : Tok, t.is type ∧ u = [t] ∧ b = n :=
  Runs.bind (runs_expect h) fun _ u r _ _ => runs_pure trivial fun ⟨t, ht, hu⟩ =>
    ⟨t, ht, by rw [hu, List.append_nil], rfl⟩

theorem runs_map {m : Parser α} {f : α → β} (h : Runs m ts P L) :
    Runs (f <$> m) ts (fun u b => ∃ a, b = f a ∧ P u a) fun u r b => ∃ a, b = f a ∧ L u r a := by
  rw [map_eq_pure_bind]
  refine Runs.bind h fun a u r _ hp => runs_pure ⟨a, rfl, ?_⟩ fun hl => ⟨a, rfl, ?_⟩
  · rwa [List.append_nil]
  · rwa [List.append_nil]

end Tokens

/-- The parser ends on every list that is shorter than `n`, with what `D` derives if there is no error. -/
def Reads (m : Parser α) (n : ℕ) (D : List Tok → α → Prop) : Prop :=
  ∀ ts, ts.length < n → Runs m ts (fun _ _ => True) fun u _ a => D u a

theorem Reads.next {m : Parser α} {n : ℕ} {D : List Tok → α → Prop} {f : α → Parser β}
    {P : List Tok → β → Prop} {L : List Tok → List Tok → β → Prop} (h : Reads m n D)
    (hn : ts.length < n)
    (hf : ∀ a u r, r.length ≤ ts.length → Runs (f a) r (fun u' b => P (u ++ u') b)
      fun u' r' b => D u a → L (u ++ u') r' b) : Runs (m >>= f) ts P L :=
  Runs.bind (h ts hn) fun a u r hts _ => hf a u r (by rw [hts, List.length_append]; omega)

/-- What a list with commas derives, given what its elements do. -/
structure Listed (D : List Tok → α → Prop) (T : List Tok → List α → Prop) : Prop where
  nil : T [] []
  single : ∀ {ts a}, D ts a → T ts [a]
  cons : ∀ {ts us a as} {c : Tok}, D ts a → c.is .comma → T us as → T (ts ++ c :: us) (a :: as)

theorem listed_listing (k : Listing) : Listed (Derives (.elem k)) (Derives (.listing k)) :=
  ⟨.nil, .single, .cons⟩

/-- The elements come in the order of their tokens, after those that were there. -/
theorem runs_commaLoop {D : List Tok → β → Prop} {T : List Tok → List β → Prop} (hT : Listed D T)
    {stop : TokType} {item : List β → Parser (Turn (List β) (List β))} {as : List β}
    (hitem : ∀ as ts', ts'.length ≤ ts.length → Runs (item as) ts' (fun _ _ => True) fun u _ x =>
      ∃ a, x = .again (as ++ [a]) ∧ D u a) :
    Runs (commaLoop stop item as) ts (fun _ _ => True) fun u _ b => ∃ bs, b = as ++ bs ∧ T u bs := by
  refine runs_loop (T := fun as u _ b => ∃ bs, b = as ++ bs ∧ T u bs) fun as ts' hts' => ?_
  refine runs_test (fun _ => ?_) fun _ => runs_test (fun _ => ?_) fun _ => ?_
  · exact runs_pure trivial ⟨[], (List.append_nil _).symm, hT.nil⟩
  · exact runs_pure trivial ⟨[], (List.append_nil _).symm, hT.nil⟩
  refine Runs.bind (hitem as ts' hts') fun x u r hr _ => ?_
  cases x with
  | done s => exact runs_pure trivial fun ⟨a, h, _⟩ => nomatch h
  | again s =>
    refine runs_accept (visible_is (by decide)) (fun c r' _ hc => runs_pure (by simp) ?_) fun _ =>
      runs_pure trivial ?_
    · rintro ⟨a, hs, ha⟩ u' r'' b - ⟨bs, rfl, hbs⟩
      obtain rfl := Turn.again.inj hs
      refine ⟨a :: bs, by simp, ?_⟩
      simpa using hT.cons ha hc hbs
    · rintro ⟨a, hs, ha⟩
      obtain rfl := Turn.again.inj hs
      refine ⟨[a], rfl, ?_⟩
      simpa using hT.single ha

/-- A list between its brackets. -/
theorem runs_bracketed {D : List Tok → β → Prop} {T : List Tok → List β → Prop} (hT : Listed D T)
    {opening closing : TokType} {msg : String} {item : List β → Parser (Turn (List β) (List β))}
    {f : List β → α} (ho : opening ≠ .eof) (hcl : closing ≠ .eof) (h : (cur ts).is opening)
    (hitem : ∀ as ts', ts'.length < ts.length → Runs (item as) ts' (fun _ _ => True) fun u _ x =>
      ∃ a, x = .again (as ++ [a]) ∧ D u a) :
    Runs (do
      let _ ← padvance
      let as ← commaLoop closing item []
      expect closing msg
      pure (f as)) ts (fun _ _ => True) fun u _ b => ∃ (l r : Tok) (us : List Tok) (as : List β),
        l.is opening ∧ r.is closing ∧ u = l :: (us ++ [r]) ∧ T us as ∧ b = f as := by
  refine runs_shift (visible_is ho) h fun l r hr hl => ?_
  refine Runs.bind (runs_commaLoop hT fun as ts' hts' => hitem as ts' ?_) fun as u r' _ _ => ?_
  · rw [hr, List.length_cons]; omega
  refine Runs.bind (runs_expect hcl) fun _ u' r'' _ _ => runs_pure trivial ?_
  rintro ⟨t, ht, rfl⟩ ⟨bs, rfl, hbs⟩
  exact ⟨l, t, u, _, hl, ht, by simp, hbs, rfl⟩

theorem runs_isTest {m : Expr} (h : (cur ts).opIs "is") :
    Runs (parseIs m) ts (fun u _ => u ≠ []) fun u _ e => ∃ (o : Tok) (us : List Tok),
      o.opIs "is" ∧ IsTest m us e ∧ u = o :: us := by
  have htest : ∀ ts, Runs (parseTest m) ts (fun _ _ => True) fun u _ e =>
      (u = [] ∧ e = .isdefined m none) ∨ ∃ t : Tok, t.is .ident ∧ u = [t] ∧ e = .isdefined m (some t.text) :=
    fun ts => runs_accept (visible_is (by decide))
      (fun t r _ ht => runs_pure trivial (.inr ⟨t, ht, rfl, rfl⟩)) fun _ => runs_pure trivial (.inl ⟨rfl, rfl⟩)
  refine runs_shift (g := fun t => t.opIs "is") visible_opIs h fun o r _ ho => ?_
  refine runs_accept visible_opIs (fun o' r' _ ho' => ?_) fun _ => ?_
  · refine (runs_map (htest r')).mono (fun _ _ _ => List.cons_ne_nil _ _) ?_
    rintro u r'' e - ⟨e, rfl, ⟨rfl, rfl⟩ | ⟨t, ht, rfl, rfl⟩⟩
    · exact ⟨o, [o'], ho, .not ho', rfl⟩
    · exact ⟨o, [o', t], ho, .notNamed ho' ht, rfl⟩
  · refine (htest r).mono (fun _ _ _ => List.cons_ne_nil _ _) ?_
    rintro u r'' e - (⟨rfl, rfl⟩ | ⟨t, ht, rfl, rfl⟩)
    · exact ⟨o, [], ho, .bare, rfl⟩
    · exact ⟨o, [t], ho, .named ht, rfl⟩

/-- One level of operators, given the level below it. -/
theorem reads_binop {k : Level} {n : ℕ} {next : Parser Expr} {op : String} {D : List Tok → Expr → Prop}
    (hnext : Reads next (n + 1) D) (hoperand : ∀ {ts m}, D ts m → Derives (.operand k) ts m)
    (hop : ∀ {ts us m rhs e} {o : Tok}, o.opIs op → D ts rhs →
      Derives (.tail k (.binop op.toList m rhs)) us e → Derives (.tail k m) (o :: (ts ++ us)) e) :
    Reads (parseBinopLeftAssoc next op) (n + 1) (Derives (.level k)) := by
  intro ts hts
  refine hnext.next hts fun m u r hr => ?_
  refine (runs_loop (T := fun m u _ e => Derives (.tail k m) u e) fun m ts' hts' => ?_).mono
    (fun _ _ h => h) fun _ _ _ _ he hm => .level (hoperand hm) he
  refine runs_accept visible_opIs (fun o r' ho hoo => ?_) fun _ => runs_pure trivial Derives.done
  refine hnext.next (by rw [ho, List.length_cons] at hts'; omega) fun rhs v r'' _ =>
    runs_pure (List.cons_ne_nil _ _) ?_
  intro hrhs u' r₃ b _ hb
  simpa using hop hoo hrhs hb

/-- The parsers further in do what they should on the lists that can still reach them. -/
structure Calls.Read (c : Calls) (n : ℕ) : Prop where
  primary : Reads c.primary n (Derives (.level .primary))
  comparison : Reads c.comparison n (Derives (.level .comparison))
  expr : Reads c.expr n (Derives .expr)

section Expressions

variable {c : Calls} {n : ℕ} (hc : c.Read n)

include hc

theorem reads_arg : Reads (parseArg c) n (Derives (.elem .args)) := by
  intro ts hts
  have hplain : Runs (Prod.mk none <$> c.expr) ts (fun _ _ => True) fun u _ a => Derives (.elem .args) u a :=
    (runs_map (hc.expr ts hts)).mono (fun _ _ _ => trivial) fun _ _ _ _ ⟨_, hb, he⟩ =>
      hb ▸ Derives.unnamed he
  match ts, hts, hplain with
  | [], _, hplain => exact hplain
  | [_], _, hplain => exact hplain
  | nm :: eq :: r, hts, hplain =>
    intro ds d
    unfold parseArg
    dsimp only
    split_ifs with h
    · obtain ⟨hnm, heq⟩ := Bool.and_eq_true_iff.mp h
      obtain ⟨a, u, r', new, hrun, hr, -, hl⟩ := hc.expr r (by simp at hts; omega) ds d
      refine ⟨(some nm.text, a), nm :: eq :: u, r', new, ?_, by rw [hr]; rfl, trivial, fun hn =>
        .named hnm heq (hl hn)⟩
      simp only [Functor.map, StateT.map, hrun, Bind.bind, Option.bind_some, Pure.pure]
    · exact hplain ds d

theorem runs_callArgs (hts : ts.length ≤ n) (h : (cur ts).is .lparen) :
    Runs (parseCallArgs c) ts (fun _ _ => True) fun u _ a => Derives .args u a := by
  refine (runs_bracketed (f := id) (listed_listing .args) (by decide) (by decide) h fun as ts' hts' =>
    (reads_arg hc).next (by omega) fun a u r _ => runs_pure trivial fun ha => ?_).mono (fun _ _ h => h) ?_
  · exact ⟨a, rfl, by simpa using ha⟩
  · rintro u - as - ⟨l, r, us, as, hl, hr, rfl, has, rfl⟩
    exact .args hl has hr

theorem runs_list (hts : ts.length ≤ n) (h : (cur ts).is .lbracket) :
    Runs (parseList c) ts (fun _ _ => True) fun u _ a => Derives (.operand .primary) u a := by
  refine (runs_bracketed (listed_listing .items) (by decide) (by decide) h fun as ts' hts' =>
    hc.expr.next (by omega) fun a u r _ => runs_pure trivial fun ha => ?_).mono (fun _ _ h => h) ?_
  · exact ⟨a, rfl, by simpa using Derives.item ha⟩
  · rintro u - as - ⟨l, r, us, as, hl, hr, rfl, has, rfl⟩
    exact .list hl has hr

theorem runs_dict (hts : ts.length ≤ n) (h : (cur ts).is .lbrace) :
    Runs (parseDict c) ts (fun _ _ => True) fun u _ a => Derives (.operand .primary) u a := by
  refine (runs_bracketed (listed_listing .entries) (by decide) (by decide) h fun as ts' hts' =>
    hc.expr.next (by omega) fun key u r hr => ?_).mono (fun _ _ h => h) ?_
  · refine runs_accept (visible_is (by decide)) (fun o r' hro ho => ?_) fun _ =>
      runs_perr (runs_pure trivial trivial)
    refine hc.expr.next (by rw [hro, List.length_cons] at hr; omega) fun val u' r'' _ =>
      runs_pure trivial fun hval hkey => ?_
    exact ⟨(key, val), rfl, by simpa using Derives.entry hkey ho hval⟩
  · rintro u - as - ⟨l, r, us, as, hl, hr, rfl, has, rfl⟩
    exact .dict hl has hr

/-- The items after the first one of a tuple, of which there may be none. -/
theorem runs_tuple {e : Expr} (hts : ts.length ≤ n) :
    Runs (Descent.loop (fun items => do
        if ← ptokIs .comma then
          let _ ← padvance
          if ← ptokIs .rparen then pure (.done items)
          else
            let item ← c.expr
            pure (.again (items ++ [item]))
        else pure (.done items)) [e]) ts (fun _ _ => True)
      fun u _ b => ∃ es, b = [e] ++ es ∧ Derives .tuple u es := by
  refine runs_loop (T := fun as u _ b => ∃ es, b = as ++ es ∧ Derives .tuple u es) fun as ts' hts' => ?_
  refine runs_accept (visible_is (by decide)) (fun o r hr ho => ?_) fun _ =>
    runs_pure trivial ⟨[], by simp, .tupleEnd⟩
  refine runs_test (fun _ => runs_pure trivial ⟨[], by simp, .tupleComma ho⟩) fun _ => ?_
  refine hc.expr.next (by rw [hr, List.length_cons] at hts'; omega) fun item u r' _ =>
    runs_pure (by simp) ?_
  rintro hitem u' r'' b - ⟨es, rfl, hes⟩
  exact ⟨item :: es, by simp, by simpa using Derives.tupleItem ho hitem hes⟩

theorem runs_paren (hts : ts.length ≤ n) (h : (cur ts).is .lparen) :
    Runs (parseParen c) ts (fun _ _ => True) fun u _ a => Derives (.operand .primary) u a := by
  refine runs_shift (visible_is (k := .lparen) (by decide)) h fun l r hr hl => ?_
  have hrn : r.length < n := by rw [hr, List.length_cons] at hts; omega
  refine hc.expr.next hrn fun e u r' hr' => ?_
  refine runs_test (fun _ => ?_) fun _ => ?_
  · refine Runs.bind (runs_map (runs_tuple hc (by omega))) fun b u' r'' _ _ => ?_
    refine (runs_close (by decide)).mono (fun _ _ h => h) ?_
    rintro v - b' - ⟨t, ht, rfl, rfl⟩ ⟨as, rfl, es, rfl, hes⟩ he
    exact .tuple hl he hes ht
  · refine (runs_close (by decide)).mono (fun _ _ h => h) ?_
    rintro u' - b - ⟨t, ht, rfl, rfl⟩ he
    exact .paren hl he ht

theorem runs_call {t : Tok} (hts : ts.length ≤ n) (ht : t.is .ident) :
    Runs (do
      if ← ptokIs .lparen then
        let args ← parseCallArgs c
        pure (.call t.text args)
      else pure (.ident t.text)) ts (fun _ _ => True)
      fun u _ a => Derives (.operand .primary) (t :: u) a := by
  refine runs_test (fun h => ?_) fun _ => runs_pure trivial (.ident ht)
  refine Runs.bind (runs_callArgs hc hts h) fun as u r _ _ => runs_pure trivial fun has => ?_
  simpa using Derives.call ht has

theorem runs_atom (hts : ts.length ≤ n) :
    Runs (parseAtom c) ts (fun _ _ => True) fun u _ a => Derives (.operand .primary) u a := by
  refine runs_accept (visible_is (by decide)) (fun t r _ ht => runs_pure trivial (.string ht)) fun _ => ?_
  refine runs_accept (visible_is (by decide)) (fun t r _ ht => runs_pure trivial (.number ht)) fun _ => ?_
  refine runs_test (runs_dict hc hts) fun _ => runs_test (runs_list hc hts) fun _ => ?_
  refine runs_accept (visible_is (by decide)) (fun t r hr ht => ?_) fun _ => ?_
  · exact runs_call hc (by rw [hr, List.length_cons] at hts; omega) ht
  · exact runs_test (runs_paren hc hts) fun _ => runs_perr (runs_pure trivial trivial)

theorem runs_unlessAt {stop stop' : TokType} (hts : ts.length < n) :
    Runs (unlessAt stop stop' c.expr) ts (fun _ _ => True) fun u _ a => Derives .opt u a := by
  refine runs_test (fun _ => runs_pure trivial .absent) fun _ =>
    runs_test (fun _ => runs_pure trivial .absent) fun _ => ?_
  exact (runs_map (hc.expr ts hts)).mono (fun _ _ _ => trivial) fun _ _ _ _ ⟨_, hb, he⟩ =>
    hb ▸ Derives.present he

theorem runs_slice {a : Expr} {b : Option Expr} (hts : ts.length ≤ n) (h : (cur ts).is .colon) :
    Runs (parseSlice c a b) ts (fun _ _ => True) fun u _ e => Derives (.slice a b) u e := by
  refine runs_shift (visible_is (k := .colon) (by decide)) h fun o r hr ho => ?_
  have hrn : r.length < n := by rw [hr, List.length_cons] at hts; omega
  refine Runs.bind (runs_unlessAt hc hrn) fun e u r' hr' _ => ?_
  refine runs_accept (visible_is (by decide)) (fun o' r'' hr'' ho' => ?_) fun _ =>
    runs_pure trivial fun he => ?_
  · have hlen : r''.length < n := by
      rw [hr', hr'', List.length_append, List.length_cons] at hrn; omega
    refine Runs.bind (runs_unlessAt hc hlen) fun step u' r₃ _ _ => runs_pure trivial fun hstep he => ?_
    simpa using Derives.sliceStep ho he ho' hstep
  · simpa using Derives.slice ho he

theorem runs_index {m : Expr} (hts : ts.length < n) :
    Runs (parseIndex c m) ts (fun _ _ => True) fun u _ e => Derives (.subscript m) u e := by
  refine runs_test (fun h => ?_) fun _ => ?_
  · exact (runs_slice hc (by omega) h).mono (fun _ _ h => h) fun _ _ _ _ he => .subSlice he
  refine runs_accept (visible_is (by decide)) (fun t r _ ht => runs_pure trivial (.subString ht)) fun _ => ?_
  refine runs_accept (visible_is (by decide)) (fun t r hr ht => ?_) fun _ => ?_
  · refine runs_test (fun h => ?_) fun _ => runs_pure trivial (.subNumber ht)
    refine (runs_slice hc ?_ h).mono (fun _ _ h => h) fun _ _ _ _ he => .subNumberSlice ht he
    rw [hr, List.length_cons] at hts; omega
  · refine hc.expr.next hts fun b u r hr => runs_test (fun h => ?_) fun _ => runs_pure trivial fun hb => ?_
    · exact (runs_slice hc (by omega) h).mono (fun _ _ h => h) fun _ _ _ _ he hb => .subExprSlice hb he
    · simpa using Derives.subExpr hb

theorem runs_subscript {m : Expr} (hts : ts.length ≤ n) (h : (cur ts).is .lbracket) :
    Runs (parseSubscript c m) ts (fun u _ => u ≠ []) fun u _ e => ∃ (l r : Tok) (us : List Tok),
      l.is .lbracket ∧ r.is .rbracket ∧ Derives (.subscript m) us e ∧ u = l :: (us ++ [r]) := by
  refine runs_shift (visible_is (k := .lbracket) (by decide)) h fun l r hr hl => ?_
  refine Runs.bind (runs_index hc (by rw [hr, List.length_cons] at hts; omega)) fun e u r' _ _ => ?_
  refine (runs_close (by decide)).mono (fun _ _ _ => List.cons_ne_nil _ _) ?_
  rintro u' - e' - ⟨t, ht, rfl, rfl⟩ he
  exact ⟨l, t, u, hl, ht, he, rfl⟩

/-- A turn of the loop over what follows an atom. -/
theorem turnRuns_postfix {m : Expr} (hts : ts.length ≤ n) :
    TurnRuns (parsePostfix c) (fun m u _ e => Derives (.tail .primary m) u e) m ts := by
  refine runs_accept (visible_is (by decide)) (fun d r hr hd => ?_) fun _ => ?_
  · refine runs_current (g := fun t => t.is .ident || t.is .number) ((visible_is (by decide)).or (visible_is (by decide))) ?_ fun _ =>
      runs_perr (runs_pure trivial trivial)
    rintro t r' rfl ht
    have hlen : r'.length ≤ n := by rw [hr] at hts; simp only [List.length_cons] at hts; omega
    refine runs_test (fun h => ?_) fun _ => runs_pure (List.cons_ne_nil _ _) fun u' r'' b _ hb =>
      .attr hd ht hb
    refine Runs.bind (runs_callArgs hc hlen h) fun as u r'' _ _ => runs_pure (List.cons_ne_nil _ _) ?_
    intro has u' r₃ b _ hb
    simpa using Derives.methodcall hd ht has hb
  · refine runs_test (fun h => ?_) fun _ => runs_pure trivial .done
    refine Runs.bind (runs_subscript hc hts h) fun e u r _ hu => runs_pure (by simpa using hu) ?_
    rintro ⟨l, t, us, hl, ht, he, rfl⟩ u' r' b - hb
    simpa using Derives.bracket hl he ht hb

theorem reads_primary : Reads (parsePrimary c) (n + 1) (Derives (.level .primary)) := by
  intro ts hts
  have hn : ts.length ≤ n := Nat.le_of_lt_succ hts
  refine runs_accept visible_opIs (fun o r hr ho => ?_) fun _ => ?_
  · refine hc.primary.next (by rw [hr, List.length_cons] at hn; omega) fun e u r' _ =>
      runs_pure trivial fun he => ?_
    simpa using Derives.neg ho he
  · refine Runs.bind (runs_atom hc hn) fun m u r hr _ => ?_
    have hlen : r.length ≤ n := by rw [hr, List.length_append] at hn; omega
    exact (runs_loop fun m ts' hts' => turnRuns_postfix hc (hts'.trans hlen)).mono (fun _ _ h => h)
      fun _ _ _ _ he hm => .level hm he

theorem reads_filter : Reads (parseFilter c) (n + 1) (Derives (.level .filter)) := by
  intro ts hts
  refine (reads_primary hc).next hts fun m u r hr => ?_
  refine (runs_loop (T := fun m u _ e => Derives (.tail .filter m) u e) fun m ts' hts' => ?_).mono
    (fun _ _ h => h) fun _ _ _ _ he hm => .level (.filterOperand hm) he
  refine runs_accept (visible_is (by decide)) (fun p r' hp hpipe => ?_) fun _ => runs_pure trivial .done
  refine runs_accept (visible_is (by decide)) (fun t r'' ht hid => ?_) fun _ =>
    runs_perr (runs_pure trivial trivial)
  have hlen : r''.length ≤ n := by rw [hp, ht] at hts'; simp only [List.length_cons] at hts'; omega
  refine runs_test (fun h => ?_) fun _ => runs_pure (List.cons_ne_nil _ _) fun u' r₃ b _ hb =>
    .filter hpipe hid hb
  refine Runs.bind (runs_callArgs hc hlen h) fun as v r₃ _ _ => runs_pure (List.cons_ne_nil _ _) ?_
  intro has u' r₄ b _ hb
  simpa using Derives.filterArgs hpipe hid has hb

theorem reads_concat : Reads (parseConcat c) (n + 1) (Derives (.level .concat)) := by
  intro ts hts
  refine (reads_filter hc).next hts fun m u r hr => ?_
  refine (runs_loop (T := fun m u _ e => Derives (.tail .concat m) u e) fun m ts' hts' => ?_).mono
    (fun _ _ h => h) fun _ _ _ _ he hm => .level (.concatOperand hm) he
  refine runs_current (g := fun t => t.opIs "+" || t.opIs "~") (visible_opIs.or visible_opIs) ?_ fun _ => ?_
  · intro o r' ho hop
    refine (reads_filter hc).next (by rw [ho, List.length_cons] at hts'; omega) fun rhs v r'' _ =>
      runs_pure (List.cons_ne_nil _ _) ?_
    intro hrhs u' r₃ b _ hb
    simpa using Derives.plus hop hrhs hb
  · refine runs_choose (g := fun t => t.opIs "-") visible_opIs ?_ fun _ => ?_
    swap
    · exact runs_pure trivial Derives.done
    intro o r' ho hop
    refine (reads_filter hc).next (by rw [ho, List.length_cons] at hts'; omega) fun rhs v r'' _ =>
      runs_pure (List.cons_ne_nil _ _) ?_
    intro hrhs u' r₃ b _ hb
    simpa using Derives.minus hop hrhs hb

theorem turnRuns_notIn {m : Expr} (hts : ts.length ≤ n) (h : (cur ts).opIs "not") :
    TurnRuns (parseNotIn c) (fun m u _ e => Derives (.tail .comparison m) u e) m ts := by
  have hstop : TurnRuns (fun m => (pure (.done m) : Parser (Turn Expr Expr)))
      (fun m u _ e => Derives (.tail .comparison m) u e) m ts := runs_pure trivial Derives.done
  match ts, hts, h, hstop with
  | [], _, _, hstop => exact fun ds d => hstop ds d
  | [_], _, _, hstop => exact fun ds d => hstop ds d
  | o :: i :: r, hts, h, hstop =>
    intro ds d
    unfold parseNotIn
    dsimp only
    split_ifs with hi
    · have hlen : r.length < n + 1 := by simp only [List.length_cons] at hts; omega
      obtain ⟨a, u, r', new, hrun, hr, ⟨m', rfl, -⟩, hl⟩ := (runs_map (reads_concat hc r hlen)) ds d
      refine ⟨_, o :: i :: u, r', new, hrun, by rw [hr]; rfl, List.cons_ne_nil _ _, fun hn => ?_⟩
      obtain ⟨m'', heq, hm⟩ := hl hn
      obtain rfl : m' = m'' := by simpa using heq
      intro u' r'' b _ hb
      exact .notIn h hi hm hb
    · exact hstop ds d

theorem reads_comparison : Reads (parseComparison c) (n + 1) (Derives (.level .comparison)) := by
  intro ts hts
  refine runs_accept visible_opIs (fun o r hr ho => ?_) fun _ => ?_
  · refine (runs_map (hc.comparison r (by rw [hr, List.length_cons] at hts; omega))).mono
      (fun _ _ _ => trivial) ?_
    rintro u r' e - ⟨a, rfl, ha⟩
    exact .not ho ha
  refine (reads_concat hc).next hts fun m u r hr => ?_
  refine (runs_loop (T := fun m u _ e => Derives (.tail .comparison m) u e) fun m ts' hts' => ?_).mono
    (fun _ _ h => h) fun _ _ _ _ he hm => .level (.comparisonOperand hm) he
  refine runs_current (g := fun t => t.is .op && comparisonOps.contains t.text) ?_ ?_ fun _ => ?_
  · exact fun t ht => visible_is (by decide) t (Bool.and_eq_true_iff.mp ht).1
  · intro o r' ho hop
    obtain ⟨hop, hmem⟩ := Bool.and_eq_true_iff.mp hop
    refine (reads_concat hc).next (by rw [ho, List.length_cons] at hts'; omega) fun rhs v r'' _ =>
      runs_pure (List.cons_ne_nil _ _) ?_
    intro hrhs u' r₃ b _ hb
    simpa using Derives.compare hop hmem hrhs hb
  have hlen : ts'.length ≤ n := by omega
  cases hnot : (cur ts').opIs "not" with
  | true => exact turnRuns_notIn hc hlen hnot
  | false =>
    cases his : (cur ts').opIs "is" with
    | false => exact runs_pure trivial Derives.done
    | true =>
      refine (runs_map (runs_isTest his)).mono ?_ ?_
      · rintro u x ⟨e, rfl, hu⟩
        exact hu
      · rintro u r' x - ⟨e, rfl, o, us, ho, htest, rfl⟩ u' r'' b - hb
        exact .isTest ho htest hb

theorem reads_and : Reads (parseAnd c) (n + 1) (Derives (.level .and)) :=
  reads_binop (reads_comparison hc) .andOperand .and

theorem reads_or : Reads (parseOr c) (n + 1) (Derives (.level .or)) :=
  reads_binop (reads_and hc) .orOperand .or

theorem reads_expr : Reads (parseExpr c) (n + 1) (Derives .expr) := by
  intro ts hts
  refine (reads_or hc).next hts fun m u r hr => ?_
  refine runs_accept visible_identIs (fun i r' hi hif => ?_) fun _ => runs_pure trivial fun hm => ?_
  · have hlen : r'.length < n + 1 := by rw [hi, List.length_cons] at hr; omega
    refine (reads_or hc).next hlen fun cond v r'' hr'' => ?_
    refine runs_accept visible_identIs (fun l r₃ hl helse => ?_) fun _ =>
      runs_pure trivial fun hcond hm => ?_
    · refine hc.expr.next (by rw [hl, List.length_cons] at hr''; rw [hi, List.length_cons] at hr; omega)
        fun e w r₄ _ => runs_pure trivial fun he hcond hm => ?_
      simpa using Derives.ternaryElse hm hif hcond helse he
    · simpa using Derives.ternary hm hif hcond
  · simpa using Derives.plain hm

end Expressions

theorem calls_read (n : ℕ) : (calls n).Read n := by
  induction n with
  | zero => exact ⟨fun _ h => absurd h (Nat.not_lt_zero _), fun _ h => absurd h (Nat.not_lt_zero _),
      fun _ h => absurd h (Nat.not_lt_zero _)⟩
  | succ n ih => exact ⟨reads_primary ih, reads_comparison ih, reads_expr ih⟩

/-- An expression is read to its end from every list of tokens. -/
theorem runs_expression (ts : List Tok) :
    Runs expression ts (fun _ _ => True) fun u _ e => Derives .expr u e :=
  fun ds d => (calls_read _).expr ts (Nat.lt_succ_self _) ds d

end Kappai.Jinja
