import Kappai.Sanity.JinjaLexer
import Kappai.Sanity.JinjaBlocks

/-! Which templates `jinja_compile` accepts without having read them to their end. -/

namespace Kappai.Jinja

/-- The parser always ends, and a run that has reported nothing has read a block. -/
theorem parseTemplate_read (ts : List Tok) (ds : List String) :
    ∃ prog p used new, parseTemplate ts ds = some (prog, p) ∧ ts = used ++ p.toks ∧
      p.diagnostics = ds ++ new ∧ (new = [] → BlockRead used p.toks prog) := by
  obtain ⟨prog, used, rest, new, hrun, hts, -, hread⟩ := runs_template ts ds 0
  exact ⟨prog, _, used, new, hrun, hts, rfl, hread⟩

/-- What an accepted source has gone through. -/
theorem jinjaCompile_read {src : List Char} {prog : List Stmt} (h : jinjaCompile src = some (.ok prog)) :
    ∃ lx p used, jinjaLex src = some (.ok lx) ∧ parseTemplate lx.toks lx.diagnostics = some (prog, p) ∧
      lx.toks = used ++ p.toks ∧ BlockRead used p.toks prog := by
  unfold jinjaCompile at h
  match hlex : jinjaLex src, h with
  | some (.ok lx), h =>
    obtain ⟨prog', p, used, new, hparse, hts, hds, hread⟩ := parseTemplate_read lx.toks lx.diagnostics
    simp only [hparse] at h
    split_ifs at h with hok
    · obtain rfl : prog' = prog := by simpa using h
      obtain ⟨hds', -⟩ := List.append_eq_nil_iff.mp hok.1
      obtain ⟨-, hnew⟩ := List.append_eq_nil_iff.mp (hds ▸ hds')
      exact ⟨lx, p, used, rfl, hparse, hts, hread hnew⟩
    · simp at h

theorem jinjaCompile_ends {src : List Char} (h : strlen src < 2 ^ 32) : jinjaCompile src ≠ none := by
  unfold jinjaCompile
  match jinjaLex src, jinjaLex_ends h with
  | some (.error _), _ => simp
  | some (.ok lx), _ =>
    obtain ⟨prog, p, used, new, hparse, -⟩ := parseTemplate_read lx.toks lx.diagnostics
    simp [hparse]

theorem coversSource_iff {src : List Char} {lx : Lexer} (hsrc : lx.src = src)
    (hlen : lx.len = (lexStart src).len) : lx.coversSource ↔ strlen src < 2 ^ 32 := by
  unfold Lexer.coversSource lexStart at *
  dsimp only at hlen
  rw [hsrc]
  split_ifs at hlen with hnl
  · obtain ⟨hpos, hbyte⟩ := Bool.and_eq_true_iff.mp hnl
    have hpos := of_decide_eq_true hpos
    have hbyte := beq_iff_eq.mp hbyte
    refine ⟨fun h => ?_, fun h => .inr ?_⟩
    · have hu : u32 (strlen src) < 2 ^ 32 := Nat.mod_lt _ (by decide)
      omega
    · rw [hlen, Lexer.u32_eq h] at *
      exact ⟨by omega, hbyte⟩
  · refine ⟨fun h => ?_, fun h => .inl (by rw [hlen, Lexer.u32_eq h])⟩
    have hu : u32 (strlen src) < 2 ^ 32 := Nat.mod_lt _ (by decide)
    have hmod : u32 (strlen src) = strlen src % 2 ^ 32 := rfl
    omega

/-- The end token is read last. -/
theorem rest_eq {front used rest : List Tok} {last : Tok} (hts : front ++ [last] = used ++ rest)
    (hlast : last.type = .eof) (hfront : ∀ t ∈ front, t.type ≠ .eof) (hused : ∀ t ∈ used, t.type ≠ .eof)
    (hrest : (cur rest).is .eof) : used = front ∧ rest = [last] := by
  rcases List.eq_nil_or_concat rest with rfl | ⟨r, z, rfl⟩
  · rw [List.append_nil] at hts
    exact absurd hlast (hused last (hts ▸ by simp))
  · rw [List.concat_eq_append] at hrest ⊢
    rw [List.concat_eq_append, ← List.append_assoc] at hts
    obtain ⟨rfl, hz⟩ := List.append_inj' hts rfl
    obtain rfl := List.singleton_inj.mp hz
    cases r with
    | nil => exact ⟨by simp, rfl⟩
    | cons x r => exact absurd (of_decide_eq_true hrest) (hfront x (by simp))

/-- What the parser has read, and whether a tag is stray in it. -/
theorem read_cases {front used rest : List Tok} {last : Tok} {prog : List Stmt}
    (hts : front ++ [last] = used ++ rest) (hlast : last.type = .eof) (hfront : ∀ t ∈ front, t.type ≠ .eof)
    (h : BlockRead used rest prog) :
    (rest = [last] ∧ Produces .block front prog ∧ strayTag 0 (front ++ [last]) = false) ∨
      (rest ≠ [last] ∧ strayTag 0 (front ++ [last]) = true) := by
  obtain ⟨body, hbody, ⟨rfl, heof⟩ | ⟨o, ho, rfl, hend⟩⟩ := h
  · obtain ⟨rfl, rfl⟩ := rest_eq hts hlast hfront hbody.visible heof
    refine .inl ⟨rfl, hbody, ?_⟩
    rw [hbody.balanced, stray_skip (by rw [hlast]; decide)]
    rfl
  · refine .inr ⟨?_, ?_⟩
    · rintro rfl
      obtain ⟨kw, -, hkw⟩ := List.any_eq_true.mp hend
      exact absurd hlast (seen_is (identIs_ident hkw) (by decide))
    · rw [hts, List.append_assoc, hbody.balanced]
      show strayTag 0 (o :: rest) = true
      rw [strayTag, if_pos ho, if_pos hend]
      rfl

theorem wholeTemplate_iff {src : List Char} {prog : List Stmt} (h : jinjaCompile src = some (.ok prog)) :
    WholeTemplate src prog ↔ strlen src < 2 ^ 32 ∧ strayTag 0 (tokensOf src) = false := by
  obtain ⟨lx, p, used, hlex, hparse, hts, hread⟩ := jinjaCompile_read h
  obtain ⟨hsrc, hlen, front, last, htoks, hlast, hfront⟩ := jinjaLex_tokens hlex
  have htokens : tokensOf src = front ++ [last] := by rw [tokensOf, hlex, ← htoks]
  rw [htokens, ← coversSource_iff hsrc hlen]
  have hcases := read_cases (htoks ▸ hts) hlast hfront hread
  refine ⟨?_, fun ⟨hcovers, hstray⟩ => ?_⟩
  · rintro ⟨lx', front', last', p', hlex', hcovers, htoks', -, hparse', hrest, -⟩
    obtain rfl : lx = lx' := by simpa [hlex] using hlex'
    obtain rfl : p = p' := by simpa [hparse] using hparse'
    obtain ⟨rfl, hl⟩ := List.append_inj' (htoks.symm.trans htoks') rfl
    obtain rfl := List.singleton_inj.mp hl
    rcases hcases with ⟨-, -, hstray⟩ | ⟨hne, -⟩
    · exact ⟨hcovers, hstray⟩
    · exact absurd hrest hne
  · rcases hcases with ⟨hrest, hprod, -⟩ | ⟨-, hstray'⟩
    · exact ⟨lx, front, last, p, hlex, hcovers, htoks, hlast, hparse, hrest, hprod⟩
    · exact absurd (hstray'.symm.trans hstray) (by decide)

/-- Compilation ends for every source that fits the lexer's 32-bit offsets. What it accepts was read to its
end, as one block with every tag in it matched, exactly if the source fits and no end, `else` or `elif` tag
stands outside every block. -/
theorem jinjaCompile_whole (src : List Char) :
    (strlen src < 2 ^ 32 → jinjaCompile src ≠ none) ∧
      ∀ prog, jinjaCompile src = some (.ok prog) →
        (WholeTemplate src prog ↔ strlen src < 2 ^ 32 ∧ strayTag 0 (tokensOf src) = false) :=
  ⟨jinjaCompile_ends, fun _ => wholeTemplate_iff⟩

/-- The text of a program that is one text. -/
def onlyText : List Stmt → Option Text
  | [.text t] => some t
  | _ => none

/-- What stands after a stray `endif` is cut off, and nothing is reported. -/
theorem jinjaCompile_cut : ∃ prog, jinjaCompile "a{% endif %}b".toList = some (.ok prog) ∧
    onlyText prog = some ['a'] ∧ ¬ WholeTemplate "a{% endif %}b".toList prog := by
  have hrun : ((jinjaCompile "a{% endif %}b".toList).bind fun r => r.toOption.bind onlyText) =
      some ['a'] := by decide +kernel
  have hstray : strayTag 0 (tokensOf "a{% endif %}b".toList) = true := by decide +kernel
  obtain ⟨r, hr, hrun⟩ := Option.bind_eq_some_iff.mp hrun
  obtain ⟨prog, hprog, htext⟩ := Option.bind_eq_some_iff.mp hrun
  obtain rfl : r = .ok prog := by
    cases r with
    | error e => cases hprog
    | ok prog' => rw [Option.some.inj hprog]
  refine ⟨prog, hr, htext, fun hw => ?_⟩
  exact absurd (hstray.symm.trans ((wholeTemplate_iff hr).mp hw).2) (by decide)

end Kappai.Jinja
