import Kappai.Lib.Occurrence
import Kappai.Spec.ThinkFilter

/-! When a completion is cut at the earliest stop string. The search looks at the end of the text
only, not before the text is as long as the longest stop, and takes the first stop of the list
that it finds; the text it cuts is that of the first piece after which it finds one. -/

namespace Kappai

variable {needles : List Text} {t : Text}

/-- `strstr` finds the first occurrence. -/
theorem strstr_length (n t : Text) : (strstr n t).map (fun r => r.1.length) = findAt n t := by
  induction t with
  | nil =>
    rw [strstr, findAt]
    split_ifs <;> rfl
  | cons b t ih =>
    rw [strstr, findAt, ← ih]
    split_ifs
    · rfl
    · cases strstr n t <;> rfl

theorem strstrAt_eq (window needle : Text) :
    strstrAt window needle = findAt (cstr needle) (cstr window) := strstr_length _ _

theorem stopHit_eq_none {window : Text} :
    stopHit window needles = none ↔ ∀ n ∈ needles, strstrAt window n = none := by
  induction needles with
  | nil => simp [stopHit]
  | cons n needles ih =>
    rw [stopHit, List.forall_mem_cons, ← ih]
    cases strstrAt window n <;> simp

theorem stopHit_eq_some {window : Text} {hit : ℕ} :
    stopHit window needles = some hit ↔ ∃ before n after, needles = before ++ n :: after ∧
      (∀ m ∈ before, strstrAt window m = none) ∧ strstrAt window n = some hit := by
  induction needles with
  | nil => simp [stopHit]
  | cons n needles ih =>
    rw [stopHit]
    cases hn : strstrAt window n with
    | some k =>
      constructor
      · rintro h
        obtain rfl := Option.some.inj h
        exact ⟨[], n, needles, rfl, by simp, hn⟩
      · rintro ⟨before, m, after, heq, hnone, hm⟩
        cases before with
        | nil =>
          obtain ⟨rfl, -⟩ := List.cons.inj heq
          exact hn.symm.trans hm
        | cons b before =>
          obtain ⟨rfl, -⟩ := List.cons.inj heq
          rw [hnone n List.mem_cons_self] at hn
          cases hn
    | none =>
      simp only [ih]
      constructor
      · rintro ⟨before, m, after, rfl, hnone, hm⟩
        exact ⟨n :: before, m, after, rfl, List.forall_mem_cons.2 ⟨hn, hnone⟩, hm⟩
      · rintro ⟨before, m, after, heq, hnone, hm⟩
        cases before with
        | nil =>
          obtain ⟨rfl, -⟩ := List.cons.inj heq
          rw [hn] at hm
          cases hm
        | cons b before =>
          obtain ⟨-, rfl⟩ := List.cons.inj heq
          exact ⟨before, m, after, rfl, (List.forall_mem_cons.1 hnone).2, hm⟩

/-- Where the search begins. -/
def searchStart (needles : List Text) (t : Text) : ℕ := t.length - (2 * stopMax needles - 1)

/-- What `strstr` looks at. -/
def searchWindow (needles : List Text) (t : Text) : Text := cstr (t.drop (searchStart needles t))

/-- The text is as long as the longest stop and has a stop at its end. -/
def stopSeen (needles : List Text) (t : Text) : Bool :=
  0 < stopMax needles && stopMax needles ≤ t.length &&
    needles.any fun n => (findAt (cstr n) (searchWindow needles t)).isSome

/-- The text up to the first piece after which a stop is seen. -/
def heardText (needles : List Text) : Text → List GenToken → Text
  | t, [] => t
  | t, tok :: toks =>
    if stopSeen needles (t ++ tok.piece) then t ++ tok.piece
    else heardText needles (t ++ tok.piece) toks

/-- When the text `t` is cut as it should: nothing is seen and there is nothing, or the earliest
stop lies where the search looks, and is where the first listed of the stops seen there begins. -/
def StopsSpare (needles : List Text) (t : Text) : Prop :=
  if stopSeen needles t then
    ∃ e before n after, earliestStop needles t = some e ∧ needles = before ++ n :: after ∧
      searchStart needles t ≤ e ∧
      OccursAt (cstr n) (searchWindow needles t) (e - searchStart needles t) ∧
      (∀ j < e - searchStart needles t, ¬OccursAt (cstr n) (searchWindow needles t) j) ∧
      ∀ m ∈ before, ∀ j, ¬OccursAt (cstr m) (searchWindow needles t) j
  else ∀ n ∈ needles, ∀ k, ¬OccursAt n t k

/-- What a check makes of the text. -/
def checkedText (needles : List Text) (t : Text) : Text :=
  if stopSeen needles t then
    match stopHit (t.drop (searchStart needles t)) needles with
    | some hit => t.take (searchStart needles t + hit)
    | none => t
  else t

theorem stopSeen_iff : stopSeen needles t = true ↔ 0 < stopMax needles ∧
    stopMax needles ≤ t.length ∧ ∃ hit, stopHit (t.drop (searchStart needles t)) needles = some hit := by
  rw [stopSeen, Bool.and_eq_true, Bool.and_eq_true, decide_eq_true_iff, decide_eq_true_iff, and_assoc]
  refine and_congr_right fun _ => and_congr_right fun _ => ?_
  rw [← Option.isSome_iff_exists, ← not_iff_not, Bool.not_eq_true, Bool.not_eq_true,
    Option.isSome_eq_false_iff, Option.isNone_iff_eq_none, stopHit_eq_none]
  simp [strstrAt_eq, searchWindow]

theorem stopMax_nil : stopMax [] = 0 := rfl

/-- The search on a text without reasoning. -/
theorem checkStopSequences_eq (think : ThinkFilter) :
    StopGen.checkStopSequences needles ⟨think, [], t, false⟩ =
      ⟨think, [], checkedText needles t, stopSeen needles t⟩ := by
  have hstart : (if 2 * stopMax needles - 1 < t.length then t.length - (2 * stopMax needles - 1)
      else 0) = searchStart needles t := by
    rw [searchStart]
    split_ifs <;> omega
  unfold StopGen.checkStopSequences
  simp only [Bool.false_or, List.length_nil, Nat.zero_add, Nat.sub_zero,
    Nat.not_lt_zero, if_false, hstart]
  by_cases hmax : 0 < stopMax needles ∧ stopMax needles ≤ t.length
  · have hne : (needles.length == 0) = false := by
      cases needles with
      | nil => exact absurd hmax.1 (by rw [stopMax_nil]; decide)
      | cons n needles => rfl
    rw [hne, if_neg (by decide), if_neg (by omega)]
    cases hhit : stopHit (t.drop (searchStart needles t)) needles with
    | none =>
      have hseen : stopSeen needles t = false := by
        rw [Bool.eq_false_iff]
        intro h
        obtain ⟨-, -, hit, hsome⟩ := stopSeen_iff.1 h
        rw [hhit] at hsome
        cases hsome
      rw [checkedText, hseen]
      rfl
    | some hit =>
      have hseen : stopSeen needles t = true := stopSeen_iff.2 ⟨hmax.1, hmax.2, hit, hhit⟩
      rw [checkedText, hseen, if_pos rfl, hhit]
      simp only
      split_ifs with hcut
      · have h0 : searchStart needles t + hit = 0 := by omega
        rw [h0]
        rfl
      · rfl
  · have hseen : stopSeen needles t = false := by
      rw [Bool.eq_false_iff]
      intro h
      obtain ⟨h1, h2, -⟩ := stopSeen_iff.1 h
      exact hmax ⟨h1, h2⟩
    rw [checkedText, hseen, if_neg Bool.false_ne_true]
    have hout : t.length = 0 ∨ stopMax needles = 0 ∨ t.length < stopMax needles := by omega
    rw [if_pos hout, ite_self]

theorem checkedText_of_not_seen (h : stopSeen needles t = false) : checkedText needles t = t := by
  rw [checkedText, h]
  exact if_neg Bool.false_ne_true

/-- A text completion, or a chat in which nothing is taken for thinking. -/
def GenApi.Plain (api : GenApi) (toks : List GenToken) : Prop :=
  match api with
  | .text => True
  | .chat startId endId thinkOpen _ =>
    thinkOpen = false ∧ ∀ t ∈ toks, t.id ≠ startId ∧ t.id ≠ endId

theorem GenApi.Plain.tail {api : GenApi} {tok : GenToken} {toks : List GenToken}
    (h : api.Plain (tok :: toks)) : api.Plain toks := by
  cases api with
  | text => trivial
  | chat => exact ⟨h.1, fun t ht => h.2 t (List.mem_cons_of_mem _ ht)⟩

/-- The filter passes everything on as content. -/
def ThinkFilter.Open (f : ThinkFilter) : Prop := f.inThinking = false ∧ f.skipLabel = false

/-- One token: the piece joins the text, and the text is searched. -/
theorem onToken_plain {api : GenApi} {tok : GenToken} {toks : List GenToken}
    (h : api.Plain (tok :: toks)) {think : ThinkFilter} (hthink : think.Open)
    (ht : stopSeen needles t = false) :
    ∃ think' : ThinkFilter, think'.Open ∧ StopGen.onToken api needles ⟨think, [], t, false⟩ tok =
      ⟨think', [], checkedText needles (t ++ tok.piece), stopSeen needles (t ++ tok.piece)⟩ := by
  cases api with
  | text => exact ⟨think, hthink, checkStopSequences_eq think⟩
  | chat startId endId thinkOpen labelLine =>
    obtain ⟨rfl, hids⟩ := h
    obtain ⟨hstart, hend⟩ := hids tok List.mem_cons_self
    have hfeed : thinkFilterFeed think tok.id startId endId false labelLine tok.piece =
        (.thinkEmit, { think with firstToken := false }, tok.piece) := by
      simp [thinkFilterFeed, hstart, hend, hthink.2]
    have hopen : ThinkFilter.Open { think with firstToken := false } := hthink
    refine ⟨{ think with firstToken := false }, hopen, ?_⟩
    simp only [StopGen.onToken, hfeed]
    split_ifs with hlen hin
    · -- an empty piece is not searched, and there is nothing new in it
      rw [List.eq_nil_of_length_eq_zero hlen, List.append_nil, ht, checkedText_of_not_seen ht]
    · rw [hthink.1] at hin
      cases hin
    · exact checkStopSequences_eq _

/-- The run: what is collected is the searched text, and the pieces taken make up that text. -/
theorem stopRun_plain {api : GenApi} {toks : List GenToken} (h : api.Plain toks)
    (think : ThinkFilter) (hthink : think.Open) (ht : stopSeen needles t = false) :
    let r := stopRun api needles ⟨think, [], t, false⟩ toks
    r.1.content = checkedText needles (heardText needles t toks) ∧
      t ++ pieces r.2 = heardText needles t toks := by
  induction toks generalizing think t with
  | nil => exact ⟨(checkedText_of_not_seen ht).symm, List.append_nil t⟩
  | cons tok toks ih =>
    obtain ⟨think', hthink', hstep⟩ := onToken_plain h hthink ht
    simp only [stopRun, Bool.false_eq_true, if_false, hstep, heardText]
    cases hseen : stopSeen needles (t ++ tok.piece) with
    | true =>
      have hend (g : StopGen) (hg : g.stoppedByStop = true) :
          stopRun api needles g toks = (g, []) := by
        cases toks with
        | nil => rfl
        | cons tok' toks => rw [stopRun, if_pos hg]
      rw [hend _ rfl, if_pos rfl]
      exact ⟨rfl, by simp [pieces]⟩
    | false =>
      rw [checkedText_of_not_seen hseen, if_neg Bool.false_ne_true]
      obtain ⟨hcontent, hpieces⟩ := ih h.tail think' hthink' hseen
      refine ⟨hcontent, ?_⟩
      rw [← hpieces]
      simp [pieces]

theorem stopSeen_nil (needles : List Text) : stopSeen needles [] = false := by
  rw [Bool.eq_false_iff]
  intro h
  obtain ⟨h1, h2, -⟩ := stopSeen_iff.1 h
  rw [List.length_nil] at h2
  omega

theorem earliestStop_eq_none :
    earliestStop needles t = none ↔ ∀ n ∈ needles, ∀ k, ¬OccursAt n t k := by
  rw [earliestStop, List.find?_eq_none]
  simp only [List.mem_range, List.any_eq_true, not_exists, not_and, List.isPrefixOf_iff_prefix]
  constructor
  · exact fun h n hn k hk => h k (Nat.lt_succ_of_le hk.1) n hn hk.2
  · exact fun h k hk n hn hpre => h n hn k ⟨Nat.le_of_lt_succ hk, hpre⟩

/-- The earliest stop begins inside the text. -/
theorem earliestStop_lt (hne : ∀ n ∈ needles, n ≠ []) {e : ℕ}
    (h : earliestStop needles t = some e) : e < t.length := by
  rw [earliestStop] at h
  have hmem := List.mem_range.1 (List.mem_of_find?_eq_some h)
  have hany := List.find?_some h
  obtain ⟨n, hn, hpre⟩ := List.any_eq_true.1 hany
  exact OccursAt.lt_length ⟨Nat.le_of_lt_succ hmem, List.isPrefixOf_iff_prefix.1 hpre⟩ (hne n hn)

/-- A hit lies inside the text too, also that of a needle that begins with a zero byte. -/
theorem searchStart_add_lt {hit : ℕ} {n : Text} (hseen : stopSeen needles t = true)
    (h : strstrAt (t.drop (searchStart needles t)) n = some hit) :
    searchStart needles t + hit < t.length := by
  obtain ⟨hmax, hlen, -⟩ := stopSeen_iff.1 hseen
  have hstart : searchStart needles t < t.length := by
    rw [searchStart]
    omega
  rw [strstrAt_eq] at h
  have hfind := findAt_eq_some.1 h
  by_cases hn : cstr n = []
  · have hzero : ¬0 < hit := fun hpos =>
      hfind.2 0 hpos (occursAt_zero.2 (by rw [hn]; exact List.nil_prefix))
    omega
  · have hlt := hfind.1.lt_length hn
    have hle := (List.takeWhile_prefix (· != 0) (l := t.drop (searchStart needles t))).length_le
    rw [List.length_drop] at hle
    change hit < (List.takeWhile (· != 0) _).length at hlt
    omega

theorem take_eq_take_iff {a b : ℕ} (ha : a < t.length) (hb : b ≤ t.length) :
    t.take a = t.take b ↔ a = b := by
  constructor
  · intro h
    have := congrArg List.length h
    rw [List.length_take, List.length_take] at this
    omega
  · rintro rfl
    rfl

/-- The searched text is cut where it should be exactly when `StopsSpare` says so. -/
theorem checkedText_eq_iff (hne : ∀ n ∈ needles, n ≠ []) :
    checkedText needles t = cutAtStop needles t ↔ StopsSpare needles t := by
  cases hseen : stopSeen needles t with
  | false =>
    rw [checkedText_of_not_seen hseen, StopsSpare, hseen, if_neg Bool.false_ne_true,
      ← earliestStop_eq_none, cutAtStop]
    cases he : earliestStop needles t with
    | none => simp
    | some e =>
      have hlt := earliestStop_lt hne he
      simp only [reduceCtorEq, iff_false]
      intro h
      have := congrArg List.length h
      rw [List.length_take] at this
      omega
  | true =>
    obtain ⟨-, -, hit, hhit⟩ := stopSeen_iff.1 hseen
    have hcut : checkedText needles t = t.take (searchStart needles t + hit) := by
      rw [checkedText, hseen, if_pos rfl, hhit]
    obtain ⟨before, n, after, hneedles, hbefore, hn⟩ := stopHit_eq_some.1 hhit
    have hlt := searchStart_add_lt hseen hn
    rw [hcut, StopsSpare, hseen, if_pos rfl, cutAtStop]
    cases he : earliestStop needles t with
    | none =>
      simp only [reduceCtorEq, false_and, exists_false, iff_false]
      intro h
      have := congrArg List.length h
      rw [List.length_take] at this
      omega
    | some e =>
      simp only [take_eq_take_iff hlt (earliestStop_lt hne he).le, Option.some.injEq]
      constructor
      · rintro rfl
        refine ⟨_, before, n, after, rfl, hneedles, Nat.le_add_right _ _, ?_, ?_, fun m hm => ?_⟩
        · rw [Nat.add_sub_cancel_left]
          exact (findAt_eq_some.1 ((strstrAt_eq _ _).symm.trans hn)).1
        · rw [Nat.add_sub_cancel_left]
          exact (findAt_eq_some.1 ((strstrAt_eq _ _).symm.trans hn)).2
        · exact findAt_eq_none.1 ((strstrAt_eq _ _).symm.trans (hbefore m hm))
      · rintro ⟨e', before', n', after', rfl, heq, hle, hocc, hfirst, hnone⟩
        have hagain : stopHit (t.drop (searchStart needles t)) needles =
            some (e - searchStart needles t) :=
          stopHit_eq_some.2 ⟨before', n', after', heq,
            fun m hm => (strstrAt_eq _ _).trans (findAt_eq_none.2 (hnone m hm)),
            (strstrAt_eq _ _).trans (findAt_eq_some.2 ⟨hocc, hfirst⟩)⟩
        rw [hhit] at hagain
        obtain rfl := Option.some.inj hagain
        omega

/-- `parse_stop` drops empty stop strings. -/
theorem parseStop_ne_nil (field : StopField) : ∀ n ∈ (parseStop field).1, n ≠ [] := by
  intro n hn
  cases field with
  | absent => cases hn
  | other => cases hn
  | string s =>
    simp only [parseStop] at hn
    split_ifs at hn with hs
    · cases hn
    · obtain rfl := List.mem_singleton.1 hn
      exact fun h => hs (by rw [h]; rfl)
  | array items =>
    obtain ⟨item, -, hitem⟩ := List.mem_filterMap.1 hn
    have := (Option.filter_eq_some_iff.1 hitem).2
    rintro rfl
    simp at this

/-- For every `stop` field and every sequence of pieces, the content is the text of the pieces up
to the earliest stop string exactly when `StopsSpare` holds of the text up to the first piece
after which the search sees a stop. -/
theorem stop_cut_iff (field : StopField) (api : GenApi) (toks : List GenToken)
    (h : api.Plain toks) :
    let needles := (parseStop field).1
    let run := stopRun api needles .start toks
    run.1.content = cutAtStop needles (pieces run.2) ↔
      StopsSpare needles (heardText needles [] toks) := by
  intro needles run
  obtain ⟨hcontent, hpieces⟩ := stopRun_plain h StopGen.start.think ⟨rfl, rfl⟩
    (stopSeen_nil needles)
  change run.1.content = _ at hcontent
  change pieces run.2 = _ at hpieces
  rw [hcontent, hpieces]
  exact checkedText_eq_iff (parseStop_ne_nil field)

/-- Two stops, the second of which ends the text of three pieces. -/
theorem stop_cut_iff_split :
    let needles := (parseStop (.array [some (ascii "###"), some (ascii "END")])).1
    let run := stopRun .text needles .start
      [⟨5, ascii "all E"⟩, ⟨6, ascii "N"⟩, ⟨7, ascii "D"⟩]
    run.1.content = cutAtStop needles (pieces run.2) ∧ run.1.content = ascii "all " := by
  have hspare : StopsSpare [ascii "###", ascii "END"] (ascii "all END") := by
    rw [StopsSpare, if_pos (by decide +kernel)]
    refine ⟨4, [ascii "###"], ascii "END", [], by decide +kernel, rfl, by decide +kernel, ?_⟩
    have hfind : findAt (cstr (ascii "END")) (searchWindow [ascii "###", ascii "END"]
        (ascii "all END")) = some (4 - searchStart [ascii "###", ascii "END"] (ascii "all END")) := by
      decide +kernel
    refine ⟨(findAt_eq_some.1 hfind).1, (findAt_eq_some.1 hfind).2, fun m hm => ?_⟩
    obtain rfl := List.mem_singleton.1 hm
    exact findAt_eq_none.1 (by decide +kernel)
  exact ⟨(stop_cut_iff (.array [some (ascii "###"), some (ascii "END")]) .text
    [⟨5, ascii "all E"⟩, ⟨6, ascii "N"⟩, ⟨7, ascii "D"⟩] trivial).2 (by
      change StopsSpare [ascii "###", ascii "END"] _
      exact hspare), by decide +kernel⟩

/-- A stop of one byte is looked for in the last byte only. -/
theorem stop_missed :
    let needles := (parseStop (.string [10])).1
    let run := stopRun .text needles .start [⟨5, ascii "one\ntwo"⟩]
    run.1.content = ascii "one\ntwo" ∧ cutAtStop needles (pieces run.2) = ascii "one" := by
  decide +kernel

end Kappai
