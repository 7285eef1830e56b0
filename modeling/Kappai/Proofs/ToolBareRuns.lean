import Kappai.Sanity.ToolBare
import Kappai.Spec.ToolScan

/-! Bare JSON calls in chunks: in a tidy run the scanner makes of the chunks what the whole text
says. -/

namespace Kappai

namespace ToolScanner

variable {E : ToolEnv} {fmt : MarkerPair} {s s' : ToolScanner} {T y : Text}

/-- What the scanner has done so far belongs to the outcome of the text, and what it remembers of
earlier searches is right. -/
structure Scanned (E : ToolEnv) (fmt : MarkerPair) (T y : Text) (s : ToolScanner) : Prop where
  running : s.suppressed = false
  outside : s.inCall = false
  text : T = s.content ++ y
  pos_le : s.scanPos ≤ s.content.length
  outcome : bareOutcome E fmt T = (bareOutcome E fmt (T.drop s.scanPos)).after s.calls
    (s.content.take s.scanPos) s.sent
  dead : s.autoDeadN = 0 ∨ (s.autoDeadI + s.autoDeadN ≤ s.content.length ∧
    jsonParseLenExCode E.tokener ((s.content.drop s.autoDeadI).take s.autoDeadN) = .error)
  searched : s.autoStopEnd ≤ s.content.length
  seen : s.autoStopFound = false → ∀ k, s.scanPos ≤ k →
    k + (fmt.stop.getD []).length ≤ s.autoStopEnd → ¬MarkAt fmt.stop s.content k

/-- The stop marker has been met. -/
structure Ended (E : ToolEnv) (fmt : MarkerPair) (T : Text) (s : ToolScanner) : Prop where
  stopped : s.suppressed = true
  calls : s.calls = (bareOutcome E fmt T).calls
  content : s.content = (bareOutcome E fmt T).content
  sent : s.sent = (bareOutcome E fmt T).sent
  pos : s.content.length ≤ s.scanPos

section Found

/-- The search from where the last one ended finds what a search from `scan_pos` finds. -/
theorem Scanned.autoStop (h : Scanned E fmt T y s) :
    s.autoStop fmt = findMarker s.content s.scanPos fmt.stop := by
  rw [ToolScanner.autoStop]
  dsimp only
  split
  · rename_i hcond
    split_ifs with hlt hresume hresume
    · exact (findMarker_congr_start (Nat.le_of_lt hresume) fun k hk hlt' =>
        h.seen hcond.2.1 k hk (by omega)).symm
    · rfl
    · exact absurd hresume (Nat.not_lt_zero _)
    · rfl
  · rfl

theorem Scanned.autoObject (h : Scanned E fmt T y s) {i : ℕ} (hi : i < s.content.length)
    {obj : Json} {used : ℕ}
    (hobj : jsonParseLenExCode E.tokener (s.content.drop i) = .parsed obj used) :
    s.autoObject E i = (s, some (obj, used)) := by
  rw [ToolScanner.autoObject]
  split_ifs with hasked
  · rw [hobj]
  · exfalso
    push Not at hasked
    obtain ⟨rfl, hn⟩ := hasked
    obtain hzero | ⟨hle, herror⟩ := h.dead
    · omega
    · rw [List.take_of_length_le (by rw [List.length_drop]; exact hn), hobj] at herror
      cases herror

theorem autoLoop_skip (kStop : Option ℕ) (closable : Bool) (m n i : ℕ)
    (h : ∀ j, i ≤ j → j < i + m → s.content[j]? ≠ some 123) :
    s.autoLoop E kStop closable (m + n) i = s.autoLoop E kStop closable n (i + m) := by
  induction m generalizing i with
  | zero => rw [Nat.zero_add, Nat.add_zero]
  | succ m ih =>
    rw [show m + 1 + n = m + n + 1 by omega, autoLoop, if_pos (h i (Nat.le_refl i) (by omega)),
      ih (i + 1) fun j hj hlt => h j (by omega) (by omega), show i + 1 + m = i + (m + 1) by omega]

end Found

section Step

variable {a r : Text}

/-- The scanner goes on to `k`, having made `calls` and `sent` of the bytes in between. -/
theorem Scanned.move (h : Scanned E fmt T y s) {k : ℕ} {calls : List ToolCall} {sent : Text}
    (hk : s.scanPos ≤ k) (hle : k ≤ s.content.length)
    (hout : bareOutcome E fmt (T.drop s.scanPos) = (bareOutcome E fmt (T.drop k)).after calls
      ((s.content.drop s.scanPos).take (k - s.scanPos)) sent) :
    Scanned E fmt T y { s with scanPos := k, calls := s.calls ++ calls, sent := s.sent ++ sent } := by
  refine ⟨h.running, h.outside, h.text, hle, ?_, h.dead, h.searched,
    fun hf j hj => h.seen hf j (hk.trans hj)⟩
  have htake : s.content.take k =
      s.content.take s.scanPos ++ (s.content.drop s.scanPos).take (k - s.scanPos) := by
    rw [← List.take_add, Nat.add_sub_cancel' hk]
  rw [h.outcome, hout, BareOutcome.after_after, htake]

theorem emitTo_eq {k : ℕ} {t : Text} (ht : (s.content.drop s.scanPos).take (k - s.scanPos) = t) :
    s.emitTo k = { s with scanPos := k, calls := s.calls ++ [], sent := s.sent ++ t } := by
  rw [List.append_nil, ← ht]
  rfl

theorem drop_text (h : Scanned E fmt T y s) {k : ℕ} (hk : k ≤ s.content.length) :
    T.drop k = s.content.drop k ++ y := by
  rw [h.text, List.drop_append_of_le_length hk]

/-- Text is let go. -/
theorem Scanned.text_emit (h : Scanned E fmt T y s) (hdrop : s.content.drop s.scanPos = a ++ r)
    (hbrace : 123 ∉ a) (hstop : StopFree fmt y (a ++ r) a.length) :
    Scanned E fmt T y (s.emitTo (s.scanPos + a.length)) := by
  have hlen : s.scanPos + a.length ≤ s.content.length := by
    have := congrArg List.length hdrop
    rw [List.length_drop, List.length_append] at this
    have := h.pos_le
    omega
  have ht : (s.content.drop s.scanPos).take (s.scanPos + a.length - s.scanPos) = a := by
    rw [hdrop, Nat.add_sub_cancel_left, List.take_left]
  rw [emitTo_eq ht]
  refine h.move (Nat.le_add_right _ _) hlen ?_
  have hT : T.drop s.scanPos = a ++ (r ++ y) := by
    rw [drop_text h h.pos_le, hdrop, List.append_assoc]
  have hT' : T.drop (s.scanPos + a.length) = r ++ y := by
    rw [← List.drop_drop, hT, List.drop_left]
  rw [ht, hT, hT']
  refine bareOutcome_text hbrace fun k hk => ?_
  rw [← List.append_assoc]
  exact hstop k hk

/-- The text before a brace. -/
theorem Scanned.before_brace (h : Scanned E fmt T y s) (hdrop : s.content.drop s.scanPos = a ++ r)
    (hbrace : 123 ∉ a) (hhead : r.head? = some 123)
    (hstop : StopFree fmt y (a ++ r) (a.length + 1)) :
    Scanned E fmt T y (s.emitTo (s.scanPos + a.length)) ∧
      s.content.drop (s.scanPos + a.length) = r ∧ s.content[s.scanPos + a.length]? = some 123 ∧
      ¬MarkAt fmt.stop (r ++ y) 0 := by
  have hdrop' : s.content.drop (s.scanPos + a.length) = r := by
    rw [← List.drop_drop, hdrop, List.drop_left]
  have hemit := h.text_emit hdrop hbrace fun k hk => hstop k (Nat.lt_succ_of_lt hk)
  refine ⟨hemit, hdrop', ?_, fun hmark => hstop a.length (Nat.lt_succ_self _) ?_⟩
  · rw [← hdrop', List.head?_drop] at hhead
    exact hhead
  · rw [List.append_assoc]
    exact markAt_append_left.2 hmark

section Object

variable (h : Scanned E fmt T y s) (hsize : T.length ≤ 2147483647)
  (hdrop : s.content.drop s.scanPos = r) (hhead : r.head? = some 123)
  (hstop : ¬MarkAt fmt.stop (r ++ y) 0) {obj : Json} {used : ℕ}
  (hobj : jsonParseLenExCode E.tokener r = .parsed obj used)
include h hsize hdrop hobj

/-- Where an object ends. -/
theorem Scanned.object_end : s.scanPos + used ≤ s.content.length ∧
    (s.content.drop s.scanPos).take (s.scanPos + used - s.scanPos) = r.take used ∧
    T.drop s.scanPos = r ++ y ∧ T.drop (s.scanPos + used) = r.drop used ++ y ∧
    (r ++ y).length ≤ 2147483647 := by
  have hused := (jsonParse_bounds hobj).2
  have hle : s.scanPos + used ≤ s.content.length := by
    rw [← hdrop, List.length_drop] at hused
    have := h.pos_le
    omega
  have hT : T.drop s.scanPos = r ++ y := by rw [drop_text h h.pos_le, hdrop]
  refine ⟨hle, by rw [hdrop, Nat.add_sub_cancel_left], hT, ?_, ?_⟩
  · rw [drop_text h hle, ← List.drop_drop, hdrop]
  · rw [← hT, List.length_drop]
    omega

include hhead hstop

/-- An object without a name is let go. -/
theorem Scanned.object_emit (hname : obj.getStr (ascii "name") = none) :
    Scanned E fmt T y (s.emitTo (s.scanPos + used)) := by
  obtain ⟨hle, htake, hT, hT', hlen⟩ := h.object_end hsize hdrop hobj
  rw [emitTo_eq htake]
  refine h.move (Nat.le_add_right _ _) hle ?_
  rw [htake, hT, hT']
  exact bareOutcome_object_append hhead hstop hlen hobj hname

/-- An object with a name is recorded. -/
theorem Scanned.call_record {name : Text} (hname : obj.getStr (ascii "name") = some name)
    (hfree : StopFree fmt y r used) : Scanned E fmt T y { s with
      scanPos := s.scanPos + used, calls := s.calls ++ [callOf E name (jsonArgsOf E obj)],
      sent := s.sent ++ [] } := by
  obtain ⟨hle, htake, hT, hT', hlen⟩ := h.object_end hsize hdrop hobj
  refine h.move (Nat.le_add_right _ _) hle ?_
  rw [htake, hT, hT']
  exact bareOutcome_call_append hhead hstop hlen hobj hname hfree

end Object

end Step

section Stop

/-- The stop marker at `k`, with no brace before it. -/
theorem Scanned.stop_end (h : Scanned E fmt T y s) {k : ℕ}
    (hk : findMarker s.content s.scanPos fmt.stop = some k)
    (hbrace : 123 ∉ (s.content.drop s.scanPos).take (k - s.scanPos)) :
    Ended E fmt T (s.suppressTruncate k) := by
  obtain ⟨hpos, hmark, hfirst⟩ := findMarker_eq_some.1 hk
  have hlen := hmark.lt_length
  set a := (s.content.drop s.scanPos).take (k - s.scanPos) with ha
  have halen : a.length = k - s.scanPos := by
    rw [ha, List.length_take, List.length_drop]
    omega
  have hT : T.drop s.scanPos = a ++ T.drop k := by
    rw [drop_text h h.pos_le, drop_text h (Nat.le_of_lt hlen), ← List.append_assoc]
    congr 1
    rw [ha, show s.content.drop k = (s.content.drop s.scanPos).drop (k - s.scanPos) by
      rw [List.drop_drop, Nat.add_sub_cancel' hpos], List.take_append_drop]
  have hstop : findMarker (T.drop k) 0 fmt.stop = some 0 := by
    refine findMarker_eq_some.2 ⟨Nat.le_refl 0, ?_, fun j _ hj => absurd hj (Nat.not_lt_zero j)⟩
    obtain ⟨w, hw, hne, hocc⟩ := hmark
    refine ⟨w, hw, hne, ?_⟩
    rw [drop_text h (Nat.le_of_lt hlen)]
    exact (occursAt_zero.2 hocc.2).append y
  have hfree : ∀ j < a.length, ¬MarkAt fmt.stop (a ++ T.drop k) j := by
    intro j hj ⟨w, hw, hne, hocc⟩
    rw [← hT, drop_text h h.pos_le] at hocc
    have hin : OccursAt w (s.content.drop s.scanPos) j := by
      obtain ⟨w', hw', -, hocc'⟩ := hmark
      obtain rfl := Option.some.inj (hw'.symm.trans hw)
      have := hocc'.add_length_le
      exact hocc.of_append (by rw [List.length_drop]; omega)
    exact hfirst (s.scanPos + j) (Nat.le_add_right _ _) (by omega)
      ⟨w, hw, hne, (OccursAt.drop_iff h.pos_le).1 hin⟩
  have hout : bareOutcome E fmt T = ⟨s.calls, s.content.take k, s.sent ++ a⟩ := by
    rw [h.outcome, hT, bareOutcome_text hbrace hfree, bareOutcome_stop hstop,
      BareOutcome.after_after]
    have htake : s.content.take k = s.content.take s.scanPos ++ a := by
      rw [ha, ← List.take_add, Nat.add_sub_cancel' hpos]
    rw [htake]
    simp only [BareOutcome.after, List.append_nil]
  exact ⟨rfl, by rw [hout]; rfl, by rw [hout]; rfl, by rw [hout]; rfl, List.length_take_le k s.content⟩

/-- The stop marker begins inside the object of a call. -/
theorem Scanned.callStop_end (h : Scanned E fmt T y s) (hsize : T.length ≤ 2147483647) {r : Text}
    (hdrop : s.content.drop s.scanPos = r) (hhead : r.head? = some 123)
    (hstop : ¬MarkAt fmt.stop (r ++ y) 0) {obj : Json} {used k : ℕ} {name : Text}
    (hobj : jsonParseLenExCode E.tokener r = .parsed obj used)
    (hname : obj.getStr (ascii "name") = some name) (hk : findMarker r 0 fmt.stop = some k)
    (hlt : k < used) : Ended E fmt T (suppressTruncate { s with
      scanPos := s.scanPos + used, calls := s.calls ++ [callOf E name (jsonArgsOf E obj)],
      sent := s.sent ++ [] } (s.scanPos + k)) := by
  obtain ⟨-, -, hT, -, hlen⟩ := h.object_end hsize hdrop hobj
  have hout : bareOutcome E fmt T = ⟨s.calls ++ [callOf E name (jsonArgsOf E obj)],
      s.content.take (s.scanPos + k), s.sent ++ []⟩ := by
    rw [h.outcome, hT, bareOutcome_callStop_append hhead hstop hlen hobj hname hk hlt, List.take_add,
      hdrop]
    rfl
  refine ⟨rfl, by rw [hout]; rfl, by rw [hout]; rfl, ?_, List.length_take_le _ s.content⟩
  rw [hout]
  change (s.sent ++ []) ++ (s.content.drop _).take (s.scanPos + k - (s.scanPos + used)) = _
  rw [show s.scanPos + k - (s.scanPos + used) = 0 by omega, List.take_zero, List.append_nil]

end Stop

section Loop

/-- A brace that waits. -/
structure Waiting (fmt : MarkerPair) (wait : Text → Prop) (y r : Text) : Prop where
  head : r.head? = some 123
  stop : ¬MarkAt fmt.stop (r ++ y) 0
  wait : wait r

/-- What `advance` has come to when it returns from the loop, or leaves it. -/
def LoopTidy (E : ToolEnv) (fmt : MarkerPair) (T y : Text) (wait : Text → Prop) (kStop : Option ℕ) :
    ScanTurn → Prop
  | .done s => (Scanned E fmt T y s ∧ Waiting fmt wait y (s.content.drop s.scanPos)) ∨ Ended E fmt T s
  | .next s => Scanned E fmt T y s ∧ LastPart fmt y (s.content.drop s.scanPos) ∧
      kStop = findMarker s.content s.scanPos fmt.stop

/-- A brace that has no object yet. -/
theorem Scanned.autoObject_none (h : Scanned E fmt T y s) {i : ℕ} (hi : i ≤ s.content.length)
    (hno : ∀ obj used, jsonParseLenExCode E.tokener (s.content.drop i) ≠ .parsed obj used) :
    ∃ n m, s.autoObject E i = ({ s with autoDeadI := n, autoDeadN := m }, none) ∧
      Scanned E fmt T y { s with autoDeadI := n, autoDeadN := m } := by
  rw [ToolScanner.autoObject]
  split_ifs
  · cases hparse : jsonParseLenExCode E.tokener (s.content.drop i) with
    | parsed obj used => exact absurd hparse (hno obj used)
    | more => exact ⟨_, _, rfl, h⟩
    | error =>
      refine ⟨_, _, rfl, h.running, h.outside, h.text, h.pos_le, h.outcome, .inr ⟨?_, ?_⟩, h.searched,
        h.seen⟩
      · exact Nat.le_of_eq (Nat.add_sub_cancel' hi)
      · change jsonParseLenExCode E.tokener ((s.content.drop i).take (s.content.length - i)) = _
        rw [List.take_of_length_le (by rw [List.length_drop]), hparse]
  · exact ⟨_, _, rfl, h⟩

theorem no_brace_of_drop {t r : Text} {p m : ℕ} (hdrop : t.drop p = r) (hbrace : 123 ∉ r.take m) :
    ∀ j, p ≤ j → j < p + m → t[j]? ≠ some 123 := by
  intro j hj hlt hbad
  refine hbrace (List.mem_of_getElem? (i := j - p) ?_)
  rw [List.getElem?_take_of_lt (by omega), ← hdrop, List.getElem?_drop, show p + (j - p) = j by omega]
  exact hbad

/-- The search for the stop marker ends behind the bytes that are free of it. -/
theorem Scanned.le_searchEnd (h : Scanned E fmt T y s) {r : Text} {m : ℕ}
    (hdrop : s.content.drop s.scanPos = r) (hm : m ≤ r.length) (hstop : StopFree fmt y r m) :
    s.scanPos + m ≤ (findMarker s.content s.scanPos fmt.stop).getD s.content.length := by
  cases hk : findMarker s.content s.scanPos fmt.stop with
  | none =>
    rw [← hdrop, List.length_drop] at hm
    have := h.pos_le
    rw [Option.getD_none]
    omega
  | some k =>
    obtain ⟨hpos, ⟨w, hw, hne, hocc⟩, -⟩ := findMarker_eq_some.1 hk
    rw [Option.getD_some]
    by_contra hlt
    refine hstop (k - s.scanPos) (by omega) (MarkAt.append ⟨w, hw, hne, ?_⟩ y)
    rw [← hdrop, OccursAt.drop_iff h.pos_le, Nat.add_sub_cancel' hpos]
    exact hocc

/-- The stop marker that is next stays the next one behind the bytes that are free of it. -/
theorem Scanned.search_moved (h : Scanned E fmt T y s) {r : Text} {m : ℕ}
    (hdrop : s.content.drop s.scanPos = r) (hstop : StopFree fmt y r m) :
    findMarker s.content s.scanPos fmt.stop = findMarker s.content (s.scanPos + m) fmt.stop := by
  refine findMarker_congr_start (Nat.le_add_right _ _) fun j hj hlt ⟨w, hw, hne, hocc⟩ => ?_
  refine hstop (j - s.scanPos) (by omega) (MarkAt.append ⟨w, hw, hne, ?_⟩ y)
  rw [← hdrop, OccursAt.drop_iff h.pos_le, Nat.add_sub_cancel' hj]
  exact hocc

theorem emitTo_emitTo {e k : ℕ} (hpe : s.scanPos ≤ e) (hek : e ≤ k) :
    (s.emitTo e).emitTo k = s.emitTo k := by
  simp only [emitTo, emitContent, List.append_assoc, drop_take_split _ hpe hek]

/-- The loop comes to the next brace. -/
theorem Scanned.loop_to_brace (h : Scanned E fmt T y s) {a r : Text} {n : ℕ} (closable : Bool)
    (hdrop : s.content.drop s.scanPos = a ++ r) (hbrace : 123 ∉ a) (hhead : r.head? = some 123)
    (hstop : StopFree fmt y (a ++ r) (a.length + 1)) {kStop : Option ℕ}
    (hk : kStop = findMarker s.content s.scanPos fmt.stop)
    (hn : s.scanPos + n = kStop.getD s.content.length) :
    ∃ m, s.autoLoop E kStop closable n s.scanPos =
        s.autoLoop E kStop closable (m + 1) (s.scanPos + a.length) ∧
      s.scanPos + a.length + (m + 1) = kStop.getD s.content.length := by
  have hr : 0 < r.length := by
    cases r with
    | nil => cases hhead
    | cons b r => exact Nat.succ_pos _
  have hend := h.le_searchEnd hdrop (by rw [List.length_append]; omega) hstop
  rw [← hk] at hend
  refine ⟨n - a.length - 1, ?_, by omega⟩
  rw [← autoLoop_skip, show a.length + (n - a.length - 1 + 1) = n by omega]
  exact no_brace_of_drop hdrop (by rw [List.take_left]; exact hbrace)

theorem Scanned.loop_last (h : Scanned E fmt T y s) {r : Text} {n : ℕ} (closable : Bool)
    (hdrop : s.content.drop s.scanPos = r) (hlast : LastPart fmt y r) {kStop : Option ℕ}
    (hk : kStop = findMarker s.content s.scanPos fmt.stop)
    (hn : s.scanPos + n = kStop.getD s.content.length) :
    s.autoLoop E kStop closable n s.scanPos = .next s := by
  have hfree : 123 ∉ r.take n := by
    obtain ⟨hbrace, -⟩ | ⟨k, hfind, hbrace⟩ := hlast
    · exact fun hmem => hbrace (List.mem_of_mem_take hmem)
    · rw [findMarker_drop h.pos_le, hdrop, hfind] at hk
      rw [hk, Option.map_some, Option.getD_some] at hn
      rwa [Nat.add_left_cancel hn]
  have hskip := autoLoop_skip (E := E) kStop closable n 0 s.scanPos (no_brace_of_drop hdrop hfree)
  rw [Nat.add_zero] at hskip
  rw [hskip]
  rfl

variable {closable : Bool} {wait : Text → Prop}

theorem autoLoop_tidy {r : Text} (htidy : Tidy E fmt closable wait y r)
    (hsize : T.length ≤ 2147483647)
    (hwait : ∀ r, wait r → closable = false ∨
      ∀ obj used, jsonParseLenExCode E.tokener r ≠ .parsed obj used)
    (h : Scanned E fmt T y s) (hdrop : s.content.drop s.scanPos = r) {kStop : Option ℕ} {n : ℕ}
    (hk : kStop = findMarker s.content s.scanPos fmt.stop)
    (hn : s.scanPos + n = kStop.getD s.content.length) :
    LoopTidy E fmt T y wait kStop (s.autoLoop E kStop closable n s.scanPos) := by
  induction htidy generalizing s n with
  | last hlast =>
    rw [h.loop_last closable hdrop hlast hk hn]
    exact ⟨h, hdrop ▸ hlast, hk⟩
  | @waits a r hbrace hhead hstop hw =>
    obtain ⟨m, hloop, -⟩ := h.loop_to_brace closable hdrop hbrace hhead hstop hk hn
    obtain ⟨hemit, hdrop', hat, hzero⟩ := h.before_brace hdrop hbrace hhead hstop
    rw [hloop, autoLoop, if_neg (not_not.2 hat)]
    by_cases hclosable : closable = false
    · rw [if_pos hclosable]
      exact .inl ⟨hemit, hdrop'.symm ▸ ⟨hhead, hzero, hw⟩⟩
    · have hno := (hwait _ hw).resolve_left hclosable
      rw [← hdrop'] at hno
      obtain ⟨n', m', hobj, h'⟩ := h.autoObject_none (i := s.scanPos + a.length) hemit.pos_le hno
      rw [if_neg hclosable, hobj]
      exact .inl ⟨(h'.before_brace hdrop hbrace hhead hstop).1, hdrop'.symm ▸ ⟨hhead, hzero, hw⟩⟩
  | @object a r obj used hclosable hbrace hhead hstop hobj hname hflat hrest ih =>
    have hused := jsonParse_bounds hobj
    have hstop₁ : StopFree fmt y (a ++ r) (a.length + 1) := fun j hj => hstop j (by omega)
    obtain ⟨m, hloop, hm⟩ := h.loop_to_brace closable hdrop hbrace hhead hstop₁ hk hn
    obtain ⟨hemit, hdrop', hat, hzero⟩ := h.before_brace hdrop hbrace hhead hstop₁
    have hend := h.le_searchEnd hdrop (by rw [List.length_append]; omega) hstop
    rw [← hk] at hend
    have hobject := h.autoObject (List.getElem?_eq_some_iff.1 hat).1 (hdrop'.symm ▸ hobj)
    rw [hloop, autoLoop, if_neg (not_not.2 hat), if_neg (by rw [hclosable]; exact Bool.noConfusion), hobject]
    simp only [hname]
    have h₂ : Scanned E fmt T y (s.emitTo (s.scanPos + a.length + used)) := by
      rw [← emitTo_emitTo (Nat.le_add_right _ a.length) (Nat.le_add_right _ used)]
      exact hemit.object_emit hsize hdrop' hhead hzero hobj hname
    have htail : 123 ∉ (r.drop 1).take (used - 1) := by
      rwa [← List.drop_take, List.drop_one]
    have hskip := autoLoop_skip (E := E) (s := s.emitTo (s.scanPos + a.length + used)) kStop closable
      (used - 1) (m + 1 - used) (s.scanPos + a.length + 1)
      (no_brace_of_drop (by rw [← hdrop', List.drop_drop]; rfl) htail)
    rw [show m = used - 1 + (m + 1 - used) by omega, hskip,
      show s.scanPos + a.length + 1 + (used - 1) = s.scanPos + a.length + used by omega]
    refine ih h₂ (by rw [← hdrop', List.drop_drop]; rfl) ?_ ?_
    · rw [hk, h.search_moved hdrop hstop, Nat.add_assoc]
      rfl
    · have : s.scanPos + a.length + used + (m + 1 - used) = kStop.getD s.content.length := by omega
      exact this
  | @call a r name obj used hclosable hbrace hhead hstop hobj hname hafter =>
    have hused := jsonParse_bounds hobj
    obtain ⟨m, hloop, -⟩ := h.loop_to_brace closable hdrop hbrace hhead hstop hk hn
    obtain ⟨hemit, hdrop', hat, hzero⟩ := h.before_brace hdrop hbrace hhead hstop
    have hobject := h.autoObject (List.getElem?_eq_some_iff.1 hat).1 (hdrop'.symm ▸ hobj)
    have hle : s.scanPos + a.length ≤ s.content.length := hemit.pos_le
    have hk' : kStop = findMarker s.content (s.scanPos + a.length) fmt.stop :=
      hk.trans (h.search_moved hdrop fun j hj => hstop j (Nat.lt_succ_of_lt hj))
    rw [hloop, autoLoop, if_neg (not_not.2 hat), if_neg (by rw [hclosable]; exact Bool.noConfusion), hobject]
    simp only [hname]
    obtain ⟨k, hlt, hfind⟩ | ⟨hfree, hlast⟩ := hafter
    · have hkStop : kStop = some (s.scanPos + a.length + k) := by
        rw [hk', findMarker_drop hle, hdrop', hfind]
        rfl
      have hend := hemit.callStop_end hsize hdrop' hhead hzero hobj hname hfind hlt
      rw [List.append_nil] at hend
      rw [hkStop]
      simp only [if_pos (Nat.add_le_add_left (Nat.le_of_lt hlt) (s.scanPos + a.length))]
      exact .inr hend
    · have hrec := hemit.call_record hsize hdrop' hhead hzero hobj hname hfree
      rw [List.append_nil] at hrec
      have hk'' : kStop = findMarker s.content (s.scanPos + a.length + used) fmt.stop :=
        hk'.trans (hemit.search_moved hdrop' hfree)
      have hdrop'' : s.content.drop (s.scanPos + a.length + used) = r.drop used := by
        rw [← hdrop', List.drop_drop]
      cases hkStop : kStop with
      | none => exact ⟨hrec, hdrop''.symm ▸ hlast, hkStop ▸ hk''⟩
      | some k =>
        rw [hkStop] at hk''
        by_cases hreach : k ≤ s.scanPos + a.length + used
        · simp only [if_pos hreach]
          refine .inr (hrec.stop_end hk''.symm ?_)
          change 123 ∉ (s.content.drop _).take (k - (s.scanPos + a.length + used))
          rw [show k - (s.scanPos + a.length + used) = 0 by omega, List.take_zero]
          exact List.not_mem_nil
        · simp only [if_neg hreach]
          exact ⟨hrec, hdrop''.symm ▸ hlast, hk''⟩

end Loop

section Turn

variable {wait : Text → Prop}

/-- What a turn comes to. -/
def TurnTidy (E : ToolEnv) (fmt : MarkerPair) (T y : Text) (wait : Text → Prop) (s : ToolScanner) : Prop :=
  (Scanned E fmt T y s ∧
    (s.scanPos = s.content.length ∨ Waiting fmt wait y (s.content.drop s.scanPos))) ∨ Ended E fmt T s

/-- The last part of a chunk. -/
theorem Scanned.last_emit (h : Scanned E fmt T y s) (hlast : LastPart fmt y (s.content.drop s.scanPos))
    (hk : findMarker s.content s.scanPos fmt.stop = none) :
    Scanned E fmt T y (s.emitTo s.content.length) := by
  obtain ⟨hbrace, hfree⟩ | ⟨k, hfind, -⟩ := hlast
  · have hemit := h.text_emit (r := []) (List.append_nil _).symm hbrace (by rwa [List.append_nil])
    rwa [List.length_drop, Nat.add_sub_cancel' h.pos_le] at hemit
  · rw [findMarker_drop h.pos_le, hfind] at hk
    cases hk

theorem Scanned.last_stop (h : Scanned E fmt T y s) (hlast : LastPart fmt y (s.content.drop s.scanPos))
    {k : ℕ} (hk : findMarker s.content s.scanPos fmt.stop = some k) :
    Ended E fmt T (s.suppressTruncate k) := by
  refine h.stop_end hk ?_
  obtain ⟨hbrace, -⟩ | ⟨k', hfind, hbrace⟩ := hlast
  · exact fun hmem => hbrace (List.mem_of_mem_take hmem)
  · rw [findMarker_drop h.pos_le, hfind] at hk
    rwa [← Option.some.inj hk, Nat.add_sub_cancel_left]

theorem Scanned.autoTurn (h : Scanned E fmt T y s) (hsize : T.length ≤ 2147483647)
    (hwait : ∀ r, wait r → s.tailClosable = false ∨
      ∀ obj used, jsonParseLenExCode E.tokener r ≠ .parsed obj used)
    (htidy : Tidy E fmt s.tailClosable wait y (s.content.drop s.scanPos)) :
    TurnTidy E fmt T y wait (s.autoTurn E fmt) := by
  have h₀ : Scanned E fmt T y { s with
      autoStopEnd := s.content.length,
      autoStopFound := (findMarker s.content s.scanPos fmt.stop).isSome } := by
    refine ⟨h.running, h.outside, h.text, h.pos_le, h.outcome, h.dead, Nat.le_refl _, fun hf k hk _ => ?_⟩
    exact findMarker_eq_none.1 (Option.isNone_iff_eq_none.1 (Option.isSome_eq_false_iff.1 hf)) k hk
  rw [ToolScanner.autoTurn, if_neg (Nat.not_lt.2 h.pos_le), h.autoStop]
  dsimp only
  have hloop := autoLoop_tidy htidy hsize hwait h₀ rfl rfl
    (n := (findMarker s.content s.scanPos fmt.stop).getD s.content.length - s.scanPos) (by
      have := h.le_searchEnd rfl (Nat.zero_le _) fun j hj => absurd hj (Nat.not_lt_zero j)
      change s.scanPos + _ = (findMarker s.content s.scanPos fmt.stop).getD s.content.length
      omega)
  revert hloop
  change LoopTidy E fmt T y wait (findMarker s.content s.scanPos fmt.stop)
    (autoLoop E (findMarker s.content s.scanPos fmt.stop) s.tailClosable _ s.scanPos _) → _
  generalize autoLoop E _ _ _ _ _ = result
  intro hloop
  cases result with
  | done s' =>
    obtain ⟨h', hw⟩ | h' := hloop
    · exact .inl ⟨h', .inr hw⟩
    · exact .inr h'
  | next s' =>
    obtain ⟨h', hlast, hk⟩ := hloop
    have hcontent : s'.content = s.content := List.append_cancel_right (h'.text.symm.trans h.text)
    cases hfind : findMarker s.content s.scanPos fmt.stop with
    | none =>
      rw [hfind] at hk
      have hemit := h'.last_emit hlast hk.symm
      rw [hcontent] at hemit
      exact .inl ⟨hemit, .inl (congrArg List.length hcontent).symm⟩
    | some k =>
      rw [hfind] at hk
      exact .inr (h'.last_stop hlast hk.symm)

end Turn

section Run

theorem Scanned.withContent {x : Text} (h : Scanned E fmt T (x ++ y) s) :
    Scanned E fmt T y (s.withContent x) := by
  have hle : s.content.length ≤ (s.content ++ x).length := by
    rw [List.length_append]
    exact Nat.le_add_right _ _
  refine ⟨h.running, h.outside, ?_, h.pos_le.trans hle, ?_, ?_, h.searched.trans hle, fun hf k hk hend => ?_⟩
  · rw [h.text, ToolScanner.withContent, List.append_assoc]
  · rw [h.outcome]
    change _ = (bareOutcome E fmt (T.drop s.scanPos)).after s.calls ((s.content ++ x).take s.scanPos) s.sent
    rw [List.take_append_of_le_length h.pos_le]
  · obtain hzero | ⟨hn, herror⟩ := h.dead
    · exact .inl hzero
    · refine .inr ⟨hn.trans hle, ?_⟩
      change jsonParseLenExCode E.tokener (((s.content ++ x).drop s.autoDeadI).take s.autoDeadN) = _
      rw [List.drop_append_of_le_length (by omega),
        List.take_append_of_le_length (by rw [List.length_drop]; omega), herror]
  · have hend' : k + (fmt.stop.getD []).length ≤ s.autoStopEnd := hend
    rintro ⟨w, hw, hne, hocc⟩
    have hsearched := h.searched
    rw [hw, Option.getD_some] at hend'
    refine h.seen hf k hk (by rwa [hw, Option.getD_some]) ⟨w, hw, hne, ?_⟩
    exact hocc.of_append (hend'.trans hsearched)

variable (hopen : fmt.opening = []) (hsize : T.length ≤ 2147483647)
include hopen hsize

theorem Scanned.advance {wait : Text → Prop} (h : Scanned E fmt T y s)
    (hwait : ∀ r, wait r → s.tailClosable = false ∨
      ∀ obj used, jsonParseLenExCode E.tokener r ≠ .parsed obj used)
    (htidy : Tidy E fmt s.tailClosable wait y (s.content.drop s.scanPos)) :
    TurnTidy E fmt T y wait (s.advance E fmt) := by
  rw [show s.advance E fmt = s.autoTurn E fmt from
    (advanceLoop_done (turn_bare hopen h.running h.outside)).1]
  exact h.autoTurn hsize hwait htidy

theorem goodRun_foldl (pieces : List Text) (hgood : GoodRun E fmt s pieces)
    (h : Scanned E fmt T pieces.flatten s ∨ Ended E fmt T s) :
    GoodRun E fmt (pieces.foldl (onPiece E fmt) s) [] ∧
      (Scanned E fmt T [] (pieces.foldl (onPiece E fmt) s) ∨
        Ended E fmt T (pieces.foldl (onPiece E fmt) s)) := by
  induction pieces generalizing s with
  | nil => exact ⟨hgood, h⟩
  | cons x pieces ih =>
    obtain ⟨htidy, hgood⟩ := hgood
    refine ih hgood ?_
    obtain h | h := h
    · have hpush : Scanned E fmt T pieces.flatten (s.withContent x) := h.withContent
      rw [onPiece_eq, push_content h.running h.outside]
      obtain ⟨h', -⟩ | h' := hpush.advance hopen hsize (fun _ => id) (htidy h.running)
      · exact .inl h'
      · exact .inr h'
    · rw [onPiece_eq, push_suppressed h.stopped,
        show s.advance E fmt = s from (advanceLoop_done (turn_suppressed h.stopped)).1]
      exact .inr h

end Run

section Finish

/-- The scanner has made of the text what the text says. -/
def Agrees (E : ToolEnv) (fmt : MarkerPair) (T : Text) (s : ToolScanner) : Prop :=
  s.calls = (bareOutcome E fmt T).calls ∧ s.content = (bareOutcome E fmt T).content ∧
    s.sent = (bareOutcome E fmt T).sent

theorem Scanned.agrees (h : Scanned E fmt T [] s) {r : Text} (hdrop : s.content.drop s.scanPos = r)
    (hrest : bareOutcome E fmt r = ⟨[], r, r⟩) : Agrees E fmt T s.sendRest := by
  have hcontent : T = s.content := by rw [h.text, List.append_nil]
  have hout : bareOutcome E fmt T = ⟨s.calls, s.content, s.sent ++ r⟩ := by
    rw [h.outcome, hcontent, hdrop, hrest, BareOutcome.after, List.append_nil, ← hdrop, List.take_append_drop]
  rw [Agrees, hout, sendRest]
  split_ifs with hlt
  · refine ⟨rfl, rfl, ?_⟩
    change s.sent ++ (s.content.drop s.scanPos).take (s.content.length - s.scanPos) = _
    rw [List.take_of_length_le (by rw [List.length_drop]), hdrop]
  · rw [← hdrop, List.drop_eq_nil_of_le (Nat.le_of_not_lt hlt), List.append_nil]
    exact ⟨rfl, rfl, rfl⟩

theorem Waiting.outcome {r : Text} (h : Waiting fmt (EndWaits E fmt) [] r) :
    bareOutcome E fmt r = ⟨[], r, r⟩ := by
  have hstop := h.stop
  rw [List.append_nil] at hstop
  obtain hmore | ⟨herror, hbrace, hfree⟩ := h.wait
  · exact bareOutcome_more h.head hstop hmore
  · rw [StopFree, List.append_nil] at hfree
    exact bareOutcome_error h.head hstop herror hbrace hfree

theorem Ended.agrees (h : Ended E fmt T s) : Agrees E fmt T s := ⟨h.calls, h.content, h.sent⟩

theorem goodRun_finish (hopen : fmt.opening = []) (hsize : T.length ≤ 2147483647)
    (hgood : GoodRun E fmt s []) (h : Scanned E fmt T [] s ∨ Ended E fmt T s) :
    Agrees E fmt T (s.finish E fmt) := by
  obtain h | h := h
  · rw [finish_bare hopen h.running h.outside h.pos_le]
    split_ifs with hlt
    · have hforce : Scanned E fmt T [] { s with forceJsonAttempt := true } :=
        ⟨h.running, h.outside, h.text, h.pos_le, h.outcome, h.dead, h.searched, h.seen⟩
      have hno : ∀ r, EndWaits E fmt r → (true = false) ∨
          ∀ obj used, jsonParseLenExCode E.tokener r ≠ .parsed obj used := by
        intro r hr
        refine .inr fun obj used hobj => ?_
        obtain hmore | ⟨herror, -⟩ := hr
        · exact absurd (hmore.symm.trans hobj) TokenerResult.noConfusion
        · exact absurd (herror.symm.trans hobj) TokenerResult.noConfusion
      obtain ⟨h', hend⟩ | h' := hforce.advance hopen hsize hno (hgood h.running hlt)
      · have h'' : Scanned E fmt T []
            { advance E fmt { s with forceJsonAttempt := true } with forceJsonAttempt := false } :=
          ⟨h'.running, h'.outside, h'.text, h'.pos_le, h'.outcome, h'.dead, h'.searched, h'.seen⟩
        obtain hdone | hwait := hend
        · exact h''.agrees (List.drop_eq_nil_of_le (Nat.le_of_eq hdone.symm)) rfl
        · exact h''.agrees rfl hwait.outcome
      · rw [sendRest, if_neg (Nat.not_lt.2 h'.pos)]
        exact h'.agrees
    · have hnil : s.content.drop s.scanPos = [] := List.drop_eq_nil_of_le (Nat.le_of_not_lt hlt)
      have hall := h.agrees hnil rfl
      rwa [sendRest, if_neg hlt] at hall
  · rw [finish, if_pos h.stopped]
    exact h.agrees

end Finish

theorem scanned_new (E : ToolEnv) (fmt : MarkerPair) (T : Text) : Scanned E fmt T T new :=
  ⟨rfl, rfl, rfl, Nat.le_refl 0, rfl, .inl rfl, Nat.le_refl 0, fun _ k _ _ hmark =>
    absurd hmark.lt_length (Nat.not_lt_zero k)⟩

section Names

/-- `{"name":"b"}` -/
def nameObject (b : UInt8) : Text := 123 :: ascii "\"name\":\"" ++ [b] ++ ascii "\"" ++ [125]

/-- json-c on objects like `nameObject`. -/
def nameTokener (s : Text) : TokenerResult :=
  if (123 :: ascii "\"name\":\"").isPrefixOf s ∧ (ascii "\"" ++ [125]).isPrefixOf (s.drop 10) then
    .parsed (.object [(ascii "name", .string ((s.drop 9).take 1))]) 12
  else if s.length < 12 then .more
  else .error

theorem nameTokener_parsed {s : Text} {obj : Json} {used : ℕ}
    (h : nameTokener s = .parsed obj used) : 12 ≤ s.length ∧ used = 12 ∧
      obj = .object [(ascii "name", .string ((s.drop 9).take 1))] ∧
      (123 :: ascii "\"name\":\"").isPrefixOf s ∧ (ascii "\"" ++ [125]).isPrefixOf (s.drop 10) := by
  rw [nameTokener] at h
  split_ifs at h with hpre
  obtain ⟨hobj, hused⟩ := TokenerResult.parsed.inj h
  have hlen := (List.isPrefixOf_iff_prefix.1 hpre.2).length_le
  have hend : (ascii "\"" ++ [125] : Text).length = 2 := by decide +kernel
  rw [List.length_drop, hend] at hlen
  exact ⟨by omega, hused.symm, hobj.symm, hpre⟩

example : (nameObject 97).length = 12 ∧ ((nameObject 97).drop 9).take 1 = ascii "a" := by decide +kernel

def nameEnv : ToolEnv where
  payload := fun _ => payloadXmlargs nameTokener
  tokener := nameTokener
  used_le := fun s obj used h => by
    obtain ⟨hlen, rfl, -⟩ := nameTokener_parsed h
    exact ⟨by decide, hlen⟩
  parsed_append := fun s obj used y h => by
    obtain ⟨hlen, rfl, rfl, hpre, hpre'⟩ := nameTokener_parsed h
    have hdrop : ∀ n ≤ 12, (s ++ y).drop n = s.drop n ++ y := fun n hn =>
      List.drop_append_of_le_length (hn.trans hlen)
    rw [nameTokener, if_pos, hdrop 9 (by decide), List.take_append_of_le_length]
    · rw [List.length_drop]
      omega
    · rw [hdrop 10 (by decide)]
      exact ⟨List.isPrefixOf_iff_prefix.2 ((List.isPrefixOf_iff_prefix.1 hpre).trans (List.prefix_append _ _)),
        List.isPrefixOf_iff_prefix.2 ((List.isPrefixOf_iff_prefix.1 hpre').trans (List.prefix_append _ _))⟩
  toJsonString := fun _ => [123, 125]

theorem stopFree_of_none {y r : Text} (h : findMarker (r ++ y) 0 fmt.stop = none) (n : ℕ) :
    StopFree fmt y r n :=
  fun k _ => findMarker_eq_none.1 h k (Nat.zero_le k)

/-- A chunk with a call at its end. -/
theorem tidy_name {a : Text} {wait : Text → Prop} (b : UInt8) (hbrace : 123 ∉ a)
    (hobj : jsonParseLenExCode nameTokener (nameObject b) =
      .parsed (.object [(ascii "name", .string [b])]) 12)
    (hname : (Json.object [(ascii "name", .string [b])]).getStr (ascii "name") = some (cstr [b]))
    (hnone : findMarker (a ++ nameObject b) 0 bareFormat.stop = none)
    (hnone' : findMarker (nameObject b) 0 bareFormat.stop = none) :
    Tidy nameEnv bareFormat true wait [] (a ++ nameObject b) := by
  refine .call rfl hbrace rfl (stopFree_of_none (by rwa [List.append_nil]) _) hobj hname
    (.inr ⟨stopFree_of_none (by rwa [List.append_nil]) 12, .inl ⟨?_, fun k hk => ?_⟩⟩)
  · exact List.not_mem_nil
  · exact absurd hk (Nat.not_lt_zero k)

end Names

end ToolScanner

end Kappai
