import Kappai.Sanity.ToolMarkers

/-! The scanner between opening and closing markers: more text does not change a turn that has
found its marker, and a turn that waits may as well not have been made. -/

namespace Kappai

namespace MarkersApart

variable {fmt : MarkerPair} {s y : Text} {k k' : ℕ}

/-- An opening marker up to the stop marker is complete when the stop marker is. -/
theorem open_complete (h : MarkersApart fmt) (hstop : MarkAt fmt.stop s k')
    (hopen : MarkAt (some fmt.opening) (s ++ y) k) (hle : k ≤ k') :
    MarkAt (some fmt.opening) s k := by
  obtain ⟨w, hw, hne, hocc⟩ := hstop
  by_cases hin : k + fmt.opening.length ≤ s.length
  · exact hopen.of_append_le hin
  · have := hocc.add_length_le
    exact absurd ⟨w, hw, hne, hopen.occursAt.inside (hocc.append y) hle (by omega)⟩
      (findMarker_eq_none.1 h.1 (k' - k) (Nat.zero_le _))

/-- A stop marker before an opening marker is complete when the opening marker is. -/
theorem stop_complete (h : MarkersApart fmt) (hopen : MarkAt (some fmt.opening) s k)
    (hstop : MarkAt fmt.stop (s ++ y) k') (hlt : k' < k) : MarkAt fmt.stop s k' := by
  obtain ⟨w, hw, hne, hocc⟩ := hstop
  by_cases hin : k' + w.length ≤ s.length
  · exact ⟨w, hw, hne, hocc.of_append hin⟩
  · have := hopen.occursAt.add_length_le
    have hin' := hocc.inside (hopen.occursAt.append y) (Nat.le_of_lt hlt) (by omega)
    have hnone := h.2
    rw [hw, Option.getD_some] at hnone
    exact absurd ⟨_, rfl, hopen.ne_nil, hin'⟩ (findMarker_eq_none.1 hnone (k - k') (by omega))

end MarkersApart

theorem drop_take_split {α : Type*} (l : List α) {p e k : ℕ} (hpe : p ≤ e) (hek : e ≤ k) :
    (l.drop p).take (e - p) ++ (l.drop e).take (k - e) = (l.drop p).take (k - p) := by
  rw [show k - p = e - p + (k - e) by omega, List.take_add, List.drop_drop,
    show p + (e - p) = e by omega]

theorem drop_take_append {α : Type*} {l : List α} {k : ℕ} (hk : k ≤ l.length) (p : ℕ) (y : List α) :
    ((l ++ y).drop p).take (k - p) = (l.drop p).take (k - p) := by
  rcases Nat.le_total p l.length with hp | hp
  · rw [List.drop_append_of_le_length hp,
      List.take_append_of_le_length (by rw [List.length_drop]; omega)]
  · rw [show k - p = 0 by omega, List.take_zero, List.take_zero]

namespace ToolScanner

variable {E : ToolEnv} {fmt : MarkerPair} {s s' : ToolScanner}

section Content

/-- The three ways a turn outside a call goes. -/
theorem contentTurn_of_open (hle : s.scanPos ≤ s.content.length) {k : ℕ}
    (hopen : findMarker s.content s.scanPos (some fmt.opening) = some k)
    (hstop : ∀ k', findMarker s.content s.scanPos fmt.stop = some k' → k ≤ k') :
    s.contentTurn fmt = .next (s.startCall k) := by
  rw [contentTurn, if_neg (Nat.not_lt.2 hle), hopen]
  cases h : findMarker s.content s.scanPos fmt.stop with
  | none => rfl
  | some k' => exact if_pos (hstop k' h)

theorem contentTurn_of_stop (hle : s.scanPos ≤ s.content.length) {k' : ℕ}
    (hstop : findMarker s.content s.scanPos fmt.stop = some k')
    (hopen : ∀ k, findMarker s.content s.scanPos (some fmt.opening) = some k → k' < k) :
    s.contentTurn fmt = .done (s.suppressTruncate k') := by
  rw [contentTurn, if_neg (Nat.not_lt.2 hle), hstop]
  cases h : findMarker s.content s.scanPos (some fmt.opening) with
  | none => rfl
  | some k => exact if_neg (Nat.not_le.2 (hopen k h))

theorem partialOpenHold_append (c y : Text) (fmt : MarkerPair) :
    c.length - partialOpenHold c fmt ≤ (c ++ y).length - partialOpenHold (c ++ y) fmt := by
  have hopen : markerTailLen (c ++ y) (some fmt.opening) ≤ _ := markerTailLen_append
  have hstop : markerTailLen (c ++ y) fmt.stop ≤ _ := markerTailLen_append
  rw [partialOpenHold, partialOpenHold, List.length_append]
  omega

/-- How far a turn that finds no marker lets the content go. -/
def emitEnd (fmt : MarkerPair) (s : ToolScanner) : ℕ :=
  max (s.content.length - partialOpenHold s.content fmt) s.scanPos

theorem contentTurn_of_none (hle : s.scanPos ≤ s.content.length)
    (hopen : findMarker s.content s.scanPos (some fmt.opening) = none)
    (hstop : findMarker s.content s.scanPos fmt.stop = none) :
    s.contentTurn fmt = .done (s.emitTo (s.emitEnd fmt)) := by
  rw [contentTurn, if_neg (Nat.not_lt.2 hle), hopen, hstop, emitEnd]

theorem contentTurn_cases (hle : s.scanPos ≤ s.content.length) :
    (∃ k, findMarker s.content s.scanPos (some fmt.opening) = some k ∧
      (∀ k', findMarker s.content s.scanPos fmt.stop = some k' → k ≤ k') ∧
      s.contentTurn fmt = .next (s.startCall k)) ∨
    (∃ k', findMarker s.content s.scanPos fmt.stop = some k' ∧
      (∀ k, findMarker s.content s.scanPos (some fmt.opening) = some k → k' < k) ∧
      s.contentTurn fmt = .done (s.suppressTruncate k')) ∨
    (findMarker s.content s.scanPos (some fmt.opening) = none ∧
      findMarker s.content s.scanPos fmt.stop = none ∧
      s.contentTurn fmt = .done (s.emitTo (s.emitEnd fmt))) := by
  cases hopen : findMarker s.content s.scanPos (some fmt.opening) with
  | none =>
    cases hstop : findMarker s.content s.scanPos fmt.stop with
    | none => exact .inr (.inr ⟨rfl, rfl, contentTurn_of_none hle hopen hstop⟩)
    | some k' =>
      have hfirst : ∀ k, (none : Option ℕ) = some k → k' < k := fun k h => by cases h
      exact .inr (.inl ⟨k', rfl, hfirst, contentTurn_of_stop hle hstop (by rwa [hopen])⟩)
  | some k =>
    by_cases hfirst : ∀ k', findMarker s.content s.scanPos fmt.stop = some k' → k ≤ k'
    · exact .inl ⟨k, rfl, hfirst, contentTurn_of_open hle hopen hfirst⟩
    · push Not at hfirst
      obtain ⟨k', hstop, hlt⟩ := hfirst
      have hfirst' : ∀ i, findMarker s.content s.scanPos (some fmt.opening) = some i → k' < i := by
        intro i hi
        obtain rfl := Option.some.inj (hopen.symm.trans hi)
        exact hlt
      exact .inr (.inl ⟨k', hstop, by rwa [hopen] at hfirst', contentTurn_of_stop hle hstop hfirst'⟩)

/-- More content. -/
def withContent (s : ToolScanner) (y : Text) : ToolScanner := { s with content := s.content ++ y }

def withBuf (s : ToolScanner) (y : Text) : ToolScanner := { s with buf := s.buf ++ y }

theorem startCall_withContent {k : ℕ} (hk : k ≤ s.content.length) (y : Text) :
    (s.withContent y).startCall k = (s.startCall k).withBuf y := by
  simp only [startCall, emitTo, emitContent, withContent, withBuf, drop_take_append hk]
  rw [List.drop_append_of_le_length hk, List.take_append_of_le_length hk, List.append_assoc]

theorem suppressTruncate_withContent {k : ℕ} (hk : k ≤ s.content.length) (y : Text) :
    (s.withContent y).suppressTruncate k = s.suppressTruncate k := by
  simp only [suppressTruncate, emitTo, emitContent, withContent, drop_take_append hk]
  rw [List.take_append_of_le_length hk]

/-- What a waiting turn lets go holds no beginning of a marker. -/
theorem free_before_emitEnd {marker : Option Text}
    (htail : markerTailLen s.content marker ≤ partialOpenHold s.content fmt)
    (hnone : findMarker s.content s.scanPos marker = none) (y : Text) {j : ℕ}
    (hj : s.scanPos ≤ j) (hlt : j < s.emitEnd fmt) : ¬MarkAt marker (s.content ++ y) j := by
  intro h
  refine findMarker_eq_none.1 hnone j hj (h.of_append ?_)
  rw [emitEnd] at hlt
  omega

theorem scanPos_le_emitEnd (fmt : MarkerPair) (s : ToolScanner) : s.scanPos ≤ s.emitEnd fmt :=
  le_max_right _ _

/-- Sending in two steps is sending in one. -/
theorem emitTo_withContent_emitTo {e k : ℕ} (hpe : s.scanPos ≤ e) (he : e ≤ s.content.length)
    (hek : e ≤ k) (y : Text) :
    ((s.emitTo e).withContent y).emitTo k = (s.withContent y).emitTo k := by
  simp only [emitTo, emitContent, withContent]
  rw [← drop_take_append he s.scanPos y, List.append_assoc, drop_take_split _ hpe hek]

variable (happ : MarkersApart fmt) (hle : s.scanPos ≤ s.content.length)
include hle

include happ in
/-- A marker that is found is found whatever comes after it. -/
theorem contentTurn_next_append (h : s.contentTurn fmt = .next s') (y : Text) :
    (s.withContent y).contentTurn fmt = .next (s'.withBuf y) := by
  have hle' : (s.withContent y).scanPos ≤ (s.withContent y).content.length :=
    hle.trans (by rw [withContent, List.length_append]; exact Nat.le_add_right _ _)
  obtain ⟨k, hopen, hstop, hturn⟩ | ⟨k', -, -, hturn⟩ | ⟨-, -, hturn⟩ := contentTurn_cases hle
  · obtain rfl := ScanTurn.next.inj (hturn.symm.trans h)
    have hmark := (findMarker_eq_some.1 hopen).2.1
    rw [contentTurn_of_open hle' (findMarker_append hopen y), startCall_withContent]
    · exact Nat.le_of_lt hmark.lt_length
    · intro k' hk'
      obtain ⟨hpos, hmark', -⟩ := findMarker_eq_some.1 hk'
      by_contra hlt
      have hin := happ.stop_complete hmark hmark' (Nat.lt_of_not_le hlt)
      obtain ⟨i, hi, hik⟩ := findMarker_le hin hpos
      exact hlt ((hstop i hi).trans hik)
  · rw [hturn] at h
    cases h
  · rw [hturn] at h
    cases h

include happ in
theorem contentTurn_stop_append (h : s.contentTurn fmt = .done s') (hs' : s'.suppressed = true)
    (hs : s.suppressed = false) (y : Text) : (s.withContent y).contentTurn fmt = .done s' := by
  have hle' : (s.withContent y).scanPos ≤ (s.withContent y).content.length :=
    hle.trans (by rw [withContent, List.length_append]; exact Nat.le_add_right _ _)
  obtain ⟨k, -, -, hturn⟩ | ⟨k', hstop, hopen, hturn⟩ | ⟨-, -, hturn⟩ := contentTurn_cases hle
  · rw [hturn] at h
    cases h
  · obtain rfl := ScanTurn.done.inj (hturn.symm.trans h)
    have hmark := (findMarker_eq_some.1 hstop).2.1
    rw [contentTurn_of_stop hle' (findMarker_append hstop y), suppressTruncate_withContent]
    · exact Nat.le_of_lt hmark.lt_length
    · intro k hk
      obtain ⟨hpos, hmark', -⟩ := findMarker_eq_some.1 hk
      by_contra hlt
      have hin := happ.open_complete hmark hmark' (Nat.le_of_not_lt hlt)
      obtain ⟨i, hi, hik⟩ := findMarker_le hin hpos
      exact hlt ((hopen i hi).trans_le hik)
  · obtain rfl := ScanTurn.done.inj (hturn.symm.trans h)
    have hsame : (s.emitTo (s.emitEnd fmt)).suppressed = s.suppressed := rfl
    rw [hsame, hs] at hs'
    cases hs'

/-- A turn that waits changes nothing for the turns after it. -/
theorem contentTurn_wait_append (h : s.contentTurn fmt = .done s') (hs' : s'.suppressed = false)
    (y : Text) : (s.withContent y).contentTurn fmt = (s'.withContent y).contentTurn fmt := by
  obtain ⟨k, -, -, hturn⟩ | ⟨k', -, -, hturn⟩ | ⟨hopen, hstop, hturn⟩ := contentTurn_cases hle
  · rw [hturn] at h
    cases h
  · obtain rfl := ScanTurn.done.inj (hturn.symm.trans h)
    cases hs'
  · obtain rfl := ScanTurn.done.inj (hturn.symm.trans h)
    have hpe := scanPos_le_emitEnd fmt s
    have he : s.emitEnd fmt ≤ s.content.length := max_le (Nat.sub_le _ _) hle
    have hlen : s.content.length ≤ (s.content ++ y).length := by
      rw [List.length_append]
      exact Nat.le_add_right _ _
    -- both turns search the longer content, from a place before and one after the part let go
    have hopen' : findMarker (s.content ++ y) s.scanPos (some fmt.opening) =
        findMarker (s.content ++ y) (s.emitEnd fmt) (some fmt.opening) :=
      findMarker_congr_start hpe fun j hj hlt => free_before_emitEnd (le_max_left _ _) hopen y hj hlt
    have hstop' : findMarker (s.content ++ y) s.scanPos fmt.stop =
        findMarker (s.content ++ y) (s.emitEnd fmt) fmt.stop :=
      findMarker_congr_start hpe fun j hj hlt => free_before_emitEnd (le_max_right _ _) hstop y hj hlt
    have hemit : ∀ k, s.emitEnd fmt ≤ k →
        (s.withContent y).emitTo k = ((s.emitTo (s.emitEnd fmt)).withContent y).emitTo k :=
      fun k hk => (emitTo_withContent_emitTo hpe he hk y).symm
    have hle₁ : (s.withContent y).scanPos ≤ (s.withContent y).content.length := hle.trans hlen
    have hle₂ : ((s.emitTo (s.emitEnd fmt)).withContent y).scanPos ≤
      ((s.emitTo (s.emitEnd fmt)).withContent y).content.length := he.trans hlen
    obtain ⟨k, hk, hfirst, hturn₁⟩ | ⟨k, hk, hfirst, hturn₁⟩ | ⟨hk, hk', hturn₁⟩ :=
      @contentTurn_cases fmt _ hle₁
    · have hk₂ := hopen'.symm.trans hk
      rw [hturn₁, contentTurn_of_open hle₂ hk₂ fun i hi => hfirst i (hstop'.trans hi)]
      have hmark := (findMarker_eq_some.1 hk₂).1
      rw [startCall, startCall, hemit k hmark]
      rfl
    · have hk₂ := hstop'.symm.trans hk
      rw [hturn₁, contentTurn_of_stop hle₂ hk₂ fun i hi => hfirst i (hopen'.trans hi)]
      rw [suppressTruncate, suppressTruncate, hemit k (findMarker_eq_some.1 hk₂).1]
      rfl
    · rw [hturn₁, contentTurn_of_none hle₂ (hopen'.symm.trans hk) (hstop'.symm.trans hk')]
      have hend : ((s.emitTo (s.emitEnd fmt)).withContent y).emitEnd fmt =
          (s.withContent y).emitEnd fmt := by
        have := partialOpenHold_append s.content y fmt
        change max ((s.content ++ y).length - partialOpenHold (s.content ++ y) fmt)
          (max (s.content.length - partialOpenHold s.content fmt) s.scanPos) =
          max ((s.content ++ y).length - partialOpenHold (s.content ++ y) fmt) s.scanPos
        rw [← max_assoc, max_eq_left this]
      rw [hend, hemit]
      rw [← hend]
      exact scanPos_le_emitEnd fmt ((s.emitTo (s.emitEnd fmt)).withContent y)

end Content

section Call

/-- The state after a closing marker at `k`. -/
def endCall (E : ToolEnv) (fmt : MarkerPair) (s : ToolScanner) (k clen : ℕ) : ToolScanner :=
  let calls := blockCalls E fmt (s.buf.take k)
  let content := if calls = [] then s.content ++ s.buf.take (k + clen) else s.content
  { s with
    content := content ++ s.buf.drop (k + clen), inCall := false, buf := [],
    scanPos := content.length, closeScan := 0, calls := s.calls ++ calls,
    unparsed := s.unparsed + if calls = [] then 1 else 0 }

theorem callTurn_of_close {c : Text} {k : ℕ} (hc : fmt.close = some c)
    (hk : findMarker s.buf s.closeScan fmt.close = some k) :
    s.callTurn E fmt = .next (s.endCall E fmt k c.length) := by
  rw [callTurn, hc]
  rw [hc] at hk
  simp only [hk]
  rfl

theorem callTurn_of_none {close : Text} (hc : fmt.close = some close)
    (hk : findMarker s.buf s.closeScan fmt.close = none) :
    s.callTurn E fmt = .done { s with closeScan := s.buf.length - (close.length - 1) } := by
  rw [callTurn, hc]
  rw [hc] at hk
  simp only [hk]

/-- The three ways a turn in a call goes. -/
theorem callTurn_cases (E : ToolEnv) (fmt : MarkerPair) (s : ToolScanner) :
    (fmt.close = none ∧ s.callTurn E fmt = .done s) ∨
    (∃ close k, fmt.close = some close ∧ findMarker s.buf s.closeScan fmt.close = some k ∧
      s.callTurn E fmt = .next (s.endCall E fmt k close.length)) ∨
    (∃ close, fmt.close = some close ∧ findMarker s.buf s.closeScan fmt.close = none ∧
      s.callTurn E fmt = .done { s with closeScan := s.buf.length - (close.length - 1) }) := by
  cases hc : fmt.close with
  | none => exact .inl ⟨rfl, by rw [callTurn, hc]⟩
  | some close =>
    rw [← hc]
    cases hk : findMarker s.buf s.closeScan fmt.close with
    | none => exact .inr (.inr ⟨close, hc, rfl, callTurn_of_none hc hk⟩)
    | some k => exact .inr (.inl ⟨close, k, hc, rfl, callTurn_of_close hc hk⟩)

theorem endCall_withBuf {k clen : ℕ} (hk : k + clen ≤ s.buf.length) (y : Text) :
    (s.withBuf y).endCall E fmt k clen = (s.endCall E fmt k clen).withContent y := by
  have hcut : (s.buf ++ y).take k = s.buf.take k := List.take_append_of_le_length (by omega)
  simp only [endCall, withBuf, withContent, hcut, List.take_append_of_le_length hk,
    List.drop_append_of_le_length hk, List.append_assoc]

theorem callTurn_next_append (h : s.callTurn E fmt = .next s') (y : Text) :
    (s.withBuf y).callTurn E fmt = .next (s'.withContent y) := by
  obtain ⟨-, hturn⟩ | ⟨close, k, hc, hk, hturn⟩ | ⟨close, -, -, hturn⟩ := callTurn_cases E fmt s
  · rw [hturn] at h
    cases h
  · obtain rfl := ScanTurn.next.inj (hturn.symm.trans h)
    have hmark := (findMarker_eq_some.1 hk).2.1
    rw [hc] at hmark
    rw [callTurn_of_close hc (findMarker_append hk y), endCall_withBuf hmark.occursAt.add_length_le]
  · rw [hturn] at h
    cases h

/-- No closing marker ends in what has been searched. -/
def ClosedScan (fmt : MarkerPair) (s : ToolScanner) : Prop :=
  ∀ close, fmt.close = some close → s.closeScan ≤ s.buf.length - (close.length - 1)

theorem callTurn_wait_append (hscan : ClosedScan fmt s) (h : s.callTurn E fmt = .done s')
    (y : Text) : (s.withBuf y).callTurn E fmt = (s'.withBuf y).callTurn E fmt := by
  obtain ⟨-, hturn⟩ | ⟨close, k, -, -, hturn⟩ | ⟨close, hc, hnone, hturn⟩ := callTurn_cases E fmt s
  · obtain rfl := ScanTurn.done.inj (hturn.symm.trans h)
    rfl
  · rw [hturn] at h
    cases h
  · obtain rfl := ScanTurn.done.inj (hturn.symm.trans h)
    have hfind : findMarker (s.buf ++ y) s.closeScan fmt.close =
        findMarker (s.buf ++ y) (s.buf.length - (close.length - 1)) fmt.close := by
      refine findMarker_congr_start (hscan close hc) fun j hj hlt hmark => ?_
      rw [hc] at hmark hnone
      exact findMarker_eq_none.1 hnone j hj (hmark.of_append_le (by omega))
    cases hk : findMarker (s.buf ++ y) s.closeScan fmt.close with
    | none =>
      rw [callTurn_of_none (s := s.withBuf y) hc hk, callTurn_of_none (s := withBuf
        { s with closeScan := s.buf.length - (close.length - 1) } y) hc (hfind.symm.trans hk)]
      rfl
    | some k =>
      rw [callTurn_of_close (s := s.withBuf y) hc hk, callTurn_of_close (s := withBuf
        { s with closeScan := s.buf.length - (close.length - 1) } y) hc (hfind.symm.trans hk)]
      rfl

end Call

section Turns

theorem turn_call (hs : s.suppressed = false) (hin : s.inCall = true) :
    s.turn E fmt = s.callTurn E fmt := by
  rw [turn, if_neg (by rw [hs]; exact Bool.false_ne_true), if_neg (by rw [hin]; exact fun h => by cases h.2),
    if_pos hin]

theorem turn_content (hne : fmt.opening ≠ []) (hs : s.suppressed = false) (hin : s.inCall = false) :
    s.turn E fmt = s.contentTurn fmt := by
  rw [turn, if_neg (by rw [hs]; exact Bool.false_ne_true), if_neg fun h => hne h.1,
    if_neg (by rw [hin]; exact Bool.false_ne_true)]

theorem turn_suppressed (hs : s.suppressed = true) : s.turn E fmt = .done s := if_pos hs

theorem advanceLoop_next {n : ℕ} (h : s.turn E fmt = .next s') :
    s.advanceLoop E fmt (n + 1) = s'.advanceLoop E fmt n ∧
      s.guardFires E fmt (n + 1) = s'.guardFires E fmt n := by
  rw [advanceLoop, guardFires, h]
  exact ⟨rfl, rfl⟩

theorem advanceLoop_done {n : ℕ} (h : s.turn E fmt = .done s') :
    s.advanceLoop E fmt (n + 1) = s' ∧ s.guardFires E fmt (n + 1) = false := by
  rw [advanceLoop, guardFires, h]
  exact ⟨rfl, rfl⟩

end Turns

section Pieces

/-- A piece on its way to the scanner. -/
def push (s : ToolScanner) (y : Text) : ToolScanner :=
  if s.suppressed then s else if s.inCall then s.withBuf y else s.withContent y

theorem push_call (hs : s.suppressed = false) (hin : s.inCall = true) (y : Text) :
    s.push y = s.withBuf y := by
  rw [push, hs, hin]
  rfl

theorem push_content (hs : s.suppressed = false) (hin : s.inCall = false) (y : Text) :
    s.push y = s.withContent y := by
  rw [push, hs, hin]
  rfl

theorem push_suppressed (hs : s.suppressed = true) (y : Text) : s.push y = s := if_pos hs

@[simp] theorem suppressed_push (y : Text) : (s.push y).suppressed = s.suppressed := by
  rw [push]
  split_ifs <;> rfl

@[simp] theorem inCall_push (y : Text) : (s.push y).inCall = s.inCall := by
  rw [push]
  split_ifs <;> rfl

theorem push_push (x y : Text) : (s.push x).push y = s.push (x ++ y) := by
  cases hs : s.suppressed with
  | true =>
    rw [push_suppressed hs, push_suppressed hs, push_suppressed hs]
  | false =>
    have hs' : (s.push x).suppressed = false := (suppressed_push x).trans hs
    cases hin : s.inCall with
    | true =>
      rw [push_call hs' ((inCall_push x).trans hin), push_call hs hin, push_call hs hin]
      simp only [withBuf, List.append_assoc]
    | false =>
      rw [push_content hs' ((inCall_push x).trans hin), push_content hs hin, push_content hs hin]
      simp only [withContent, List.append_assoc]

theorem push_nil : s.push [] = s := by
  rw [push]
  split_ifs
  · rfl
  · simp only [withBuf, List.append_nil]
  · simp only [withContent, List.append_nil]

theorem onPiece_eq (y : Text) : s.onPiece E fmt y = (s.push y).advance E fmt := by
  cases hs : s.suppressed with
  | true =>
    rw [onPiece, if_pos hs, push_suppressed hs]
    exact ((advanceLoop_done (turn_suppressed hs)).1).symm
  | false =>
    have hns : ¬s.suppressed = true := by rw [hs]; exact Bool.false_ne_true
    rw [onPiece, if_neg hns]
    by_cases hin : s.inCall = true
    · rw [if_pos hin, feedCapture, if_pos hin, push_call hs hin]
      rfl
    · rw [if_neg hin, push_content hs (Bool.not_eq_true _ ▸ hin)]
      rfl

end Pieces

end ToolScanner

end Kappai
