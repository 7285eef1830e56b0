import Kappai.Sanity.ToolTurns
import Kappai.Spec.ToolScan
import Kappai.Sanity.ToolBare

/-! A text that arrives in pieces is scanned like the whole text at once: a piece can be pushed
through every turn that the scanner has already made. -/

namespace Kappai

namespace ToolScanner

variable {E : ToolEnv} {fmt : MarkerPair} {s s' : ToolScanner}

/-- Where the scanner has come to is in reach of what it has. -/
structure InReach (fmt : MarkerPair) (s : ToolScanner) : Prop where
  content : s.inCall = false → s.scanPos ≤ s.content.length
  call : s.inCall = true → ClosedScan fmt s

theorem inReach_new (fmt : MarkerPair) : InReach fmt new :=
  ⟨fun _ => Nat.le_refl 0, fun h => by cases h⟩

theorem InReach.push (h : InReach fmt s) (y : Text) : InReach fmt (s.push y) := by
  rw [ToolScanner.push]
  split_ifs with hs hin
  · exact h
  · refine ⟨fun h' => ?_, fun _ close hc => (h.call hin close hc).trans ?_⟩
    · have hsame : (s.withBuf y).inCall = s.inCall := rfl
      rw [hsame, hin] at h'
      cases h'
    · rw [withBuf, List.length_append]
      omega
  · have hin' : s.inCall = false := Bool.not_eq_true _ ▸ hin
    refine ⟨fun _ => (h.content hin').trans ?_, fun h' => ?_⟩
    · rw [withContent, List.length_append]
      exact Nat.le_add_right _ _
    · exact absurd h' hin

section Turn

variable (hne : fmt.opening ≠ []) (happ : MarkersApart fmt) (hok : InReach fmt s)
  (hs : s.suppressed = false)
include hne happ hok hs

theorem turn_push_next (h : s.turn E fmt = .next s') (y : Text) :
    (s.push y).turn E fmt = .next (s'.push y) ∧ InReach fmt s' ∧ s'.suppressed = false := by
  have hs₁ : (s.push y).suppressed = false := (suppressed_push y).trans hs
  cases hin : s.inCall with
  | true =>
    rw [turn_call hs hin] at h
    obtain ⟨-, hturn⟩ | ⟨close, k, -, -, hturn⟩ | ⟨close, -, -, hturn⟩ := callTurn_cases E fmt s
    · rw [hturn] at h
      cases h
    · obtain rfl := ScanTurn.next.inj (hturn.symm.trans h)
      refine ⟨?_, ⟨fun _ => ?_, fun h => by cases h⟩, hs⟩
      · rw [turn_call hs₁ ((inCall_push y).trans hin), push_call hs hin, callTurn_next_append h,
          push_content (s := s.endCall E fmt k close.length) hs rfl]
      · rw [endCall, List.length_append]
        exact Nat.le_add_right _ _
    · rw [hturn] at h
      cases h
  | false =>
    rw [turn_content hne hs hin] at h
    obtain ⟨k, -, -, hturn⟩ | ⟨k, -, -, hturn⟩ | ⟨-, -, hturn⟩ := contentTurn_cases (hok.content hin)
    · obtain rfl := ScanTurn.next.inj (hturn.symm.trans h)
      refine ⟨?_, ⟨(fun h => by cases h), fun _ _ _ => Nat.zero_le _⟩, hs⟩
      rw [turn_content hne hs₁ ((inCall_push y).trans hin), push_content hs hin,
        contentTurn_next_append happ (hok.content hin) h, push_call (s := s.startCall k) hs rfl]
    · rw [hturn] at h
      cases h
    · rw [hturn] at h
      cases h

theorem turn_push_stop (h : s.turn E fmt = .done s') (hs' : s'.suppressed = true) (y : Text) :
    (s.push y).turn E fmt = .done s' := by
  have hs₁ : (s.push y).suppressed = false := (suppressed_push y).trans hs
  cases hin : s.inCall with
  | true =>
    rw [turn_call hs hin] at h
    obtain ⟨-, hturn⟩ | ⟨close, k, -, -, hturn⟩ | ⟨close, -, -, hturn⟩ := callTurn_cases E fmt s
    · obtain rfl := ScanTurn.done.inj (hturn.symm.trans h)
      rw [hs] at hs'
      cases hs'
    · rw [hturn] at h
      cases h
    · obtain rfl := ScanTurn.done.inj (hturn.symm.trans h)
      exact absurd hs' (by rw [hs]; exact Bool.false_ne_true)
  | false =>
    rw [turn_content hne hs hin] at h
    rw [turn_content hne hs₁ ((inCall_push y).trans hin), push_content hs hin]
    exact contentTurn_stop_append happ (hok.content hin) h hs' hs y

omit happ in
theorem turn_push_wait (h : s.turn E fmt = .done s') (hs' : s'.suppressed = false) (y : Text) :
    (s.push y).turn E fmt = (s'.push y).turn E fmt := by
  have hs₁ : (s.push y).suppressed = false := (suppressed_push y).trans hs
  have hs₂ : (s'.push y).suppressed = false := (suppressed_push y).trans hs'
  cases hin : s.inCall with
  | true =>
    rw [turn_call hs hin] at h
    have hin' : s'.inCall = true := by
      obtain ⟨-, hturn⟩ | ⟨close, k, -, -, hturn⟩ | ⟨close, -, -, hturn⟩ := callTurn_cases E fmt s
      · obtain rfl := ScanTurn.done.inj (hturn.symm.trans h)
        exact hin
      · rw [hturn] at h
        cases h
      · obtain rfl := ScanTurn.done.inj (hturn.symm.trans h)
        exact hin
    rw [turn_call hs₁ ((inCall_push y).trans hin), turn_call hs₂ ((inCall_push y).trans hin'),
      push_call hs hin, push_call hs' hin', callTurn_wait_append (hok.call hin) h]
  | false =>
    rw [turn_content hne hs hin] at h
    have hin' : s'.inCall = false := by
      obtain ⟨k, -, -, hturn⟩ | ⟨k, -, -, hturn⟩ | ⟨-, -, hturn⟩ :=
        contentTurn_cases (hok.content hin)
      · rw [hturn] at h
        cases h
      · obtain rfl := ScanTurn.done.inj (hturn.symm.trans h)
        exact hin
      · obtain rfl := ScanTurn.done.inj (hturn.symm.trans h)
        exact hin
    rw [turn_content hne hs₁ ((inCall_push y).trans hin),
      turn_content hne hs₂ ((inCall_push y).trans hin'), push_content hs hin, push_content hs' hin',
      contentTurn_wait_append (hok.content hin) h hs']

end Turn

theorem advanceLoop_succ {n : ℕ} (h : s.guardFires E fmt n = false) :
    s.advanceLoop E fmt (n + 1) = s.advanceLoop E fmt n ∧ s.guardFires E fmt (n + 1) = false := by
  induction n generalizing s with
  | zero => cases h
  | succ n ih =>
    cases hturn : s.turn E fmt with
    | next s' =>
      rw [(advanceLoop_next hturn).2] at h
      rw [(advanceLoop_next hturn).1, (advanceLoop_next hturn).1, (advanceLoop_next hturn).2]
      exact ih h
    | done s' =>
      rw [(advanceLoop_done hturn).1, (advanceLoop_done hturn).1]
      exact ⟨rfl, (advanceLoop_done hturn).2⟩

section Loop

variable (hne : fmt.opening ≠ []) (happ : MarkersApart fmt)
include hne happ

theorem guardFires_of_push {n : ℕ} {y : Text} (hok : InReach fmt s) (hs : s.suppressed = false)
    (h : (s.push y).guardFires E fmt n = false) : s.guardFires E fmt n = false := by
  induction n generalizing s with
  | zero => cases h
  | succ n ih =>
    cases hturn : s.turn E fmt with
    | next s' =>
      obtain ⟨hpush, hok', hs'⟩ := turn_push_next hne happ hok hs hturn y
      rw [(advanceLoop_next hpush).2] at h
      rw [(advanceLoop_next hturn).2]
      exact ih hok' hs' h
    | done s' => exact (advanceLoop_done hturn).2

/-- Scanning before a piece comes does not change what is scanned after it. -/
theorem advanceLoop_push {n : ℕ} {y : Text} (hok : InReach fmt s) (hs : s.suppressed = false)
    (h : (s.push y).guardFires E fmt n = false) :
    ((s.advanceLoop E fmt n).push y).advanceLoop E fmt n = (s.push y).advanceLoop E fmt n ∧
      ((s.advanceLoop E fmt n).push y).guardFires E fmt n = false := by
  induction n generalizing s with
  | zero => cases h
  | succ n ih =>
    cases hturn : s.turn E fmt with
    | next s' =>
      obtain ⟨hpush, hok', hs'⟩ := turn_push_next hne happ hok hs hturn y
      rw [(advanceLoop_next hpush).2] at h
      obtain ⟨hloop, hguard⟩ := ih hok' hs' h
      obtain ⟨hloop₁, hguard₁⟩ := advanceLoop_succ hguard
      rw [(advanceLoop_next hturn).1, (advanceLoop_next hpush).1, hloop₁, hloop]
      exact ⟨rfl, hguard₁⟩
    | done s' =>
      obtain ⟨hloop, -⟩ := advanceLoop_done (n := n) hturn
      rw [hloop]
      cases hs' : s'.suppressed with
      | true =>
        have hstop := turn_push_stop hne happ hok hs hturn hs' y
        rw [push_suppressed hs', (advanceLoop_done hstop).1]
        exact advanceLoop_done (turn_suppressed hs')
      | false =>
        have hwait := turn_push_wait hne hok hs hturn hs' y
        rw [advanceLoop, advanceLoop, guardFires, ← hwait]
        rw [guardFires] at h
        exact ⟨rfl, h⟩

end Loop

/-- A scanner between two calls that has sent nothing. -/
def between (content : Text) (calls : List ToolCall) : ToolScanner := { new with content, calls }

theorem advanceLoop_between_nil (hne : fmt.opening ≠ []) (calls : List ToolCall) (n : ℕ) :
    (between [] calls).advanceLoop E fmt n = between [] calls := by
  have hturn : (between [] calls).turn E fmt = .done (between [] calls) := by
    have hnone : ∀ marker, findMarker (between [] calls).content (between [] calls).scanPos marker = none :=
      fun marker => findMarker_eq_none.2 fun j _ h => absurd h.lt_length (Nat.not_lt_zero j)
    have hend : (between [] calls).emitEnd fmt = 0 := Nat.max_eq_zero_iff.2 ⟨Nat.zero_sub _, rfl⟩
    rw [turn_content hne rfl rfl, contentTurn_of_none (Nat.le_refl 0) (hnone _) (hnone _), hend]
    rfl
  cases n with
  | zero => rfl
  | succ n => exact (advanceLoop_done hturn).1

/-- Pieces one after the other. -/
theorem foldl_onPiece (hne : fmt.opening ≠ []) (happ : MarkersApart fmt) (pieces : List Text)
    (hok : InReach fmt s) (hs : s.suppressed = false)
    (h : (s.push pieces.flatten).guardFires E fmt 8192 = false) :
    pieces.foldl (onPiece E fmt) (s.advance E fmt) = (s.push pieces.flatten).advance E fmt := by
  induction pieces generalizing s with
  | nil => rw [List.flatten_nil, push_nil, List.foldl_nil]
  | cons x pieces ih =>
    rw [List.flatten_cons, ← push_push] at h ⊢
    have hok' := hok.push x
    have hs' := (suppressed_push x).trans hs
    rw [List.foldl_cons, onPiece_eq]
    have hx := guardFires_of_push hne happ hok' hs' h
    rw [show ((s.advance E fmt).push x).advance E fmt = (s.push x).advance E fmt from
      (advanceLoop_push hne happ hok hs hx).1]
    exact ih hok' hs' h

theorem foldl_flatten (hne : fmt.opening ≠ []) (happ : MarkersApart fmt) (pieces : List Text)
    (h : (new.push pieces.flatten).guardFires E fmt 8192 = false) :
    pieces.foldl (onPiece E fmt) new = new.onPiece E fmt pieces.flatten := by
  have hall := foldl_onPiece hne happ pieces (inReach_new fmt) rfl h
  rwa [show new.advance E fmt = new from advanceLoop_between_nil hne [] 8192, ← onPiece_eq] at hall

section Sent

theorem sent_emitContent (i j : ℕ) : s.sent <+: (s.emitContent i j).sent := List.prefix_append _ _

theorem sent_emitTo (k : ℕ) : s.sent <+: (s.emitTo k).sent := sent_emitContent _ _

theorem sent_contentTurn (fmt : MarkerPair) (s : ToolScanner) :
    s.sent <+: (s.contentTurn fmt).scanner.sent := by
  by_cases hle : s.scanPos ≤ s.content.length
  · obtain ⟨k, -, -, hturn⟩ | ⟨k, -, -, hturn⟩ | ⟨-, -, hturn⟩ := @contentTurn_cases fmt s hle
    · rw [hturn]
      exact sent_emitTo k
    · rw [hturn]
      exact sent_emitTo k
    · rw [hturn]
      exact sent_emitTo _
  · rw [contentTurn, if_pos (Nat.lt_of_not_le hle)]
    exact List.prefix_refl _

theorem sent_callTurn (E : ToolEnv) (fmt : MarkerPair) (s : ToolScanner) :
    s.sent <+: (s.callTurn E fmt).scanner.sent := by
  obtain ⟨-, hturn⟩ | ⟨close, k, -, -, hturn⟩ | ⟨close, -, -, hturn⟩ := callTurn_cases E fmt s
  all_goals
    rw [hturn]
    exact List.prefix_refl _

theorem sent_turn (hne : fmt.opening ≠ []) : s.sent <+: (s.turn E fmt).scanner.sent := by
  cases hs : s.suppressed with
  | true =>
    rw [turn_suppressed hs]
    exact List.prefix_refl _
  | false =>
    cases hin : s.inCall with
    | true =>
      rw [turn_call hs hin]
      exact sent_callTurn E fmt s
    | false =>
      rw [turn_content hne hs hin]
      exact sent_contentTurn fmt s

theorem sent_advanceLoop (hne : fmt.opening ≠ []) (n : ℕ) :
    s.sent <+: (s.advanceLoop E fmt n).sent := by
  induction n generalizing s with
  | zero => exact List.prefix_refl _
  | succ n ih =>
    have hturn := sent_turn (E := E) (s := s) hne
    cases h : s.turn E fmt with
    | next s' =>
      rw [h] at hturn
      rw [(advanceLoop_next h).1]
      exact hturn.trans ih
    | done s' =>
      rw [h] at hturn
      rwa [(advanceLoop_done h).1]

theorem sent_push (y : Text) : (s.push y).sent = s.sent := by
  rw [push]
  split_ifs <;> rfl

theorem sent_foldl (hne : fmt.opening ≠ []) (pieces : List Text) :
    s.sent <+: (pieces.foldl (onPiece E fmt) s).sent := by
  induction pieces generalizing s with
  | nil => exact List.prefix_refl _
  | cons x pieces ih =>
    have hx : s.sent <+: (s.onPiece E fmt x).sent := by
      rw [onPiece_eq, ← sent_push (s := s) x]
      exact sent_advanceLoop hne 8192
    exact hx.trans ih

theorem sent_closeOpenCall : s.sent <+: (s.closeOpenCall E fmt).sent := by
  rw [closeOpenCall]
  split_ifs
  · cases toolcallParse E fmt s.buf with
    | none => exact List.prefix_append _ _
    | some hit => exact List.prefix_refl _
  · exact List.prefix_refl _

theorem sent_sendRest : s.sent <+: s.sendRest.sent := by
  rw [sendRest]
  split_ifs
  · exact sent_emitTo _
  · exact List.prefix_refl _

theorem sent_finish (hne : fmt.opening ≠ []) : s.sent <+: (s.finish E fmt).sent := by
  rw [finish]
  by_cases hs : s.suppressed = true
  · rw [if_pos hs]
  · rw [if_neg hs]
    dsimp only
    split_ifs with _ hauto
    · exact sent_closeOpenCall
    · exact absurd hauto.1 hne
    · refine List.IsPrefix.trans ?_ sent_sendRest
      exact sent_closeOpenCall

example : (([ascii "a <tool", ascii "_call>"]).foldl (onPiece argsEnv argsFormat) new).sent = ascii "a " := by
  decide +kernel

end Sent

/-- A text in pieces ends in the same scanner as the whole text at once: the same calls, the same
content, the same text sent. What is sent on the way is the beginning of what is sent for the
whole text. -/
theorem run_flatten (E : ToolEnv) (fmt : MarkerPair) (pieces : List Text) (hne : fmt.opening ≠ [])
    (happ : MarkersApart fmt)
    (hguard : ({ new with content := pieces.flatten }).guardFires E fmt 8192 = false) :
    run E fmt pieces = run E fmt [pieces.flatten] ∧
      ∀ n, ((pieces.take n).foldl (onPiece E fmt) new).sent <+:
        (run E fmt [pieces.flatten]).sent := by
  have hall := foldl_flatten hne happ pieces hguard
  have hrun : run E fmt pieces = run E fmt [pieces.flatten] := by
    rw [run, run, List.foldl_cons, List.foldl_nil, hall]
  refine ⟨hrun, fun n => ?_⟩
  rw [← hrun, run]
  refine List.IsPrefix.trans ?_ (sent_finish hne)
  conv_rhs => rw [← List.take_append_drop n pieces, List.foldl_append]
  exact sent_foldl hne _

section Guard

def blockCall : ToolCall := ⟨ascii "f", 123 :: ascii "\"k\":\"v\"" ++ [125]⟩

/-- A call in three pieces, cut inside its markers. -/
theorem run_flatten_cut :
    run argsEnv argsFormat [ascii "a <tool", (callBlock ++ ascii " b").drop 5] =
        run argsEnv argsFormat [ascii "a " ++ callBlock ++ ascii " b"] ∧
      ∀ n, (([ascii "a <tool", (callBlock ++ ascii " b").drop 5].take n).foldl
        (onPiece argsEnv argsFormat) new).sent <+:
          (run argsEnv argsFormat [ascii "a " ++ callBlock ++ ascii " b"]).sent :=
  run_flatten argsEnv argsFormat [ascii "a <tool", (callBlock ++ ascii " b").drop 5]
    (by decide +kernel) (by decide +kernel) (by decide +kernel)

/-- The turns for one block. -/
theorem advanceLoop_block (rest : Text) (calls : List ToolCall) (n : ℕ) :
    (between (callBlock ++ rest) calls).advanceLoop argsEnv argsFormat (n + 2) =
      (between rest (calls ++ [blockCall])).advanceLoop argsEnv argsFormat n := by
  have hopen : findMarker (callBlock ++ rest) 0 (some argsFormat.opening) = some 0 :=
    findMarker_append (by decide +kernel) rest
  have hclose : findMarker (callBlock ++ rest) 0 argsFormat.close = some 56 :=
    findMarker_append (by decide +kernel) rest
  have hcalls : blockCalls argsEnv argsFormat ((callBlock ++ rest).take 56) = [blockCall] := by
    rw [List.take_append_of_le_length (by decide +kernel)]
    decide +kernel
  have hrest : (callBlock ++ rest).drop 68 = rest := List.drop_left' (by decide +kernel)
  have hfirst : (between (callBlock ++ rest) calls).turn argsEnv argsFormat =
      .next ((between (callBlock ++ rest) calls).startCall 0) := by
    rw [turn_content (by decide +kernel) rfl rfl]
    exact contentTurn_of_open (Nat.zero_le _) hopen fun k' h => by cases h
  have hsecond : ((between (callBlock ++ rest) calls).startCall 0).turn argsEnv argsFormat =
      .next (between rest (calls ++ [blockCall])) := by
    rw [turn_call rfl rfl, callTurn_of_close (c := ascii "</tool_call>") rfl hclose,
      show (ascii "</tool_call>").length = 12 by decide +kernel]
    simp only [endCall, startCall, emitTo, emitContent, between, new, List.nil_append,
      List.drop_zero, List.take_zero, hcalls, hrest]
    rfl
  rw [(advanceLoop_next hfirst).1, (advanceLoop_next hsecond).1]

/-- Two turns of the loop for each block. -/
theorem advanceLoop_blocks (m : ℕ) (rest : Text) (calls : List ToolCall) (n : ℕ) :
    (between ((List.replicate m callBlock).flatten ++ rest) calls).advanceLoop argsEnv argsFormat
        (2 * m + n) =
      (between rest (calls ++ List.replicate m blockCall)).advanceLoop argsEnv argsFormat n := by
  induction m generalizing calls with
  | zero => rw [List.replicate_zero, List.replicate_zero, List.append_nil, Nat.mul_zero, Nat.zero_add]; rfl
  | succ m ih =>
    rw [List.replicate_succ, List.flatten_cons, List.append_assoc,
      show 2 * (m + 1) + n = 2 * m + n + 2 by omega, advanceLoop_block, ih, List.append_assoc,
      List.singleton_append, ← List.replicate_succ]

example : ((between (callBlock ++ callBlock) []).advanceLoop argsEnv argsFormat 4).calls =
    [blockCall, blockCall] := by decide +kernel

theorem onPiece_between (content piece : Text) (calls : List ToolCall) :
    (between content calls).onPiece E fmt piece =
      (between (content ++ piece) calls).advanceLoop E fmt 8192 := rfl

theorem finish_between_calls (E : ToolEnv) (hne : fmt.opening ≠ []) (content : Text)
    (calls : List ToolCall) : ((between content calls).finish E fmt).calls = calls := by
  have hno : ¬(fmt.opening = [] ∧ min 0 content.length < content.length) := fun h => hne h.1
  change (ToolScanner.calls (if fmt.opening = [] ∧ min 0 content.length < content.length then _
    else _)) = calls
  rw [if_neg hno, sendRest]
  split_ifs <;> rfl

/-- Of 4097 calls in one piece the last one is not found; alone in a piece it is. And a format
whose opening marker lies inside its stop marker depends on the cut. -/
theorem run_guard :
    (run argsEnv argsFormat
        [(List.replicate 4096 callBlock).flatten, callBlock]).calls.length = 4097 ∧
      (run argsEnv argsFormat
        [(List.replicate 4096 callBlock).flatten ++ callBlock]).calls.length = 4096 ∧
      (run argsEnv ⟨ascii "ab", some (ascii "/ab"), .xmlargs, some (ascii "xaby")⟩
        [ascii "xab", ascii "y"]).sent ≠
      (run argsEnv ⟨ascii "ab", some (ascii "/ab"), .xmlargs, some (ascii "xaby")⟩
        [ascii "xaby"]).sent := by
  have hne : argsFormat.opening ≠ [] := by decide +kernel
  have hguard : 8192 = 2 * 4096 + 0 := rfl
  have hfirst : (between [] []).onPiece argsEnv argsFormat (List.replicate 4096 callBlock).flatten =
      between [] (List.replicate 4096 blockCall) := by
    have hblocks := advanceLoop_blocks 4096 [] [] 0
    rw [List.append_nil, List.nil_append] at hblocks
    rw [onPiece_between, List.nil_append, hguard, hblocks, advanceLoop]
  have hsecond : (between [] (List.replicate 4096 blockCall)).onPiece argsEnv argsFormat callBlock =
      between [] (List.replicate 4096 blockCall ++ [blockCall]) := by
    have hblock := advanceLoop_block [] (List.replicate 4096 blockCall) 8190
    rw [List.append_nil] at hblock
    rw [onPiece_between, List.nil_append, hblock, advanceLoop_between_nil hne]
  have hwhole : (between [] []).onPiece argsEnv argsFormat
      ((List.replicate 4096 callBlock).flatten ++ callBlock) =
        between callBlock (List.replicate 4096 blockCall) := by
    rw [onPiece_between, List.nil_append, hguard, advanceLoop_blocks, List.nil_append, advanceLoop]
  have hnew : new = between [] [] := rfl
  refine ⟨?_, ?_, by decide +kernel⟩
  · rw [run, hnew, List.foldl_cons, List.foldl_cons, List.foldl_nil, hfirst, hsecond,
      finish_between_calls argsEnv hne, List.length_append, List.length_replicate,
      List.length_singleton]
  · rw [run, hnew, List.foldl_cons, List.foldl_nil, hwhole, finish_between_calls argsEnv hne,
      List.length_replicate]

end Guard

end ToolScanner

end Kappai

/-! What becomes of the bytes of a generated text: each goes to the client and into the content,
or belongs to a recorded block, or comes after a stop marker. -/

namespace Kappai

namespace ToolScanner

variable {E : ToolEnv} {fmt : MarkerPair} {s : ToolScanner} {T : Text} {parts : List TextPart}

theorem Ledger.accounts (h : Ledger E fmt parts s) {rest : Text} (htext : T = partsText parts ++ rest)
    (hdrop : rest = [] ∨ Dropped fmt parts rest)
    (hcontent : fmt.opening ≠ [] ∨ s.calls = [] → s.content = partsKept parts) :
    Accounts E fmt T parts rest s :=
  ⟨htext, hdrop, h.blocks, h.calls, h.sent, fun hc => (hcontent hc).trans h.sent.symm⟩

section Marked

variable (hne : fmt.opening ≠ [])
include hne

theorem finish_outside (hs : s.suppressed = false) (hin : s.inCall = false) :
    s.finish E fmt = sendRest { s with scanPos := min s.scanPos s.content.length } := by
  have hclose : s.closeOpenCall E fmt = s := by
    rw [closeOpenCall, if_neg fun h => by rw [hin] at h; cases h.1]
  rw [finish, if_neg (by rw [hs]; exact Bool.false_ne_true), hclose]
  dsimp only
  rw [if_neg (by rw [hin]; exact Bool.false_ne_true), if_neg fun h => hne h.1]

theorem finish_inside (hs : s.suppressed = false) (hin : s.inCall = true) (hcontent : s.content = [])
    {hit : PayloadHit} (hhit : toolcallParse E fmt s.buf = some hit) :
    s.finish E fmt = { s with
      calls := s.calls ++ [callOf E hit.name hit.args], buf := [], inCall := false, scanPos := 0 } := by
  have hbuf : s.buf ≠ [] := by
    intro hnil
    rw [hnil, toolcallParse, if_neg] at hhit
    · cases hhit
    · exact fun hpre => hne (List.prefix_nil.1 (List.isPrefixOf_iff_prefix.1 hpre))
  have hclose : s.closeOpenCall E fmt = { s with
      calls := s.calls ++ [callOf E hit.name hit.args], buf := [], inCall := false } := by
    rw [closeOpenCall, if_pos ⟨hin, hbuf⟩, hhit]
  rw [finish, if_neg (by rw [hs]; exact Bool.false_ne_true), hclose]
  dsimp only
  rw [if_neg Bool.false_ne_true, if_neg fun h => hne h.1, hcontent, List.length_nil, Nat.min_zero]
  rfl

theorem sorted_finish (h : Sorted E fmt T parts s)
    (hopen : s.inCall = true → s.content = [] ∧ (toolcallParse E fmt s.buf).isSome = true) :
    ∃ parts' rest, Accounts E fmt T parts' rest (s.finish E fmt) := by
  cases h with
  | outside ledger hs hin hbuf rest htext hcontent hpos =>
    have hle : s.scanPos ≤ s.content.length := by
      rw [hcontent, hpos, List.length_append]
      exact Nat.le_add_right _ _
    rw [finish_outside hne hs hin, min_eq_left hle, sendRest]
    have hrest : s.content.drop s.scanPos = rest := by rw [hcontent, hpos, List.drop_left]
    by_cases hlt : s.scanPos < s.content.length
    · rw [if_pos hlt]
      refine ⟨parts ++ [.kept rest], [], Ledger.accounts ?_ ?_ (.inl rfl) fun _ => ?_⟩
      · refine ledger.emit ?_ rfl
        change s.sent ++ (s.content.drop s.scanPos).take _ = _
        rw [hrest, List.take_of_length_le (by rw [← hrest, List.length_drop])]
      · rw [partsText_append, TextPart.text, List.append_nil, htext]
      · rw [partsKept_append, TextPart.keptText, ← hcontent]
        rfl
    · rw [if_neg hlt]
      have hnil : rest = [] := by rw [← hrest, List.drop_eq_nil_of_le (Nat.le_of_not_lt hlt)]
      refine ⟨parts, [], Ledger.accounts (ledger.same rfl rfl) ?_ (.inl rfl) fun _ => ?_⟩
      · rw [htext, hnil]
      · rw [show s.content = partsKept parts by rw [hcontent, hnil, List.append_nil]]
  | inside ledger hs hin htext hcontent =>
    obtain ⟨hnil, hsome⟩ := hopen hin
    obtain ⟨hit, hhit⟩ := Option.isSome_iff_exists.1 hsome
    rw [finish_inside hne hs hin hnil hhit]
    refine ⟨parts ++ [.block s.buf [callOf E hit.name hit.args]], [], Ledger.accounts ?_ ?_ (.inl rfl)
      fun _ => ?_⟩
    · exact ledger.record (.leftOpen hhit) rfl rfl
    · rw [partsText_append, TextPart.text, List.append_nil, htext]
    · rw [partsKept_append, TextPart.keptText, List.append_nil, ← hcontent]
  | stopped ledger hs rest htext hdrop hcontent =>
    rw [finish, if_pos hs]
    refine ⟨parts, rest, Ledger.accounts ?_ htext (.inr hdrop) fun _ => hcontent⟩
    exact ledger.same rfl rfl

end Marked

section Bare

variable (hopen : fmt.opening = [])
include hopen

theorem Reading.accounts (h : Reading E fmt T parts s) (htext : partsText parts = T) :
    Accounts E fmt T parts [] s := by
  refine h.ledger.accounts (by rw [List.append_nil, htext]) (.inl rfl) fun hc => ?_
  have hcalls : s.calls = [] := hc.resolve_left fun hne => hne hopen
  rw [h.content, ← htext, h.ledger.text_eq_kept hcalls]

theorem Stopped.accounts (h : Stopped E fmt T parts s) :
    ∃ parts rest, Accounts E fmt T parts rest s := by
  obtain ⟨rest, htext, hdrop⟩ := h.text
  exact ⟨parts, rest, h.ledger.accounts htext (.inr hdrop) fun hc =>
    h.content (hc.resolve_left fun hne => hne hopen)⟩

theorem bareSorted_finish (hflat : FlatObjects E fmt T) (h : BareSorted E fmt T s) :
    ∃ parts rest, Accounts E fmt T parts rest (s.finish E fmt) := by
  obtain ⟨parts, h⟩ | ⟨parts, h⟩ := h
  · have hle : s.scanPos ≤ s.content.length := by
      rw [h.content]
      exact h.pos_le
    rw [finish_bare hopen h.running h.outside hle]
    split_ifs with hlt
    · have hforce : Reading E fmt T parts { s with forceJsonAttempt := true } :=
        h.same rfl rfl rfl rfl rfl rfl
      obtain ⟨parts', h'⟩ | ⟨parts', h'⟩ := hforce.advance hopen hflat
      · have h'' : Reading E fmt T parts'
            { advance E fmt { s with forceJsonAttempt := true } with forceJsonAttempt := false } :=
          h'.same rfl rfl rfl rfl rfl rfl
        obtain ⟨parts'', hrest, htext⟩ := h''.sendRest
        exact ⟨parts'', [], hrest.accounts hopen htext⟩
      · have h'' : Stopped E fmt T parts'
            { advance E fmt { s with forceJsonAttempt := true } with forceJsonAttempt := false } :=
          ⟨h'.ledger.same rfl rfl, h'.stopped, h'.outside, h'.text, h'.content, h'.pos⟩
        rw [sendRest, if_neg (Nat.not_lt.2 h'.pos)]
        exact h''.accounts hopen
    · refine ⟨parts, [], h.accounts hopen ?_⟩
      rw [h.text, List.take_of_length_le (by rw [← h.content]; exact Nat.le_of_not_lt hlt)]
  · rw [finish, if_pos h.stopped]
    have h' : Stopped E fmt T parts { s with buf := [], inCall := false } :=
      ⟨h.ledger.same rfl rfl, h.stopped, rfl, h.text, h.content, h.pos⟩
    exact h'.accounts hopen

end Bare

theorem unparsed_finish (hne : fmt.opening ≠ []) : (s.finish E fmt).unparsed = s.unparsed := by
  have hclose : (s.closeOpenCall E fmt).unparsed = s.unparsed := by
    rw [closeOpenCall]
    split_ifs
    · cases toolcallParse E fmt s.buf <;> rfl
    · rfl
  have hrest : ∀ t : ToolScanner, t.sendRest.unparsed = t.unparsed := by
    intro t
    rw [sendRest]
    split_ifs <;> rfl
  rw [finish]
  by_cases hs : s.suppressed = true
  · rw [if_pos hs]
  · rw [if_neg hs]
    dsimp only
    split_ifs with _ hauto
    · exact hclose
    · exact absurd hauto.1 hne
    · exact (hrest _).trans hclose

-- an open block at the end sends the content a second time
example : (run argsEnv argsFormat [ascii "a<tool_call>"]).sent = ascii "a<tool_call>a<tool_call>" := by
  decide +kernel

/-- The format with the stop marker `<|tool_response>`. -/
def responseFormat : MarkerPair :=
  ⟨ascii "<|tool_call>", some (ascii "<tool_call|>"), .callcolon, some (ascii "<|tool_response>")⟩

end ToolScanner

end Kappai
