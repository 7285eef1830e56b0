import Kappai.Sanity.ToolTurns
import Kappai.Spec.ToolScan

/-! What becomes of the bytes of a generated text: each goes to the client and into the content,
or belongs to a recorded block, or comes after a stop marker. -/

namespace Kappai

section Parts

variable (parts : List TextPart)

@[simp] theorem partsText_append (p : TextPart) : partsText (parts ++ [p]) = partsText parts ++ p.text := by
  rw [partsText, List.flatMap_append, List.flatMap_singleton]; rfl

@[simp] theorem partsKept_append (p : TextPart) :
    partsKept (parts ++ [p]) = partsKept parts ++ p.keptText := by
  rw [partsKept, List.flatMap_append, List.flatMap_singleton]; rfl

@[simp] theorem partsCalls_append (p : TextPart) :
    partsCalls (parts ++ [p]) = partsCalls parts ++ p.calls := by
  rw [partsCalls, List.flatMap_append, List.flatMap_singleton]; rfl

end Parts

namespace ToolScanner

variable {E : ToolEnv} {fmt : MarkerPair} {s s' : ToolScanner} {T : Text} {parts : List TextPart}

/-- The parts that the scanner is done with. -/
structure Ledger (E : ToolEnv) (fmt : MarkerPair) (parts : List TextPart) (s : ToolScanner) : Prop where
  blocks : ∀ t calls, .block t calls ∈ parts → RecordedBlock E fmt t calls
  calls : s.calls = partsCalls parts
  sent : s.sent = partsKept parts

/-- Sending what comes next. -/
theorem Ledger.emit (h : Ledger E fmt parts s) {t : Text} (hsent : s'.sent = s.sent ++ t)
    (hcalls : s'.calls = s.calls) : Ledger E fmt (parts ++ [.kept t]) s' := by
  refine ⟨fun t' calls hmem => ?_, ?_, ?_⟩
  · rcases List.mem_append.1 hmem with hmem | hmem
    · exact h.blocks t' calls hmem
    · cases List.mem_singleton.1 hmem
  · rw [hcalls, h.calls, partsCalls_append]
    exact (List.append_nil _).symm
  · rw [hsent, h.sent, partsKept_append]
    rfl

/-- Recording a block. -/
theorem Ledger.record (h : Ledger E fmt parts s) {t : Text} {calls : List ToolCall}
    (hblock : RecordedBlock E fmt t calls) (hsent : s'.sent = s.sent)
    (hcalls : s'.calls = s.calls ++ calls) : Ledger E fmt (parts ++ [.block t calls]) s' := by
  refine ⟨fun t' calls' hmem => ?_, ?_, ?_⟩
  · rcases List.mem_append.1 hmem with hmem | hmem
    · exact h.blocks t' calls' hmem
    · obtain ⟨rfl, rfl⟩ := TextPart.block.inj (List.mem_singleton.1 hmem)
      exact hblock
  · rw [hcalls, h.calls, partsCalls_append]
    rfl
  · rw [hsent, h.sent, partsKept_append]
    exact (List.append_nil _).symm

/-- A state that differs only in where the scanner looks next. -/
theorem Ledger.same (h : Ledger E fmt parts s) (hsent : s'.sent = s.sent) (hcalls : s'.calls = s.calls) :
    Ledger E fmt parts s' :=
  ⟨h.blocks, hcalls.trans h.calls, hsent.trans h.sent⟩

/-- The scanner of a format with markers after the text `T`. -/
inductive Sorted (E : ToolEnv) (fmt : MarkerPair) (T : Text) (parts : List TextPart)
    (s : ToolScanner) : Prop
  | outside (ledger : Ledger E fmt parts s) (hs : s.suppressed = false) (hin : s.inCall = false)
      (hbuf : s.buf = []) (rest : Text) (htext : T = partsText parts ++ rest)
      (hcontent : s.content = partsKept parts ++ rest) (hpos : s.scanPos = (partsKept parts).length)
  | inside (ledger : Ledger E fmt parts s) (hs : s.suppressed = false) (hin : s.inCall = true)
      (htext : T = partsText parts ++ s.buf) (hcontent : s.content = partsKept parts)
  | stopped (ledger : Ledger E fmt parts s) (hs : s.suppressed = true) (rest : Text)
      (htext : T = partsText parts ++ rest) (hdrop : Dropped fmt parts rest)
      (hcontent : s.content = partsKept parts)

theorem sorted_new (E : ToolEnv) (fmt : MarkerPair) : Sorted E fmt [] [] new :=
  .outside ⟨(fun _ _ h => by cases h), rfl, rfl⟩ rfl rfl rfl [] rfl rfl rfl

theorem contentTurn_sorted (hs : s.suppressed = false) (hin : s.inCall = false) (hbuf : s.buf = [])
    (ledger : Ledger E fmt parts s) (rest : Text) (htext : T = partsText parts ++ rest)
    (hcontent : s.content = partsKept parts ++ rest) (hpos : s.scanPos = (partsKept parts).length) :
    ∃ parts', Sorted E fmt T parts' (s.contentTurn fmt).scanner := by
  have hle : s.scanPos ≤ s.content.length := by
    rw [hcontent, hpos, List.length_append]
    exact Nat.le_add_right _ _
  -- the next part ends at `k`
  have hdrop : ∀ k, (s.content.drop s.scanPos).take (k - s.scanPos) = rest.take (k - s.scanPos) := by
    intro k
    rw [hcontent, hpos, List.drop_left]
  have hemit : ∀ k, Ledger E fmt (parts ++ [.kept (rest.take (k - s.scanPos))]) (s.emitTo k) :=
    fun k => ledger.emit (by rw [← hdrop]; rfl) rfl
  have hsplit : ∀ k, T = partsText (parts ++ [.kept (rest.take (k - s.scanPos))]) ++
      rest.drop (k - s.scanPos) := by
    intro k
    rw [partsText_append, List.append_assoc, TextPart.text, List.take_append_drop, htext]
  have hkept : ∀ k, s.scanPos ≤ k → s.content.take k =
      partsKept (parts ++ [.kept (rest.take (k - s.scanPos))]) := by
    intro k hk
    rw [partsKept_append, hcontent, List.take_append, List.take_of_length_le (by omega), hpos]
    rfl
  have hrest : ∀ k, s.scanPos ≤ k → s.content.drop k = rest.drop (k - s.scanPos) := by
    intro k hk
    rw [hcontent, List.drop_append, List.drop_of_length_le (by omega), List.nil_append, hpos]
  obtain ⟨k, hk, -, hturn⟩ | ⟨k, hk, -, hturn⟩ | ⟨-, -, hturn⟩ := @contentTurn_cases fmt s hle
  · have hpk := (findMarker_eq_some.1 hk).1
    rw [hturn]
    refine ⟨_, .inside ((hemit k).same rfl rfl) hs rfl ?_ (hkept k hpk)⟩
    rw [hsplit k, ← hrest k hpk]
    change _ = _ ++ (s.buf ++ s.content.drop k)
    rw [hbuf, List.nil_append]
  · obtain ⟨hpk, ⟨w, hw, hne, hocc⟩, -⟩ := findMarker_eq_some.1 hk
    rw [hturn]
    refine ⟨_, .stopped ((hemit k).same rfl rfl) rfl _ (hsplit k) ⟨w, hw, hne, .inl ?_⟩ (hkept k hpk)⟩
    rw [← hrest k hpk]
    exact hocc.2
  · have hpe := scanPos_le_emitEnd fmt s
    have he : s.emitEnd fmt ≤ s.content.length := max_le (Nat.sub_le _ _) hle
    rw [hturn]
    refine ⟨_, .outside ((hemit _).same rfl rfl) hs hin hbuf _ (hsplit (s.emitEnd fmt)) ?_ ?_⟩
    · rw [← hkept _ hpe, ← hrest _ hpe, List.take_append_drop]
      rfl
    · rw [← hkept _ hpe, List.length_take, min_eq_left he]
      rfl

theorem callTurn_sorted (hs : s.suppressed = false) (hin : s.inCall = true)
    (ledger : Ledger E fmt parts s) (htext : T = partsText parts ++ s.buf)
    (hcontent : s.content = partsKept parts)
    (hclosed : (s.callTurn E fmt).scanner.unparsed = s.unparsed) :
    ∃ parts', Sorted E fmt T parts' (s.callTurn E fmt).scanner := by
  obtain ⟨-, hturn⟩ | ⟨close, k, hc, hk, hturn⟩ | ⟨close, -, -, hturn⟩ := callTurn_cases E fmt s
  · rw [hturn]
    exact ⟨parts, .inside ledger hs hin htext hcontent⟩
  · have hmark := (findMarker_eq_some.1 hk).2.1
    rw [hc] at hmark
    have hcalls : blockCalls E fmt (s.buf.take k) ≠ [] := by
      intro hnil
      have hone : s.unparsed + (if blockCalls E fmt (s.buf.take k) = [] then 1 else 0) = s.unparsed := by
        rw [hturn] at hclosed
        exact hclosed
      rw [if_pos hnil] at hone
      omega
    have hblock : s.buf.take (k + close.length) = s.buf.take k ++ close := by
      rw [List.take_add, ← List.prefix_iff_eq_take.1 hmark.occursAt.2]
    have hend : s.endCall E fmt k close.length =
        { s with
          content := s.content ++ s.buf.drop (k + close.length), inCall := false, buf := [],
          scanPos := s.content.length, closeScan := 0,
          calls := s.calls ++ blockCalls E fmt (s.buf.take k), unparsed := s.unparsed + 0 } := by
      rw [endCall, if_neg hcalls, if_neg hcalls]
    rw [hturn, hend]
    have hrecord := RecordedBlock.closed (E := E) hc hcalls
    refine ⟨_, .outside (ledger.record hrecord rfl rfl) hs rfl rfl (s.buf.drop (k + close.length)) ?_ ?_ ?_⟩
    · rw [partsText_append, TextPart.text, ← hblock, List.append_assoc, List.take_append_drop, htext]
    · rw [partsKept_append, TextPart.keptText, List.append_nil, ← hcontent]
      rfl
    · rw [partsKept_append, TextPart.keptText, List.append_nil, ← hcontent]
      rfl
  · rw [hturn]
    exact ⟨parts, .inside (ledger.same rfl rfl) hs hin htext hcontent⟩

theorem unparsed_contentTurn (fmt : MarkerPair) (s : ToolScanner) :
    (s.contentTurn fmt).scanner.unparsed = s.unparsed := by
  rw [contentTurn]
  split_ifs
  · rfl
  · cases findMarker s.content s.scanPos (some fmt.opening) <;>
      cases findMarker s.content s.scanPos fmt.stop <;> dsimp only
    · rfl
    · rfl
    · rfl
    · split_ifs <;> rfl

theorem unparsed_callTurn (E : ToolEnv) (fmt : MarkerPair) (s : ToolScanner) :
    s.unparsed ≤ (s.callTurn E fmt).scanner.unparsed := by
  obtain ⟨-, hturn⟩ | ⟨close, k, -, -, hturn⟩ | ⟨close, -, -, hturn⟩ := callTurn_cases E fmt s
  · rw [hturn]
    exact Nat.le_refl _
  · rw [hturn]
    exact Nat.le_add_right _ _
  · rw [hturn]
    exact Nat.le_refl _

/-- As long as every closed block parses, the scanner has its text sorted into parts. -/
def Sound (E : ToolEnv) (fmt : MarkerPair) (T : Text) (s : ToolScanner) : Prop :=
  s.unparsed = 0 → ∃ parts, Sorted E fmt T parts s

theorem Sound.turn (hne : fmt.opening ≠ []) (h : Sound E fmt T s) :
    Sound E fmt T (s.turn E fmt).scanner := by
  cases hs : s.suppressed with
  | true =>
    rw [turn_suppressed hs]
    exact h
  | false =>
    cases hin : s.inCall with
    | true =>
      rw [turn_call hs hin]
      intro hzero
      have hle := unparsed_callTurn E fmt s
      obtain ⟨parts, hsorted⟩ := h (by omega)
      cases hsorted with
      | outside _ _ hin' =>
        rw [hin'] at hin
        cases hin
      | inside ledger _ _ htext hcontent =>
        exact callTurn_sorted hs hin ledger htext hcontent (by omega)
      | stopped _ hs' =>
        rw [hs'] at hs
        cases hs
    | false =>
      rw [turn_content hne hs hin]
      intro hzero
      obtain ⟨parts, hsorted⟩ := h (by rwa [unparsed_contentTurn] at hzero)
      cases hsorted with
      | outside ledger _ _ hbuf rest htext hcontent hpos =>
        exact contentTurn_sorted hs hin hbuf ledger rest htext hcontent hpos
      | inside _ _ hin' =>
        rw [hin'] at hin
        cases hin
      | stopped _ hs' =>
        rw [hs'] at hs
        cases hs

theorem Sound.advanceLoop (hne : fmt.opening ≠ []) (h : Sound E fmt T s) (n : ℕ) :
    Sound E fmt T (s.advanceLoop E fmt n) := by
  induction n generalizing s with
  | zero => exact h
  | succ n ih =>
    have hturn := h.turn (E := E) hne
    cases hcase : s.turn E fmt with
    | next s' =>
      rw [hcase] at hturn
      rw [(advanceLoop_next hcase).1]
      exact ih hturn
    | done s' =>
      rw [hcase] at hturn
      rwa [(advanceLoop_done hcase).1]

theorem Sound.push (h : Sound E fmt T s) (y : Text) : Sound E fmt (T ++ y) (s.push y) := by
  intro hzero
  obtain ⟨parts, hsorted⟩ := h (by
    rw [ToolScanner.push] at hzero
    split_ifs at hzero <;> exact hzero)
  refine ⟨parts, ?_⟩
  cases hsorted with
  | outside ledger hs hin hbuf rest htext hcontent hpos =>
    rw [push_content hs hin]
    refine .outside (ledger.same rfl rfl) hs hin hbuf (rest ++ y) ?_ ?_ hpos
    · rw [htext, List.append_assoc]
    · rw [withContent, hcontent, List.append_assoc]
  | inside ledger hs hin htext hcontent =>
    rw [push_call hs hin]
    refine .inside (ledger.same rfl rfl) hs hin ?_ hcontent
    rw [htext, withBuf, List.append_assoc]
  | stopped ledger hs rest htext hdrop hcontent =>
    rw [push_suppressed hs]
    refine .stopped ledger hs (rest ++ y) ?_ ?_ hcontent
    · rw [htext, List.append_assoc]
    · obtain ⟨stop, hstop, hne, hpre | ⟨before, t, calls, k, hparts, hk, hocc⟩⟩ := hdrop
      · exact ⟨stop, hstop, hne, .inl (hpre.trans (List.prefix_append _ _))⟩
      · refine ⟨stop, hstop, hne, .inr ⟨before, t, calls, k, hparts, hk, ?_⟩⟩
        rw [← List.append_assoc]
        exact hocc.append y

theorem sound_foldl (hne : fmt.opening ≠ []) (pieces : List Text) (h : Sound E fmt T s) :
    Sound E fmt (T ++ pieces.flatten) (pieces.foldl (onPiece E fmt) s) := by
  induction pieces generalizing T s with
  | nil =>
    rw [List.flatten_nil, List.append_nil]
    exact h
  | cons x pieces ih =>
    rw [List.flatten_cons, ← List.append_assoc, List.foldl_cons, onPiece_eq]
    exact ih ((h.push x).advanceLoop hne 8192)

end ToolScanner

/-! The scanner of bare JSON calls: what it has read lies in parts, as long as the objects without
a name are flat. -/

theorem jsonParse_used_le {E : ToolEnv} {s : Text} {obj : Json} {used : ℕ}
    (h : jsonParseLenExCode E.tokener s = .parsed obj used) : used ≤ s.length := by
  rw [jsonParseLenExCode] at h
  split_ifs at h
  exact (E.used_le s obj used h).2

/-- An object without a name is passed over in one go. -/
theorem FlatObjects.free {E : ToolEnv} {fmt : MarkerPair} {T : Text} (hflat : FlatObjects E fmt T)
    {i used : ℕ} {obj : Json} (hobj : jsonParseLenExCode E.tokener (T.drop i) = .parsed obj used)
    (hname : obj.getStr (ascii "name") = none) {j : ℕ} (hij : i < j) (hj : j < i + used) :
    T[j]? ≠ some 123 ∧ ¬MarkAt fmt.stop T j := by
  have hused := jsonParse_used_le hobj
  rw [List.length_drop] at hused
  have hsub : T.drop i <:+: T := (List.drop_suffix i T).isInfix
  obtain ⟨hbrace, hstop⟩ := hflat _ obj used hsub hobj hname (j - i) (by omega) (by omega)
  rw [List.getElem?_drop, show i + (j - i) = j by omega] at hbrace
  refine ⟨hbrace, fun ⟨stop, hs, hne, hocc⟩ => hstop ⟨stop, hs, hne, ?_⟩⟩
  rw [OccursAt.drop_iff (by omega), show i + (j - i) = j by omega]
  exact hocc

namespace ToolScanner

variable {E : ToolEnv} {fmt : MarkerPair} {s s' : ToolScanner} {T : Text} {parts : List TextPart}

/-- Everything up to `scan_pos` is in the parts. -/
structure Reading (E : ToolEnv) (fmt : MarkerPair) (T : Text) (parts : List TextPart)
    (s : ToolScanner) : Prop where
  ledger : Ledger E fmt parts s
  running : s.suppressed = false
  outside : s.inCall = false
  content : s.content = T
  pos_le : s.scanPos ≤ T.length
  text : partsText parts = T.take s.scanPos

theorem Reading.emitTo (h : Reading E fmt T parts s) {k : ℕ} (hk : s.scanPos ≤ k) (hle : k ≤ T.length) :
    Reading E fmt T (parts ++ [.kept ((T.drop s.scanPos).take (k - s.scanPos))]) (s.emitTo k) := by
  refine ⟨h.ledger.emit (by rw [← h.content]; rfl) rfl, h.running, h.outside, h.content, hle, ?_⟩
  rw [partsText_append, h.text, TextPart.text, ← List.take_add, show s.scanPos + (k - s.scanPos) = k by omega]
  rfl

theorem Reading.same (h : Reading E fmt T parts s) (hsent : s'.sent = s.sent) (hcalls : s'.calls = s.calls)
    (hs : s'.suppressed = s.suppressed) (hin : s'.inCall = s.inCall) (hcontent : s'.content = s.content)
    (hpos : s'.scanPos = s.scanPos) : Reading E fmt T parts s' :=
  ⟨h.ledger.same hsent hcalls, hs.trans h.running, hin.trans h.outside, hcontent.trans h.content,
    hpos ▸ h.pos_le, hpos ▸ h.text⟩

/-- A stop marker has been reached. -/
structure Stopped (E : ToolEnv) (fmt : MarkerPair) (T : Text) (parts : List TextPart)
    (s : ToolScanner) : Prop where
  ledger : Ledger E fmt parts s
  stopped : s.suppressed = true
  outside : s.inCall = false
  text : ∃ rest, T = partsText parts ++ rest ∧ Dropped fmt parts rest
  content : s.calls = [] → s.content = partsKept parts
  pos : s.content.length ≤ s.scanPos

/-- Without a call nothing is taken out of the text. -/
theorem Ledger.text_eq_kept (h : Ledger E fmt parts s) (hcalls : s.calls = []) :
    partsText parts = partsKept parts := by
  have hkept : ∀ p ∈ parts, p.text = p.keptText := by
    intro p hp
    cases p with
    | kept t => rfl
    | block t calls =>
      have hnil : calls = [] := by
        have hall := h.calls.symm.trans hcalls
        exact (List.flatMap_eq_nil_iff.1 hall) _ hp
      have hblock := h.blocks t calls hp
      cases hblock with
      | closed _ hne => exact absurd hnil hne
      | leftOpen _ => cases hnil
      | bare _ _ _ => cases hnil
  exact List.flatMap_congr hkept

/-- The stop marker at `k` ends the text. -/
theorem Reading.stop (h : Reading E fmt T parts s) {k : ℕ} (hk : s.scanPos ≤ k)
    (hmark : MarkAt fmt.stop T k) : ∃ parts', Stopped E fmt T parts' (s.suppressTruncate k) := by
  have hemit := h.emitTo hk (Nat.le_of_lt hmark.lt_length)
  obtain ⟨stop, hstop, hne, hocc⟩ := hmark
  refine ⟨_, hemit.ledger.same rfl rfl, rfl, h.outside, ⟨T.drop k, ?_, stop, hstop, hne, .inl hocc.2⟩, ?_, ?_⟩
  · rw [hemit.text]
    exact (List.take_append_drop k T).symm
  · intro hcalls
    rw [← hemit.ledger.text_eq_kept hcalls, hemit.text, suppressTruncate, h.content]
    rfl
  · exact List.length_take_le k s.content

theorem autoObject_spec (E : ToolEnv) (s : ToolScanner) (i : ℕ) :
    (∃ n m, (s.autoObject E i).1 = { s with autoDeadI := n, autoDeadN := m }) ∧
      ∀ obj used, (s.autoObject E i).2 = some (obj, used) →
        jsonParseLenExCode E.tokener (s.content.drop i) = .parsed obj used := by
  rw [autoObject]
  split_ifs
  · cases h : jsonParseLenExCode E.tokener (s.content.drop i) with
    | parsed obj used =>
      refine ⟨⟨_, _, rfl⟩, fun obj' used' h' => ?_⟩
      obtain ⟨rfl, rfl⟩ := Prod.mk.inj (Option.some.inj h')
      rfl
    | more => exact ⟨⟨_, _, rfl⟩, fun _ _ h' => by cases h'⟩
    | error => exact ⟨⟨_, _, rfl⟩, fun _ _ h' => by cases h'⟩
  · exact ⟨⟨_, _, rfl⟩, fun _ _ h' => by cases h'⟩

/-- How the loop over the braces ends. -/
def LoopEnd (E : ToolEnv) (fmt : MarkerPair) (T : Text) (kStop : Option ℕ) : ScanTurn → Prop
  | .done s => (∃ parts, Reading E fmt T parts s) ∨ ∃ parts, Stopped E fmt T parts s
  | .next s => (∃ parts, Reading E fmt T parts s) ∧ ∀ k, kStop = some k → s.scanPos ≤ k

/-- An object with a name becomes a call. -/
theorem Reading.record (h : Reading E fmt T parts s) (hopen : fmt.opening = []) {i used : ℕ}
    {obj : Json} {name : Text} (hi : s.scanPos ≤ i) (hused : i + used ≤ T.length)
    (hobj : jsonParseLenExCode E.tokener (T.drop i) = .parsed obj used)
    (hname : obj.getStr (ascii "name") = some name) :
    Reading E fmt T
      (parts ++ [.kept ((T.drop s.scanPos).take (i - s.scanPos))] ++
        [.block ((T.drop i).take used) [callOf E name (jsonArgsOf E obj)]])
      { s.emitTo i with
        calls := s.calls ++ [callOf E name (jsonArgsOf E obj)], scanPos := i + used } := by
  have hemit := h.emitTo hi (by omega)
  have hlen : ((T.drop i).take used).length = used := by
    rw [List.length_take, List.length_drop]
    omega
  have hobj' : jsonParseLenExCode E.tokener ((T.drop i).take used ++ (T.drop i).drop used) =
      .parsed obj ((T.drop i).take used).length := by
    rw [List.take_append_drop, hlen, hobj]
  refine ⟨hemit.ledger.record (.bare hopen hobj' hname) rfl rfl, h.running, h.outside, h.content, hused, ?_⟩
  rw [partsText_append, hemit.text, TextPart.text, List.take_add]
  rfl

/-- The stop marker at `k` begins in the call just recorded, or right after it. -/
theorem Reading.stopInBlock {i used : ℕ} {calls : List ToolCall}
    (h : Reading E fmt T (parts ++ [.block ((T.drop i).take used) calls]) s) {k : ℕ}
    (hpos : s.scanPos = i + used) (hk : k ≤ i + used) (hik : i ≤ k)
    (hne : calls ≠ []) (hmark : MarkAt fmt.stop T k) :
    Stopped E fmt T (parts ++ [.block ((T.drop i).take used) calls]) (s.suppressTruncate k) := by
  have hle := hpos ▸ h.pos_le
  have hnone : (s.content.drop s.scanPos).take (k - s.scanPos) = [] := by
    rw [show k - s.scanPos = 0 by omega, List.take_zero]
  have hsent : (s.suppressTruncate k).sent = s.sent := by
    change s.sent ++ _ = s.sent
    rw [hnone, List.append_nil]
  obtain ⟨stop, hstop, hwne, hocc⟩ := hmark
  refine ⟨h.ledger.same hsent rfl, rfl, h.outside, ⟨T.drop (i + used), ?_, stop, hstop, hwne,
    .inr ⟨parts, _, calls, k - i, rfl, ?_, ?_⟩⟩, fun hcalls => ?_, List.length_take_le k s.content⟩
  · rw [h.text, hpos, List.take_append_drop]
  · rw [List.length_take, List.length_drop]
    omega
  · rw [← List.drop_drop, List.take_append_drop, OccursAt.drop_iff (by omega),
      show i + (k - i) = k by omega]
    exact hocc
  · have hall := h.ledger.calls.symm.trans hcalls
    rw [partsCalls_append, List.append_eq_nil_iff] at hall
    exact absurd hall.2 hne

theorem autoLoop_end (hopen : fmt.opening = []) (hflat : FlatObjects E fmt T) {kStop : Option ℕ}
    (closable : Bool) (n i : ℕ) (h : Reading E fmt T parts s) (hend : i + n ≤ T.length)
    (hstop : ∀ k, kStop = some k → MarkAt fmt.stop T k ∧ i + n = k ∧ s.scanPos ≤ k)
    (hfree : ∀ j, i ≤ j → j < s.scanPos → T[j]? ≠ some 123) :
    LoopEnd E fmt T kStop (s.autoLoop E kStop closable n i) := by
  induction n generalizing i s parts with
  | zero => exact ⟨⟨parts, h⟩, fun k hk => (hstop k hk).2.2⟩
  | succ n ih =>
    rw [autoLoop, h.content]
    by_cases hbrace : T[i]? = some 123
    · have hi : s.scanPos ≤ i := Nat.le_of_not_lt fun hlt => hfree i (Nat.le_refl i) hlt hbrace
      rw [if_neg (not_not.2 hbrace)]
      split_ifs with hclosable
      · exact .inl ⟨_, h.emitTo hi (by omega)⟩
      · obtain ⟨⟨di, dn, hsame⟩, hobject⟩ := autoObject_spec E s i
        cases hres : s.autoObject E i with
        | mk s₁ found =>
          rw [hres] at hsame hobject
          obtain rfl : s₁ = { s with autoDeadI := di, autoDeadN := dn } := hsame
          have h₁ : Reading E fmt T parts { s with autoDeadI := di, autoDeadN := dn } :=
            h.same rfl rfl rfl rfl rfl rfl
          cases found with
          | none => exact .inl ⟨_, h₁.emitTo hi (by omega)⟩
          | some found =>
            obtain ⟨obj, used⟩ := found
            have hobj := hobject obj used rfl
            rw [h.content] at hobj
            have hused := jsonParse_used_le hobj
            rw [List.length_drop] at hused
            cases hname : obj.getStr (ascii "name") with
            | none =>
              simp only [hname]
              have hfree' : ∀ j, i < j → j < i + used → T[j]? ≠ some 123 ∧ ¬MarkAt fmt.stop T j :=
                fun j hij hj => hflat.free hobj hname hij hj
              refine ih (i + 1) (h₁.emitTo (Nat.le_trans hi (Nat.le_add_right i used)) (by omega))
                (by omega) (fun k hk => ?_) fun j hij hj => (hfree' j hij hj).1
              obtain ⟨hmark, hik, -⟩ := hstop k hk
              exact ⟨hmark, by omega, Nat.le_of_not_lt fun hlt => (hfree' k (by omega) hlt).2 hmark⟩
            | some name =>
              simp only [hname]
              have hrec := h₁.record hopen hi (by omega) hobj hname
              cases kStop with
              | none => exact ⟨⟨_, hrec⟩, fun _ hk => by cases hk⟩
              | some k =>
                obtain ⟨hmark, hik, -⟩ := hstop k rfl
                by_cases hle : k ≤ i + used
                · simp only [if_pos hle]
                  exact .inr ⟨_, hrec.stopInBlock rfl hle (by omega) (List.cons_ne_nil _ _) hmark⟩
                · simp only [if_neg hle]
                  exact ⟨⟨_, hrec⟩, fun k' hk' => by
                    obtain rfl := Option.some.inj hk'
                    exact Nat.le_of_not_le hle⟩
    · rw [if_pos hbrace]
      exact ih (i + 1) h (by omega) (fun k hk => ⟨(hstop k hk).1, by have := (hstop k hk).2.1; omega, (hstop k hk).2.2⟩)
        fun j hj => hfree j (by omega)

/-- Where the search for the stop marker begins, it does not begin before `scan_pos`. -/
theorem autoStop_eq (fmt : MarkerPair) (s : ToolScanner) :
    ∃ start, s.scanPos ≤ start ∧ s.autoStop fmt = findMarker s.content start fmt.stop := by
  rw [autoStop]
  dsimp only
  split
  · refine ⟨_, ?_, rfl⟩
    generalize (if (fmt.stop.getD []).length - 1 < s.autoStopEnd then _ else 0) = resume
    split_ifs with hlt
    · exact Nat.le_of_lt hlt
    · exact Nat.le_refl _
  · exact ⟨_, Nat.le_refl _, rfl⟩

theorem autoStop_spec {k : ℕ} (h : s.autoStop fmt = some k) :
    s.scanPos ≤ k ∧ MarkAt fmt.stop s.content k := by
  obtain ⟨start, hle, heq⟩ := autoStop_eq fmt s
  obtain ⟨hk, hmark, -⟩ := findMarker_eq_some.1 (heq.symm.trans h)
  exact ⟨hle.trans hk, hmark⟩

/-- The scanner of bare calls after the text `T`. -/
def BareSorted (E : ToolEnv) (fmt : MarkerPair) (T : Text) (s : ToolScanner) : Prop :=
  (∃ parts, Reading E fmt T parts s) ∨ ∃ parts, Stopped E fmt T parts s

theorem Reading.autoTurn (hopen : fmt.opening = []) (hflat : FlatObjects E fmt T)
    (h : Reading E fmt T parts s) : BareSorted E fmt T (s.autoTurn E fmt) := by
  have hle : ¬s.content.length < s.scanPos := by
    rw [h.content]
    exact Nat.not_lt.2 h.pos_le
  have hmark : ∀ k, s.autoStop fmt = some k → s.scanPos ≤ k ∧ MarkAt fmt.stop T k := by
    intro k hk
    rw [← h.content]
    exact autoStop_spec hk
  have h₀ : Reading E fmt T parts { s with
      autoStopEnd := s.content.length, autoStopFound := (s.autoStop fmt).isSome } :=
    h.same rfl rfl rfl rfl rfl rfl
  rw [ToolScanner.autoTurn, if_neg hle]
  dsimp only
  generalize s.autoStop fmt = kStop at hmark h₀ ⊢
  have hend : s.scanPos ≤ kStop.getD s.content.length ∧ kStop.getD s.content.length ≤ T.length := by
    cases kStop with
    | none =>
      rw [Option.getD_none, h.content]
      exact ⟨h.pos_le, Nat.le_refl _⟩
    | some k => exact ⟨(hmark k rfl).1, Nat.le_of_lt (hmark k rfl).2.lt_length⟩
  have hloop := autoLoop_end hopen hflat s.tailClosable (kStop.getD s.content.length - s.scanPos) s.scanPos h₀ (by omega)
    (fun k hk => ⟨(hmark k hk).2, by subst hk; have := hend.1; rw [Option.getD_some] at this ⊢; omega,
      (hmark k hk).1⟩)
    fun j hj hlt => absurd hj (Nat.not_le.2 hlt)
  revert hloop
  generalize autoLoop E kStop _ _ _ _ = result
  intro hloop
  cases result with
  | done s' => exact hloop
  | next s' =>
    obtain ⟨⟨parts', h'⟩, hk'⟩ := hloop
    cases kStop with
    | none =>
      have hlen : s.content.length = T.length := by rw [h.content]
      exact .inl ⟨_, h'.emitTo (hlen ▸ h'.pos_le) (Nat.le_of_eq hlen)⟩
    | some k => exact .inr (h'.stop (hk' k rfl) (hmark k rfl).2)

theorem turn_bare (hopen : fmt.opening = []) (hs : s.suppressed = false) (hin : s.inCall = false) :
    s.turn E fmt = .done (s.autoTurn E fmt) := by
  rw [turn, if_neg (by rw [hs]; exact Bool.false_ne_true), if_pos ⟨hopen, hin⟩]

theorem Reading.advance (hopen : fmt.opening = []) (hflat : FlatObjects E fmt T)
    (h : Reading E fmt T parts s) : BareSorted E fmt T (s.advance E fmt) := by
  rw [show s.advance E fmt = s.autoTurn E fmt from
    (advanceLoop_done (turn_bare hopen h.running h.outside)).1]
  exact h.autoTurn hopen hflat

theorem BareSorted.push (h : BareSorted E fmt T s) (y : Text) :
    BareSorted E fmt (T ++ y) (s.push y) := by
  obtain ⟨parts, h⟩ | ⟨parts, h⟩ := h
  · refine .inl ⟨parts, ?_⟩
    rw [push_content h.running h.outside]
    refine ⟨h.ledger.same rfl rfl, h.running, h.outside, by rw [withContent, h.content], ?_, ?_⟩
    · exact h.pos_le.trans (by rw [List.length_append]; exact Nat.le_add_right _ _)
    · rw [h.text]
      exact (List.take_append_of_le_length h.pos_le).symm
  · refine .inr ⟨parts, ?_⟩
    rw [push_suppressed h.stopped]
    obtain ⟨rest, htext, stop, hstop, hne, hpre | ⟨before, t, calls, k, hparts, hk, hocc⟩⟩ := h.text
    all_goals
      refine ⟨h.ledger, h.stopped, h.outside, ⟨rest ++ y, ?_, stop, hstop, hne, ?_⟩, h.content, h.pos⟩
    · rw [htext, List.append_assoc]
    · exact .inl (hpre.trans (List.prefix_append _ _))
    · rw [htext, List.append_assoc]
    · refine .inr ⟨before, t, calls, k, hparts, hk, ?_⟩
      rw [← List.append_assoc]
      exact hocc.append y

theorem bareSorted_onPiece (hopen : fmt.opening = []) {y : Text} (hflat : FlatObjects E fmt (T ++ y))
    (h : BareSorted E fmt T s) : BareSorted E fmt (T ++ y) (s.onPiece E fmt y) := by
  rw [onPiece_eq]
  obtain ⟨parts, h⟩ | ⟨parts, h⟩ := h.push y
  · exact h.advance hopen hflat
  · rw [show (s.push y).advance E fmt = s.push y from (advanceLoop_done (turn_suppressed h.stopped)).1]
    exact .inr ⟨parts, h⟩

theorem flatObjects_mono {T' : Text} (h : FlatObjects E fmt T) (hsub : T' <:+: T) :
    FlatObjects E fmt T' :=
  fun s obj used hs => h s obj used (hs.trans hsub)

theorem bareSorted_foldl (hopen : fmt.opening = []) (pieces : List Text)
    (hflat : FlatObjects E fmt (T ++ pieces.flatten)) (h : BareSorted E fmt T s) :
    BareSorted E fmt (T ++ pieces.flatten) (pieces.foldl (onPiece E fmt) s) := by
  induction pieces generalizing T s with
  | nil =>
    rw [List.flatten_nil, List.append_nil]
    exact h
  | cons x pieces ih =>
    rw [List.flatten_cons, ← List.append_assoc] at hflat ⊢
    exact ih hflat (bareSorted_onPiece hopen (flatObjects_mono hflat (List.prefix_append _ _).isInfix) h)

theorem bareSorted_new (E : ToolEnv) (fmt : MarkerPair) : BareSorted E fmt [] new :=
  .inl ⟨[], ⟨(fun _ _ h => by cases h), rfl, rfl⟩, rfl, rfl, rfl, Nat.le_refl 0, rfl⟩

theorem finish_bare (hopen : fmt.opening = []) (hs : s.suppressed = false) (hin : s.inCall = false)
    (hle : s.scanPos ≤ s.content.length) :
    s.finish E fmt = if s.scanPos < s.content.length then
      sendRest { advance E fmt { s with forceJsonAttempt := true } with forceJsonAttempt := false }
      else s := by
  have hclose : s.closeOpenCall E fmt = s := by
    rw [closeOpenCall, if_neg fun h => by rw [hin] at h; cases h.1]
  rw [finish, if_neg (by rw [hs]; exact Bool.false_ne_true), hclose]
  dsimp only
  rw [if_neg (by rw [hin]; exact Bool.false_ne_true), min_eq_left hle]
  by_cases hlt : s.scanPos < s.content.length
  · rw [if_pos ⟨hopen, hlt⟩, if_pos hlt]
  · rw [if_neg fun h => hlt h.2, if_neg hlt, sendRest, if_neg hlt]

/-- What is left of the content goes out at the end. -/
theorem Reading.sendRest (h : Reading E fmt T parts s) :
    ∃ parts', Reading E fmt T parts' s.sendRest ∧ partsText parts' = T := by
  rw [ToolScanner.sendRest]
  split_ifs with hlt
  · rw [h.content] at hlt ⊢
    have hrest := h.emitTo h.pos_le (Nat.le_refl _)
    refine ⟨_, hrest, ?_⟩
    rw [hrest.text]
    exact List.take_length
  · rw [h.content] at hlt
    exact ⟨parts, h, by rw [h.text, List.take_of_length_le (Nat.le_of_not_lt hlt)]⟩

end ToolScanner

/-! The outcome of a text of bare calls, part by part. -/

variable {E : ToolEnv} {fmt : MarkerPair}

theorem jsonParse_bounds {s : Text} {obj : Json} {used : ℕ}
    (h : jsonParseLenExCode E.tokener s = .parsed obj used) : 0 < used ∧ used ≤ s.length := by
  rw [jsonParseLenExCode] at h
  split_ifs at h
  exact E.used_le s obj used h

/-- An object is the same when more text follows it. -/
theorem jsonParse_append {s y : Text} {obj : Json} {used : ℕ}
    (h : jsonParseLenExCode E.tokener s = .parsed obj used) (hsize : (s ++ y).length ≤ 2147483647) :
    jsonParseLenExCode E.tokener (s ++ y) = .parsed obj used := by
  rw [jsonParseLenExCode] at h ⊢
  split_ifs at h
  rw [if_neg (Nat.not_lt.2 hsize)]
  exact E.parsed_append s obj used y h

theorem BareOutcome.after_after (calls calls' : List ToolCall) (content content' sent sent' : Text)
    (o : BareOutcome) : (o.after calls' content' sent').after calls content sent =
      o.after (calls ++ calls') (content ++ content') (sent ++ sent') := by
  simp only [BareOutcome.after, List.append_assoc]

section Scan

theorem bareStep_congr {f g : Text → BareOutcome} {b : UInt8} {r : Text}
    (h : ∀ t, t.length ≤ r.length → f t = g t) : bareStep E fmt f b r = bareStep E fmt g b r := by
  have hr : f r = g r := h r (Nat.le_refl _)
  rw [bareStep, bareStep, hr]
  cases hparse : jsonParseLenExCode E.tokener (b :: r) with
  | parsed obj used =>
    have hdrop : f ((b :: r).drop used) = g ((b :: r).drop used) := by
      refine h _ ?_
      have := (jsonParse_bounds hparse).1
      rw [List.length_drop, List.length_cons]
      omega
    simp only [hdrop]
  | more => rfl
  | error => rfl

theorem bareScan_fuel {n : ℕ} {r : Text} (h : r.length ≤ n) :
    bareScan E fmt (n + 1) r = bareScan E fmt n r := by
  induction n generalizing r with
  | zero =>
    obtain rfl := List.eq_nil_of_length_eq_zero (Nat.le_zero.1 h)
    rfl
  | succ n ih =>
    cases r with
    | nil => rfl
    | cons b r =>
      rw [bareScan, bareScan]
      exact bareStep_congr fun t ht => ih (ht.trans (Nat.le_of_succ_le_succ h))

theorem bareScan_eq {n : ℕ} {r : Text} (h : r.length ≤ n) : bareScan E fmt n r = bareOutcome E fmt r := by
  induction n with
  | zero =>
    obtain rfl := List.eq_nil_of_length_eq_zero (Nat.le_zero.1 h)
    rfl
  | succ n ih =>
    rcases Nat.lt_or_eq_of_le h with hlt | heq
    · rw [bareScan_fuel (Nat.le_of_lt_succ hlt), ih (Nat.le_of_lt_succ hlt)]
    · rw [bareOutcome, heq]

theorem bareOutcome_cons (b : UInt8) (r : Text) :
    bareOutcome E fmt (b :: r) = bareStep E fmt (bareOutcome E fmt) b r := by
  rw [bareOutcome, List.length_cons, bareScan]
  exact bareStep_congr fun t ht => bareScan_eq ht

theorem findMarker_ne_zero {marker : Option Text} {r : Text} (h : ¬MarkAt marker r 0) :
    findMarker r 0 marker ≠ some 0 :=
  fun hfind => h (findMarker_eq_some.1 hfind).2.1

theorem markAt_cons {marker : Option Text} {b : UInt8} {r : Text} {k : ℕ} :
    MarkAt marker (b :: r) (k + 1) ↔ MarkAt marker r k :=
  exists_congr fun _ => and_congr_right fun _ => and_congr_right fun _ => occursAt_succ

theorem markAt_append_left {marker : Option Text} {a r : Text} {k : ℕ} :
    MarkAt marker (a ++ r) (a.length + k) ↔ MarkAt marker r k := by
  induction a with
  | nil => rw [List.nil_append, List.length_nil, Nat.zero_add]
  | cons b a ih => rw [List.cons_append, List.length_cons, Nat.succ_add, markAt_cons, ih]

/-- Text without braces. -/
theorem bareOutcome_text {a r : Text} (hbrace : 123 ∉ a)
    (hstop : ∀ k < a.length, ¬MarkAt fmt.stop (a ++ r) k) :
    bareOutcome E fmt (a ++ r) = (bareOutcome E fmt r).after [] a a := by
  induction a with
  | nil => rfl
  | cons b a ih =>
    have hb : b ≠ 123 := fun h => hbrace (h ▸ List.mem_cons_self)
    have hrest := ih (fun h => hbrace (List.mem_cons_of_mem b h)) fun k hk hmark =>
      hstop (k + 1) (Nat.succ_lt_succ hk) (markAt_cons.2 hmark)
    have h0 : findMarker (b :: (a ++ r)) 0 fmt.stop ≠ some 0 :=
      findMarker_ne_zero (hstop 0 (Nat.succ_pos _))
    rw [List.cons_append, bareOutcome_cons, bareStep, if_neg h0, if_neg hb, hrest,
      BareOutcome.after_after]
    rfl

theorem bareOutcome_stop {r : Text} (h : findMarker r 0 fmt.stop = some 0) :
    bareOutcome E fmt r = ⟨[], [], []⟩ := by
  cases r with
  | nil => rfl
  | cons b r => rw [bareOutcome_cons, bareStep, if_pos h]

section Brace

variable {r : Text} (hhead : r.head? = some 123) (hstop : ¬MarkAt fmt.stop r 0)
include hhead hstop

theorem bareOutcome_brace : ∃ t, r = 123 :: t ∧
    bareOutcome E fmt r = bareStep E fmt (bareOutcome E fmt) 123 t ∧
      findMarker (123 :: t) 0 fmt.stop ≠ some 0 := by
  obtain ⟨t, rfl⟩ : ∃ t, r = 123 :: t := by
    cases r with
    | nil => cases hhead
    | cons b t => exact ⟨t, by rw [Option.some.inj hhead]⟩
  exact ⟨t, rfl, bareOutcome_cons 123 t, findMarker_ne_zero hstop⟩

theorem bareOutcome_object {obj : Json} {used : ℕ}
    (hobj : jsonParseLenExCode E.tokener r = .parsed obj used)
    (hname : obj.getStr (ascii "name") = none) :
    bareOutcome E fmt r = (bareOutcome E fmt (r.drop used)).after [] (r.take used) (r.take used) := by
  obtain ⟨t, rfl, hstep, hzero⟩ := bareOutcome_brace (E := E) hhead hstop
  rw [hstep, bareStep, if_neg hzero, if_pos rfl, hobj]
  simp only [hname]

theorem bareOutcome_call {obj : Json} {used : ℕ} {name : Text}
    (hobj : jsonParseLenExCode E.tokener r = .parsed obj used)
    (hname : obj.getStr (ascii "name") = some name) (hfree : ∀ k < used, ¬MarkAt fmt.stop r k) :
    bareOutcome E fmt r = (bareOutcome E fmt (r.drop used)).after
      [callOf E name (jsonArgsOf E obj)] (r.take used) [] := by
  obtain ⟨t, rfl, hstep, hzero⟩ := bareOutcome_brace (E := E) hhead hstop
  have hnone : (findMarker (123 :: t) 0 fmt.stop).filter (· < used) = none := by
    refine Option.filter_eq_none_iff.2 fun k hk hlt => ?_
    exact hfree k (of_decide_eq_true hlt) (findMarker_eq_some.1 hk).2.1
  rw [hstep, bareStep, if_neg hzero, if_pos rfl, hobj]
  simp only [hname, hnone]

theorem bareOutcome_callStop {obj : Json} {used k : ℕ} {name : Text}
    (hobj : jsonParseLenExCode E.tokener r = .parsed obj used)
    (hname : obj.getStr (ascii "name") = some name) (hk : findMarker r 0 fmt.stop = some k)
    (hlt : k < used) :
    bareOutcome E fmt r = ⟨[callOf E name (jsonArgsOf E obj)], r.take k, []⟩ := by
  obtain ⟨t, rfl, hstep, hzero⟩ := bareOutcome_brace (E := E) hhead hstop
  have hsome : (findMarker (123 :: t) 0 fmt.stop).filter (· < used) = some k := by
    rw [hk]
    exact if_pos (decide_eq_true hlt)
  rw [hstep, bareStep, if_neg hzero, if_pos rfl, hobj]
  simp only [hname, hsome]

theorem bareOutcome_more (hmore : jsonParseLenExCode E.tokener r = .more) :
    bareOutcome E fmt r = ⟨[], r, r⟩ := by
  obtain ⟨t, rfl, hstep, hzero⟩ := bareOutcome_brace (E := E) hhead hstop
  rw [hstep, bareStep, if_neg hzero, if_pos rfl, hmore]

/-- A brace that begins no object, with only text behind it. -/
theorem bareOutcome_error (herror : jsonParseLenExCode E.tokener r = .error) (hbrace : 123 ∉ r.tail)
    (hfree : ∀ k < r.length, ¬MarkAt fmt.stop r k) : bareOutcome E fmt r = ⟨[], r, r⟩ := by
  obtain ⟨t, rfl, hstep, hzero⟩ := bareOutcome_brace (E := E) hhead hstop
  have htext : bareOutcome E fmt t = (bareOutcome E fmt []).after [] t t := by
    have hall : bareOutcome E fmt (t ++ []) = _ := bareOutcome_text hbrace fun k hk hmark => by
      rw [List.append_nil] at hmark
      exact hfree (k + 1) (Nat.succ_lt_succ hk) (markAt_cons.2 hmark)
    rwa [List.append_nil] at hall
  rw [hstep, bareStep, if_neg hzero, if_pos rfl, herror]
  simp only [htext, BareOutcome.after_after]
  simp only [BareOutcome.after, bareOutcome, List.length_nil, bareScan, List.append_nil,
    List.singleton_append]

end Brace

section Growing

variable {r y : Text} (hhead : r.head? = some 123) (hstop : ¬MarkAt fmt.stop (r ++ y) 0)
  (hsize : (r ++ y).length ≤ 2147483647)
include hhead hstop hsize

omit hstop hsize in
theorem head?_append_of_some : (r ++ y).head? = some 123 := by
  cases r with
  | nil => cases hhead
  | cons b r => exact hhead

theorem bareOutcome_object_append {obj : Json} {used : ℕ}
    (hobj : jsonParseLenExCode E.tokener r = .parsed obj used)
    (hname : obj.getStr (ascii "name") = none) :
    bareOutcome E fmt (r ++ y) =
      (bareOutcome E fmt (r.drop used ++ y)).after [] (r.take used) (r.take used) := by
  have hused := (jsonParse_bounds hobj).2
  rw [bareOutcome_object (head?_append_of_some hhead) hstop (jsonParse_append hobj hsize) hname,
    List.drop_append_of_le_length hused, List.take_append_of_le_length hused]

theorem bareOutcome_call_append {obj : Json} {used : ℕ} {name : Text}
    (hobj : jsonParseLenExCode E.tokener r = .parsed obj used)
    (hname : obj.getStr (ascii "name") = some name)
    (hfree : ∀ k < used, ¬MarkAt fmt.stop (r ++ y) k) :
    bareOutcome E fmt (r ++ y) = (bareOutcome E fmt (r.drop used ++ y)).after
      [callOf E name (jsonArgsOf E obj)] (r.take used) [] := by
  have hused := (jsonParse_bounds hobj).2
  rw [bareOutcome_call (head?_append_of_some hhead) hstop (jsonParse_append hobj hsize) hname hfree,
    List.drop_append_of_le_length hused, List.take_append_of_le_length hused]

theorem bareOutcome_callStop_append {obj : Json} {used k : ℕ} {name : Text}
    (hobj : jsonParseLenExCode E.tokener r = .parsed obj used)
    (hname : obj.getStr (ascii "name") = some name) (hk : findMarker r 0 fmt.stop = some k)
    (hlt : k < used) :
    bareOutcome E fmt (r ++ y) = ⟨[callOf E name (jsonArgsOf E obj)], r.take k, []⟩ := by
  have hlen := (findMarker_eq_some.1 hk).2.1.lt_length
  rw [bareOutcome_callStop (head?_append_of_some hhead) hstop (jsonParse_append hobj hsize) hname
    (findMarker_append hk y) hlt, List.take_append_of_le_length (Nat.le_of_lt hlen)]

end Growing

end Scan

end Kappai
