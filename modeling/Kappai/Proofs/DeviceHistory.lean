import Kappai.Lib.Loop
import Kappai.Spec.DeviceHistory

/-! When the device penalises the tokens that the sampler has observed. The history counts as up to date
when as many tokens were observed as were appended since it was set, whichever they are. -/

namespace Kappai

variable {D : Type*} (B : DeviceDraws D)

namespace HistContext

variable (c : HistContext D)

/-- The history follows the tokens observed and reaches back as far as the penalty does. -/
def inStep : Bool :=
  c.clean && c.presampled.isNone && min c.samp.repeatLastN c.log.length ≤ c.hist.length

/-- Setting the history makes it follow the tokens observed: it can be set, no pick is waiting, and the
sampler has not forgotten tokens that the penalty reaches back to. -/
def settable (set : Bool) : Bool :=
  set && c.presampled.isNone &&
    (c.samp.repeatLastN ≤ c.samp.recent.length || c.log.length ≤ c.samp.recent.length)

/-- `context_sync_device_history` leaves a history alone that is in step, or can set it. -/
def syncs (set : Bool) : Bool := if c.upToDate then c.inStep else c.settable set

/-- The condition on a call that makes the device draw with a penalty. -/
def admits : HistEvent D → Bool
  | .loopPick (some _) => !(c.deviceSample && c.samp.penalises) || c.inStep
  | .loopPickReg (some _) _ => !(c.deviceSample && c.samp.penalises) || c.inStep
  | .sampleNext a =>
    !(c.presampled.isNone && !a.onHost && c.samp.deviceEligible B && c.samp.penalises) ||
      c.syncs a.set
  | .row set _ =>
    !(B.onDevice && c.samp.deviceEligible B && c.samp.penalises) || c.syncs set
  | _ => true

end HistContext

/-! ### The end of a list -/

section

variable {α : Type*} {l l' : List α} {n : ℕ}

theorem rtake_suffix (l : List α) (n : ℕ) : l.rtake n <:+ l := List.drop_suffix _ _

theorem length_rtake (l : List α) (n : ℕ) : (l.rtake n).length = min n l.length := by
  rw [List.rtake, List.length_drop]
  omega

/-- Two lists, one the end of the other, end the same as far as the shorter one goes. -/
theorem rtake_of_suffix (h : l <:+ l') (hn : min n l'.length ≤ l.length) : l.rtake n = l'.rtake n := by
  obtain ⟨t, rfl⟩ := h
  rw [List.length_append] at hn
  rw [List.rtake, List.rtake, List.length_append, List.drop_append]
  by_cases ht : n ≤ l.length
  · have hskip : t.drop (t.length + l.length - n) = [] := List.drop_of_length_le (by omega)
    rw [hskip, List.nil_append, show t.length + l.length - n - t.length = l.length - n by omega]
  · obtain rfl : t = [] := List.eq_nil_of_length_eq_zero (by omega)
    simp

end

namespace HistContext

/-- What holds in a run whose calls are all admitted. -/
structure Follows (c : HistContext D) : Prop where
  recent : c.samp.recent <:+ c.log
  hist : c.clean = true → c.hist <:+ c.log ++ c.presampled.toList
  penalised : ∀ p ∈ c.penalised, p.1 = p.2

variable {B} {c : HistContext D}

theorem Follows.observe_recent (h : c.Follows) (tok : Token) :
    (c.samp.observe tok).recent <:+ c.log ++ [tok] := by
  have hsuffix : (if c.samp.recentCapacity ≤ c.samp.recent.length then c.samp.recent.tail
      else c.samp.recent) <:+ c.log := by
    split_ifs
    · exact (List.tail_suffix _).trans h.recent
    · exact h.recent
  obtain ⟨t, ht⟩ := hsuffix
  exact ⟨t, by rw [← ht, List.append_assoc]; rfl⟩

theorem Follows.observeForeign (h : c.Follows) (tok : Token) : (c.observeForeign tok).Follows :=
  ⟨h.observe_recent tok, fun hclean => absurd hclean Bool.false_ne_true, h.penalised⟩

theorem inStep_iff : c.inStep = true ↔ c.clean = true ∧ c.presampled = none ∧
    min c.samp.repeatLastN c.log.length ≤ c.hist.length := by
  simp [inStep, and_assoc]

/-- A history that is set follows the tokens observed. -/
theorem Follows.sync (h : c.Follows) (set : Bool) : (c.syncDeviceHistory set).Follows := by
  unfold syncDeviceHistory
  split_ifs
  · exact h
  · refine ⟨h.recent, fun hclean => ?_, h.penalised⟩
    have hnone : c.presampled = none := Option.isNone_iff_eq_none.mp hclean
    change c.samp.recentWindow deviceSampleHistCap <:+ c.log ++ c.presampled.toList
    rw [hnone, Option.toList_none, List.append_nil]
    exact (rtake_suffix _ _).trans h.recent

theorem sync_fixes (set : Bool) : (c.syncDeviceHistory set).samp = c.samp ∧
    (c.syncDeviceHistory set).log = c.log ∧
    (c.syncDeviceHistory set).presampled = c.presampled := by
  unfold syncDeviceHistory
  split_ifs <;> exact ⟨rfl, rfl, rfl⟩

/-- The device can penalise as many tokens as its history holds. -/
theorem eligible_le (heligible : c.samp.deviceEligible B = true) (hpen : c.samp.penalises = true) :
    c.samp.repeatLastN ≤ deviceSampleHistCap := by
  unfold Sampler.deviceEligible at heligible
  rw [hpen] at heligible
  by_contra hlong
  simp [not_le.mp hlong] at heligible

theorem sync_inStep {set : Bool} (heligible : c.samp.deviceEligible B = true)
    (hpen : c.samp.penalises = true) (h : c.syncs set = true) :
    (c.syncDeviceHistory set).inStep = true := by
  unfold syncs at h
  unfold syncDeviceHistory
  rw [hpen]
  by_cases hup : c.upToDate = true
  · rw [if_pos hup] at h
    rw [hup]
    exact h
  · rw [if_neg hup] at h
    simp only [settable, Bool.and_eq_true, Bool.or_eq_true, decide_eq_true_eq] at h
    obtain ⟨⟨rfl, hnone⟩, hring⟩ := h
    rw [if_neg (by simpa using hup), inStep_iff]
    refine ⟨hnone, Option.isNone_iff_eq_none.mp hnone, ?_⟩
    have hcap := eligible_le heligible hpen
    change min c.samp.repeatLastN c.log.length ≤ (c.samp.recentWindow deviceSampleHistCap).length
    rw [Sampler.recentWindow, length_rtake]
    omega

/-- A pick from a history that is in step, if there is a penalty, penalises what it should; it is appended
where the sampler is to observe it. -/
theorem Follows.devicePick (h : c.Follows) {sample : Bool} (tok : Token)
    (hstep : sample = true → c.samp.penalises = true → c.inStep = true) :
    let c' := c.devicePick sample (some tok)
    c'.samp = c.samp ∧ c'.log = c.log ∧ c'.presampled = c.presampled ∧
      (c'.clean = true → c'.hist <:+ c.log ++ [tok] ∧ c.presampled = none) ∧
      ∀ p ∈ c'.penalised, p.1 = p.2 := by
  unfold HistContext.devicePick
  cases sample with
  | false => exact ⟨rfl, rfl, rfl, fun hclean => absurd hclean Bool.false_ne_true, h.penalised⟩
  | true =>
    simp only [if_true]
    refine ⟨trivial, trivial, trivial, fun hclean => ?_, fun p hp => ?_⟩
    · simp only [Bool.and_eq_true, Option.isNone_iff_eq_none] at hclean
      have hhist := h.hist hclean.1
      rw [hclean.2, Option.toList_none, List.append_nil] at hhist
      obtain ⟨t, ht⟩ := hhist
      exact ⟨(rtake_suffix _ _).trans ⟨t, by rw [← ht, List.append_assoc]⟩, hclean.2⟩
    · split_ifs at hp with hpen
      · rcases List.mem_append.mp hp with hold | hnew
        · exact h.penalised p hold
        · obtain rfl := List.mem_singleton.mp hnew
          obtain ⟨hclean, hnone, hlen⟩ := inStep_iff.mp (hstep rfl hpen)
          have hhist := h.hist hclean
          rw [hnone, Option.toList_none, List.append_nil] at hhist ⊢
          exact rtake_of_suffix hhist hlen
      · exact h.penalised p hp

/-- A pick that the sampler observes. -/
theorem Follows.pickObserved (h : c.Follows) {sample : Bool} (tok : Token)
    (hstep : sample = true → c.samp.penalises = true → c.inStep = true) :
    ((c.devicePick sample (some tok)).observe tok).Follows := by
  obtain ⟨hsamp, hlog, hpre, hhist, hpen⟩ := h.devicePick tok hstep
  refine ⟨?_, fun hclean => ?_, hpen⟩
  · change ((c.devicePick sample (some tok)).samp.observe tok).recent <:+
      (c.devicePick sample (some tok)).log ++ [tok]
    rw [hsamp, hlog]
    exact h.observe_recent tok
  · obtain ⟨hsuffix, hnone⟩ := hhist hclean
    change (c.devicePick sample (some tok)).hist <:+ (c.devicePick sample (some tok)).log ++ [tok] ++
      (c.devicePick sample (some tok)).presampled.toList
    rw [hlog, hpre, hnone, Option.toList_none, List.append_nil]
    exact hsuffix

theorem Follows.loopPick (h : c.Follows) (tok : Token) (delivered : Bool)
    (hstep : (c.deviceSample && c.samp.penalises) = true → c.inStep = true) :
    (c.loopPick (some tok) delivered).Follows := by
  have hstep' := fun hsample hpen => hstep (Bool.and_eq_true_iff.mpr ⟨hsample, hpen⟩)
  unfold HistContext.loopPick
  cases delivered with
  | true => exact h.pickObserved tok hstep'
  | false =>
    obtain ⟨hsamp, hlog, -, -, hpen⟩ := h.devicePick tok hstep'
    refine ⟨?_, fun hclean => absurd hclean Bool.false_ne_true, hpen⟩
    change (c.devicePick c.deviceSample (some tok)).samp.recent <:+
      (c.devicePick c.deviceSample (some tok)).log
    rw [hsamp, hlog]
    exact h.recent

/-- The state in which `context_sample_next` and `context_sample_device_row` let the device draw. -/
theorem Follows.synced (h : c.Follows) (set : Bool)
    (hstep : (c.samp.deviceEligible B && c.samp.penalises) = true → c.syncs set = true) :
    let c' := if c.samp.deviceEligible B then c.syncDeviceHistory set else c
    c'.Follows ∧ c'.presampled = c.presampled ∧
      (c.samp.deviceEligible B = true → c'.samp.penalises = true → c'.inStep = true) := by
  dsimp only
  split_ifs with heligible
  · refine ⟨h.sync set, (sync_fixes set).2.2, fun _ hpen => ?_⟩
    rw [(sync_fixes set).1] at hpen
    exact sync_inStep heligible hpen (hstep (Bool.and_eq_true_iff.mpr ⟨heligible, hpen⟩))
  · exact ⟨h, rfl, fun heligible' => absurd heligible' heligible⟩

theorem Follows.sampleNext (h : c.Follows) {a : NextAnswers}
    (hstep : c.presampled = none → a.onHost = false →
      (c.samp.deviceEligible B && c.samp.penalises) = true → c.syncs a.set = true) :
    (c.sampleNext B a).Follows := by
  unfold HistContext.sampleNext
  cases hpre : c.presampled with
  | some tok =>
    refine ⟨h.observe_recent tok, fun hclean => ?_, h.penalised⟩
    have hhist := h.hist hclean
    rw [hpre] at hhist
    exact hhist.trans (by simp [HistContext.observe])
  | none =>
    dsimp only
    by_cases hdevice : (!a.onHost && (c.samp.deviceGreedy B || c.samp.deviceEligible B)) = true
    · rw [if_pos hdevice]
      simp only [Bool.and_eq_true, Bool.not_eq_true'] at hdevice
      obtain ⟨hsynced, -, hin⟩ := h.synced a.set (hstep hpre hdevice.1)
      cases a.pick with
      | some tok => exact hsynced.pickObserved tok hin
      | none => exact hsynced.observeForeign a.sample
    · rw [if_neg hdevice]
      exact h.observeForeign a.sample

theorem Follows.sampleDeviceRow (h : c.Follows) {set : Bool} (pick : Option Token)
    (hstep : B.onDevice = true → (c.samp.deviceEligible B && c.samp.penalises) = true →
      c.syncs set = true) :
    (c.sampleDeviceRow B set pick).Follows := by
  unfold HistContext.sampleDeviceRow
  split_ifs with hdevice
  · obtain ⟨hsynced, -, hin⟩ := h.synced set (hstep (Bool.and_eq_true_iff.mp hdevice).1)
    cases pick with
    | none => exact hsynced
    | some tok =>
      obtain ⟨hsamp, hlog, -, hhist, hpen⟩ := hsynced.devicePick tok hin
      refine ⟨?_, fun hclean => ?_, hpen⟩
      · dsimp only
        rw [hsamp, hlog]
        exact hsynced.recent
      · dsimp only
        rw [hlog]
        exact (hhist hclean).1
  · exact h

theorem Follows.beginLoop (h : c.Follows) (p : SamplerParams D) (set : Bool) :
    (c.beginLoop B p set).Follows := by
  have hrecent : (c.samp.setParams p).recent = c.samp.recent := by
    unfold Sampler.setParams
    split_ifs <;> rfl
  have hstart : { c with
      samp := c.samp.setParams p
      deviceSample := B.onDevice && (c.samp.setParams p).deviceEligible B }.Follows :=
    ⟨by rw [hrecent]; exact h.recent, h.hist, h.penalised⟩
  unfold HistContext.beginLoop
  dsimp only
  split_ifs
  · exact hstart.sync set
  · exact hstart

/-- One admitted call. -/
theorem Follows.apply (h : c.Follows) {e : HistEvent D} (hok : c.admits B e = true) :
    (c.apply B e).Follows := by
  have himp : ∀ {a b : Bool}, (!a || b) = true → a = true → b = true := by decide
  cases e with
  | prefill tokens =>
    change (tokens.foldl HistContext.observeForeign c).Follows
    clear hok
    induction tokens generalizing c with
    | nil => exact h
    | cons tok tokens ih => exact ih (h.observeForeign tok)
  | beginLoop p set => exact h.beginLoop p set
  | loopPick pick =>
    cases pick with
    | none => exact h
    | some tok => exact h.loopPick tok true (himp hok)
  | loopPickReg pick read =>
    cases pick with
    | none => exact h
    | some tok => exact h.loopPick tok read (himp hok)
  | sampleNext a =>
    refine h.sampleNext fun hpre honHost hboth => himp hok ?_
    simp only [Bool.and_eq_true] at hboth
    simp [hpre, honHost, hboth.1, hboth.2]
  | row set pick =>
    refine h.sampleDeviceRow pick fun hdevice hboth => himp hok ?_
    simp only [Bool.and_eq_true] at hboth
    simp [hdevice, hboth.1, hboth.2]
  | resetSession =>
    exact ⟨List.suffix_refl _, fun hclean => absurd hclean Bool.false_ne_true, h.penalised⟩
  | reseed => exact ⟨List.suffix_refl _, fun hclean => absurd hclean Bool.false_ne_true, h.penalised⟩

end HistContext

/-- In every run of a context whose calls are all admitted, each draw of the device with a penalty
penalises the last tokens that the sampler has observed and the picks that it is still to observe. -/
theorem devicePenalty_follows (ops : List (HistOp D))
    (hrun : SafeRun (HistContext.apply B) (fun c e => c.admits B e = true) (.init B)
      (histEvents B (.init B) ops)) :
    ∀ p ∈ ((histEvents B (.init B) ops).foldl (HistContext.apply B) (.init B)).penalised,
      p.1 = p.2 := by
  have hinit : (HistContext.init B).Follows :=
    ⟨List.suffix_refl _, fun hclean => absurd hclean Bool.false_ne_true, fun p hp => by cases hp⟩
  exact (hrun.inv (fun _ _ h hok => h.apply hok) hinit).penalised

/-- A device that can draw whatever the parameters, to the host only. -/
def plainDraws : DeviceDraws Unit where
  initial := ()
  isGreedy _ := false
  canSample _ := true
  canSampleGreedy := true
  argmax := true
  onDevice := true
  tokenRegs _ := false

/-- A generation with a penalty over the last `n` tokens, and one pick in it. -/
def penalisedTurn (fed : List Token) (n : ℤ) (pick : Token) : HistOp Unit :=
  .generation
    { fed := fed
      prefilled := true
      params := ⟨(), true, n⟩
      set := true
      iterations := [⟨none, false, false, some pick, false, true, ⟨false, true, none, 0⟩, none⟩] }

def penalisedRun (ops : List (HistOp Unit)) : HistContext Unit :=
  (histEvents plainDraws (.init plainDraws) ops).foldl (HistContext.apply plainDraws)
    (.init plainDraws)

theorem devicePenalty_follows_turns :
    (penalisedRun [penalisedTurn [1, 2, 3] 2 4, penalisedTurn [5] 4 6]).penalised =
        [([2, 3], [2, 3]), ([2, 3, 4, 5], [2, 3, 4, 5])] ∧
      ∀ p ∈ (penalisedRun [penalisedTurn [1, 2, 3] 2 4, penalisedTurn [5] 4 6]).penalised,
        p.1 = p.2 :=
  ⟨by decide +kernel, devicePenalty_follows plainDraws _ (by decide +kernel)⟩

/-- The second prompt is cached whole, so nothing is observed between the two picks, and the longer
window is not set. -/
theorem devicePenalty_stale :
    (penalisedRun [penalisedTurn [1, 2, 3] 1 4, penalisedTurn [] 4 5]).penalised =
        [([3], [3]), ([3, 4], [1, 2, 3, 4])] ∧
      ¬∀ p ∈ (penalisedRun [penalisedTurn [1, 2, 3] 1 4, penalisedTurn [] 4 5]).penalised,
        p.1 = p.2 := by
  decide +kernel

end Kappai
