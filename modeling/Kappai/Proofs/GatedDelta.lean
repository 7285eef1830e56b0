import Kappai.Proofs.Shortconv
import Mathlib.Algebra.Order.Ring.Rat
import Mathlib.Algebra.Field.Rat

/-! The gated delta net: however its tokens are cut into calls and its channels and heads split over
threads, a call does what its tokens do one after the other. -/

namespace Kappai

variable {K : Type*}

namespace GdnDesc

open Window Strided

/-! ### The convolution -/

/-- The cells of a channel. -/
def convOwn (d : GdnDesc K) (c : ℕ) : GdnConvBuf → ℕ → Prop
  | .convState, a => c * d.history ≤ a ∧ a < c * d.history + d.history
  | .convOut, a => ∃ t, a = t * d.convDim + c

def convReads (d : GdnDesc K) (c : ℕ) : GdnConvBuf → ℕ → Prop
  | .convState, a => c * d.history ≤ a ∧ a < c * d.history + d.history
  | .convOut, _ => False

def convWrites (d : GdnDesc K) (t c : ℕ) : GdnConvBuf → ℕ → Prop
  | .convState, a => c * d.history ≤ a ∧ a < c * d.history + d.history
  | .convOut, a => a = t * d.convDim + c

variable {d : GdnDesc K}

theorem conv_apart : Lanes.Apart (List.range d.convDim) d.convOwn := by
  intro i hi j hj b a hown hown'
  rw [List.mem_range] at hi hj
  cases b with
  | convState =>
    simp only [convOwn] at hown hown'
    exact block_inj (n := d.history) (x := a - i * d.history) (y := a - j * d.history)
      (by omega) (by omega) (by omega)
  | convOut =>
    obtain ⟨t, ht⟩ := hown
    obtain ⟨t', ht'⟩ := hown'
    have htt : t = t' := block_inj (n := d.convDim) hi hj (ht.symm.trans ht')
    subst htt
    omega

theorem convReads_own : ∀ i ∈ List.range d.convDim, ∀ b a, d.convReads i b a → d.convOwn i b a := by
  intro i _ b a h
  cases b with
  | convState => exact h
  | convOut => exact h.elim

variable [Field K] (f : MathFns K)

section Row

variable (c t : ℕ) (m : GdnConvBuf → ℕ → K)

/-- What the convolution of a channel gives at a token. -/
def convAt (d : GdnDesc K) (f : MathFns K) (s : ℕ → K) (t c : ℕ) : K :=
  f.silu (taps s (c * d.history) d.history (d.w c) (d.mix c t * d.w c d.history))

theorem convRow_state :
    d.convRow f c m t .convState = push (m .convState) (c * d.history) d.history (d.mix c t) := by
  rcases Nat.lt_trichotomy d.history 1 with h0 | h1 | h2
  · have h0 : d.history = 0 := by omega
    simp [convRow, h0, push_zero]
  · simp [convRow, h1, push_one]
  · have hpos : 0 < d.history := by omega
    rw [← update_moveDown hpos]
    simp [convRow, h2, hpos]

theorem convRow_out : d.convRow f c m t .convOut =
    Function.update (m .convOut) (t * d.convDim + c) (d.convAt f (m .convState) t c) := by
  rw [convRow, storeCell_same]
  congr 1
  split_ifs <;> simp

theorem convRow3_state (r : K × K × K × (GdnConvBuf → ℕ → K)) :
    (d.convRow3 f c r t).2.2.2 .convState = r.2.2.2 .convState := by
  simp [convRow3]

theorem convRow3_out (r : K × K × K × (GdnConvBuf → ℕ → K)) : (d.convRow3 f c r t).2.2.2 .convOut =
    Function.update (r.2.2.2 .convOut) (t * d.convDim + c) (f.silu
      (r.1 * d.w c 0 + r.2.1 * d.w c 1 + r.2.2.1 * d.w c 2 + d.mix c t * d.w c 3)) := by
  simp [convRow3]

end Row

/-- What the loop with registers holds after some tokens. -/
structure ConvMirrors (c : ℕ) (m g : GdnConvBuf → ℕ → K) (r : K × K × K × (GdnConvBuf → ℕ → K)) :
    Prop where
  h0 : r.1 = g .convState (c * 3)
  h1 : r.2.1 = g .convState (c * 3 + 1)
  h2 : r.2.2.1 = g .convState (c * 3 + 2)
  out : r.2.2.2 .convOut = g .convOut
  state : r.2.2.2 .convState = m .convState
  rest : ∀ a, ¬ (c * 3 ≤ a ∧ a < c * 3 + 3) → g .convState a = m .convState a

theorem ConvMirrors.row (hh : d.history = 3) {c : ℕ} {m g : GdnConvBuf → ℕ → K}
    {r : K × K × K × (GdnConvBuf → ℕ → K)} (h : ConvMirrors c m g r) (t : ℕ) :
    ConvMirrors c m (d.convRow f c g t) (d.convRow3 f c r t) := by
  have hstate := convRow_state (d := d) f c t g
  have hout := convRow_out (d := d) f c t g
  rw [hh] at hstate
  refine ⟨?_, ?_, ?_, ?_, ?_, fun a ha => ?_⟩
  · rw [hstate, push, if_pos (by omega), if_pos (by omega)]
    exact h.h1
  · rw [hstate, push, if_pos (by omega), if_pos (by omega)]
    exact h.h2
  · rw [hstate, push, if_pos (by omega), if_neg (by omega)]
    rfl
  · rw [hout, convRow3_out, h.out, h.h0, h.h1, h.h2, convAt, hh]
    congr 2
    simp [taps, List.range_succ]
    ring
  · rw [convRow3_state, h.state]
  · rw [hstate, push_outside ha]
    exact h.rest a ha

/-- The loop with registers does what the one in memory does. -/
theorem convChannel_eq (c : ℕ) (m : GdnConvBuf → ℕ → K) :
    d.convChannel f c m = (List.range d.nTokens).foldl (d.convRow f c) m := by
  unfold convChannel
  split_ifs with hh
  · rw [hh]
    have hmirrors : ∀ n, ConvMirrors c m ((List.range n).foldl (d.convRow f c) m)
        ((List.range n).foldl (d.convRow3 f c)
          (m .convState (c * 3), m .convState (c * 3 + 1), m .convState (c * 3 + 2), m)) := by
      intro n
      induction n with
      | zero => exact ⟨rfl, rfl, rfl, rfl, rfl, fun _ _ => rfl⟩
      | succ n ih =>
        rw [List.range_succ, List.foldl_append, List.foldl_append]
        exact ih.row f hh n
    have h := hmirrors d.nTokens
    funext b a
    cases b with
    | convOut => simpa using congrFun h.out a
    | convState =>
      simp only [storeCell_same, Function.update_apply]
      split_ifs with h2 h1 h0
      · rw [h2]
        exact h.h2
      · rw [h1]
        exact h.h1
      · rw [h0]
        exact h.h0
      · rw [h.state]
        exact (h.rest a (by omega)).symm
  · rfl

theorem convRow_local (t : ℕ) :
    Lanes.Local (List.range d.convDim) d.convOwn d.convReads (d.convWrites t)
      fun c m => d.convRow f c m t where
  reads_own := convReads_own
  writes_own i _ b a h := by
    cases b with
    | convState => exact h
    | convOut => exact ⟨t, h⟩
  outside i _ m b a h := by
    cases b with
    | convState => rw [convRow_state, push_outside h]
    | convOut => rw [convRow_out, Function.update_of_ne h]
  inside i _ m m' h b a hw := by
    have hread : ∀ a, i * d.history ≤ a → a < i * d.history + d.history →
        m .convState a = m' .convState a := fun a h0 h1 => h .convState a ⟨h0, h1⟩
    cases b with
    | convState =>
      rw [convRow_state, convRow_state]
      exact push_congr hread hw.1 hw.2
    | convOut =>
      obtain rfl : a = t * d.convDim + i := hw
      rw [convRow_out, convRow_out, Function.update_self, Function.update_self, convAt, convAt,
        taps_congr hread]

/-- The state of the convolution after a token. -/
def pushed (d : GdnDesc K) (t : ℕ) (s : ℕ → K) : ℕ → K :=
  (List.range d.convDim).foldl (fun s c => push s (c * d.history) d.history (d.mix c t)) s

/-- What a token does to all channels. -/
def convSweep (d : GdnDesc K) (f : MathFns K) (m : GdnConvBuf → ℕ → K) (t : ℕ) : GdnConvBuf → ℕ → K :=
  Lanes.sweep (fun c m => d.convRow f c m t) (List.range d.convDim) m

theorem convSweep_state (m : GdnConvBuf → ℕ → K) (t : ℕ) :
    d.convSweep f m t .convState = d.pushed t (m .convState) := by
  unfold convSweep Lanes.sweep pushed
  induction List.range d.convDim generalizing m with
  | nil => rfl
  | cons c cs ih =>
    rw [List.foldl_cons, List.foldl_cons, ih]
    exact congrArg (List.foldl _ · cs) (convRow_state f c t m)

theorem convSweep_out (m : GdnConvBuf → ℕ → K) (t : ℕ) {c : ℕ} (hc : c < d.convDim) :
    d.convSweep f m t .convOut (t * d.convDim + c) = d.convAt f (m .convState) t c := by
  have hown : d.convOwn c .convOut (t * d.convDim + c) := ⟨t, rfl⟩
  rw [convSweep, Lanes.sweep_inside conv_apart (convRow_local f t) List.nodup_range (fun _ h => h)
    (List.mem_range.2 hc) hown, convRow_out, Function.update_self]

theorem convSweep_earlier (m : GdnConvBuf → ℕ → K) {t t' : ℕ} (ht : t' < t) {c : ℕ}
    (hc : c < d.convDim) :
    d.convSweep f m t .convOut (t' * d.convDim + c) = m .convOut (t' * d.convDim + c) := by
  refine Lanes.sweep_outside (convRow_local f t) (fun _ h => h) fun i hi h => ?_
  exact absurd (block_inj (n := d.convDim) hc (List.mem_range.1 hi) h) (by omega)

/-- The state of the convolution before token `t`. -/
def stateAt (d : GdnDesc K) (s : ℕ → K) (t : ℕ) : ℕ → K :=
  (List.range t).foldl (fun s t => d.pushed t s) s

theorem convSweeps_state (m : GdnConvBuf → ℕ → K) (n : ℕ) :
    (List.range n).foldl (d.convSweep f) m .convState = d.stateAt (m .convState) n := by
  induction n with
  | zero => rfl
  | succ n ih =>
    rw [List.range_succ, List.foldl_append, stateAt, List.range_succ, List.foldl_append]
    exact (convSweep_state f _ n).trans (congrArg (d.pushed n) ih)

theorem convSweeps_out (m : GdnConvBuf → ℕ → K) (n : ℕ) {t c : ℕ} (ht : t < n) (hc : c < d.convDim) :
    (List.range n).foldl (d.convSweep f) m .convOut (t * d.convDim + c) =
      d.convAt f (d.stateAt (m .convState) t) t c := by
  induction n with
  | zero => omega
  | succ n ih =>
    rw [List.range_succ, List.foldl_append]
    rcases Nat.lt_succ_iff_lt_or_eq.1 ht with hlt | rfl
    · exact (convSweep_earlier f _ hlt hc).trans (ih hlt)
    · refine (convSweep_out f _ t hc).trans ?_
      rw [convSweeps_state]

/-- The convolution of a call is a sweep for each token. -/
theorem convChunks_eq {chunks : List (ℕ × ℕ)} (htiles : Tiles d.convDim chunks)
    (m : GdnConvBuf → ℕ → K) :
    chunks.foldl (fun m chunk => d.gdnConvChunk f chunk m) m =
      (List.range d.nTokens).foldl (d.convSweep f) m := by
  have hbody : ∀ (chunk : ℕ × ℕ) (m : GdnConvBuf → ℕ → K), d.gdnConvChunk f chunk m =
      (List.range' chunk.1 (chunk.2 - chunk.1)).foldl
        (fun m c => (List.range d.nTokens).foldl (fun m t => d.convRow f c m t) m) m := by
    intro chunk m
    simp only [gdnConvChunk, convChannel_eq]
  have hlocal : Lanes.Local (List.range d.convDim) d.convOwn d.convReads _ _ :=
    Lanes.Local.foldl convReads_own (List.range d.nTokens) fun t _ => convRow_local (d := d) f t
  simp only [hbody]
  rw [foldl_chunks (fun c m => (List.range d.nTokens).foldl (fun m t => d.convRow f c m t) m),
    ← Lanes.sweep, Lanes.sweep_perm conv_apart hlocal List.nodup_range htiles,
    ← Lanes.foldl_sweep conv_apart convReads_own List.nodup_range _ fun t _ => convRow_local f t]
  rfl

/-! ### The heads -/

theorem gdnUpdateAccum_congr (row : ℕ) {delta delta' : ℕ → K} (ks qs : K) {n : ℕ}
    (h : ∀ i < n, delta i = delta' i) (s : (ℕ → K) × (ℕ → K)) :
    gdnUpdateAccum row delta ks qs n s = gdnUpdateAccum row delta' ks qs n s := by
  refine List.foldl_ext _ _ _ fun s i hi => ?_
  simp only [h i (List.mem_range.1 hi)]

theorem headUpdate_congr {q q' k k' v v' : ℕ → K} (hq : ∀ i < d.stateSize, q i = q' i)
    (hk : ∀ i < d.stateSize, k i = k' i) (hv : ∀ i < d.valueHeadDim, v i = v' i) (zT : ℕ → K)
    (decay b : K) (shead : ℕ → K) :
    d.headUpdate f q k v zT decay b shead = d.headUpdate f q' k' v' zT decay b shead := by
  have hdecayed : ∀ kn : K,
      (List.range d.stateSize).foldl (fun s e =>
        gdnDecayAccum (e * d.valueHeadDim) decay (k e * kn) d.valueHeadDim s) (shead, fun _ => 0) =
      (List.range d.stateSize).foldl (fun s e =>
        gdnDecayAccum (e * d.valueHeadDim) decay (k' e * kn) d.valueHeadDim s) (shead, fun _ => 0) := by
    intro kn
    refine List.foldl_ext _ _ _ fun s e he => ?_
    rw [hk e (List.mem_range.1 he)]
  have hupdated : ∀ (kn qn : K) (s : (ℕ → K) × (ℕ → K)) (mem : ℕ → K),
      (List.range d.stateSize).foldl (fun s e => gdnUpdateAccum (e * d.valueHeadDim)
        (fun j => (v j - mem j) * b) (k e * kn) (q e * qn) d.valueHeadDim s) s =
      (List.range d.stateSize).foldl (fun s e => gdnUpdateAccum (e * d.valueHeadDim)
        (fun j => (v' j - mem j) * b) (k' e * kn) (q' e * qn) d.valueHeadDim s) s := by
    intro kn qn s mem
    refine List.foldl_ext _ _ _ fun s e he => ?_
    rw [hk e (List.mem_range.1 he), hq e (List.mem_range.1 he)]
    exact gdnUpdateAccum_congr _ _ _ (fun j hj => by rw [hv j hj]) s
  simp only [headUpdate, rmsnormSumSq_congr _ hq, rmsnormSumSq_congr _ hk, hdecayed, hupdated]

/-- The cells of a head. -/
def headOwn (d : GdnDesc K) (vh : ℕ) : GdnHeadBuf → ℕ → Prop
  | .state, a => vh * (d.stateSize * d.valueHeadDim) ≤ a ∧
      a < vh * (d.stateSize * d.valueHeadDim) + d.stateSize * d.valueHeadDim
  | .out, a => ∃ t, d.out + t * d.valueDim + vh * d.valueHeadDim ≤ a ∧
      a < d.out + t * d.valueDim + vh * d.valueHeadDim + d.valueHeadDim

def headReads (d : GdnDesc K) (vh : ℕ) : GdnHeadBuf → ℕ → Prop
  | .state, a => vh * (d.stateSize * d.valueHeadDim) ≤ a ∧
      a < vh * (d.stateSize * d.valueHeadDim) + d.stateSize * d.valueHeadDim
  | .out, _ => False

def headWrites (d : GdnDesc K) (t vh : ℕ) : GdnHeadBuf → ℕ → Prop
  | .state, a => vh * (d.stateSize * d.valueHeadDim) ≤ a ∧
      a < vh * (d.stateSize * d.valueHeadDim) + d.stateSize * d.valueHeadDim
  | .out, a => d.out + t * d.valueDim + vh * d.valueHeadDim ≤ a ∧
      a < d.out + t * d.valueDim + vh * d.valueHeadDim + d.valueHeadDim

omit [Field K] in
theorem value_lt {vh j : ℕ} (hvh : vh < d.nValueHeads) (hj : j < d.valueHeadDim) :
    vh * d.valueHeadDim + j < d.valueDim := by
  rw [d.valueDim_eq]
  exact row_lt hvh hj

omit [Field K] in
theorem head_apart : Lanes.Apart (List.range d.nValueHeads) d.headOwn := by
  intro i hi j hj b a hown hown'
  rw [List.mem_range] at hi hj
  cases b with
  | state =>
    simp only [headOwn] at hown hown'
    exact block_inj (n := d.stateSize * d.valueHeadDim) (x := a - i * (d.stateSize * d.valueHeadDim))
      (y := a - j * (d.stateSize * d.valueHeadDim)) (by omega) (by omega) (by omega)
  | out =>
    obtain ⟨t, hlo, hhi⟩ := hown
    obtain ⟨t', hlo', hhi'⟩ := hown'
    obtain ⟨x, rfl⟩ := Nat.exists_eq_add_of_le hlo
    obtain ⟨y, hy⟩ := Nat.exists_eq_add_of_le hlo'
    have hx : x < d.valueHeadDim := by omega
    have hy' : y < d.valueHeadDim := by omega
    have htt : t = t' :=
      block_inj (n := d.valueDim) (value_lt hi hx) (value_lt hj hy') (by omega)
    subst htt
    exact block_inj (n := d.valueHeadDim) hx hy' (by omega)

omit [Field K] in
theorem headReads_own : ∀ i ∈ List.range d.nValueHeads, ∀ b a, d.headReads i b a → d.headOwn i b a := by
  intro i _ b a h
  cases b with
  | state => exact h
  | out => exact h.elim

variable [LinearOrder K]

theorem headStep_congr {conv conv' : ℕ → K} {vh t : ℕ} (hvh : vh < d.nValueHeads)
    (h : ∀ c < d.convDim, conv (t * d.convDim + c) = conv' (t * d.convDim + c)) (shead : ℕ → K) :
    d.headStep f conv vh t shead = d.headStep f conv' vh t shead := by
  have hdim := d.convDim_eq
  have hkey : ∀ i < d.stateSize, vh % d.nKeyHeads * d.stateSize + i < d.keyDim := by
    intro i hi
    rw [d.keyDim_eq, Nat.mul_comm d.stateSize]
    exact row_lt (Nat.mod_lt _ d.nKeyHeads_pos) hi
  refine headUpdate_congr f (fun i hi => ?_) (fun i hi => ?_) (fun i hi => ?_) _ _ _ _
  · have := hkey i hi
    rw [Nat.add_assoc, h _ (by omega)]
  · have := hkey i hi
    rw [Nat.add_assoc, Nat.add_assoc, h _ (by omega)]
  · have := value_lt (d := d) hvh hi
    rw [Nat.add_assoc, Nat.add_assoc, h _ (by omega)]

theorem headRow_congr {conv conv' : ℕ → K} {vh t : ℕ} (hvh : vh < d.nValueHeads)
    (h : ∀ c < d.convDim, conv (t * d.convDim + c) = conv' (t * d.convDim + c))
    (m : GdnHeadBuf → ℕ → K) : d.headRow f conv vh m t = d.headRow f conv' vh m t := by
  simp only [headRow, headStep_congr f hvh h]

theorem headRow_state (conv : ℕ → K) (vh : ℕ) (m : GdnHeadBuf → ℕ → K) (t : ℕ) :
    d.headRow f conv vh m t .state = writeBlock (m .state) (vh * (d.stateSize * d.valueHeadDim))
      (d.stateSize * d.valueHeadDim) (d.headStep f conv vh t
        (block (d.stateSize * d.valueHeadDim) (m .state) (vh * (d.stateSize * d.valueHeadDim)))).1 := by
  simp [headRow]

theorem headRow_out (conv : ℕ → K) (vh : ℕ) (m : GdnHeadBuf → ℕ → K) (t : ℕ) :
    d.headRow f conv vh m t .out = writeBlock (m .out) (d.out + t * d.valueDim + vh * d.valueHeadDim)
      d.valueHeadDim (d.headStep f conv vh t
        (block (d.stateSize * d.valueHeadDim) (m .state) (vh * (d.stateSize * d.valueHeadDim)))).2 := by
  simp [headRow]

theorem headRow_local (conv : ℕ → K) (t : ℕ) :
    Lanes.Local (List.range d.nValueHeads) d.headOwn d.headReads (d.headWrites t)
      fun vh m => d.headRow f conv vh m t where
  reads_own := headReads_own
  writes_own i _ b a h := by
    cases b with
    | state => exact h
    | out => exact ⟨t, h⟩
  outside i _ m b a h := by
    cases b with
    | state =>
      rw [headRow_state]
      exact if_neg h
    | out =>
      rw [headRow_out]
      exact if_neg h
  inside i _ m m' h b a hw := by
    have hblock : block (d.stateSize * d.valueHeadDim) (m .state) (i * (d.stateSize * d.valueHeadDim)) =
        block (d.stateSize * d.valueHeadDim) (m' .state) (i * (d.stateSize * d.valueHeadDim)) := by
      funext x
      unfold block
      split_ifs with hx
      · exact h .state _ ⟨by omega, by omega⟩
      · rfl
    cases b with
    | state =>
      rw [headRow_state, headRow_state, hblock]
      exact (if_pos hw).trans (if_pos hw).symm
    | out =>
      rw [headRow_out, headRow_out, hblock]
      exact (if_pos hw).trans (if_pos hw).symm

/-- What a token does to all heads. -/
def headSweep (d : GdnDesc K) (f : MathFns K) (conv : ℕ → K) (m : GdnHeadBuf → ℕ → K) (t : ℕ) :
    GdnHeadBuf → ℕ → K :=
  Lanes.sweep (fun vh m => d.headRow f conv vh m t) (List.range d.nValueHeads) m

theorem headSweep_congr {conv conv' : ℕ → K} {t : ℕ}
    (h : ∀ c < d.convDim, conv (t * d.convDim + c) = conv' (t * d.convDim + c))
    (m : GdnHeadBuf → ℕ → K) : d.headSweep f conv m t = d.headSweep f conv' m t :=
  List.foldl_ext _ _ _ fun m _ hvh => headRow_congr f (List.mem_range.1 hvh) h m

/-- The heads of a call are swept for each token. -/
theorem headChunks_eq (conv : ℕ → K) {chunks : List (ℕ × ℕ)} (htiles : Tiles d.nValueHeads chunks)
    (m : GdnHeadBuf → ℕ → K) :
    chunks.foldl (fun m chunk => d.gdnHeads f conv chunk m) m =
      (List.range d.nTokens).foldl (d.headSweep f conv) m := by
  have hlocal : Lanes.Local (List.range d.nValueHeads) d.headOwn d.headReads _ _ :=
    Lanes.Local.foldl headReads_own (List.range d.nTokens) fun t _ => headRow_local (d := d) f conv t
  simp only [gdnHeads]
  rw [foldl_chunks (fun vh m => (List.range d.nTokens).foldl (fun m t => d.headRow f conv vh m t) m),
    ← Lanes.sweep, Lanes.sweep_perm head_apart hlocal List.nodup_range htiles,
    ← Lanes.foldl_sweep head_apart headReads_own List.nodup_range _ fun t _ => headRow_local f conv t]
  rfl

/-! ### Tokens -/

/-- A row of the convolution's output, in its place. -/
def rowView (d : GdnDesc K) (t : ℕ) (row : ℕ → K) : ℕ → K := fun a => row (a - t * d.convDim)

/-- What a call does at one token. -/
def tokenStep (d : GdnDesc K) (f : MathFns K) (m : GdnMem K) (t : ℕ) : GdnMem K where
  convState := d.pushed t m.convState
  heads := d.headSweep f (d.rowView t (d.convAt f m.convState t)) m.heads t

theorem tokens_eq {conv : ℕ → K} (n : ℕ) (m : GdnMem K)
    (hconv : ∀ t < n, ∀ c < d.convDim,
      conv (t * d.convDim + c) = d.convAt f (d.stateAt m.convState t) t c) :
    (List.range n).foldl (d.tokenStep f) m =
      ⟨d.stateAt m.convState n, (List.range n).foldl (d.headSweep f conv) m.heads⟩ := by
  induction n with
  | zero => rfl
  | succ n ih =>
    have hstate : d.stateAt m.convState (n + 1) = d.pushed n (d.stateAt m.convState n) := by
      rw [stateAt, List.range_succ, List.foldl_append]
      rfl
    rw [hstate, List.range_succ, List.foldl_append, ih fun t ht => hconv t (by omega), List.foldl_append]
    refine congrArg (GdnMem.mk _) (headSweep_congr f (fun c hc => ?_) _)
    rw [hconv n (by omega) c hc, rowView, Nat.add_sub_cancel_left]

/-- A call does what its tokens do one after the other, whatever is in the workspace. -/
theorem cpuGatedDeltaNet_eq (ws : ℕ → K) {convChunks headChunks : List (ℕ × ℕ)}
    (hconv : Tiles d.convDim convChunks) (hheads : Tiles d.nValueHeads headChunks) (m : GdnMem K) :
    d.cpuGatedDeltaNet f ws convChunks headChunks m =
      (List.range d.nTokens).foldl (d.tokenStep f) (d.resetState m) := by
  rw [cpuGatedDeltaNet, convChunks_eq f hconv, headChunks_eq f _ hheads, convSweeps_state,
    tokens_eq f d.nTokens (d.resetState m) fun t ht c hc =>
      convSweeps_out f (convStart ws (d.resetState m).convState) d.nTokens ht hc]
  rfl

/-! ### Calls -/

theorem segment_tokenStep (row0 n : ℕ) (reset : Bool) (m : GdnMem K) (t : ℕ) :
    (d.segment row0 n reset).tokenStep f m t = d.tokenStep f m (row0 + t) := by
  have hmix : ∀ c, (d.segment row0 n reset).mix c t = d.mix c (row0 + t) := by
    intro c
    simp only [mix, segment]
    congr 1
    ring
  have hpushed : (d.segment row0 n reset).pushed t m.convState = d.pushed (row0 + t) m.convState := by
    unfold pushed
    simp only [hmix]
    rfl
  have hconv : (d.segment row0 n reset).convAt f m.convState t = d.convAt f m.convState (row0 + t) := by
    funext c
    unfold convAt
    rw [hmix]
    rfl
  have hhead : ∀ (row : ℕ → K) (vh : ℕ) (m : GdnHeadBuf → ℕ → K),
      (d.segment row0 n reset).headRow f ((d.segment row0 n reset).rowView t row) vh m t =
        d.headRow f (d.rowView (row0 + t) row) vh m (row0 + t) := by
    intro row vh m
    have hz : ∀ i, row0 * d.valueDim + (t * d.valueDim + i) = (row0 + t) * d.valueDim + i := by
      intro i
      ring
    have ha : row0 * d.nValueHeads + (t * d.nValueHeads + vh) = (row0 + t) * d.nValueHeads + vh := by
      ring
    have hout : d.out + row0 * d.valueDim + t * d.valueDim = d.out + (row0 + t) * d.valueDim := by
      ring
    have hstep : ∀ shead, (d.segment row0 n reset).headStep f
        ((d.segment row0 n reset).rowView t row) vh t shead =
          d.headStep f (d.rowView (row0 + t) row) vh (row0 + t) shead := by
      intro shead
      simp only [headStep, rowView, segment, Nat.add_assoc, Nat.add_sub_cancel_left, hz, ha]
      rfl
    simp only [headRow, hstep]
    simp only [segment, hout]
  rw [tokenStep, tokenStep, hpushed, hconv, headSweep, headSweep]
  simp only [hhead]
  rfl

/-- A call for some tokens does what they do one after the other. -/
theorem segment_eq (ws : ℕ → K) {convChunks headChunks : List (ℕ × ℕ)}
    (hconv : Tiles d.convDim convChunks) (hheads : Tiles d.nValueHeads headChunks) (row0 n : ℕ)
    (reset : Bool) (m : GdnMem K) :
    (d.segment row0 n reset).cpuGatedDeltaNet f ws convChunks headChunks m =
      (List.range' row0 n).foldl (d.tokenStep f) ((d.segment row0 n reset).resetState m) := by
  rw [cpuGatedDeltaNet_eq (d := d.segment row0 n reset) f ws hconv hheads, List.range'_eq_map_range, List.foldl_map]
  exact List.foldl_ext _ _ _ fun m t _ => segment_tokenStep f row0 n reset m t

/-- Every call has tokens, and splits of all channels and of all heads. -/
def CallsSplit (d : GdnDesc K) (calls : List (GdnCall K)) : Prop :=
  ∀ call ∈ calls, 1 ≤ call.rows ∧ Tiles d.convDim call.convChunks ∧ Tiles d.nValueHeads call.headChunks

theorem gdnCalls_tail (calls : List (GdnCall K)) (hcalls : d.CallsSplit calls) (row0 : ℕ)
    (m : GdnMem K) : gdnCalls f d false row0 calls m =
      (List.range' row0 (calls.map (·.rows)).sum).foldl (d.tokenStep f) m := by
  induction calls generalizing row0 m with
  | nil => rfl
  | cons call calls ih =>
    obtain ⟨_, hconv, hheads⟩ := hcalls call (by simp)
    rw [gdnCalls, segment_eq f call.ws hconv hheads, ih fun c hc => hcalls c (by simp [hc]),
      List.map_cons, List.sum_cons, ← List.range'_append_1, List.foldl_append]
    rfl

/-- The calls for consecutive tokens do what the tokens do. -/
theorem gdnCalls_eq (reset : Bool) {calls : List (GdnCall K)} (hcalls : d.CallsSplit calls)
    (hne : calls ≠ []) (m : GdnMem K) : gdnCalls f d reset 0 calls m =
      (List.range' 0 (calls.map (·.rows)).sum).foldl (d.tokenStep f)
        ((d.segment 0 0 reset).resetState m) := by
  cases calls with
  | nil => exact absurd rfl hne
  | cons call calls =>
    obtain ⟨_, hconv, hheads⟩ := hcalls call (by simp)
    rw [gdnCalls, segment_eq f call.ws hconv hheads, gdnCalls_tail f calls fun c hc => hcalls c (by simp [hc]),
      List.map_cons, List.sum_cons, ← List.range'_append_1, List.foldl_append]
    rfl

/-- Two ways of cutting the same tokens into calls come to the same. -/
theorem gdnCalls_cut (reset : Bool) {calls calls' : List (GdnCall K)} (hcalls : d.CallsSplit calls)
    (hcalls' : d.CallsSplit calls') (hsum : (calls.map (·.rows)).sum = (calls'.map (·.rows)).sum)
    (m : GdnMem K) : gdnCalls f d reset 0 calls m = gdnCalls f d reset 0 calls' m := by
  have hpos : ∀ calls : List (GdnCall K), d.CallsSplit calls →
      ((calls.map (·.rows)).sum = 0 ↔ calls = []) := by
    intro calls h
    cases calls with
    | nil => simp
    | cons call calls =>
      have := (h call (by simp)).1
      simp
      omega
  by_cases hnil : calls = []
  · have hnil' : calls' = [] := (hpos calls' hcalls').1 (hsum ▸ (hpos calls hcalls).2 hnil)
    rw [hnil, hnil']
  · have hnil' : calls' ≠ [] := fun h =>
      hnil ((hpos calls hcalls).1 (hsum.trans ((hpos calls' hcalls').2 h)))
    rw [gdnCalls_eq f reset hcalls hnil, gdnCalls_eq f reset hcalls' hnil', hsum]

/-! ### Reset -/

/-- Two memories have the same states, and the same output up to a token. -/
structure Agree (d : GdnDesc K) (n : ℕ) (m m' : GdnMem K) : Prop where
  conv : ∀ a < d.convDim * d.history, m.convState a = m'.convState a
  state : ∀ a < d.nValueHeads * (d.stateSize * d.valueHeadDim), m.heads .state a = m'.heads .state a
  out : ∀ t < n, ∀ i < d.valueDim,
    m.heads .out (d.out + t * d.valueDim + i) = m'.heads .out (d.out + t * d.valueDim + i)

theorem Agree.token {n : ℕ} {m m' : GdnMem K} (h : Agree d n m m') :
    Agree d (n + 1) (d.tokenStep f m n) (d.tokenStep f m' n) := by
  have hchannel : ∀ c < d.convDim, ∀ a, c * d.history ≤ a → a < c * d.history + d.history →
      m.convState a = m'.convState a := by
    intro c hc a hlo hhi
    obtain ⟨x, rfl⟩ := Nat.exists_eq_add_of_le hlo
    exact h.conv _ (row_lt hc (by omega))
  have hrow : ∀ c < d.convDim, d.convAt f m.convState n c = d.convAt f m'.convState n c := by
    intro c hc
    rw [convAt, convAt, taps_congr (hchannel c hc)]
  have hconvLanes : ∀ i ∈ List.range d.convDim, ∀ b a, d.convReads i b a →
      convStart (fun _ => 0) m.convState b a = convStart (fun _ => 0) m'.convState b a := by
    intro i hi b a hr
    cases b with
    | convState => exact hchannel i (List.mem_range.1 hi) a hr.1 hr.2
    | convOut => exact hr.elim
  have hheadLanes : ∀ i ∈ List.range d.nValueHeads, ∀ b a, d.headReads i b a →
      m.heads b a = m'.heads b a := by
    intro i hi b a hr
    cases b with
    | state =>
      obtain ⟨x, rfl⟩ := Nat.exists_eq_add_of_le hr.1
      have := hr.2
      exact h.state _ (row_lt (List.mem_range.1 hi) (by omega))
    | out => exact hr.elim
  have hheads : (d.tokenStep f m' n).heads =
      d.headSweep f (d.rowView n (d.convAt f m.convState n)) m'.heads n := by
    refine headSweep_congr f (fun c hc => ?_) _
    rw [rowView, rowView, Nat.add_sub_cancel_left, hrow c hc]
  refine ⟨fun a ha => ?_, fun a ha => ?_, fun t ht i hi => ?_⟩
  · have hsweep := Lanes.sweep_congr conv_apart (convRow_local (d := d) f n) List.nodup_range
      (fun _ h => h) hconvLanes (b := .convState) (a := a) (.inl (h.conv a ha))
    have hm := congrFun (convSweep_state (d := d) f (convStart (fun _ => 0) m.convState) n) a
    have hm' := congrFun (convSweep_state (d := d) f (convStart (fun _ => 0) m'.convState) n) a
    exact hm.symm.trans (hsweep.trans hm')
  · rw [hheads]
    exact Lanes.sweep_congr head_apart (headRow_local f _ n) List.nodup_range (fun _ h => h) hheadLanes
      (.inl (h.state a ha))
  · rw [hheads]
    refine Lanes.sweep_congr head_apart (headRow_local f _ n) List.nodup_range (fun _ h => h) hheadLanes ?_
    rcases Nat.lt_succ_iff_lt_or_eq.1 ht with hlt | rfl
    · exact .inl (h.out t hlt i hi)
    · have hvd : 0 < d.valueHeadDim := by
        rw [d.valueDim_eq] at hi
        exact Nat.pos_of_mul_pos_left (lt_of_le_of_lt (Nat.zero_le _) hi)
      have hdiv := Nat.div_add_mod' i d.valueHeadDim
      have hmod := Nat.mod_lt i hvd
      refine .inr ⟨i / d.valueHeadDim, List.mem_range.2 ?_, ?_, ?_⟩
      · rw [Nat.div_lt_iff_lt_mul hvd, ← d.valueDim_eq]
        exact hi
      · omega
      · omega

theorem Agree.tokens {m m' : GdnMem K} (h : Agree d 0 m m') (n : ℕ) :
    Agree d n ((List.range n).foldl (d.tokenStep f) m) ((List.range n).foldl (d.tokenStep f) m') := by
  induction n with
  | zero => exact h
  | succ n ih =>
    rw [List.range_succ, List.foldl_append, List.foldl_append]
    exact ih.token f

omit [LinearOrder K] in
theorem resetState_agree (hreset : d.reset = true) (m m' : GdnMem K) :
    Agree d 0 (d.resetState m) (d.resetState m') := by
  refine ⟨fun a ha => ?_, fun a ha => ?_, fun t ht => absurd ht (by omega)⟩
  · simp [resetState, hreset, writeBlock, ha]
  · rw [← Nat.mul_assoc] at ha
    simp [resetState, hreset, writeBlock, ha]

/-- What a call with `reset` computes does not depend on what was there. -/
theorem cpuGatedDeltaNet_reset (hreset : d.reset = true) (ws ws' : ℕ → K)
    {convChunks headChunks : List (ℕ × ℕ)} (hconv : Tiles d.convDim convChunks)
    (hheads : Tiles d.nValueHeads headChunks) (m m' : GdnMem K) :
    d.Agree d.nTokens (d.cpuGatedDeltaNet f ws convChunks headChunks m)
      (d.cpuGatedDeltaNet f ws' convChunks headChunks m') := by
  rw [cpuGatedDeltaNet_eq f ws hconv hheads, cpuGatedDeltaNet_eq f ws' hconv hheads]
  exact (resetState_agree hreset m m').tokens f d.nTokens

end GdnDesc

/-- Outputs and states are the same however the rows are cut into calls, a row at a time included, and
however the channels and the heads are split; after a reset they depend on nothing before it. -/
theorem hybrid_chunks [Field K] [LinearOrder K] (f : MathFns K) (sc : ShortconvDesc K)
    (gd : GdnDesc K) :
    (∀ calls calls' : List ShortconvCall,
      (∀ call ∈ calls ++ calls', 1 ≤ call.rows ∧ Tiles sc.dim call.chunks) →
      (calls.map (·.rows)).sum = (calls'.map (·.rows)).sum →
      ∀ m, shortconvCalls sc 0 calls m = shortconvCalls sc 0 calls' m) ∧
    (∀ reset (calls calls' : List (GdnCall K)), gd.CallsSplit calls → gd.CallsSplit calls' →
      (calls.map (·.rows)).sum = (calls'.map (·.rows)).sum →
      ∀ m, gdnCalls f gd reset 0 calls m = gdnCalls f gd reset 0 calls' m) ∧
    (∀ n chunks, Tiles sc.dim chunks → ∀ m m',
      Option.Rel (sc.Agree n) ((sc.segment 0 n).cpuShortconv chunks (sc.resetState m))
        ((sc.segment 0 n).cpuShortconv chunks (sc.resetState m'))) ∧
    ∀ convChunks headChunks, gd.reset = true → Tiles gd.convDim convChunks →
      Tiles gd.nValueHeads headChunks → ∀ ws ws' m m',
      gd.Agree gd.nTokens (gd.cpuGatedDeltaNet f ws convChunks headChunks m)
        (gd.cpuGatedDeltaNet f ws' convChunks headChunks m') :=
  ⟨fun calls calls' h hsum m => ShortconvDesc.shortconvCalls_cut calls calls' h hsum m,
    fun reset _ _ h h' hsum m => GdnDesc.gdnCalls_cut f reset h h' hsum m,
    fun n _ h m m' => ShortconvDesc.cpuShortconv_reset n h m m',
    fun _ _ hreset hconv hheads ws ws' m m' =>
      GdnDesc.cpuGatedDeltaNet_reset f hreset ws ws' hconv hheads m m'⟩

/-- A convolution with two channels and three taps. -/
def twoChannels : ShortconvDesc ℚ where
  out := 0
  mixed := fun i => i
  convW := fun i => i
  dim := 2
  kernel := 3
  inStride := 6
  outStride := 2
  nRows := 2

/-- A net with one head of one cell. -/
def oneHead : GdnDesc ℚ where
  nValueHeads := 1
  nKeyHeads := 1
  convDim := 3
  convKernel := 4
  keyDim := 1
  stateSize := 1
  valueHeadDim := 1
  valueDim := 1
  nKeyHeads_pos := by decide
  convKernel_pos := by decide
  keyDim_eq := rfl
  valueDim_eq := rfl
  convDim_eq := rfl
  nTokens := 2
  reset := true
  eps := 1
  mixed := fun i => i
  z := fun i => i
  alpha := fun i => i
  beta := fun i => i
  convW := fun i => i
  dt := fun i => i
  aVec := fun i => i
  normW := fun i => i
  out := 0

theorem hybrid_chunks_two :
    shortconvCalls twoChannels 0 [⟨2, [(0, 1), (1, 2)]⟩] (fun _ _ => 1) =
        shortconvCalls twoChannels 0 [⟨1, [(0, 2)]⟩, ⟨1, [(1, 2), (0, 1)]⟩] (fun _ _ => 1) ∧
      gdnCalls ⟨id, id, id⟩ oneHead true 0 [⟨2, fun _ => 0, [(0, 3)], [(0, 1)]⟩]
          ⟨fun _ => 1, fun _ _ => 1⟩ =
        gdnCalls ⟨id, id, id⟩ oneHead true 0
          [⟨1, fun _ => 0, [(0, 3)], [(0, 1)]⟩, ⟨1, fun _ => 5, [(1, 3), (0, 1)], [(0, 1)]⟩]
          ⟨fun _ => 1, fun _ _ => 1⟩ ∧
      oneHead.Agree 2
        (oneHead.cpuGatedDeltaNet ⟨id, id, id⟩ (fun _ => 0) [(0, 3)] [(0, 1)] ⟨fun _ => 1, fun _ _ => 1⟩)
        (oneHead.cpuGatedDeltaNet ⟨id, id, id⟩ (fun _ => 5) [(0, 3)] [(0, 1)] ⟨fun _ => 2, fun _ _ => 3⟩) := by
  have hsplit : oneHead.CallsSplit [⟨2, fun _ => 0, [(0, 3)], [(0, 1)]⟩] := by
    simp only [GdnDesc.CallsSplit, List.forall_mem_cons]
    decide
  have hsplit' : oneHead.CallsSplit
      [⟨1, fun _ => 0, [(0, 3)], [(0, 1)]⟩, ⟨1, fun _ => 5, [(1, 3), (0, 1)], [(0, 1)]⟩] := by
    simp only [GdnDesc.CallsSplit, List.forall_mem_cons]
    decide
  obtain ⟨hrows, htokens, -, hreset⟩ := hybrid_chunks ⟨id, id, id⟩ twoChannels oneHead
  refine ⟨?_, ?_, ?_⟩
  · exact hrows [⟨2, [(0, 1), (1, 2)]⟩] [⟨1, [(0, 2)]⟩, ⟨1, [(1, 2), (0, 1)]⟩] (by decide) rfl _
  · exact htokens true _ _ hsplit hsplit' rfl _
  · exact hreset [(0, 3)] [(0, 1)] rfl (by decide) (by decide) _ _ _ _

end Kappai
