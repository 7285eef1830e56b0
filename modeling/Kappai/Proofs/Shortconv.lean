import Kappai.Lib.Lanes
import Kappai.Spec.Hybrid
import Mathlib.Tactic.Ring

/-! The short convolution: however its rows are cut into calls and its channels split over threads, the
output and the state are those of a sweep over the channels for each row. -/

namespace Kappai

variable {B K : Type*}

/-! ### Chunks -/

/-- A loop over chunks of ranges is one over their items. -/
theorem foldl_chunks {σ : Type*} (F : ℕ → σ → σ) (chunks : List (ℕ × ℕ)) (s : σ) :
    chunks.foldl (fun s r => (List.range' r.1 (r.2 - r.1)).foldl (fun s i => F i s) s) s =
      (chunks.flatMap fun r => List.range' r.1 (r.2 - r.1)).foldl (fun s i => F i s) s := by
  induction chunks generalizing s with
  | nil => rfl
  | cons r chunks ih => rw [List.foldl_cons, ih, List.flatMap_cons, List.foldl_append]

@[simp] theorem storeCell_same [DecidableEq B] (m : B → ℕ → K) (b : B) (a : ℕ) (v : K) :
    storeCell m b a v b = Function.update (m b) a v := by simp [storeCell]

@[simp] theorem storeCell_ne [DecidableEq B] (m : B → ℕ → K) {b b' : B} (h : b' ≠ b) (a : ℕ) (v : K) :
    storeCell m b a v b' = m b' := by simp [storeCell, h]

/-- Places in blocks of one size. -/
theorem block_inj {n i j x y : ℕ} (hx : x < n) (hy : y < n) (h : i * n + x = j * n + y) : i = j := by
  have hdiv := congrArg (· / n) h
  simpa [Nat.mul_comm _ n, Nat.mul_add_div (by omega : 0 < n), Nat.div_eq_of_lt hx,
    Nat.div_eq_of_lt hy] using hdiv

namespace ShortconvDesc

open Window

/-! ### Channels are lanes -/

/-- The cells of a channel. -/
def own (d : ShortconvDesc K) (c : ℕ) : ConvBuf → ℕ → Prop
  | .state, a => c * (d.kernel - 1) ≤ a ∧ a < c * (d.kernel - 1) + (d.kernel - 1)
  | .out, a => ∃ t, a = d.out + c + t * d.outStride

def reads (d : ShortconvDesc K) (c : ℕ) : ConvBuf → ℕ → Prop
  | .state, a => c * (d.kernel - 1) ≤ a ∧ a < c * (d.kernel - 1) + (d.kernel - 1)
  | .out, _ => False

def writes (d : ShortconvDesc K) (t c : ℕ) : ConvBuf → ℕ → Prop
  | .state, a => c * (d.kernel - 1) ≤ a ∧ a < c * (d.kernel - 1) + (d.kernel - 1)
  | .out, a => a = d.out + c + t * d.outStride

variable {d : ShortconvDesc K}

theorem apart (hs : d.dim ≤ d.outStride) : Lanes.Apart (List.range d.dim) d.own := by
  intro i hi j hj b a hown hown'
  rw [List.mem_range] at hi hj
  cases b with
  | state =>
    simp only [own] at hown hown'
    exact block_inj (n := d.kernel - 1) (x := a - i * (d.kernel - 1)) (y := a - j * (d.kernel - 1))
      (by omega) (by omega) (by omega)
  | out =>
    obtain ⟨t, ht⟩ := hown
    obtain ⟨t', ht'⟩ := hown'
    have htt : t = t' :=
      block_inj (n := d.outStride) (x := i) (y := j) (by omega) (by omega) (by omega)
    subst htt
    omega

theorem reads_own : ∀ i ∈ List.range d.dim, ∀ b a, d.reads i b a → d.own i b a := by
  intro i _ b a h
  cases b with
  | state => exact h
  | out => exact h.elim

variable [Field K]

/-! ### One row of one channel -/

section Row

variable (c t : ℕ) (m : ConvMem K)

theorem row_state (hk : 2 ≤ d.kernel) :
    d.row c m t .state = push (m .state) (c * (d.kernel - 1)) (d.kernel - 1) (d.bx c t) := by
  rw [← update_moveDown (by omega)]
  simp [row, put]

theorem row_out : d.row c m t .out = Function.update (m .out) (d.out + c + t * d.outStride)
    (d.mixed (d.dim + c + t * d.inStride) * taps (m .state) (c * (d.kernel - 1)) (d.kernel - 1) (d.w c)
      (d.bx c t * d.w c (d.kernel - 1))) := by
  simp [row, put, taps]

theorem row3_out (r : K × K × ConvMem K) : (d.row3 c r t).2.2 .out =
    Function.update (r.2.2 .out) (d.out + c + t * d.outStride) (d.mixed (d.dim + c + t * d.inStride) *
      (r.1 * d.w c 0 + r.2.1 * d.w c 1 + d.bx c t * d.w c 2)) := by
  simp [row3, put]

theorem row3_state (r : K × K × ConvMem K) : (d.row3 c r t).2.2 .state = r.2.2 .state := by
  simp [row3, put]

end Row

/-- What the loop with registers holds after some rows. -/
structure Mirrors (c : ℕ) (m g : ConvMem K) (r : K × K × ConvMem K) : Prop where
  h0 : r.1 = g .state (c * 2)
  h1 : r.2.1 = g .state (c * 2 + 1)
  out : r.2.2 .out = g .out
  state : r.2.2 .state = m .state
  rest : ∀ a, a ≠ c * 2 → a ≠ c * 2 + 1 → g .state a = m .state a

theorem Mirrors.row (hk : d.kernel = 3) {c : ℕ} {m g : ConvMem K} {r : K × K × ConvMem K}
    (h : Mirrors c m g r) (t : ℕ) : Mirrors c m (d.row c g t) (d.row3 c r t) := by
  have hstate := row_state (d := d) c t g (by omega)
  have hout := row_out (d := d) c t g
  rw [hk] at hstate hout
  refine ⟨?_, ?_, ?_, ?_, fun a h0 h1 => ?_⟩
  · rw [hstate, push, if_pos (by omega), if_pos (by omega)]
    exact h.h1
  · rw [hstate, push, if_pos (by omega), if_neg (by omega)]
    rfl
  · rw [hout, row3_out, h.out, h.h0, h.h1]
    congr 2
    simp [taps, List.range_succ]
    ring
  · rw [row3_state, h.state]
  · rw [hstate, push_outside (by omega)]
    exact h.rest a h0 h1

/-- The loop with registers does what the one in memory does. -/
theorem channel_eq (c : ℕ) (m : ConvMem K) :
    d.channel c m = (List.range d.nRows).foldl (d.row c) m := by
  unfold channel
  split_ifs with hk
  · rw [hk]
    have hmirrors : ∀ n, Mirrors c m ((List.range n).foldl (d.row c) m)
        ((List.range n).foldl (d.row3 c) (m .state (c * 2), m .state (c * 2 + 1), m)) := by
      intro n
      induction n with
      | zero => exact ⟨rfl, rfl, rfl, rfl, fun _ _ _ => rfl⟩
      | succ n ih =>
        rw [List.range_succ, List.foldl_append, List.foldl_append]
        exact ih.row hk n
    have h := hmirrors d.nRows
    funext b a
    cases b with
    | out => simpa using congrFun h.out a
    | state =>
      simp only [storeCell_same, Function.update_apply]
      split_ifs with h1 h0
      · rw [h1]
        exact h.h1
      · rw [h0]
        exact h.h0
      · rw [h.state]
        exact (h.rest a h0 h1).symm
  · rfl

/-! ### A row is local -/

theorem row_local (hk : 2 ≤ d.kernel) (t : ℕ) :
    Lanes.Local (List.range d.dim) d.own d.reads (d.writes t) fun c m => d.row c m t where
  reads_own := reads_own
  writes_own i _ b a h := by
    cases b with
    | state => exact h
    | out => exact ⟨t, h⟩
  outside i _ m b a h := by
    cases b with
    | state => rw [row_state i t m hk, push_outside h]
    | out => rw [row_out, Function.update_of_ne h]
  inside i _ m m' h b a hw := by
    have hread : ∀ a, i * (d.kernel - 1) ≤ a → a < i * (d.kernel - 1) + (d.kernel - 1) →
        m .state a = m' .state a := fun a h0 h1 => h .state a ⟨h0, h1⟩
    cases b with
    | state =>
      rw [row_state i t m hk, row_state i t m' hk]
      exact push_congr hread hw.1 hw.2
    | out =>
      obtain rfl : a = d.out + i + t * d.outStride := hw
      rw [row_out, row_out, Function.update_self, Function.update_self, taps_congr hread]

/-- What a row does to all channels. -/
def rowSweep (d : ShortconvDesc K) (m : ConvMem K) (t : ℕ) : ConvMem K :=
  Lanes.sweep (fun c m => d.row c m t) (List.range d.dim) m

theorem segment_row (row0 n c t : ℕ) (m : ConvMem K) :
    (d.segment row0 n).row c m t = d.row c m (row0 + t) := by
  have hbx : (d.segment row0 n).bx c t = d.bx c (row0 + t) := by
    simp only [bx, segment]
    congr 2 <;> ring
  have hcol : row0 * d.inStride + (d.dim + c + t * d.inStride) =
      d.dim + c + (row0 + t) * d.inStride := by ring
  have hout : d.out + row0 * d.outStride + c + t * d.outStride =
      d.out + c + (row0 + t) * d.outStride := by ring
  simp only [row, put, hbx]
  simp only [segment, w, hcol, hout]

/-- The conditions that `cpu_shortconv` checks. -/
def Valid (d : ShortconvDesc K) : Prop :=
  1 ≤ d.dim ∧ 3 * d.dim ≤ d.inStride ∧ d.dim ≤ d.outStride ∧ 2 ≤ d.kernel

theorem cpuShortconv_eq (hd : d.Valid) (row0 : ℕ) {n : ℕ} (hn : 1 ≤ n) {chunks : List (ℕ × ℕ)}
    (htiles : Tiles d.dim chunks) (m : ConvMem K) :
    (d.segment row0 n).cpuShortconv chunks m = some ((List.range' row0 n).foldl d.rowSweep m) := by
  obtain ⟨hdim, hin, hout, hk⟩ := hd
  have hloop : ∀ c, (d.segment row0 n).channel c =
      fun m => (List.range' row0 n).foldl (fun m t => d.row c m t) m := by
    intro c
    funext m
    rw [channel_eq, List.range'_eq_map_range, List.foldl_map]
    refine List.foldl_ext _ _ _ fun m t _ => ?_
    rw [segment_row]
  have hbody : ∀ (chunk : ℕ × ℕ) (m : ConvMem K), (d.segment row0 n).shortconvCausalChunk chunk m =
      (List.range' chunk.1 (chunk.2 - chunk.1)).foldl
        (fun m c => (List.range' row0 n).foldl (fun m t => d.row c m t) m) m := by
    intro chunk m
    simp only [shortconvCausalChunk, hloop]
  have hlocal : Lanes.Local (List.range d.dim) d.own d.reads _ _ :=
    Lanes.Local.foldl reads_own (List.range' row0 n) fun t _ => row_local (d := d) hk t
  rw [cpuShortconv, if_neg (by simp only [segment]; omega)]
  simp only [hbody]
  rw [foldl_chunks (fun c m => (List.range' row0 n).foldl (fun m t => d.row c m t) m),
    ← Lanes.sweep, Lanes.sweep_perm (apart hout) hlocal List.nodup_range htiles,
    ← Lanes.foldl_sweep (apart hout) reads_own List.nodup_range _ fun t _ => row_local hk t]
  rfl

theorem cpuShortconv_invalid {n : ℕ} (hd : ¬ (d.Valid ∧ 1 ≤ n)) {row0 : ℕ} {chunks : List (ℕ × ℕ)}
    {m : ConvMem K} : (d.segment row0 n).cpuShortconv chunks m = none := by
  rw [cpuShortconv, if_pos]
  simp only [segment]
  unfold Valid at hd
  omega

/-- The calls for consecutive rows do what the rows do. -/
theorem shortconvCalls_eq (hd : d.Valid) (calls : List ShortconvCall)
    (hcalls : ∀ call ∈ calls, 1 ≤ call.rows ∧ Tiles d.dim call.chunks) (row0 : ℕ) (m : ConvMem K) :
    shortconvCalls d row0 calls m =
      some ((List.range' row0 (calls.map (·.rows)).sum).foldl d.rowSweep m) := by
  induction calls generalizing row0 m with
  | nil => rfl
  | cons call calls ih =>
    obtain ⟨hn, htiles⟩ := hcalls call (by simp)
    rw [shortconvCalls, cpuShortconv_eq hd row0 hn htiles, Option.bind_some,
      ih (fun c hc => hcalls c (by simp [hc])), List.map_cons, List.sum_cons, ← List.range'_append_1,
      List.foldl_append]

/-- Two ways of cutting the same rows into calls come to the same. -/
theorem shortconvCalls_cut (calls calls' : List ShortconvCall)
    (hcalls : ∀ call ∈ calls ++ calls', 1 ≤ call.rows ∧ Tiles d.dim call.chunks)
    (hsum : (calls.map (·.rows)).sum = (calls'.map (·.rows)).sum) (m : ConvMem K) :
    shortconvCalls d 0 calls m = shortconvCalls d 0 calls' m := by
  by_cases hd : d.Valid
  · rw [shortconvCalls_eq hd calls fun c hc => hcalls c (by simp [hc]),
      shortconvCalls_eq hd calls' (fun c hc => hcalls c (by simp [hc])), hsum]
  · have hrefused : ∀ calls : List ShortconvCall, calls ≠ [] → shortconvCalls d 0 calls m = none := by
      intro calls hne
      cases calls with
      | nil => exact absurd rfl hne
      | cons call calls => rw [shortconvCalls, cpuShortconv_invalid fun h => hd h.1, Option.bind_none]
    have hpos : ∀ calls : List ShortconvCall, (∀ call ∈ calls, 1 ≤ call.rows) →
        ((calls.map (·.rows)).sum = 0 ↔ calls = []) := by
      intro calls h
      cases calls with
      | nil => simp
      | cons call calls =>
        have := h call (by simp)
        simp
        omega
    have h := hpos calls fun c hc => (hcalls c (by simp [hc])).1
    have h' := hpos calls' fun c hc => (hcalls c (by simp [hc])).1
    by_cases hnil : calls = []
    · rw [hnil, h'.1 (hsum ▸ h.2 hnil)]
    · rw [hrefused calls hnil, hrefused calls' fun hnil' => hnil (h.1 (hsum.trans (h'.2 hnil')))]

/-- Two memories have the same state, and the same output up to a row. -/
def Agree (d : ShortconvDesc K) (n : ℕ) (m m' : ConvMem K) : Prop :=
  (∀ a < d.dim * (d.kernel - 1), m .state a = m' .state a) ∧
    ∀ t < n, ∀ c < d.dim,
      m .out (d.out + c + t * d.outStride) = m' .out (d.out + c + t * d.outStride)

/-- What a call after the `memset` computes does not depend on what was there. -/
theorem cpuShortconv_reset (n : ℕ) {chunks : List (ℕ × ℕ)} (htiles : Tiles d.dim chunks)
    (m m' : ConvMem K) :
    Option.Rel (d.Agree n) ((d.segment 0 n).cpuShortconv chunks (d.resetState m))
      ((d.segment 0 n).cpuShortconv chunks (d.resetState m')) := by
  by_cases hvalid : d.Valid ∧ 1 ≤ n
  · obtain ⟨hd, hn⟩ := hvalid
    have hzero : ∀ a < d.dim * (d.kernel - 1), ∀ m : ConvMem K, d.resetState m .state a = 0 := by
      intro a ha m
      simp [resetState, Strided.writeBlock, ha]
    have hstate : ∀ a < d.dim * (d.kernel - 1), d.resetState m .state a = d.resetState m' .state a :=
      fun a ha => (hzero a ha m).trans (hzero a ha m').symm
    have hread : ∀ c ∈ List.range d.dim, ∀ b a, d.reads c b a →
        d.resetState m b a = d.resetState m' b a := by
      intro c hc b a hr
      cases b with
      | out => exact hr.elim
      | state =>
        obtain ⟨x, rfl⟩ := Nat.exists_eq_add_of_le hr.1
        have := hr.2
        exact hstate _ (Strided.row_lt (List.mem_range.1 hc) (by omega))
    have hrows : ∀ t ∈ List.range' 0 n, _ := fun t _ => row_local (d := d) hd.2.2.2 t
    rw [cpuShortconv_eq hd 0 hn htiles, cpuShortconv_eq hd 0 hn htiles]
    refine .some ⟨fun a ha => ?_, fun t ht c hc => ?_⟩
    · exact Lanes.foldl_sweep_congr (apart hd.2.2.1) List.nodup_range _ hrows hread
        (.inl (hstate a ha))
    · exact Lanes.foldl_sweep_congr (apart hd.2.2.1) List.nodup_range _ hrows hread
        (.inr ⟨t, by simpa using ht, c, by simpa using hc, rfl⟩)
  · rw [cpuShortconv_invalid hvalid, cpuShortconv_invalid hvalid]
    exact .none

end ShortconvDesc

end Kappai
