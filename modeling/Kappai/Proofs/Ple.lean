import Kappai.Spec.Ple

/-! Every path to the per-layer embeddings gives the same, if they are where a layer looks for them. -/

namespace Kappai

namespace Ple

open ConvLayer (matmulBatch)

variable {R : Type*} [CommRing R] {M : Model R}

/-! ### Norms -/

omit [CommRing R] in
theorem rowAt_congr {x y : ℕ → R} {base n : ℕ} (h : ∀ j < n, x (base + j) = y (base + j)) :
    rowAt x base n = rowAt y base n := List.map_congr_left fun j hj => h j (List.mem_range.1 hj)

omit [CommRing R] in
/-- The rows of a buffer may be normed in two goes. -/
theorem rmsnormRows_append (x w : ℕ → R) (base n r r' : ℕ) :
    rmsnormRows M (rmsnormRows M x w base n r) w (base + r * n) n r' = rmsnormRows M x w base n (r + r') := by
  rw [rmsnormRows, rmsnormRows, rmsnormRows, Nat.add_mul, ← Nat.add_assoc]
  refine (putRange_congr _ fun c hc => ?_).trans
    (putRange_putRange x _ (Nat.le_add_right _ _) (Nat.le_add_right _ _))
  have hn : 0 < n := Nat.pos_of_mul_pos_left (Nat.zero_lt_of_lt hc)
  have hsub : base + r * n + c - base = r * n + c := by omega
  have hdiv : (r * n + c) / n = r + c / n := by rw [Nat.mul_comm, Nat.mul_add_div hn]
  have hbase : base + r * n + c / n * n = base + (r + c / n) * n := by ring
  rw [Nat.add_sub_cancel_left, hsub, hdiv, Nat.mul_add_mod', hbase]
  refine congrArg (fun row => M.rmsnorm row w M.eps (c % n)) (rowAt_congr fun j _ => if_neg ?_)
  have : r * n ≤ (r + c / n) * n := Nat.mul_le_mul_right n (Nat.le_add_right _ _)
  omega

omit [CommRing R] in
theorem rmsnormRows_zero (x w : ℕ → R) (base n : ℕ) : rmsnormRows M x w base n 0 = x := by
  rw [rmsnormRows, Nat.zero_mul, Nat.add_zero, putRange_self]

omit [CommRing R] in
/-- Layer by layer or all at once. -/
theorem normLayers_eq (batch : Bool) (x : ℕ → R) (base : ℕ) :
    normLayers M batch x base = rmsnormRows M x M.projNormW base M.d M.nLayers := by
  unfold normLayers
  split_ifs
  · rfl
  · induction M.nLayers with
    | zero => rw [List.range_zero, List.foldl_nil, rmsnormRows_zero]
    | succ n ih => rw [List.range_succ, List.foldl_append, List.foldl_cons, List.foldl_nil, ih, rmsnormRows_append]

omit [CommRing R] in
theorem normAll_eq (batch : Bool) (x : ℕ → R) (nRows : ℕ) :
    (List.range nRows).foldl (fun x row => normLayers M batch x (row * M.total)) x =
      rmsnormRows M x M.projNormW 0 M.d (nRows * M.nLayers) := by
  induction nRows with
  | zero => rw [List.range_zero, List.foldl_nil, Nat.zero_mul, rmsnormRows_zero]
  | succ n ih =>
    have hbase : n * M.total = 0 + n * M.nLayers * M.d := by rw [Model.total]; ring
    rw [List.range_succ, List.foldl_append, List.foldl_cons, List.foldl_nil, ih, normLayers_eq, hbase,
      rmsnormRows_append, Nat.succ_mul]

/-! ### The build -/

/-- The entries of a row are found after its number. -/
theorem index_row {w row e : ℕ} (he : e < w) : (row * w + e) / w = row ∧ (row * w + e) % w = e := by
  constructor
  · rw [Nat.mul_comm, Nat.mul_add_div (by omega), Nat.div_eq_of_lt he, Nat.add_zero]
  · rw [Nat.mul_add_mod', Nat.mod_eq_of_lt he]

theorem index_lt {w row n e : ℕ} (hrow : row < n) (he : e < w) : row * w + e < n * w := by
  have := Nat.mul_le_mul_right w (Nat.succ_le_of_lt hrow)
  rw [Nat.succ_mul] at this
  omega

/-- What both builds make of embeddings and projections that are right. -/
theorem combine_apply {tokens : Option (ℕ → ℕ)} {x ple proj : ℕ → R} {nRows row e : ℕ} (hrow : row < nRows)
    (he : e < M.total)
    (hple : ∀ e < M.total, ple (row * M.total + e) = M.embd (tokenAt tokens row) e * M.nEmbdSqrt)
    (hproj : ∀ e < M.total, proj (row * M.total + e) =
      (∑ i ∈ Finset.range M.dim, M.proj (e * M.dim + i) * x (row * M.dim + i)) * M.invSqrtPle) :
    combine M ple (rmsnormRows M proj M.projNormW 0 M.d (nRows * M.nLayers)) (nRows * M.total) (row * M.total + e) =
      pleOf M tokens x row e := by
  have hidx : row * M.total + e < nRows * M.total := index_lt hrow he
  have hd : 0 < M.d := by
    rw [Model.total] at he
    exact Nat.pos_of_mul_pos_right (Nat.zero_lt_of_lt he)
  have hsplit : row * M.total + e = row * M.nLayers * M.d + e := by rw [Model.total]; ring
  have hdiv : (row * M.total + e) / M.d = row * M.nLayers + e / M.d := by
    rw [hsplit, Nat.mul_comm (row * M.nLayers), Nat.mul_add_div hd]
  have hmod : (row * M.total + e) % M.d = e % M.d := by rw [hsplit, Nat.mul_add_mod']
  have hbase : (row * M.nLayers + e / M.d) * M.d = row * M.total + e / M.d * M.d := by rw [Model.total]; ring
  have hlayer : ∀ j < M.d, e / M.d * M.d + j < M.total := by
    intro j hj
    rw [Model.total, Nat.mul_comm M.d]
    exact index_lt ((Nat.div_lt_iff_lt_mul hd).2 (by rwa [Nat.mul_comm])) hj
  have hrange : 0 ≤ row * M.total + e ∧ row * M.total + e < 0 + nRows * M.nLayers * M.d := by
    refine ⟨Nat.zero_le _, ?_⟩
    rw [Nat.zero_add, show nRows * M.nLayers * M.d = nRows * M.total by rw [Model.total]; ring]
    exact hidx
  rw [combine, putRange, if_pos ⟨Nat.zero_le _, hidx⟩, hple e he, rmsnormRows, putRange, if_pos hrange, Nat.sub_zero,
    Nat.zero_add, hdiv, hmod, hbase, pleOf]
  refine congrArg (fun r => (M.embd (tokenAt tokens row) e * M.nEmbdSqrt + M.rmsnorm r M.projNormW M.eps (e % M.d)) *
    M.combineScale) (List.map_congr_left fun j hj => ?_)
  rw [Nat.add_assoc, hproj _ (hlayer j (List.mem_range.1 hj))]

/-- Scaling the first `n` entries. -/
theorem scaleInplace_of_lt {x : ℕ → R} {f : R} {n i : ℕ} (h : i < n) : scaleInplace x f n i = x i * f :=
  if_pos ⟨Nat.zero_le i, h⟩

theorem matmulBatch_apply {w x y : ℕ → R} {n k m row o : ℕ} (hrow : row < m) (ho : o < n) :
    matmulBatch w x y 0 n k m (row * n + o) = ∑ j ∈ Finset.range k, w (o * k + j) * x (row * k + j) := by
  have hidx : 0 ≤ row * n + o ∧ row * n + o < 0 + m * n := ⟨Nat.zero_le _, by rw [Nat.zero_add]; exact index_lt hrow ho⟩
  rw [matmulBatch, putRange, if_pos hidx, Nat.sub_zero, (index_row ho).1, (index_row ho).2]

/-- A product row by row is the product of all rows. -/
theorem matmul_rows (w x y : ℕ → R) (n k m : ℕ) :
    (List.range m).foldl (fun y row => matmulBatch w (fun i => x (row * k + i)) y (row * n) n k 1) y =
      matmulBatch w x y 0 n k m := by
  simp only [matmulBatch, Nat.one_mul, Nat.zero_add]
  rw [foldl_putRange_rows]
  refine putRange_congr_zero y fun c hc => ?_
  have hn : 0 < n := Nat.pos_of_mul_pos_left (Nat.zero_lt_of_lt hc)
  have hsub : c - c / n * n = c % n := by
    have := Nat.div_add_mod' c n
    omega
  simp only [Nat.sub_zero, hsub, Nat.mod_mod, Nat.div_eq_of_lt (Nat.mod_lt c hn), Nat.zero_mul, Nat.zero_add]

variable {tokens : Option (ℕ → ℕ)} {x : ℕ → R} {nRows : ℕ}

/-- `ple_all` has the embeddings of the rows. -/
def Holds (M : Model R) (tokens : Option (ℕ → ℕ)) (x : ℕ → R) (nRows : ℕ) (s : Scratch R) : Prop :=
  ∃ b, s.pleAll = some b ∧ ∀ row < nRows, ∀ e < M.total, b.data (row * M.total + e) = pleOf M tokens x row e

theorem buildRun_device (a : Backend) (hostBatch : Bool) (fresh : Option (ℕ → R)) (projHost : ℕ → R) (s : Scratch R) :
    Holds M tokens x nRows (buildRun M a hostBatch true tokens x nRows fresh projHost s) := by
  refine ⟨_, rfl, fun row hrow e he => ?_⟩
  simp only [normAll_eq]
  refine combine_apply hrow he (fun e he => ?_) fun e he => ?_
  · have hidx := index_lt hrow he
    rw [scaleInplace_of_lt hidx, foldl_putRange_rows, putRange, if_pos ⟨Nat.zero_le _, hidx⟩, (index_row he).1,
      Nat.add_sub_cancel_left]
  · rw [scaleInplace_of_lt (index_lt hrow he), matmulBatch_apply hrow he]

theorem buildRun_host {a : Backend} (hcopy : a.copyBuffer = true) (hostBatch : Bool) (fresh : Option (ℕ → R))
    (projHost : ℕ → R) (s : Scratch R) :
    Holds M tokens x nRows (buildRun M a hostBatch false tokens x nRows fresh projHost s) := by
  refine ⟨_, rfl, fun row hrow e he => ?_⟩
  simp only [hcopy, if_true, normAll_eq, matmul_rows]
  rw [putRange, if_pos ⟨Nat.zero_le _, index_lt hrow he⟩]
  refine combine_apply hrow he (fun e he => ?_) fun e he => ?_
  · rw [foldl_putRange_rows, putRange, if_pos ⟨Nat.zero_le _, index_lt hrow he⟩, (index_row he).1,
      Nat.add_sub_cancel_left]
  · rw [scaleInplace_of_lt (index_lt hrow he), matmulBatch_apply hrow he]

/-! ### The steps of the layers -/

variable {ple : ℕ → ℕ → R} {s bs : Scratch R} {a : Backend} {li : ℕ}

omit [CommRing R] in
theorem sliceInPlace_rows (h : sliceInPlace a nRows s = true) : nRows = 1 := by
  simp only [sliceInPlace, Bool.and_eq_true, beq_iff_eq] at h
  exact h.1.2

/-- The slice of a row, in place or copied. -/
theorem injectSlice_of_all {b : DevBuf R} (h : s.pleAll = some b) {row e : ℕ} (hrow : row < nRows) (he : e < M.d) :
    injectSlice M a li nRows s bs (row * M.d + e) = b.data (row * M.total + (li * M.d + e)) := by
  unfold injectSlice
  split_ifs with hplace
  · obtain rfl : row = 0 := by
      have := sliceInPlace_rows hplace
      omega
    simp only [h, Option.map_some, Option.getD_some, Nat.zero_mul, Nat.zero_add]
  all_goals
    simp only [copySlice, h]
    rw [foldl_putRange_rows, putRange, if_pos ⟨Nat.zero_le _, index_lt hrow he⟩, (index_row he).1,
      Nat.add_sub_cancel_left, Nat.add_assoc]

theorem injectSlice_apply (h : Holds M tokens x nRows s) (hli : li < M.nLayers) {row e : ℕ} (hrow : row < nRows)
    (he : e < M.d) : injectSlice M a li nRows s bs (row * M.d + e) = pleOf M tokens x row (li * M.d + e) := by
  obtain ⟨b, hb, hdata⟩ := h
  have hcol : li * M.d + e < M.total := by
    rw [Model.total, Nat.mul_comm M.d]
    exact index_lt hli he
  rw [injectSlice_of_all hb hrow he]
  exact hdata row hrow _ hcol

theorem inject_keeps [DecidableEq R] (a : Backend) (li nRows : ℕ) (src bs : Scratch R) (x aob : ℕ → R) :
    (inject M a li nRows src bs x aob).1.pleAll = bs.pleAll := by
  simp only [inject]
  split_ifs <;> rfl

/-- The two ways to the activation projection. -/
theorem down_eq (fused : Bool) (gate slice aob w : ℕ → R) (n d : ℕ) :
    matmulBatch w (if fused then fun i => M.gelu (gate i) * slice i
        else putRange gate 0 (nRows * d) fun i => M.gelu (gate i) * slice i) aob 0 n d nRows =
      matmulBatch w (fun i => M.gelu (gate i) * slice i) aob 0 n d nRows := by
  cases fused with
  | true => rfl
  | false =>
    simp only [Bool.false_eq_true, if_false, matmulBatch]
    refine putRange_congr aob fun c hc => Finset.sum_congr rfl fun j hj => ?_
    have hn : 0 < n := Nat.pos_of_mul_pos_left (Nat.zero_lt_of_lt hc)
    simp only [Nat.zero_add, Nat.sub_zero]
    rw [putRange, if_pos ⟨Nat.zero_le _, index_lt ((Nat.div_lt_iff_lt_mul hn).2 hc) (Finset.mem_range.1 hj)⟩]

/-- The result of a step, with either variant of both parts. -/
theorem inject_apply [DecidableEq R] {x aob : ℕ → R} {src : Scratch R}
    (hslice : ∀ row < nRows, ∀ e < M.d, injectSlice M a li nRows src bs (row * M.d + e) = ple row (li * M.d + e))
    (c : ℕ) : (inject M a li nRows src bs x aob).2 c =
      if c < nRows * M.dim then injectOf M li (fun e => ple (c / M.dim) (li * M.d + e)) x c * M.outScale li
      else x c := by
  have hdown : ∀ row < nRows, ∀ o < M.dim, matmulBatch (M.projW li)
      (if a.ffnDownBatch then fun i => M.gelu (matmulBatch (M.gateW li) x
          (if a.isHost then bs.pleInp else bs.pleInpDev) 0 M.d M.dim nRows i) * injectSlice M a li nRows src bs i
        else putRange (matmulBatch (M.gateW li) x (if a.isHost then bs.pleInp else bs.pleInpDev) 0 M.d M.dim nRows) 0
          (nRows * M.d) fun i => M.gelu (matmulBatch (M.gateW li) x
            (if a.isHost then bs.pleInp else bs.pleInpDev) 0 M.d M.dim nRows i) * injectSlice M a li nRows src bs i)
      aob 0 M.dim M.d nRows (row * M.dim + o) =
      ∑ j ∈ Finset.range M.d, M.projW li (o * M.d + j) *
        (M.gelu (∑ i ∈ Finset.range M.dim, M.gateW li (j * M.dim + i) * x (row * M.dim + i)) *
          ple row (li * M.d + j)) := by
    intro row hrow o ho
    rw [down_eq, matmulBatch_apply hrow ho]
    refine Finset.sum_congr rfl fun j hj => ?_
    have hj := Finset.mem_range.1 hj
    rw [matmulBatch_apply hrow hj, hslice row hrow j hj]
  simp only [inject]
  generalize matmulBatch (M.projW li) _ aob 0 M.dim M.d nRows = down at hdown ⊢
  have hrow : ∀ c < nRows * M.dim, rowAt down (c / M.dim * M.dim) M.dim = (List.range M.dim).map fun o =>
      ∑ j ∈ Finset.range M.d, M.projW li (o * M.d + j) *
        (M.gelu (∑ i ∈ Finset.range M.dim, M.gateW li (j * M.dim + i) * x (c / M.dim * M.dim + i)) *
          ple (c / M.dim) (li * M.d + j)) := by
    intro c hc
    have hdim : 0 < M.dim := Nat.pos_of_mul_pos_left (Nat.zero_lt_of_lt hc)
    exact List.map_congr_left fun o ho =>
      hdown _ ((Nat.div_lt_iff_lt_mul hdim).2 hc) o (List.mem_range.1 ho)
  by_cases hc : c < nRows * M.dim
  · have hin : 0 ≤ c ∧ c < nRows * M.dim := ⟨Nat.zero_le c, hc⟩
    cases a.rmsnormAddBatch with
    | true =>
      simp only [if_true, putRange, if_pos hin, if_pos hc, hrow c hc, injectOf]
      ring
    | false =>
      have hsum : (putRange x 0 (nRows * M.dim) fun c =>
          x c + rmsnormRows M down (M.postNormW li) 0 M.dim nRows c) c =
          injectOf M li (fun e => ple (c / M.dim) (li * M.d + e)) x c := by
        simp only [putRange, rmsnormRows, if_pos hin, Nat.sub_zero, Nat.zero_add, hrow c hc, injectOf]
      simp only [Bool.false_eq_true, if_false, if_pos hc]
      split_ifs with hscale
      · rw [scaleInplace_of_lt hc, hsum]
      · rw [hsum, not_not.1 hscale, mul_one]
  · have hout : ∀ (y f : ℕ → R), putRange y 0 (nRows * M.dim) f c = y c := fun y f => if_neg fun h => hc h.2
    cases a.rmsnormAddBatch with
    | true => simp only [if_true, hout, if_neg hc]
    | false =>
      simp only [Bool.false_eq_true, if_false, if_neg hc]
      split_ifs
      · rw [scaleInplace, hout, hout]
      · rw [hout]

theorem stepRight_of_holds [DecidableEq R] {s : Scratches R} (h : Holds M tokens x nRows (s 0)) {st : Step R}
    (hli : st.li < M.nLayers) : StepRight M nRows (pleOf M tokens x) s st := by
  have hslice : ∀ row < nRows, ∀ e < M.d, injectSlice M st.a st.li nRows (s 0) (s st.device) (row * M.d + e) =
      pleOf M tokens x row (st.li * M.d + e) := fun row hrow e he => injectSlice_apply h hli hrow he
  exact ⟨hslice, inject_apply hslice⟩

theorem runStep_holds [DecidableEq R] {s : Scratches R} (h : Holds M tokens x nRows (s 0)) (st : Step R) :
    Holds M tokens x nRows (runStep M nRows s st 0) := by
  obtain ⟨b, hb, hdata⟩ := h
  refine ⟨b, ?_, hdata⟩
  by_cases hdev : st.device = 0
  · rw [runStep, hdev, Function.update_self, inject_keeps, hb]
  · rw [runStep, Function.update_of_ne (Ne.symm hdev), hb]

theorem runRight_of_holds [DecidableEq R] {s : Scratches R} (h : Holds M tokens x nRows (s 0)) {steps : List (Step R)}
    (hli : ∀ st ∈ steps, st.li < M.nLayers) : RunRight M nRows (pleOf M tokens x) s steps := by
  induction steps generalizing s with
  | nil => trivial
  | cons st steps ih =>
    exact ⟨stepRight_of_holds h (hli st List.mem_cons_self),
      ih (runStep_holds h st) fun st' hst' => hli st' (List.mem_cons_of_mem _ hst')⟩

/-- Without a copy a build on the host leaves `ple_all` as it was. -/
theorem buildRun_stale (M : Model R) {a : Backend} (hcopy : a.copyBuffer = false) (hostBatch : Bool)
    (tokens : Option (ℕ → ℕ)) (x : ℕ → R) (nRows : ℕ) (projHost : ℕ → R) {s : Scratch R} {b : DevBuf R} (hs : s.pleAll = some b) :
    (buildRun M a hostBatch false tokens x nRows none projHost s).pleAll = some ⟨a.id, b.data⟩ := by
  simp only [buildRun, Bool.false_eq_true, if_false, hcopy, hs, ensureAll, Option.map_some, Option.getD_some]

/-- All steps after a build are right just in case it was made on the device, or its result was copied there. -/
theorem pleBuild_spec [DecidableEq R] [Nontrivial R] (M : Model R) (a : Backend) (hostBatch dev : Bool)
    (tokens : Option (ℕ → ℕ)) (x : ℕ → R) (nRows : ℕ) (hlayers : 0 < M.nLayers) (hd : 0 < M.d) (hrows : 0 < nRows) :
    BuildRight M a hostBatch dev tokens x nRows ↔ dev = true ∨ a.copyBuffer = true := by
  constructor
  · intro hright
    by_contra hneither
    rw [not_or, Bool.not_eq_true, Bool.not_eq_true] at hneither
    obtain ⟨rfl, hcopy⟩ := hneither
    let stale : Scratch R := ⟨some ⟨a.id, fun i => pleOf M tokens x 0 i + 1⟩, 0, 0, 0, 0, 0, 0, 0⟩
    have hstale := buildRun_stale M hcopy hostBatch tokens x nRows 0
      (show stale.pleAll = some _ from rfl)
    obtain ⟨⟨hslice, -⟩, -⟩ := hright none 0 (fun _ => stale) [⟨a, 0, 0, 0, 0⟩]
      (by simpa using hlayers)
    have hfirst := hslice 0 hrows 0 hd
    simp only [Function.update_self] at hfirst
    rw [injectSlice_of_all hstale hrows hd] at hfirst
    simp only [Nat.zero_mul, Nat.zero_add, add_eq_left, one_ne_zero] at hfirst
  · intro hcond fresh projHost s steps hli
    refine runRight_of_holds ?_ hli
    rw [Function.update_self]
    cases dev with
    | true => exact buildRun_device a hostBatch fresh projHost (s 0)
    | false => exact buildRun_host (hcond.resolve_left Bool.false_ne_true) hostBatch fresh projHost (s 0)

section Examples

/-- One layer of two entries, on rows of one float. The norm of a row is the row. -/
def plainModel : Model ℤ where
  nLayers := 1
  d := 2
  dim := 1
  embd := fun tok e => 10 * tok + e
  proj := fun i => i + 1
  projNormW := fun _ => 1
  nEmbdSqrt := 2
  invSqrtPle := 1
  combineScale := 3
  eps := 0
  gateW := fun _ _ => 1
  projW := fun _ _ => 1
  postNormW := fun _ _ => 1
  outScale := fun _ => 1
  gelu := id
  rmsnorm := fun x _ _ i => x.getD i 0

/-- A device that can copy no buffers. -/
def plainBackend : Backend := ⟨1, false, false, true, true, true⟩

theorem pleBuild_spec_of_device :
    BuildRight plainModel plainBackend true true (some fun row => row) (fun row => row) 3 ↔
      true = true ∨ plainBackend.copyBuffer = true :=
  pleBuild_spec plainModel plainBackend true true (some fun row => row) (fun row => row) 3 (by decide) (by decide)
    (by decide)

def staleScratch : Scratch ℤ := ⟨some ⟨1, fun _ => 7⟩, 0, 0, 0, 0, 0, 0, 0⟩

/-- A build on the host for a device that can copy no buffers: the embeddings of token 4 begin with 243, and the
layer takes the 7 that was in `ple_all`. -/
theorem pleBuild_of_host :
    let s := buildRun plainModel plainBackend true false (some fun _ => 4) (fun _ => 1) 1 none (fun _ => 0) staleScratch
    s.pleBuf 0 = 243 ∧ injectSlice plainModel plainBackend 0 1 s s 0 = 7 ∧
    ¬ BuildRight plainModel plainBackend true false (some fun _ => 4) (fun _ => 1) 1 := by
  refine ⟨by decide +kernel, by decide +kernel, fun h => ?_⟩
  obtain ⟨⟨hslice, -⟩, -⟩ := h none (fun _ => 0) (fun _ => staleScratch) [⟨plainBackend, 0, 0, 0, 0⟩] (by simp [plainModel])
  exact absurd (hslice 0 (by decide) 0 (by decide)) (by decide +kernel)

end Examples

end Ple

end Kappai
