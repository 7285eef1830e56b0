import Kappai.Sanity.QuantBlocks

/-! The scalar kernels compute the dot product of the dequantised row with the dequantised input, and no
integer of theirs leaves 32 bits. -/

namespace Kappai.Quants

open Checked Finset

variable {F : Type} [Field F] (C : Floats F)

/-! ### Quantising -/

theorem forUp_update {α β : Type} {n : ℕ} {g : ℕ → Option β} {b : ℕ → β} (f : β → α)
    (h : ∀ i < n, g i = some (b i)) (dst : ℕ → α) :
    forUp n (fun i dst => do
      let b ← g i
      some (Function.update dst i (f b))) dst = some (putRange dst 0 n fun i => f (b i)) := by
  have hrun := forUp_eq (n := n) (f := fun i dst => do
      let b ← g i
      some (Function.update dst i (f b))) (fun i => putRange dst 0 i fun i => f (b i)) fun i hi => by
    rw [h i hi, Option.bind_eq_bind, Option.bind_some, putRange_succ dst (fun i => f (b i)) (Nat.zero_le i)]
  rw [putRange_self] at hrun
  exact hrun

theorem forUp_sum {n : ℕ} {f : ℕ → ℤ} {B : ℤ} (h : ∀ j < n, |f j| ≤ B) (hn : n * B < 2147483648) :
    forUp n (fun j s => int32 (s + f j)) 0 = some (∑ j ∈ range n, f j) := by
  refine forUp_eq (fun i => ∑ j ∈ range i, f j) fun i hi => ?_
  rw [int32_eq (lt_of_le_of_lt ((abs_add_le _ _).trans (prefix_abs_le h hi)) hn), sum_range_succ]

omit [Field F] in
theorem quantizeValue_abs (x : F) : |quantizeValue C x| ≤ 127 := by
  simp only [quantizeValue]
  split_ifs <;> exact abs_le.2 ⟨by omega, by omega⟩

theorem quantizeQ8_32block_some [LinearOrder F] (x : ℕ → F) : ∃ b, quantizeQ8_32block C x = some b := by
  rw [quantizeQ8_32block, forUp_sum (fun j _ => quantizeValue_abs C _) (by norm_num)]
  exact ⟨_, rfl⟩

theorem quantizeQ8_0_some [LinearOrder F] (x : ℕ → F) (n : ℕ) (dst : ℕ → Q8_0Block) :
    ∃ xq, quantizeQ8_0 C x n dst = some xq := by
  choose b hb using fun i => quantizeQ8_32block_some C fun j => x (i * 32 + j)
  exact ⟨_, forUp_update id (fun i _ => hb i) dst⟩

theorem quantSums_some (qs : ℕ → Int8) : ∃ bs, quantSums qs = some bs ∧
    ∀ j < 16, (bs j).toInt = ∑ ii ∈ range 16, (qs (j * 16 + ii)).toInt := by
  refine ⟨_, forUp_update Int16.ofInt (fun j _ => forUp_sum (fun ii _ => int8_abs (qs (j * 16 + ii)))
    (by norm_num)) _, fun j hj => ?_⟩
  have hsum := abs_le.1 (sum_abs_le (n := 16) fun ii _ => int8_abs (qs (j * 16 + ii)))
  rw [putRange, if_pos ⟨Nat.zero_le j, hj⟩]
  exact Int16.toInt_ofInt_of_le (by norm_num at hsum ⊢; omega) (by norm_num at hsum ⊢; omega)

omit [Field F] in
theorem summed_some (d : F) (qs : ℕ → Int8) :
    ∃ b : Q8KBlock F, ((quantSums qs).bind fun bsums => some ⟨d, qs, bsums⟩) = some b ∧ b.Summed := by
  obtain ⟨bs, hbs, hsum⟩ := quantSums_some qs
  exact ⟨⟨d, qs, bs⟩, by rw [hbs, Option.bind_some], hsum⟩

theorem quantizeQ8KBlock_some [LinearOrder F] (x : ℕ → F) : ∃ b, quantizeQ8KBlock C x = some b ∧ b.Summed := by
  rw [quantizeQ8KBlock]
  split_ifs
  · exact ⟨_, rfl, fun j _ => by simp⟩
  · exact summed_some _ _

theorem quantizeQ8K_some [LinearOrder F] (x : ℕ → F) (n : ℕ) (y : ℕ → Q8KBlock F) :
    ∃ xq, quantizeQ8K C x n y = some xq ∧ ∀ bi < n / 256, (xq bi).Summed := by
  choose b hb hsum using fun i => quantizeQ8KBlock_some C fun j => x (i * 256 + j)
  refine ⟨_, forUp_update id (fun i _ => hb i) y, fun bi hbi => ?_⟩
  rw [putRange, if_pos ⟨Nat.zero_le bi, hbi⟩]
  exact hsum bi

/-! ### The dot products -/

/-- A dequantised row times the dequantised input, summed block by block. -/
theorem sum_blocks {qk nb : ℕ} (hqk : 0 < qk) {dq : ℕ → F} {cell x : ℕ → ℕ → F}
    (hcell : ∀ bi < nb, ∀ j < qk, dq (bi * qk + j) = cell bi j) :
    ∑ bi ∈ range nb, ∑ j ∈ range qk, cell bi j * x bi j =
      ∑ e ∈ range (nb * qk), dq e * x (e / qk) (e % qk) := by
  rw [sum_range_mul]
  refine sum_congr rfl fun bi hbi => sum_congr rfl fun j hj => ?_
  have hj := mem_range.1 hj
  rw [hcell bi (mem_range.1 hbi) j hj, Nat.add_comm, Nat.add_mul_div_right _ _ hqk, Nat.div_eq_of_lt hj,
    Nat.zero_add, Nat.add_mul_mod_self_right, Nat.mod_eq_of_lt hj]

/-- The dequantised input at `e`. -/
def q8_0Input (xq : ℕ → Q8_0Block) (e : ℕ) : F := C.f16ToF32 (xq (e / 32)).d * (((xq (e / 32)).qs (e % 32)).toInt : F)

/-- The dequantised input at `e`. -/
def q8KInput (xq : ℕ → Q8KBlock F) (e : ℕ) : F := (xq (e / 256)).d * (((xq (e / 256)).qs (e % 256)).toInt : F)

/-- What the rows come out as, read off the output. -/
theorem rows_result {o : Option (ℕ → F)} {y : ℕ → F} {out n nb qk : ℕ} (hqk : 0 < qk) {cell : ℕ → ℕ → ℕ → F}
    {x : ℕ → ℕ → F} {dq : ℕ → (ℕ → F) → ℕ → F}
    (ho : o = some (putRange y out (out + n) (rowSums (fun i bi => ∑ j ∈ range qk, cell i bi j * x bi j) nb out)))
    (hcell : ∀ i dst, ∀ bi < nb, ∀ j < qk, dq i dst (bi * qk + j) = cell i bi j) :
    ∃ y', o = some y' ∧ ∀ i < n, ∀ dst, y' (out + i) =
      ∑ e ∈ range (nb * qk), dq i dst e * x (e / qk) (e % qk) := by
  refine ⟨_, ho, fun i hi dst => ?_⟩
  rw [putRange, if_pos ⟨Nat.le_add_right out i, Nat.add_lt_add_left hi out⟩, rowSums, Nat.add_sub_cancel_left,
    sum_blocks hqk (hcell i dst)]

theorem q8QonlyRow_eq (dq : Bytes → ℕ → (ℕ → F) → ℕ → F) {size : ℕ}
    {dot : Bytes → (ℕ → Int8) → F → F → Option F} {cell : Bytes → ℕ → F}
    (hdot : ∀ p xq8 dXq acc, dot p xq8 dXq acc =
      some (acc + ∑ j ∈ range 32, cell p j * (dXq * ((xq8 j).toInt : F))))
    (hcell : ∀ p nb dst, ∀ bi < nb, ∀ j < 32, dq p nb dst (bi * 32 + j) = cell (p.after (bi * size)) j)
    (w : Bytes) (xq : ℕ → Q8_0Block) (n nb : ℕ) (y : ℕ → F) (out : ℕ) :
    ∃ y', q8QonlyRow C w xq n (nb * 32) y out size dot = some y' ∧
      ∀ i < n, ∀ dst, y' (out + i) =
        ∑ e ∈ range (nb * 32), dq (w.after (i * (nb * size))) nb dst e * q8_0Input C xq e := by
  have hk : nb * 32 / 32 = nb := Nat.mul_div_cancel nb (by norm_num)
  have hadds : Adds (dotQ8_0 C w xq (nb * 32) size dot) n nb fun i bi =>
      ∑ j ∈ range 32, cell ((w.after (i * (nb * size))).after (bi * size)) j *
        (C.f16ToF32 (xq bi).d * (((xq bi).qs j).toInt : F)) := fun i _ bi _ acc => by
    rw [dotQ8_0, hk, hdot]
  have hrun := tiledRows_eq hadds (fun i hi => tileSumsBlocked_eq hadds hi) y out
  rw [q8QonlyRow, hk]
  exact rows_result (x := fun bi j => C.f16ToF32 (xq bi).d * (((xq bi).qs j).toInt : F)) (by norm_num) hrun
    fun i dst => hcell (w.after (i * (nb * size))) nb dst

theorem dotQ8K_adds (size : ℕ) {nb : ℕ} {dot : Bytes → Q8KBlock F → F → Option F} {cell : Bytes → ℕ → F}
    {xq : ℕ → Q8KBlock F} (hxq : ∀ bi < nb, (xq bi).Summed)
    (hdot : ∀ p xb, xb.Summed → ∀ acc, dot p xb acc =
      some (acc + ∑ j ∈ range 256, cell p j * (xb.d * ((xb.qs j).toInt : F)))) (w : Bytes) (n : ℕ) :
    Adds (dotQ8K w xq (nb * 256) size dot) n nb fun i bi =>
      ∑ j ∈ range 256, cell ((w.after (i * (nb * size))).after (bi * size)) j *
        ((xq bi).d * (((xq bi).qs j).toInt : F)) := fun i _ bi hbi acc => by
  rw [dotQ8K, Nat.mul_div_cancel nb (by norm_num), hdot _ _ (hxq bi hbi)]

theorem q8KQonlyRow_eq (dq : Bytes → ℕ → (ℕ → F) → ℕ → F) {size nb : ℕ}
    {dot : Bytes → Q8KBlock F → F → Option F} {cell : Bytes → ℕ → F} {xq : ℕ → Q8KBlock F} (hxq : ∀ bi < nb, (xq bi).Summed)
    (hdot : ∀ p xb, xb.Summed → ∀ acc, dot p xb acc =
      some (acc + ∑ j ∈ range 256, cell p j * (xb.d * ((xb.qs j).toInt : F))))
    (hcell : ∀ p nb dst, ∀ bi < nb, ∀ j < 256, dq p nb dst (bi * 256 + j) = cell (p.after (bi * size)) j)
    (w : Bytes) (n : ℕ) (y : ℕ → F) (out : ℕ) :
    ∃ y', q8KQonlyRow w xq n (nb * 256) y out size dot = some y' ∧
      ∀ i < n, ∀ dst, y' (out + i) =
        ∑ e ∈ range (nb * 256), dq (w.after (i * (nb * size))) nb dst e * q8KInput xq e := by
  have hadds := dotQ8K_adds size hxq hdot w n
  have hrun := tiledRows_eq hadds (fun i hi => tileSums_eq hadds hi) y out
  rw [q8KQonlyRow, Nat.mul_div_cancel nb (by norm_num)]
  exact rows_result (x := fun bi j => (xq bi).d * (((xq bi).qs j).toInt : F)) (by norm_num) hrun
    fun i dst => hcell (w.after (i * (nb * size))) nb dst

theorem halves_map {α β : Type*} (f : α → β) (lo hi : ℕ → α) (j : ℕ) :
    f (halves lo hi j) = halves (fun j => f (lo j)) (fun j => f (hi j)) j := apply_ite f _ _ _

theorem kvaluesIq4nl_abs (i : ℕ) : |kvaluesIq4nl i| ≤ 128 := by
  have htable : ∀ x ∈ [-127, -104, -83, -65, -49, -35, -22, -10, 1, 13, 25, 38, 53, 69, 89, (113 : ℤ)], |x| ≤ 128 := by
    decide
  rw [kvaluesIq4nl, List.getD_eq_getElem?_getD]
  cases hx : [-127, -104, -83, -65, -49, -35, -22, -10, 1, 13, 25, 38, 53, 69, 89, (113 : ℤ)][i]? with
  | none => simp
  | some x => exact htable x (List.mem_of_getElem? hx)

theorem sub_abs_le {v c b : ℕ} (hv : v ≤ b) (hc : c ≤ b) : |(v : ℤ) - c| ≤ b :=
  abs_le.2 ⟨by omega, by omega⟩

theorem Q5_0Block.quant_le (blk : Q5_0Block) (j : ℕ) : blk.lo j ≤ 31 ∧ blk.hi j ≤ 31 := by
  have hbit : ∀ x, ((x &&& 1) <<< 4) < 2 ^ 5 := fun x => by
    have := Nat.and_le_right (n := x) (m := 1)
    rw [Nat.shiftLeft_eq]
    omega
  exact ⟨Nat.lt_succ_iff.1 (Nat.or_lt_two_pow (lt_of_le_of_lt (low_le _) (by norm_num)) (hbit _)),
    Nat.lt_succ_iff.1 (Nat.or_lt_two_pow (lt_of_le_of_lt (high_le _) (by norm_num)) (hbit _))⟩

theorem q8_0Weight_kernel (t : Q8_0Weight) (w : Bytes) (xq : ℕ → Q8_0Block) (n nb : ℕ) (y : ℕ → F) (out : ℕ) :
    ∃ y', t.kernel C w xq n (nb * 32) y out = some y' ∧
      ∀ i < n, ∀ dst, y' (out + i) =
        ∑ e ∈ range (nb * 32), t.dequantRow C (w.after (i * (nb * t.size))) nb dst e * q8_0Input C xq e := by
  cases t with
  | q4_0 =>
    refine q8QonlyRow_eq C (dequantQ4_0Row C) (fun p => halvesDot_eq C (fun j _ => ?_) (fun j _ => ?_) _)
      (fun p nb dst bi hbi j hj => ?_) w xq n nb y out
    · exact (sub_abs_le (low_le _) (by norm_num)).trans (by norm_num)
    · exact (sub_abs_le (high_le _) (by norm_num)).trans (by norm_num)
    · have hlow := fun j => int8_eq ((natCast_abs_le (low_le ((Q4_0Block.read (p.after (bi * 18))).qs j))).trans
        (by norm_num))
      have hhigh := fun j => int8_eq ((natCast_abs_le (high_le ((Q4_0Block.read (p.after (bi * 18))).qs j))).trans
        (by norm_num))
      rw [dequantQ4_0Row, dequantHalves_cell dst _ _ hbi hj, halves_map (fun x : ℤ => C.f16ToF32 _ * (x : F))]
      simp only [hlow, hhigh, mul_comm]
  | q5_0 =>
    refine q8QonlyRow_eq C (dequantQ5_0Row C) (fun p => halvesDot_eq C (fun j _ => ?_) (fun j _ => ?_) _)
      (fun p nb dst bi hbi j hj => ?_) w xq n nb y out
    · exact (sub_abs_le (Q5_0Block.quant_le _ j).1 (by norm_num)).trans (by norm_num)
    · exact (sub_abs_le (Q5_0Block.quant_le _ j).2 (by norm_num)).trans (by norm_num)
    · rw [dequantQ5_0Row, dequantHalves_cell dst _ _ hbi hj, halves_map (fun x : ℤ => C.f16ToF32 _ * (x : F))]
      simp only [mul_comm]
  | q8_0 =>
    refine q8QonlyRow_eq C (dequantQ8_0Row C) (fun p => q8_0Dot_eq C (.read p))
      (fun p nb dst bi hbi j hj => ?_) w xq n nb y out
    refine foldl_range_fills hbi (fun dst => ?_) (fun i hi hne dst => ?_) dst
    · refine foldl_range_fills hj (fun dst => ?_) (fun i hi hne dst => ?_) dst
      · rw [Function.update_self, mul_comm]
      · rw [Function.update_of_ne (by omega)]
    · refine foldl_range_keeps (fun i' hi' dst => ?_) dst
      rw [Function.update_of_ne (by omega)]
  | iq4Nl =>
    refine q8QonlyRow_eq C (dequantIq4NlRow C) (fun p => halvesDot_eq C (fun j _ => kvaluesIq4nl_abs _)
      (fun j _ => kvaluesIq4nl_abs _) _) (fun p nb dst bi hbi j hj => ?_) w xq n nb y out
    rw [dequantIq4NlRow, dequantHalves_cell dst _ _ hbi hj, halves_map (fun x : ℤ => C.f16ToF32 _ * (x : F))]

/-! ### The types that are dequantised first -/

/-- The dequantiser fills the cells of its blocks. -/
def Fills (dq : Bytes → ℕ → (ℕ → F) → ℕ → F) : Prop := ∀ p nb, FillsRange (dq p nb) 0 (0 + nb * 256)

theorem dequantIq2XxsRow_fills (T : IqTables) : Fills (dequantIq2XxsRow C T) := fun p nb =>
  .loop fun bi _ => .loop (n := 8) (w := 32) fun ib _ => .loop (n := 4) (w := 8) fun l _ =>
    .loop (n := 8) (w := 1) fun j _ => by
      simp only [Nat.zero_add, Nat.mul_one]
      exact .update _ _

theorem dequantIq3XxsRow_fills (T : IqTables) : Fills (dequantIq3XxsRow C T) := fun p nb =>
  .loop fun bi _ => .loop (n := 8) (w := 32) fun ib _ => .loop (n := 4) (w := 8) fun l _ => by
    rw [Nat.zero_add]
    exact .loop_pair

theorem dequantIq2SRow_fills (T : IqTables) : Fills (dequantIq2SRow C T) := fun p nb =>
  .loop fun bi _ => .loop (n := 8) (w := 32) fun ib _ => .loop (n := 4) (w := 8) fun l _ =>
    .loop (n := 8) (w := 1) fun j _ => by
      simp only [Nat.zero_add, Nat.mul_one]
      exact .update _ _

theorem dequantIq4XsRow_fills : Fills (dequantIq4XsRow C) := fun p nb =>
  .loop fun bi _ => .loop (n := 8) (w := 32) fun ib _ => by
    rw [Nat.zero_add]
    exact .loop_pair

theorem foldl_sum (f : ℕ → F) (n : ℕ) : (List.range n).foldl (fun acc j => acc + f j) 0 = ∑ j ∈ range n, f j := by
  induction n with
  | zero => rfl
  | succ n ih => rw [List.range_succ, List.foldl_append, ih, List.foldl_cons, List.foldl_nil, sum_range_succ]

/-- The dequantised input in its buffer. -/
theorem xf_cell (xq : ℕ → Q8KBlock F) (nb : ℕ) (xf : ℕ → F) {e : ℕ} (he : e < nb * 256) :
    (List.range nb).foldl (fun xf bi => (List.range 256).foldl (fun xf j =>
      Function.update xf (bi * 256 + j) ((xq bi).d * (((xq bi).qs j).toInt : F))) xf) xf e = q8KInput xq e := by
  refine foldl_range_fills (j := e / 256) (by omega) (fun xf => ?_) (fun i hi hne xf => ?_) xf
  · refine foldl_range_fills (j := e % 256) (by omega) (fun xf => ?_) (fun j hj hne xf => ?_) xf
    · rw [show e / 256 * 256 + e % 256 = e by omega, Function.update_self]
      rfl
    · rw [Function.update_of_ne (by omega)]
  · exact foldl_range_keeps (fun j hj xf => Function.update_of_ne (by omega) _ _) xf

/-- The rows of one input, whatever the buffer of the weights held before. -/
theorem iqRows_cell {dq : Bytes → ℕ → (ℕ → F) → ℕ → F} (hdq : Fills dq) (wb : ℕ) (w : Bytes) (xf : ℕ → F)
    (s : (ℕ → F) × (ℕ → F) × (ℕ → F)) (out n nb : ℕ) {i : ℕ} (hi : i < n) (dst : ℕ → F) :
    ((List.range n).foldl (fun (s : (ℕ → F) × (ℕ → F) × (ℕ → F)) i =>
      (Function.update s.1 (out + i) ((List.range (nb * 256)).foldl (fun acc j =>
        acc + dq (w.after (i * wb)) nb s.2.2 j * xf j) 0), xf, dq (w.after (i * wb)) nb s.2.2)) s).1 (out + i) =
      ∑ e ∈ range (nb * 256), dq (w.after (i * wb)) nb dst e * xf e := by
  induction n with
  | zero => exact absurd hi (Nat.not_lt_zero i)
  | succ n ih =>
    rw [List.range_succ, List.foldl_append, List.foldl_cons, List.foldl_nil]
    by_cases hin : i = n
    · subst hin
      dsimp only
      rw [Function.update_self, foldl_sum (fun j => dq _ nb _ j * xf j)]
      refine sum_congr rfl fun e he => ?_
      have he := mem_range.1 he
      rw [(hdq (w.after (i * wb)) nb).same e (Nat.zero_le e) (by omega) _ dst]
    · dsimp only
      rw [Function.update_of_ne (by omega), ih (by omega)]

theorem whole_blocks (nb : ℕ) : (nb * 256 + 255) / 256 = nb := by omega

theorem iqQonlyViaDequant_eq {dq : Bytes → ℕ → (ℕ → F) → ℕ → F} (hdq : Fills dq) (size : ℕ) (w : Bytes)
    (xq : ℕ → Q8KBlock F) (xs : ℕ) (y : ℕ → F) (out ys n nb : ℕ) (xf wf : ℕ → F) :
    ∃ y', some (iqQonlyViaDequant dq ((nb * 256 + 255) / 256 * size) w xq xs y out ys n (nb * 256) 1 xf wf) =
        some y' ∧ ∀ i < n, ∀ dst, y' (out + i) =
          ∑ e ∈ range (nb * 256), dq (w.after (i * (nb * size))) nb dst e * q8KInput xq e := by
  refine ⟨_, rfl, fun i hi dst => ?_⟩
  have hk : nb * 256 / 256 = nb := Nat.mul_div_cancel nb (by norm_num)
  simp only [iqQonlyViaDequant, List.range_one, List.foldl_cons, List.foldl_nil, Nat.zero_mul, Nat.zero_add, hk,
    whole_blocks]
  rw [iqRows_cell hdq (nb * size) w _ _ out n nb hi dst]
  refine sum_congr rfl fun e he => ?_
  rw [xf_cell xq nb xf (mem_range.1 he)]

theorem q8KWeight_kernel (T : IqTables) (S : Scratch F) (t : Q8KWeight) (w : Bytes) {nb : ℕ} {xq : ℕ → Q8KBlock F}
    (hxq : ∀ bi < nb, (xq bi).Summed) (n : ℕ) (y : ℕ → F) (out : ℕ) :
    ∃ y', t.kernel C T S w xq n (nb * 256) y out = some y' ∧
      ∀ i < n, ∀ dst, y' (out + i) =
        ∑ e ∈ range (nb * 256), t.dequantRow C T (w.after (i * (nb * t.size))) nb dst e * q8KInput xq e := by
  cases t with
  | q4K =>
    exact q8KQonlyRow_eq (dequantQ4KRow C) hxq (fun p xb h => q4KDot_eq C (.read p) h)
      (fun p nb dst bi hbi j hj => dequantK_cell C dst _ _ _ _ _ hbi hj) w n y out
  | q5K =>
    exact q8KQonlyRow_eq (dequantQ5KRow C) hxq (fun p xb h => q5KDot_eq C (.read p) h)
      (fun p nb dst bi hbi j hj => dequantK_cell C dst _ _ _ _ _ hbi hj) w n y out
  | q6K =>
    exact q8KQonlyRow_eq (dequantQ6KRow C) hxq
      (fun p xb _ => q6KDot_eq C (.read p) xb.qs xb.d S.unpacked)
      (fun p nb dst bi hbi j hj => dequantQ6KRow_cell C p hbi dst hj) w n y out
  | iq3S =>
    have hadds := dotQ8K_adds 110 hxq
      (fun p xb _ => iq3SDot_eq C (.read p) xb S.unpacked) w n
    have hrun := singleRows_eq hadds 0 (Nat.zero_le n) y out
    rw [Q8KWeight.kernel, matmulIq3SQ8KQonlyF32Row, Nat.mul_div_cancel nb (by norm_num)]
    exact rows_result (x := fun bi j => (xq bi).d * (((xq bi).qs j).toInt : F)) (by norm_num) hrun
      fun i dst bi hbi j hj => dequantIq3SRow_cell C _ hbi dst hj
  | iq2Xxs => exact iqQonlyViaDequant_eq (dequantIq2XxsRow_fills C T) 66 w xq _ y out n n nb S.xf S.wf
  | iq2S => exact iqQonlyViaDequant_eq (dequantIq2SRow_fills C T) 82 w xq _ y out n n nb S.xf S.wf
  | iq3Xxs => exact iqQonlyViaDequant_eq (dequantIq3XxsRow_fills C T) 98 w xq _ y out n n nb S.xf S.wf
  | iq4Xs => exact iqQonlyViaDequant_eq (dequantIq4XsRow_fills C) 136 w xq _ y out n n nb S.xf S.wf

/-- For every input, the kernel of every type gives for each row of weights the sum of the dequantised
weights times the dequantised input, and `bsums` has the sums of the quants. -/
theorem scalar_dots [LinearOrder F] (T : IqTables) (S : Scratch F) (x : ℕ → F) (nb : ℕ) :
    (∀ xq₀, ∃ xq, quantizeQ8_0 C x (nb * 32) xq₀ = some xq ∧
      ∀ (t : Q8_0Weight) (w : Bytes) (n : ℕ) (y : ℕ → F) (out : ℕ),
        ∃ y', t.kernel C w xq n (nb * 32) y out = some y' ∧ ∀ i < n, ∀ dst, y' (out + i) =
          ∑ e ∈ range (nb * 32), t.dequantRow C (w.after (i * (nb * t.size))) nb dst e * q8_0Input C xq e) ∧
    ∀ xq₀, ∃ xq, quantizeQ8K C x (nb * 256) xq₀ = some xq ∧
      (∀ bi < nb, ∀ j < 16, ((xq bi).bsums j).toInt = ∑ ii ∈ range 16, ((xq bi).qs (j * 16 + ii)).toInt) ∧
      ∀ (t : Q8KWeight) (w : Bytes) (n : ℕ) (y : ℕ → F) (out : ℕ),
        ∃ y', t.kernel C T S w xq n (nb * 256) y out = some y' ∧ ∀ i < n, ∀ dst, y' (out + i) =
          ∑ e ∈ range (nb * 256), t.dequantRow C T (w.after (i * (nb * t.size))) nb dst e * q8KInput xq e := by
  refine ⟨fun xq₀ => ?_, fun xq₀ => ?_⟩
  · obtain ⟨xq, hxq⟩ := quantizeQ8_0_some C x (nb * 32) xq₀
    exact ⟨xq, hxq, fun t w n y out => q8_0Weight_kernel C t w xq n nb y out⟩
  · obtain ⟨xq, hxq, hsum⟩ := quantizeQ8K_some C x (nb * 256) xq₀
    rw [Nat.mul_div_cancel nb (by norm_num)] at hsum
    exact ⟨xq, hxq, hsum, fun t w n y out => q8KWeight_kernel C T S t w hsum n y out⟩

end Kappai.Quants
