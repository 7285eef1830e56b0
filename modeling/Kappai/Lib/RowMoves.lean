import Mathlib.Algebra.Order.Ring.Nat
import Mathlib.Tactic.Common
import Mathlib.Tactic.Ring
import Mathlib.Data.List.Pairwise
import Mathlib.Logic.Function.Basic

/-! A memory that holds a block of `heads × rows × width` cells from an address on: writing
single rows of it, and moving the rows of every head down. -/

namespace Kappai

namespace Strided

variable {α : Type*}

/-- `memcpy` of `n` cells to `off`. -/
def writeBlock (mem : ℕ → α) (off n : ℕ) (v : ℕ → α) : ℕ → α := fun a =>
  if off ≤ a ∧ a < off + n then v (a - off) else mem a

/-- `memmove` of `n` cells from `off + by` to `off`. -/
def moveDown (mem : ℕ → α) (off dist n : ℕ) : ℕ → α := fun a =>
  if off ≤ a ∧ a < off + n then mem (a + dist) else mem a

/-- The address of cell `b` of row `s` of head `h`. -/
def cell (base rows width h s b : ℕ) : ℕ := base + h * (rows * width) + s * width + b

variable {base rows width h h' s s' b b' : ℕ}

theorem row_lt (hs : s < rows) (hb : b < width) : s * width + b < rows * width :=
  calc s * width + b < s * width + width := by omega
    _ = (s + 1) * width := by ring
    _ ≤ rows * width := Nat.mul_le_mul_right _ hs

/-- Addresses of different cells differ. -/
theorem cell_inj (hs : s < rows) (hs' : s' < rows) (hb : b < width) (hb' : b' < width)
    (heq : cell base rows width h s b = cell base rows width h' s' b') :
    h = h' ∧ s = s' ∧ b = b' := by
  have hlt := row_lt hs hb
  have hlt' := row_lt hs' hb'
  have hsum : h * (rows * width) + (s * width + b) = h' * (rows * width) + (s' * width + b') := by
    unfold cell at heq
    omega
  have hh : h = h' := by
    have := congrArg (· / (rows * width)) hsum
    simpa [Nat.mul_comm h, Nat.mul_comm h', Nat.mul_add_div (by omega : 0 < rows * width),
      Nat.div_eq_of_lt hlt, Nat.div_eq_of_lt hlt'] using this
  have hrow : s * width + b = s' * width + b' := by
    rw [hh] at hsum
    omega
  have hs_eq : s = s' := by
    have := congrArg (· / width) hrow
    simpa [Nat.mul_comm s, Nat.mul_comm s', Nat.mul_add_div (by omega : 0 < width),
      Nat.div_eq_of_lt hb, Nat.div_eq_of_lt hb'] using this
  rw [hs_eq] at hrow
  exact ⟨hh, hs_eq, by omega⟩

/-- A cell lies inside the block of its heads. -/
theorem cell_lt {heads : ℕ} (hh : h < heads) (hs : s < rows) (hb : b < width) :
    base ≤ cell base rows width h s b ∧
      cell base rows width h s b < base + heads * (rows * width) := by
  have hlt := row_lt hs hb
  have hle : h * (rows * width) + rows * width ≤ heads * (rows * width) :=
    calc h * (rows * width) + rows * width = (h + 1) * (rows * width) := by ring
      _ ≤ heads * (rows * width) := Nat.mul_le_mul_right _ hh
  unfold cell
  omega

theorem writeBlock_outside {mem : ℕ → α} {off n a : ℕ} {v : ℕ → α}
    (ha : a < off ∨ off + n ≤ a) : writeBlock mem off n v a = mem a := if_neg (by omega)

/-- Writing a row changes the cells of this row only. -/
theorem writeBlock_cell {mem : ℕ → α} {v : ℕ → α} (hs : s < rows) (hs' : s' < rows)
    (hb : b < width) :
    writeBlock mem (cell base rows width h' s' 0) width v (cell base rows width h s b) =
      if h = h' ∧ s = s' then v b else mem (cell base rows width h s b) := by
  split_ifs with heq
  · obtain ⟨rfl, rfl⟩ := heq
    have hin : cell base rows width h s 0 ≤ cell base rows width h s b ∧
        cell base rows width h s b < cell base rows width h s 0 + width := by
      unfold cell
      omega
    rw [writeBlock, if_pos hin]
    congr 1
    unfold cell
    omega
  · refine if_neg fun hin => heq ?_
    obtain ⟨b', hb'⟩ : ∃ b', cell base rows width h s b = cell base rows width h' s' b' :=
      ⟨cell base rows width h s b - cell base rows width h' s' 0, by unfold cell at hin ⊢; omega⟩
    have hlt : b' < width := by
      unfold cell at hin hb'
      omega
    obtain ⟨rfl, rfl, -⟩ := cell_inj hs hs' hb hlt hb'
    exact ⟨rfl, rfl⟩

/-- Writing `m` rows of `heads` heads from row `start` on, head by head within a row. -/
def writeRows (mem : ℕ → α) (base rows width heads start m : ℕ) (v : ℕ → ℕ → ℕ → α) : ℕ → α :=
  (List.range (m * heads)).foldl (fun mem i =>
    writeBlock mem (cell base rows width (i % heads) (start + i / heads) 0) width
      (v (i / heads) (i % heads))) mem

theorem writeRows_cell {mem : ℕ → α} {v : ℕ → ℕ → ℕ → α} {heads start m : ℕ}
    (hfit : start + m ≤ rows) (hh : h < heads) (hs : s < rows) (hb : b < width) :
    writeRows mem base rows width heads start m v (cell base rows width h s b) =
      if start ≤ s ∧ s < start + m then v (s - start) h b
      else mem (cell base rows width h s b) := by
  have hheads : 0 < heads := by omega
  -- after `k` writes those cells are new whose index is below `k`
  have key : ∀ k ≤ m * heads, (List.range k).foldl (fun mem i =>
      writeBlock mem (cell base rows width (i % heads) (start + i / heads) 0) width
        (v (i / heads) (i % heads))) mem (cell base rows width h s b) =
      if start ≤ s ∧ (s - start) * heads + h < k then v (s - start) h b
      else mem (cell base rows width h s b) := by
    intro k
    induction k with
    | zero => intro _; simp
    | succ k ih =>
      intro hk
      have hrow : k / heads < m := Nat.div_lt_of_lt_mul (by rw [Nat.mul_comm]; omega)
      have hindex : (h = k % heads ∧ s = start + k / heads) ↔
          start ≤ s ∧ (s - start) * heads + h = k := by
        constructor
        · rintro ⟨rfl, rfl⟩
          refine ⟨Nat.le_add_right _ _, ?_⟩
          rw [Nat.add_sub_cancel_left, Nat.mul_comm]
          exact Nat.div_add_mod k heads
        · rintro ⟨hle, rfl⟩
          rw [Nat.add_comm _ h, Nat.add_mul_mod_self_right, Nat.mod_eq_of_lt hh,
            Nat.add_mul_div_right _ _ hheads, Nat.div_eq_of_lt hh]
          omega
      rw [List.range_succ, List.foldl_append, List.foldl_cons, List.foldl_nil,
        writeBlock_cell hs (by omega) hb, ih (by omega)]
      by_cases heq : h = k % heads ∧ s = start + k / heads
      · obtain ⟨hle, hk'⟩ := hindex.1 heq
        rw [if_pos heq, if_pos ⟨hle, by omega⟩, heq.2, Nat.add_sub_cancel_left, ← heq.1]
      · have hne : ¬ (start ≤ s ∧ (s - start) * heads + h = k) := fun h => heq (hindex.2 h)
        rw [if_neg heq]
        refine if_congr ?_ rfl rfl
        omega
  rw [writeRows, key _ le_rfl]
  refine if_congr (and_congr_right fun hle => ?_) rfl rfl
  constructor
  · intro hlt
    by_contra hge
    have : m * heads ≤ (s - start) * heads := Nat.mul_le_mul_right _ (by omega)
    omega
  · intro hlt
    have : (s - start) * heads + h < m * heads := row_lt (by omega) hh
    exact this

/-- Moving the rows of every head down by `dist`. -/
def moveRows (mem : ℕ → α) (base rows width heads dist : ℕ) : ℕ → α :=
  (List.range heads).foldl (fun mem h =>
    moveDown mem (cell base rows width h 0 0) (dist * width) ((rows - dist) * width)) mem

theorem moveDown_cell {mem : ℕ → α} {dist : ℕ} (hs : s < rows) (hb : b < width) :
    moveDown mem (cell base rows width h' 0 0) (dist * width) ((rows - dist) * width)
        (cell base rows width h s b) =
      if h = h' ∧ s + dist < rows then mem (cell base rows width h (s + dist) b)
      else mem (cell base rows width h s b) := by
  unfold moveDown
  have hiff : (cell base rows width h' 0 0 ≤ cell base rows width h s b ∧
      cell base rows width h s b < cell base rows width h' 0 0 + (rows - dist) * width) ↔
      h = h' ∧ s + dist < rows := by
    constructor
    · rintro ⟨hle, hlt⟩
      obtain ⟨k, hk⟩ : ∃ k, cell base rows width h s b = cell base rows width h' 0 0 + k :=
        Nat.exists_eq_add_of_le hle
      have hrow : k / width < rows - dist :=
        Nat.div_lt_of_lt_mul (by rw [Nat.mul_comm]; omega)
      have heq : cell base rows width h s b = cell base rows width h' (k / width) (k % width) := by
        have := Nat.div_add_mod k width
        rw [Nat.mul_comm] at this
        rw [hk]
        unfold cell
        omega
      obtain ⟨rfl, hs', -⟩ := cell_inj hs (hrow.trans_le (Nat.sub_le _ _)) hb
        (Nat.mod_lt _ (by omega)) heq
      rw [← hs'] at hrow
      exact ⟨rfl, by omega⟩
    · rintro ⟨rfl, hlt⟩
      have hs' : s < rows - dist := by omega
      have := row_lt hs' hb
      unfold cell
      omega
  simp only [hiff]
  refine if_congr Iff.rfl ?_ rfl
  congr 1
  unfold cell
  ring

/-- Each head's rows end up where the row `dist` below was; the top rows stay. -/
theorem moveRows_cell {mem : ℕ → α} {heads dist : ℕ} (hh : h < heads) (hs : s < rows)
    (hb : b < width) :
    moveRows mem base rows width heads dist (cell base rows width h s b) =
      if s + dist < rows then mem (cell base rows width h (s + dist) b)
      else mem (cell base rows width h s b) := by
  -- after `k` heads those below `k` have moved
  have key : ∀ k h s, s < rows → (List.range k).foldl (fun mem h =>
      moveDown mem (cell base rows width h 0 0) (dist * width) ((rows - dist) * width)) mem
        (cell base rows width h s b) =
      if h < k ∧ s + dist < rows then mem (cell base rows width h (s + dist) b)
      else mem (cell base rows width h s b) := by
    intro k
    induction k with
    | zero => intro h s _; simp
    | succ k ih =>
      intro h s hs
      rw [List.range_succ, List.foldl_append, List.foldl_cons, List.foldl_nil,
        moveDown_cell hs hb]
      by_cases hmove : h = k ∧ s + dist < rows
      · rw [if_pos hmove, if_pos ⟨by omega, hmove.2⟩, ih h _ hmove.2, if_neg (by omega)]
      · rw [if_neg hmove, ih h s hs]
        exact if_congr (by omega) rfl rfl
  rw [moveRows, key heads h s hs]
  exact if_congr (by simp [hh]) rfl rfl

theorem foldl_outside {ι : Type*} (step : (ℕ → α) → ι → ℕ → α) {a : ℕ} (is : List ι)
    (hstep : ∀ mem, ∀ i ∈ is, step mem i a = mem a) (mem : ℕ → α) :
    is.foldl step mem a = mem a := by
  induction is generalizing mem with
  | nil => rfl
  | cons i is ih =>
    rw [List.foldl_cons, ih fun mem j hj => hstep mem j (List.mem_cons_of_mem _ hj)]
    exact hstep mem i List.mem_cons_self

/-- Rows are written inside the block. -/
theorem writeRows_outside {mem : ℕ → α} {v : ℕ → ℕ → ℕ → α} {heads start m a : ℕ}
    (hfit : start + m ≤ rows) (ha : a < base ∨ base + heads * (rows * width) ≤ a) :
    writeRows mem base rows width heads start m v a = mem a := by
  refine foldl_outside _ _ (fun mem i hi => writeBlock_outside ?_) mem
  rw [List.mem_range] at hi
  have hheads : 0 < heads := Nat.pos_of_ne_zero fun h0 => by simp [h0] at hi
  have hrow : i / heads < m := Nat.div_lt_of_lt_mul (by rw [Nat.mul_comm]; omega)
  have hend : cell base rows width (i % heads) (start + i / heads) 0 + width ≤
      base + heads * (rows * width) := by
    rcases Nat.eq_zero_or_pos width with h0 | hpos
    · subst h0
      simp [cell]
    · have hlast : cell base rows width (i % heads) (start + i / heads) (width - 1) <
          base + heads * (rows * width) :=
        (cell_lt (Nat.mod_lt i hheads) (by omega) (by omega)).2
      unfold cell at hlast ⊢
      omega
  have hlow : base ≤ cell base rows width (i % heads) (start + i / heads) 0 := by
    unfold cell
    omega
  omega

/-- Rows are moved inside the block. -/
theorem moveRows_outside {mem : ℕ → α} {heads dist a : ℕ}
    (ha : a < base ∨ base + heads * (rows * width) ≤ a) :
    moveRows mem base rows width heads dist a = mem a := by
  refine foldl_outside _ _ (fun mem h hh => if_neg ?_) mem
  rw [List.mem_range] at hh
  have hle : h * (rows * width) + rows * width ≤ heads * (rows * width) :=
    calc h * (rows * width) + rows * width = (h + 1) * (rows * width) := by ring
      _ ≤ heads * (rows * width) := Nat.mul_le_mul_right _ hh
  have hrows : (rows - dist) * width ≤ rows * width := Nat.mul_le_mul_right _ (Nat.sub_le _ _)
  unfold cell
  omega

end Strided

end Kappai

/-! Moving ranges of rows down in an indexed store. `gatherPut` reads every source row
before it writes any destination; `inPlace` moves row by row over the live store. For
moves that go down and ascend the two agree, so no row is overwritten before it moved. -/

namespace Kappai

structure RowMove where
  src : ℕ
  dst : ℕ
  n : ℕ
deriving DecidableEq, Repr

namespace RowMove

variable {α : Type*} (f : RowMove → α → α)

/-- `p` is one of the positions the move writes. -/
def Covers (m : RowMove) (p : ℕ) : Prop := m.dst ≤ p ∧ p < m.dst + m.n

instance (m : RowMove) (p : ℕ) : Decidable (m.Covers p) := by
  unfold Covers; infer_instance

/-- The destination rows of one move, computed from the store `old`. -/
def put (m : RowMove) (old acc : ℕ → α) : ℕ → α := fun p =>
  if m.Covers p then f m (old (m.src + (p - m.dst))) else acc p

def gatherPut (moves : List RowMove) (rows : ℕ → α) : ℕ → α :=
  moves.foldl (fun acc m => m.put f rows acc) rows

def moveRow (m : RowMove) (acc : ℕ → α) (t : ℕ) : ℕ → α :=
  Function.update acc (m.dst + t) (f m (acc (m.src + t)))

def inPlace (moves : List RowMove) (rows : ℕ → α) : ℕ → α :=
  moves.foldl (fun acc m => (List.range m.n).foldl (m.moveRow f) acc) rows

/-- Ascending moves: each one starts after the previous one on both sides. -/
def Ascending (moves : List RowMove) : Prop :=
  moves.Pairwise fun a b => a.src + a.n ≤ b.src ∧ a.dst + a.n ≤ b.dst

def Downward (moves : List RowMove) : Prop := ∀ m ∈ moves, m.dst ≤ m.src

theorem put_of_covers {m : RowMove} {old acc : ℕ → α} {p : ℕ} (h : m.Covers p) :
    m.put f old acc p = f m (old (m.src + (p - m.dst))) := if_pos h

theorem put_of_not_covers {m : RowMove} {old acc : ℕ → α} {p : ℕ} (h : ¬ m.Covers p) :
    m.put f old acc p = acc p := if_neg h

/-- Moving one range down row by row: the rows still to be read lie above the rows
already written. -/
theorem moveRange_eq_put (m : RowMove) (hm : m.dst ≤ m.src) (rows : ℕ → α) :
    (List.range m.n).foldl (m.moveRow f) rows = m.put f rows rows := by
  have key : ∀ k p, (List.range k).foldl (m.moveRow f) rows p =
      if m.dst ≤ p ∧ p < m.dst + k then f m (rows (m.src + (p - m.dst))) else rows p := by
    intro k
    induction k with
    | zero =>
      intro p
      rw [if_neg (by omega)]
      rfl
    | succ k ih =>
      intro p
      rw [List.range_succ, List.foldl_append, List.foldl_cons, List.foldl_nil, moveRow]
      by_cases hp : p = m.dst + k
      · subst hp
        rw [Function.update_self, ih, if_neg (by omega), if_pos (by omega)]
        congr 2
        omega
      · rw [Function.update_of_ne hp, ih]
        by_cases hin : m.dst ≤ p ∧ p < m.dst + k
        · rw [if_pos hin, if_pos (by omega)]
        · rw [if_neg hin, if_neg (by omega)]
  funext p
  rw [key]
  rfl

/-- The destinations of ascending moves do not overlap. -/
theorem Ascending.eq_of_covers {moves : List RowMove} (h : Ascending moves) {a b : RowMove}
    (ha : a ∈ moves) (hb : b ∈ moves) {p : ℕ} (hap : a.Covers p) (hbp : b.Covers p) : a = b := by
  by_contra hne
  let Apart : RowMove → RowMove → Prop := fun a b =>
    a.dst + a.n ≤ b.dst ∨ b.dst + b.n ≤ a.dst
  have : Std.Symm Apart := ⟨fun _ _ => Or.symm⟩
  have hsep : moves.Pairwise Apart := h.imp fun hab => Or.inl hab.2
  obtain ⟨hap1, hap2⟩ := hap
  obtain ⟨hbp1, hbp2⟩ := hbp
  rcases hsep.forall ha hb hne with h' | h' <;> omega

/-- The two ways of moving agree once the sources of `moves` are still as in `rows`. -/
theorem foldl_moveRange_eq (moves : List RowMove) (hasc : Ascending moves)
    (hdown : Downward moves) (rows acc : ℕ → α)
    (hsrc : ∀ m ∈ moves, ∀ t, acc (m.src + t) = rows (m.src + t)) :
    moves.foldl (fun acc m => (List.range m.n).foldl (m.moveRow f) acc) acc =
      moves.foldl (fun acc m => m.put f rows acc) acc := by
  induction moves generalizing acc with
  | nil => rfl
  | cons m moves ih =>
    obtain ⟨hfirst, hrest⟩ := List.pairwise_cons.1 hasc
    have hm : m.put f acc acc = m.put f rows acc := by
      funext p
      by_cases hp : m.Covers p
      · rw [put_of_covers f hp, put_of_covers f hp, hsrc m (by simp)]
      · rw [put_of_not_covers f hp, put_of_not_covers f hp]
    rw [List.foldl_cons, List.foldl_cons, moveRange_eq_put f m (hdown m (by simp)), hm]
    refine ih hrest (fun m' h' => hdown m' (by simp [h'])) _ fun m' h' t => ?_
    have hlow := hdown m (by simp)
    have habove := (hfirst m' h').1
    have hout : ¬ m.Covers (m'.src + t) := fun hc => by
      have := hc.2
      omega
    rw [put_of_not_covers f hout, hsrc m' (by simp [h'])]

theorem inPlace_eq_gatherPut (moves : List RowMove) (hasc : Ascending moves)
    (hdown : Downward moves) (rows : ℕ → α) :
    inPlace f moves rows = gatherPut f moves rows :=
  foldl_moveRange_eq f moves hasc hdown rows rows fun _ _ _ => rfl

theorem foldl_put_of_not_covers (moves : List RowMove) (rows acc : ℕ → α) {p : ℕ}
    (h : ∀ m ∈ moves, ¬ m.Covers p) :
    moves.foldl (fun acc m => m.put f rows acc) acc p = acc p := by
  induction moves generalizing acc with
  | nil => rfl
  | cons m moves ih =>
    rw [List.foldl_cons, ih _ fun m' h' => h m' (by simp [h']), put_of_not_covers f (h m (by simp))]

theorem gatherPut_of_not_covers (moves : List RowMove) (rows : ℕ → α) {p : ℕ}
    (h : ∀ m ∈ moves, ¬ m.Covers p) : gatherPut f moves rows p = rows p :=
  foldl_put_of_not_covers f moves rows rows h

theorem foldl_put_of_mem (moves : List RowMove) (hasc : Ascending moves) (rows acc : ℕ → α)
    {m : RowMove} (hm : m ∈ moves) {t : ℕ} (ht : t < m.n) :
    moves.foldl (fun acc m => m.put f rows acc) acc (m.dst + t) = f m (rows (m.src + t)) := by
  induction moves generalizing acc with
  | nil => simp at hm
  | cons m' moves ih =>
    obtain ⟨hfirst, hrest⟩ := List.pairwise_cons.1 hasc
    rw [List.foldl_cons]
    rcases List.mem_cons.1 hm with rfl | hm
    · have hc : m.Covers (m.dst + t) := ⟨by omega, by omega⟩
      rw [foldl_put_of_not_covers, put_of_covers f hc, Nat.add_sub_cancel_left]
      intro m' h' hc'
      have hafter := (hfirst m' h').2
      have hlow := hc'.1
      omega
    · exact ih hrest _ hm

/-- With ascending moves every destination holds its own source row. -/
theorem gatherPut_of_mem (moves : List RowMove) (hasc : Ascending moves) (rows : ℕ → α)
    {m : RowMove} (hm : m ∈ moves) {t : ℕ} (ht : t < m.n) :
    gatherPut f moves rows (m.dst + t) = f m (rows (m.src + t)) :=
  foldl_put_of_mem f moves hasc rows rows hm ht

end RowMove

end Kappai
