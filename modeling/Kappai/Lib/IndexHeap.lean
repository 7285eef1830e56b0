import Mathlib.Data.Set.Insert
import Mathlib.Logic.Function.Basic
import Mathlib.Tactic.Common
import Mathlib.Data.Multiset.MapFold
import Mathlib.Data.Multiset.Range

/-! A binary heap of indices with a table of their positions. The operations move indices about
and lose none, whatever the keys are. -/

namespace Kappai

/-- `idx` names the members at the positions below `n`, `pos` where a member is. -/
structure IndexHeap where
  idx : ℕ → ℕ
  pos : ℕ → Option ℕ
  n : ℕ

namespace IndexHeap

variable {κ : Type*} (key : ℕ → κ)

def empty : IndexHeap := ⟨fun _ => 0, fun _ => none, 0⟩

def swap (h : IndexHeap) (a b : ℕ) : IndexHeap where
  idx := Function.update (Function.update h.idx a (h.idx b)) b (h.idx a)
  pos := Function.update (Function.update h.pos (h.idx a) (some b)) (h.idx b) (some a)
  n := h.n

@[simp] theorem swap_n (h : IndexHeap) (a b : ℕ) : (h.swap a b).n = h.n := rfl

/-- The smaller of the position `a` and its candidate child `c`. -/
def pick [LT κ] [DecidableLT κ] (h : IndexHeap) (a c : ℕ) : ℕ :=
  if c < h.n ∧ key (h.idx c) < key (h.idx a) then c else a

/-- The smallest of a position and its children. -/
def smallest [LT κ] [DecidableLT κ] (h : IndexHeap) (p : ℕ) : ℕ :=
  h.pick key (h.pick key p (2 * p + 1)) (2 * p + 2)

theorem smallest_cases [LT κ] [DecidableLT κ] (h : IndexHeap) (p : ℕ) :
    h.smallest key p = p ∨ p < h.smallest key p ∧ h.smallest key p < h.n := by
  unfold smallest pick
  split_ifs <;> omega

def siftDown [LT κ] [DecidableLT κ] (h : IndexHeap) (p : ℕ) : IndexHeap :=
  if _hs : h.smallest key p = p then h
  else (h.swap p (h.smallest key p)).siftDown (h.smallest key p)
termination_by h.n - p
decreasing_by
  rcases h.smallest_cases key p with hs | hs
  · contradiction
  · rw [swap_n]
    omega

def siftUp [LE κ] [DecidableLE κ] (h : IndexHeap) (p : ℕ) : IndexHeap :=
  if _hp : 0 < p then
    if key (h.idx ((p - 1) / 2)) ≤ key (h.idx p) then h
    else (h.swap p ((p - 1) / 2)).siftUp ((p - 1) / 2)
  else h
termination_by p

@[simp] theorem siftDown_n [LT κ] [DecidableLT κ] (h : IndexHeap) (p : ℕ) :
    (h.siftDown key p).n = h.n := by
  induction h, p using siftDown.induct key with
  | case1 h p hs => rw [siftDown, dif_pos hs]
  | case2 h p hs ih => rw [siftDown, dif_neg hs, ih, swap_n]

@[simp] theorem siftUp_n [LE κ] [DecidableLE κ] (h : IndexHeap) (p : ℕ) :
    (h.siftUp key p).n = h.n := by
  induction h, p using siftUp.induct key with
  | case1 h p hp hle => rw [siftUp, dif_pos hp, if_pos hle]
  | case2 h p hp hle ih => rw [siftUp, dif_pos hp, if_neg hle, ih, swap_n]
  | case3 h p hp => rw [siftUp, dif_neg hp]

section Ops

variable [LT κ] [DecidableLT κ] [LE κ] [DecidableLE κ]

/-- A member is put where its key belongs. -/
def touch (h : IndexHeap) (x : ℕ) : IndexHeap :=
  match h.pos x with
  | some p => if p < h.n then (h.siftDown key p).siftUp key p else h
  | none => h

@[simp] theorem touch_n (h : IndexHeap) (x : ℕ) : (h.touch key x).n = h.n := by
  unfold touch
  split
  · split_ifs
    · rw [siftUp_n, siftDown_n]
    · rfl
  · rfl

end Ops

def push [LE κ] [DecidableLE κ] (h : IndexHeap) (x : ℕ) : IndexHeap :=
  siftUp key ⟨Function.update h.idx h.n x, Function.update h.pos x (some h.n), h.n + 1⟩ h.n

@[simp] theorem push_n [LE κ] [DecidableLE κ] (h : IndexHeap) (x : ℕ) :
    (h.push key x).n = h.n + 1 := siftUp_n key _ _

/-- The member at position `p` leaves by way of the last position. -/
def dropAt (h : IndexHeap) (p : ℕ) : IndexHeap :=
  { h.swap p (h.n - 1) with n := h.n - 1 }

@[simp] theorem dropAt_n (h : IndexHeap) (p : ℕ) : (h.dropAt p).n = h.n - 1 := rfl

/-- Another member takes the place of the root. -/
def replaceRoot (h : IndexHeap) (x : ℕ) : IndexHeap where
  idx := Function.update h.idx 0 x
  pos := Function.update (Function.update h.pos (h.idx 0) none) x (some 0)
  n := h.n

@[simp] theorem replaceRoot_n (h : IndexHeap) (x : ℕ) : (h.replaceRoot x).n = h.n := rfl

/-- The first `n` positions hold the members of `S`, each once, and the table says where. -/
structure Indexes (h : IndexHeap) (S : Set ℕ) : Prop where
  pos_idx : ∀ p < h.n, h.pos (h.idx p) = some p
  mem : ∀ p < h.n, h.idx p ∈ S
  idx_pos : ∀ x ∈ S, ∃ p < h.n, h.idx p = x

namespace Indexes

variable {h : IndexHeap} {S : Set ℕ}

theorem empty : IndexHeap.empty.Indexes ∅ where
  pos_idx := fun _ hp => absurd hp (Nat.not_lt_zero _)
  mem := fun _ hp => absurd hp (Nat.not_lt_zero _)
  idx_pos := fun _ hx => absurd hx (Set.notMem_empty _)

theorem idx_inj (hi : h.Indexes S) {p q : ℕ} (hp : p < h.n) (hq : q < h.n)
    (heq : h.idx p = h.idx q) : p = q := by
  have hpos := hi.pos_idx p hp
  rw [heq, hi.pos_idx q hq] at hpos
  exact (Option.some.inj hpos).symm

theorem pos_eq (hi : h.Indexes S) {x : ℕ} (hx : x ∈ S) :
    ∃ p < h.n, h.idx p = x ∧ h.pos x = some p := by
  obtain ⟨p, hp, rfl⟩ := hi.idx_pos x hx
  exact ⟨p, hp, rfl, hi.pos_idx p hp⟩

theorem swap (hi : h.Indexes S) {a b : ℕ} (ha : a < h.n) (hb : b < h.n) :
    (h.swap a b).Indexes S := by
  have hidx : ∀ p, (h.swap a b).idx p =
      if p = b then h.idx a else if p = a then h.idx b else h.idx p := by
    intro p
    simp only [IndexHeap.swap, Function.update_apply]
  refine ⟨fun p hp => ?_, fun p hp => ?_, fun x hx => ?_⟩
  · have hinj := hi.idx_inj (p := p) (q := a) hp ha
    have hinj' := hi.idx_inj (p := p) (q := b) hp hb
    have hpos := hi.pos_idx p hp
    rw [hidx]
    simp only [IndexHeap.swap, Function.update_apply]
    split_ifs with hpb hpa <;> simp_all
  · rw [hidx]
    split_ifs
    · exact hi.mem a ha
    · exact hi.mem b hb
    · exact hi.mem p hp
  · obtain ⟨p, hp, rfl⟩ := hi.idx_pos x hx
    by_cases hpa : p = a
    · exact ⟨b, hb, by rw [hidx, if_pos rfl, hpa]⟩
    · by_cases hpb : p = b
      · refine ⟨a, ha, ?_⟩
        rw [hidx]
        rcases eq_or_ne a b with hab | hab
        · rw [if_pos hab, hab, hpb]
        · rw [if_neg hab, if_pos rfl, hpb]
      · exact ⟨p, hp, by rw [hidx, if_neg hpb, if_neg hpa]⟩

theorem siftDown [LT κ] [DecidableLT κ] (hi : h.Indexes S) {p : ℕ} (hp : p < h.n) :
    (h.siftDown key p).Indexes S := by
  induction h, p using IndexHeap.siftDown.induct key with
  | case1 h p hs =>
    rw [IndexHeap.siftDown, dif_pos hs]
    exact hi
  | case2 h p hs ih =>
    have hlt : h.smallest key p < h.n := ((h.smallest_cases key p).resolve_left hs).2
    rw [IndexHeap.siftDown, dif_neg hs]
    exact ih (hi.swap hp hlt) hlt

theorem siftUp [LE κ] [DecidableLE κ] (hi : h.Indexes S) {p : ℕ} (hp : p < h.n) :
    (h.siftUp key p).Indexes S := by
  induction h, p using IndexHeap.siftUp.induct key with
  | case1 h p hpos hle =>
    rw [IndexHeap.siftUp, dif_pos hpos, if_pos hle]
    exact hi
  | case2 h p hpos hle ih =>
    rw [IndexHeap.siftUp, dif_pos hpos, if_neg hle]
    exact ih (hi.swap hp (by omega)) (by rw [swap_n]; omega)
  | case3 h p hpos =>
    rw [IndexHeap.siftUp, dif_neg hpos]
    exact hi

theorem touch [LT κ] [DecidableLT κ] [LE κ] [DecidableLE κ] (hi : h.Indexes S) (x : ℕ) :
    (h.touch key x).Indexes S := by
  unfold IndexHeap.touch
  split
  · split_ifs with hp
    · exact (hi.siftDown key hp).siftUp key (by rwa [siftDown_n])
    · exact hi
  · exact hi

theorem push [LE κ] [DecidableLE κ] (hi : h.Indexes S) {x : ℕ} (hx : x ∉ S) :
    (h.push key x).Indexes (insert x S) := by
  refine Indexes.siftUp key ⟨fun p hp => ?_, fun p hp => ?_, fun y hy => ?_⟩
    (Nat.lt_succ_self h.n)
  · dsimp only at hp ⊢
    rcases Nat.lt_succ_iff_lt_or_eq.mp hp with hlt | rfl
    · have hne : h.idx p ≠ x := fun he => hx (he ▸ hi.mem p hlt)
      rw [Function.update_of_ne (Nat.ne_of_lt hlt), Function.update_of_ne hne]
      exact hi.pos_idx p hlt
    · simp only [Function.update_self]
  · dsimp only at hp ⊢
    rcases Nat.lt_succ_iff_lt_or_eq.mp hp with hlt | rfl
    · rw [Function.update_of_ne (Nat.ne_of_lt hlt)]
      exact Set.mem_insert_of_mem _ (hi.mem p hlt)
    · rw [Function.update_self]
      exact Set.mem_insert _ _
  · rcases Set.mem_insert_iff.mp hy with rfl | hy
    · exact ⟨h.n, Nat.lt_succ_self _, Function.update_self ..⟩
    · obtain ⟨p, hp, rfl⟩ := hi.idx_pos y hy
      exact ⟨p, Nat.lt_succ_of_lt hp, Function.update_of_ne (Nat.ne_of_lt hp) _ _⟩

theorem replaceRoot (hi : h.Indexes S) {x : ℕ} (hx : x ∉ S) (hn : 0 < h.n) :
    (h.replaceRoot x).Indexes (insert x (S \ {h.idx 0})) := by
  refine ⟨fun p hp => ?_, fun p hp => ?_, fun y hy => ?_⟩
  · rw [replaceRoot_n] at hp
    unfold IndexHeap.replaceRoot
    dsimp only
    rcases Nat.eq_zero_or_pos p with rfl | hpos
    · rw [Function.update_self, Function.update_self]
    · have hne : h.idx p ≠ x := fun he => hx (he ▸ hi.mem p hp)
      have hroot : h.idx p ≠ h.idx 0 := fun he => hpos.ne' (hi.idx_inj hp hn he)
      rw [Function.update_of_ne hpos.ne', Function.update_of_ne hne, Function.update_of_ne hroot]
      exact hi.pos_idx p hp
  · rw [replaceRoot_n] at hp
    unfold IndexHeap.replaceRoot
    dsimp only
    rcases Nat.eq_zero_or_pos p with rfl | hpos
    · rw [Function.update_self]
      exact Set.mem_insert _ _
    · rw [Function.update_of_ne hpos.ne']
      exact Set.mem_insert_of_mem _ ⟨hi.mem p hp, fun he => hpos.ne' (hi.idx_inj hp hn he)⟩
  · rcases Set.mem_insert_iff.mp hy with rfl | ⟨hyS, hne⟩
    · refine ⟨0, hn, ?_⟩
      change Function.update h.idx 0 y 0 = y
      rw [Function.update_self]
    · obtain ⟨p, hp, rfl⟩ := hi.idx_pos y hyS
      have hpos : p ≠ 0 := fun h0 => hne (by rw [h0]; rfl)
      refine ⟨p, hp, ?_⟩
      change Function.update h.idx 0 x p = h.idx p
      rw [Function.update_of_ne hpos]

theorem dropAt (hi : h.Indexes S) {p : ℕ} (hp : p < h.n) :
    (h.dropAt p).Indexes (S \ {h.idx p}) := by
  have hlast : h.n - 1 < h.n := by omega
  have hsw := hi.swap hp hlast
  have hgone : (h.swap p (h.n - 1)).idx (h.n - 1) = h.idx p := Function.update_self ..
  refine ⟨fun q hq => ?_, fun q hq => ⟨?_, ?_⟩, fun x hx => ?_⟩
  · rw [dropAt_n] at hq
    exact hsw.pos_idx q (by rw [swap_n]; omega)
  · rw [dropAt_n] at hq
    exact hsw.mem q (by rw [swap_n]; omega)
  · intro hmem
    rw [dropAt_n] at hq
    have hqn : q = h.n - 1 := by
      refine hsw.idx_inj (by rw [swap_n]; omega) (by rw [swap_n]; omega) ?_
      exact (Set.mem_singleton_iff.mp hmem).trans hgone.symm
    omega
  · obtain ⟨q, hq, rfl⟩ := hsw.idx_pos x hx.1
    refine ⟨q, ?_, rfl⟩
    have hne : q ≠ h.n - 1 := fun he => hx.2 (by rw [he, hgone]; rfl)
    rw [dropAt_n]
    rw [swap_n] at hq
    omega

end Indexes

end IndexHeap

/-! When an index heap is in order: no member before its parent. The sifts put one member that
is out of place where it belongs. -/

namespace IndexHeap

variable {κ : Type*} [LE κ] (key : ℕ → κ)

/-- Every member is at or after its parent. -/
def Ordered (h : IndexHeap) : Prop :=
  ∀ q, 0 < q → q < h.n → key (h.idx ((q - 1) / 2)) ≤ key (h.idx q)

/-- In order but for the pairs with position `p`, whose children are still at or after its
parent. -/
structure OrderedBut (h : IndexHeap) (p : ℕ) : Prop where
  off : ∀ q, 0 < q → q < h.n → q ≠ p → (q - 1) / 2 ≠ p → key (h.idx ((q - 1) / 2)) ≤ key (h.idx q)
  grand : 0 < p → ∀ c, 0 < c → c < h.n → (c - 1) / 2 = p → key (h.idx ((p - 1) / 2)) ≤ key (h.idx c)

/-- The order only depends on how the members compare. -/
theorem Ordered.of_le {key : ℕ → κ} {ι : Type*} [LE ι] {rank : ℕ → ι} {h : IndexHeap} {S : Set ℕ}
    (ho : h.Ordered rank) (hi : h.Indexes S)
    (hle : ∀ i ∈ S, ∀ j ∈ S, rank i ≤ rank j → key i ≤ key j) : h.Ordered key :=
  fun q hq hn => hle _ (hi.mem _ (by omega)) _ (hi.mem q hn) (ho q hq hn)

theorem OrderedBut.of_le {key : ℕ → κ} {ι : Type*} [LE ι] {rank : ℕ → ι} {h : IndexHeap}
    {S : Set ℕ} {p : ℕ} (ho : h.OrderedBut rank p) (hi : h.Indexes S)
    (hle : ∀ i ∈ S, ∀ j ∈ S, rank i ≤ rank j → key i ≤ key j) : h.OrderedBut key p where
  off q hq hn hqp hpar := hle _ (hi.mem _ (by omega)) _ (hi.mem q hn) (ho.off q hq hn hqp hpar)
  grand hp c hc hn hpar := hle _ (hi.mem _ (by omega)) _ (hi.mem c hn) (ho.grand hp c hc hn hpar)

theorem swap_idx (h : IndexHeap) (a b q : ℕ) :
    (h.swap a b).idx q = if q = b then h.idx a else if q = a then h.idx b else h.idx q := by
  simp only [swap, Function.update_apply]

variable {key} {h : IndexHeap} {p : ℕ}

/-- The root is at or before every member. -/
theorem Ordered.root_le [Std.IsPreorder κ] (ho : h.Ordered key) (hp : p < h.n) :
    key (h.idx 0) ≤ key (h.idx p) := by
  induction p using Nat.strongRecOn with
  | ind p ih =>
    rcases Nat.eq_zero_or_pos p with rfl | hpos
    · exact Std.le_refl _
    · exact Std.le_trans (ih ((p - 1) / 2) (by omega) (by omega)) (ho p hpos hp)

/-- A new key for one member puts only that member out of place. -/
theorem Ordered.rekey [Std.IsPreorder κ] (ho : h.Ordered key) {S : Set ℕ} (hi : h.Indexes S)
    {key' : ℕ → κ} {x : ℕ} (hkey : ∀ y, y ≠ x → key' y = key y) (hp : p < h.n)
    (hx : h.idx p = x) : h.OrderedBut key' p where
  off q hq hn hqp hpar := by
    have hne {r : ℕ} (hr : r < h.n) (hrp : r ≠ p) : h.idx r ≠ x := fun he =>
      hrp (hi.idx_inj hr hp (he.trans hx.symm))
    rw [hkey _ (hne hn hqp), hkey _ (hne (by omega) hpar)]
    exact ho q hq hn
  grand hp0 c hc hn hpar := by
    have hne {r : ℕ} (hr : r < h.n) (hrp : r ≠ p) : h.idx r ≠ x := fun he =>
      hrp (hi.idx_inj hr hp (he.trans hx.symm))
    rw [hkey _ (hne (by omega) (by omega)), hkey _ (hne hn (by omega))]
    have hside := ho c hc hn
    rw [hpar] at hside
    exact Std.le_trans (ho p hp0 hp) hside

/-- A position whose children and parent are in order with it is not out of place. -/
theorem OrderedBut.ordered (ho : h.OrderedBut key p)
    (habove : 0 < p → key (h.idx ((p - 1) / 2)) ≤ key (h.idx p))
    (hbelow : ∀ c, 0 < c → c < h.n → (c - 1) / 2 = p → key (h.idx p) ≤ key (h.idx c)) :
    h.Ordered key := by
  intro q hq hn
  by_cases hqp : q = p
  · rw [hqp] at hq ⊢
    exact habove hq
  · by_cases hpar : (q - 1) / 2 = p
    · rw [hpar]
      exact hbelow q hq hn hpar
    · exact ho.off q hq hn hqp hpar

/-- An ordered heap is not sifted. -/
theorem Ordered.siftUp_eq [DecidableLE κ] (ho : h.Ordered key) (hp : p < h.n) : h.siftUp key p = h := by
  rw [siftUp]
  split_ifs with hp0 hle
  · rfl
  · exact absurd (ho p hp0 hp) hle
  · rfl

section Up

variable [Std.IsLinearPreorder κ] [DecidableLE κ]

/-- A member that is not after its children rises to its place. -/
theorem OrderedBut.siftUp (ho : h.OrderedBut key p)
    (hbelow : ∀ c, 0 < c → c < h.n → (c - 1) / 2 = p → key (h.idx p) ≤ key (h.idx c))
    (hp : p < h.n) : (h.siftUp key p).Ordered key := by
  induction h, p using IndexHeap.siftUp.induct key with
  | case1 h p hp0 hle =>
    rw [IndexHeap.siftUp, dif_pos hp0, if_pos hle]
    exact ho.ordered (fun _ => hle) hbelow
  | case3 h p hp0 =>
    rw [IndexHeap.siftUp, dif_neg hp0]
    exact ho.ordered (fun hpos => absurd hpos hp0) hbelow
  | case2 h p hp0 hle ih =>
    rw [IndexHeap.siftUp, dif_pos hp0, if_neg hle]
    have hlt : key (h.idx p) ≤ key (h.idx ((p - 1) / 2)) := (Std.le_total).resolve_left hle
    have hpr : p ≠ (p - 1) / 2 := by omega
    refine ih ⟨fun q hq hn hqr hpar => ?_, fun hr c hc hn hpar => ?_⟩ (fun c hc hn hpar => ?_)
      (by rw [swap_n]; omega)
    · rw [swap_n] at hn
      rw [swap_idx, swap_idx, if_neg hpar, if_neg hqr]
      have hqp : q ≠ p := fun he => hpar (by rw [he])
      rw [if_neg hqp]
      by_cases hpp : (q - 1) / 2 = p
      · rw [if_pos hpp]
        exact ho.grand hp0 q hq hn hpp
      · rw [if_neg hpp]
        exact ho.off q hq hn hqp hpp
    · -- the other child and the old grandparent
      rw [swap_n] at hn
      have hup := ho.off ((p - 1) / 2) (by omega) (by omega) (by omega) (by omega)
      have hcr : c ≠ (p - 1) / 2 := by omega
      rw [swap_idx, swap_idx, if_neg (by omega), if_neg (by omega), if_neg hcr]
      by_cases hcp : c = p
      · rw [if_pos hcp]
        exact hup
      · rw [if_neg hcp]
        have hside := ho.off c hc hn hcp (by omega)
        rw [hpar] at hside
        exact Std.le_trans hup hside
    · rw [swap_n] at hn
      have hcr : c ≠ (p - 1) / 2 := by omega
      rw [swap_idx, swap_idx, if_pos rfl, if_neg hcr]
      by_cases hcp : c = p
      · rw [if_pos hcp]
        exact hlt
      · rw [if_neg hcp]
        have hside := ho.off c hc hn hcp (by omega)
        rw [hpar] at hside
        exact Std.le_trans hlt hside

theorem Ordered.push (ho : h.Ordered key) (x : ℕ) : (h.push key x).Ordered key := by
  have hold : ∀ q < h.n, Function.update h.idx h.n x q = h.idx q := fun q hq =>
    Function.update_of_ne (Nat.ne_of_lt hq) _ _
  refine OrderedBut.siftUp ⟨fun q hq hn hqn hpar => ?_, fun _ c _ hn hpar => ?_⟩
    (fun c _ hn hpar => ?_) (Nat.lt_succ_self h.n)
  · simp only at hn ⊢
    rw [hold q (by omega), hold _ (by omega)]
    exact ho q hq (by omega)
  · simp only at hn
    omega
  · simp only at hn
    omega

theorem Ordered.foldl_push (ho : h.Ordered key) (xs : List ℕ) :
    (xs.foldl (fun h x => h.push key x) h).Ordered key := by
  induction xs generalizing h with
  | nil => exact ho
  | cons x xs ih => exact ih (ho.push x)

end Up

variable [LT κ] [Std.IsLinearPreorder κ] [Std.LawfulOrderLT κ] [DecidableLT κ]

theorem pick_le (key : ℕ → κ) (h : IndexHeap) (a c : ℕ) :
    key (h.idx (h.pick key a c)) ≤ key (h.idx a) ∧
      (c < h.n → key (h.idx (h.pick key a c)) ≤ key (h.idx c)) := by
  unfold pick
  split_ifs with hc
  · exact ⟨Std.le_of_lt hc.2, fun _ => Std.le_refl _⟩
  · refine ⟨Std.le_refl _, fun hn => Std.not_lt.1 fun hlt => hc ⟨hn, hlt⟩⟩

/-- The smallest of a position and its children is at or before all three. -/
theorem smallest_le (key : ℕ → κ) (h : IndexHeap) (p : ℕ) :
    key (h.idx (h.smallest key p)) ≤ key (h.idx p) ∧
      ∀ c, 0 < c → c < h.n → (c - 1) / 2 = p → key (h.idx (h.smallest key p)) ≤ key (h.idx c) := by
  obtain ⟨hp, hl⟩ := h.pick_le key p (2 * p + 1)
  obtain ⟨hs, hr⟩ := h.pick_le key (h.pick key p (2 * p + 1)) (2 * p + 2)
  refine ⟨Std.le_trans hs hp, fun c hc hn hpar => ?_⟩
  rcases (by omega : c = 2 * p + 1 ∨ c = 2 * p + 2) with rfl | rfl
  · exact Std.le_trans hs (hl hn)
  · exact hr hn

/-- The smallest child goes up: what was out of place is so one level further down, and not
before its new parent. -/
theorem OrderedBut.down (ho : h.OrderedBut key p) {s : ℕ} (hs : h.smallest key p = s)
    (hne : s ≠ p) :
    (h.swap p s).OrderedBut key s ∧
      key ((h.swap p s).idx ((s - 1) / 2)) ≤ key ((h.swap p s).idx s) := by
  obtain ⟨hle, hmin⟩ := h.smallest_le key p
  rw [hs] at hle hmin
  have hchild : 0 < s ∧ s < h.n ∧ (s - 1) / 2 = p := by
    have hcases := h.smallest_cases key p
    have hpick : s = p ∨ s = 2 * p + 1 ∨ s = 2 * p + 2 := by
      rw [← hs]
      unfold smallest pick
      split_ifs <;> simp
    rw [hs] at hcases
    omega
  obtain ⟨hs0, hsn, hsp⟩ := hchild
  have hsp' : p ≠ s := fun he => hne he.symm
  refine ⟨⟨fun q hq hn hqs hpar => ?_, fun _ c hc hn hpar => ?_⟩, ?_⟩
  · rw [swap_idx, swap_idx, if_neg hpar, if_neg hqs]
    by_cases hqp : q = p
    · -- the child that went up and the old parent
      have hup : (q - 1) / 2 ≠ p := by omega
      rw [if_neg hup, if_pos hqp, hqp]
      exact ho.grand (by omega) s hs0 hsn hsp
    · by_cases hpp : (q - 1) / 2 = p
      · rw [if_pos hpp, if_neg hqp]
        exact hmin q hq hn hpp
      · rw [if_neg hpp, if_neg hqp]
        exact ho.off q hq hn hqp hpp
  · have hcp : c ≠ p := by omega
    have hcs : c ≠ s := by omega
    rw [swap_idx, swap_idx, if_neg (by omega), if_pos hsp, if_neg hcs, if_neg hcp]
    have := ho.off c hc hn hcp (by omega)
    rwa [hpar] at this
  · rw [swap_idx, swap_idx, hsp, if_neg hsp', if_pos rfl, if_pos rfl]
    exact hle

/-- A member that is not before its parent sinks to its place. -/
theorem OrderedBut.siftDown (ho : h.OrderedBut key p)
    (habove : 0 < p → key (h.idx ((p - 1) / 2)) ≤ key (h.idx p)) :
    (h.siftDown key p).Ordered key := by
  induction h, p using IndexHeap.siftDown.induct key with
  | case1 h p hs =>
    rw [IndexHeap.siftDown, dif_pos hs]
    have hmin := (h.smallest_le key p).2
    rw [hs] at hmin
    exact ho.ordered habove hmin
  | case2 h p hs ih =>
    rw [IndexHeap.siftDown, dif_neg hs]
    obtain ⟨hdown, hle⟩ := ho.down rfl hs
    exact ih hdown fun _ => hle

/-- The root leaves. -/
theorem Ordered.dropRoot (ho : h.Ordered key) : ((h.dropAt 0).siftDown key 0).Ordered key := by
  refine OrderedBut.siftDown ⟨fun q hq hn _ hpar => ?_, fun h0 => absurd h0 (Nat.lt_irrefl 0)⟩
    fun h0 => absurd h0 (Nat.lt_irrefl 0)
  rw [dropAt_n] at hn
  change key ((h.swap 0 (h.n - 1)).idx _) ≤ key ((h.swap 0 (h.n - 1)).idx _)
  rw [swap_idx, swap_idx, if_neg (by omega), if_neg hpar, if_neg (by omega), if_neg (by omega)]
  exact ho q hq (by omega)

/-- Another member takes the place of the root and sinks. -/
theorem Ordered.replaceRoot (ho : h.Ordered key) (x : ℕ) :
    ((h.replaceRoot x).siftDown key 0).Ordered key := by
  refine OrderedBut.siftDown ⟨fun q hq hn _ hpar => ?_, fun h0 => absurd h0 (Nat.lt_irrefl 0)⟩
    fun h0 => absurd h0 (Nat.lt_irrefl 0)
  change key (Function.update h.idx 0 x _) ≤ key (Function.update h.idx 0 x _)
  rw [Function.update_of_ne hpar, Function.update_of_ne (by omega)]
  exact ho q hq hn

/-- A touched member goes where it belongs, up or down. -/
theorem OrderedBut.touch [DecidableLE κ] {x : ℕ} (ho : h.OrderedBut key p) (hx : h.pos x = some p)
    (hp : p < h.n) : (h.touch key x).Ordered key := by
  rw [IndexHeap.touch, hx]
  simp only [if_pos hp]
  by_cases hs : h.smallest key p = p
  · have hstay : h.siftDown key p = h := by rw [IndexHeap.siftDown, dif_pos hs]
    rw [hstay]
    have hmin := (h.smallest_le key p).2
    rw [hs] at hmin
    exact ho.siftUp hmin hp
  · obtain ⟨hdown, hle⟩ := ho.down rfl hs
    have hord : (h.siftDown key p).Ordered key := by
      rw [IndexHeap.siftDown, dif_neg hs]
      exact hdown.siftDown fun _ => hle
    rw [hord.siftUp_eq (by rwa [siftDown_n])]
    exact hord

end IndexHeap

end Kappai

/-! A binary heap of entries in an array, its positions counted from 1. It moves as an index heap over
the entries that were there does. -/

namespace Kappai

/-- The entries at the positions from 1 to `hn`. -/
structure EntryHeap (ε : Type*) where
  entry : ℕ → ε
  hn : ℕ

namespace EntryHeap

variable {ε κ : Type*} (key : ε → κ)

def swap (h : EntryHeap ε) (i j : ℕ) : EntryHeap ε where
  entry := Function.update (Function.update h.entry i (h.entry j)) j (h.entry i)
  hn := h.hn

@[simp] theorem swap_hn (h : EntryHeap ε) (i j : ℕ) : (h.swap i j).hn = h.hn := rfl

def siftUp [LE κ] [DecidableLE κ] (h : EntryHeap ε) (i : ℕ) : EntryHeap ε :=
  if _hi : 1 < i then
    if key (h.entry (i / 2)) ≤ key (h.entry i) then h else (h.swap i (i / 2)).siftUp (i / 2)
  else h
termination_by i

/-- Position `best`, or `c` where its entry comes first. -/
def pick [LT κ] [DecidableLT κ] (h : EntryHeap ε) (best c : ℕ) : ℕ :=
  if c ≤ h.hn ∧ key (h.entry c) < key (h.entry best) then c else best

/-- The first of a position and its children. -/
def least [LT κ] [DecidableLT κ] (h : EntryHeap ε) (i : ℕ) : ℕ :=
  h.pick key (h.pick key i (2 * i)) (2 * i + 1)

theorem least_cases [LT κ] [DecidableLT κ] (h : EntryHeap ε) {i : ℕ} (hi : 0 < i) :
    h.least key i = i ∨ i < h.least key i ∧ h.least key i ≤ h.hn := by
  unfold least pick
  split_ifs <;> omega

def siftDown [LT κ] [DecidableLT κ] (h : EntryHeap ε) (i : ℕ) : EntryHeap ε :=
  if _hs : 0 < i ∧ h.least key i ≠ i then (h.swap i (h.least key i)).siftDown (h.least key i) else h
termination_by h.hn + 1 - i
decreasing_by
  have := (h.least_cases key _hs.1).resolve_left _hs.2
  rw [swap_hn]
  omega

def push [LE κ] [DecidableLE κ] (h : EntryHeap ε) (e : ε) : EntryHeap ε :=
  siftUp key ⟨Function.update h.entry (h.hn + 1) e, h.hn + 1⟩ (h.hn + 1)

/-- The heap without its root. -/
def pop [LT κ] [DecidableLT κ] (h : EntryHeap ε) : EntryHeap ε :=
  if h.hn ≤ 1 then { h with hn := h.hn - 1 }
  else siftDown key { h.swap 1 h.hn with hn := h.hn - 1 } 1

def entries (h : EntryHeap ε) : Multiset ε := (Multiset.range h.hn).map fun q => h.entry (q + 1)

/-- No entry comes before its parent. -/
def Ordered [LE κ] (h : EntryHeap ε) : Prop :=
  ∀ i, 1 < i → i ≤ h.hn → key (h.entry (i / 2)) ≤ key (h.entry i)

/-! ### The index heap behind it -/

/-- The entries are those of the table `base`, in the places of the index heap. -/
structure View (h : EntryHeap ε) (base : ℕ → ε) (g : IndexHeap) : Prop where
  n : h.hn = g.n
  entry : ∀ q, h.entry (q + 1) = base (g.idx q)

variable {key} {h : EntryHeap ε} {base : ℕ → ε} {g : IndexHeap}

theorem View.swap (hv : View h base g) (a b : ℕ) : View (h.swap (a + 1) (b + 1)) base (g.swap a b) where
  n := hv.n
  entry q := by
    simp only [EntryHeap.swap, IndexHeap.swap, Function.update_apply, Nat.add_right_cancel_iff, hv.entry]
    split_ifs <;> rfl

theorem View.siftUp [LE κ] [DecidableLE κ] (hv : View h base g) (p : ℕ) :
    View (h.siftUp key (p + 1)) base (g.siftUp (key ∘ base) p) := by
  induction g, p using IndexHeap.siftUp.induct (key ∘ base) generalizing h with
  | case1 g p hp hle =>
    have hpar : (p + 1) / 2 = (p - 1) / 2 + 1 := by omega
    rw [IndexHeap.siftUp, dif_pos hp, if_pos hle, EntryHeap.siftUp, dif_pos (by omega), hpar, hv.entry,
      hv.entry]
    have hle : key (base (g.idx ((p - 1) / 2))) ≤ key (base (g.idx p)) := hle
    rwa [if_pos hle]
  | case2 g p hp hle ih =>
    have hpar : (p + 1) / 2 = (p - 1) / 2 + 1 := by omega
    rw [IndexHeap.siftUp, dif_pos hp, if_neg hle, EntryHeap.siftUp, dif_pos (by omega), hpar, hv.entry,
      hv.entry]
    have hle : ¬ key (base (g.idx ((p - 1) / 2))) ≤ key (base (g.idx p)) := hle
    rw [if_neg hle]
    exact ih (hv.swap p ((p - 1) / 2))
  | case3 g p hp =>
    rw [IndexHeap.siftUp, dif_neg hp, EntryHeap.siftUp, dif_neg (by omega)]
    exact hv

theorem View.pick [LT κ] [DecidableLT κ] (hv : View h base g) (a c : ℕ) :
    h.pick key (a + 1) (c + 1) = g.pick (key ∘ base) a c + 1 := by
  rw [EntryHeap.pick, IndexHeap.pick, hv.entry, hv.entry, hv.n]
  simp only [Nat.succ_le_iff, Function.comp]
  split_ifs <;> rfl

theorem View.least [LT κ] [DecidableLT κ] (hv : View h base g) (p : ℕ) :
    h.least key (p + 1) = g.smallest (key ∘ base) p + 1 := by
  have hl : 2 * (p + 1) = 2 * p + 1 + 1 := by omega
  rw [EntryHeap.least, IndexHeap.smallest, hl, hv.pick, hv.pick]

theorem View.siftDown [LT κ] [DecidableLT κ] (hv : View h base g) (p : ℕ) :
    View (h.siftDown key (p + 1)) base (g.siftDown (key ∘ base) p) := by
  induction g, p using IndexHeap.siftDown.induct (key ∘ base) generalizing h with
  | case1 g p hs =>
    rw [IndexHeap.siftDown, dif_pos hs, EntryHeap.siftDown, dif_neg (by rw [hv.least, hs]; omega)]
    exact hv
  | case2 g p hs ih =>
    rw [IndexHeap.siftDown, dif_neg hs, EntryHeap.siftDown, dif_pos (by rw [hv.least]; omega), hv.least]
    exact ih (hv.swap p _)

theorem View.ordered [LE κ] (hv : View h base g) (ho : g.Ordered (key ∘ base)) : h.Ordered key := by
  intro i hi hn
  obtain ⟨p, rfl⟩ : ∃ p, i = p + 1 := ⟨i - 1, by omega⟩
  have hpar : (p + 1) / 2 = (p - 1) / 2 + 1 := by omega
  rw [hpar, hv.entry, hv.entry]
  exact ho p (by omega) (by have := hv.n; omega)

/-- An index heap that permutes its positions moves the entries about. -/
theorem View.entries (hv : View h base g) (hi : g.Indexes {p | p < g.n}) :
    h.entries = (Multiset.range g.n).map base := by
  have hinj : ∀ p ∈ Multiset.range g.n, ∀ q ∈ Multiset.range g.n, g.idx p = g.idx q → p = q :=
    fun p hp q hq heq => hi.idx_inj (Multiset.mem_range.1 hp) (Multiset.mem_range.1 hq) heq
  have hperm : (Multiset.range g.n).map g.idx = Multiset.range g.n := by
    refine (Multiset.Nodup.ext (Multiset.Nodup.map_on hinj (Multiset.nodup_range _))
      (Multiset.nodup_range _)).2 fun x => ?_
    rw [Multiset.mem_map, Multiset.mem_range]
    constructor
    · rintro ⟨p, hp, rfl⟩
      exact hi.mem p (Multiset.mem_range.1 hp)
    · intro hx
      obtain ⟨p, hp, heq⟩ := hi.idx_pos x hx
      exact ⟨p, Multiset.mem_range.2 hp, heq⟩
  rw [EntryHeap.entries, hv.n]
  calc (Multiset.range g.n).map (fun q => h.entry (q + 1))
      = (Multiset.range g.n).map (base ∘ g.idx) := Multiset.map_congr rfl fun q _ => hv.entry q
    _ = ((Multiset.range g.n).map g.idx).map base := (Multiset.map_map base g.idx _).symm
    _ = (Multiset.range g.n).map base := by rw [hperm]

/-- The index heap of a heap as it is. -/
def asIs (n : ℕ) : IndexHeap := ⟨id, some, n⟩

theorem asIs_indexes (n : ℕ) : (asIs n).Indexes {p | p < n} :=
  ⟨fun _ _ => rfl, fun _ hp => hp, fun x hx => ⟨x, hx, rfl⟩⟩

theorem view_asIs (h : EntryHeap ε) : View h (fun q => h.entry (q + 1)) (asIs h.hn) := ⟨rfl, fun _ => rfl⟩

theorem asIs_ordered [LE κ] {n : ℕ} (hn : n ≤ h.hn) (ho : h.Ordered key) :
    (asIs n).Ordered (key ∘ fun q => h.entry (q + 1)) := by
  intro q hq hlt
  have hpar : (q + 1) / 2 = (q - 1) / 2 + 1 := by omega
  have hcell := ho (q + 1) (by omega) (Nat.le_trans hlt hn)
  rw [hpar] at hcell
  exact hcell

/-! ### The operations -/

section

variable [LinearOrder κ]

theorem push_view (h : EntryHeap ε) (e : ε) :
    View (h.push key e) (fun q => Function.update h.entry (h.hn + 1) e (q + 1))
      ((asIs (h.hn + 1)).siftUp (key ∘ fun q => Function.update h.entry (h.hn + 1) e (q + 1)) h.hn) :=
  (view_asIs ⟨Function.update h.entry (h.hn + 1) e, h.hn + 1⟩).siftUp h.hn

@[simp] theorem push_hn (h : EntryHeap ε) (e : ε) : (h.push key e).hn = h.hn + 1 := by
  rw [(push_view h e).n, IndexHeap.siftUp_n]
  rfl

theorem push_entries (h : EntryHeap ε) (e : ε) : (h.push key e).entries = e ::ₘ h.entries := by
  have hi := (asIs_indexes (h.hn + 1)).siftUp
    (key ∘ fun q => Function.update h.entry (h.hn + 1) e (q + 1)) (p := h.hn) (Nat.lt_succ_self _)
  have hn : ∀ k : ℕ → κ, ((asIs (h.hn + 1)).siftUp k h.hn).n = h.hn + 1 := fun k =>
    IndexHeap.siftUp_n k _ _
  rw [(push_view h e).entries (by rw [hn]; exact hi), hn, Multiset.range_succ, Multiset.map_cons,
    Function.update_self]
  refine congrArg (e ::ₘ ·) (Multiset.map_congr rfl fun q hq => ?_)
  have hq := Multiset.mem_range.1 hq
  rw [Function.update_of_ne (by omega)]

theorem Ordered.push (ho : h.Ordered key) (e : ε) : (h.push key e).Ordered key := by
  refine (push_view h e).ordered (IndexHeap.OrderedBut.siftUp
    ⟨fun q hq hn hqn hpar => ?_, fun _ c _ hn hpar => ?_⟩ (fun c _ hn hpar => ?_) (Nat.lt_succ_self h.hn))
  · have hn : q < h.hn + 1 := hn
    have hold : ∀ q < h.hn, Function.update h.entry (h.hn + 1) e (q + 1) = h.entry (q + 1) := fun q hq =>
      Function.update_of_ne (by omega) _ _
    simp only [asIs, Function.comp, id]
    rw [hold q (by omega), hold _ (by omega)]
    exact asIs_ordered (Nat.le_refl _) ho q hq (by simp only [asIs]; omega)
  · have hn : c < h.hn + 1 := hn
    omega
  · have hn : c < h.hn + 1 := hn
    omega

/-- The root leaves by way of the last position. -/
theorem pop_view (h : EntryHeap ε) (hn : 1 < h.hn) :
    View (h.pop key) (fun q => (h.swap 1 h.hn).entry (q + 1))
      ((asIs (h.hn - 1)).siftDown (key ∘ fun q => (h.swap 1 h.hn).entry (q + 1)) 0) := by
  rw [pop, if_neg (by omega)]
  exact (view_asIs { h.swap 1 h.hn with hn := h.hn - 1 }).siftDown 0

@[simp] theorem pop_hn (h : EntryHeap ε) : (h.pop key).hn = h.hn - 1 := by
  by_cases hn : 1 < h.hn
  · rw [(pop_view h hn).n, IndexHeap.siftDown_n]
    rfl
  · rw [pop, if_pos (by omega)]

theorem swap_entries (h : EntryHeap ε) {a b : ℕ} (ha : a < h.hn) (hb : b < h.hn) :
    (h.swap (a + 1) (b + 1)).entries = h.entries :=
  ((view_asIs h).swap a b).entries ((asIs_indexes h.hn).swap ha hb)

theorem pop_entries (h : EntryHeap ε) (hn : 0 < h.hn) : h.entries = h.entry 1 ::ₘ (h.pop key).entries := by
  obtain ⟨n, hn⟩ : ∃ n, h.hn = n + 1 := ⟨h.hn - 1, by omega⟩
  rcases Nat.eq_zero_or_pos n with rfl | hpos
  · rw [pop, if_pos (by omega), entries, entries, hn]
    rfl
  · have hlast : (h.swap 1 (n + 1)).entry (n + 1) = h.entry 1 := Function.update_self ..
    have hi := (asIs_indexes n).siftDown (key ∘ fun q => (h.swap 1 h.hn).entry (q + 1)) (p := 0) hpos
    have hrest : (h.pop key).entries =
        (Multiset.range n).map fun q => (h.swap 1 (n + 1)).entry (q + 1) := by
      have hv : View (h.pop key) _ _ := pop_view h (by omega)
      simp only [hn, Nat.add_sub_cancel] at hv hi
      rw [hv.entries (by rw [IndexHeap.siftDown_n]; exact hi), IndexHeap.siftDown_n]
      rfl
    rw [hrest, ← swap_entries h (a := 0) (b := n) (by omega) (by omega), entries, swap_hn, hn,
      Multiset.range_succ, Multiset.map_cons, Nat.zero_add, hlast]

theorem Ordered.pop (ho : h.Ordered key) : (h.pop key).Ordered key := by
  by_cases hn : 1 < h.hn
  · refine (pop_view h hn).ordered (IndexHeap.OrderedBut.siftDown
      ⟨fun q hq hlt _ hpar => ?_, fun h0 => absurd h0 (Nat.lt_irrefl 0)⟩
      fun h0 => absurd h0 (Nat.lt_irrefl 0))
    have hlt : q < h.hn - 1 := hlt
    have hkept : ∀ q, q ≠ 0 → q < h.hn - 1 → (h.swap 1 h.hn).entry (q + 1) = h.entry (q + 1) := by
      intro q h0 hlt
      exact (Function.update_of_ne (by omega) _ _).trans (Function.update_of_ne (by omega) _ _)
    simp only [asIs, Function.comp, id]
    rw [hkept q (by omega) hlt, hkept _ hpar (by omega)]
    exact asIs_ordered (Nat.le_refl _) ho q hq (by simp only [asIs]; omega)
  · intro i hi hle
    rw [pop_hn] at hle
    omega

theorem Ordered.root_le (ho : h.Ordered key) {e : ε} (he : e ∈ h.entries) : key (h.entry 1) ≤ key e := by
  obtain ⟨q, hq, rfl⟩ := Multiset.mem_map.1 he
  exact (asIs_ordered (Nat.le_refl _) ho).root_le (Multiset.mem_range.1 hq)

end

end EntryHeap

end Kappai
