import Mathlib.Algebra.Order.Ring.Nat
import Mathlib.Data.List.Basic
import Mathlib.Data.List.Induction
import Mathlib.Logic.Function.Basic
import Mathlib.Tactic.Common
import Mathlib.Algebra.BigOperators.Group.Finset.Basic
import Mathlib.Algebra.Order.BigOperators.Group.Finset

/-! Items laid out by key in one array: every key has a stretch as long as it has items, and a
cursor into it. A stretch is put in order by insertion. -/

namespace Kappai

variable {α : Type*} (key : α → ℕ)

/-- Where the stretch of a key begins. -/
def stretch (count : ℕ → ℕ) : ℕ → ℕ
  | 0 => 0
  | u + 1 => stretch count u + count u

/-- An item goes to the cursor of its key, which moves on. -/
def scatterStep (s : (ℕ → ℕ) × (ℕ → α)) (a : α) : (ℕ → ℕ) × (ℕ → α) :=
  (Function.update s.1 (key a) (s.1 (key a) + 1), Function.update s.2 (s.1 (key a)) a)

def scatter (start : ℕ → ℕ) (cells : ℕ → α) (items : List α) : ℕ → α :=
  (items.foldl (scatterStep key) (start, cells)).2

variable {key} {count : ℕ → ℕ}

theorem stretch_mono (count : ℕ → ℕ) {u v : ℕ} (h : u ≤ v) : stretch count u ≤ stretch count v := by
  induction h with
  | refl => exact Nat.le_refl _
  | step _ ih => exact ih.trans (Nat.le_add_right _ _)

/-- Stretches of different keys have no place in common. -/
theorem stretch_apart {u v c d : ℕ} (hc : c < count u) (hd : d < count v) (hne : u ≠ v) :
    stretch count u + c ≠ stretch count v + d := by
  rcases Nat.lt_or_gt_of_ne hne with h | h
  · have hle : stretch count u + count u ≤ stretch count v := stretch_mono count h
    omega
  · have hle : stretch count v + count v ≤ stretch count u := stretch_mono count h
    omega

/-- The items laid out so far, each key's in their order at the head of its stretch. -/
structure Scattered (key : α → ℕ) (count : ℕ → ℕ) (seen : List α) (s : (ℕ → ℕ) × (ℕ → α)) :
    Prop where
  cursor : ∀ u, s.1 u = stretch count u + (seen.filter (key · == u)).length
  cells : ∀ u c a, (seen.filter (key · == u))[c]? = some a → s.2 (stretch count u + c) = a

theorem Scattered.step {seen : List α} {s : (ℕ → ℕ) × (ℕ → α)} (h : Scattered key count seen s)
    {a : α} (hroom : ∀ u, ((seen ++ [a]).filter (key · == u)).length ≤ count u) :
    Scattered key count (seen ++ [a]) (scatterStep key s a) := by
  have hfilter : ∀ u, (seen ++ [a]).filter (key · == u) =
      seen.filter (key · == u) ++ if key a = u then [a] else [] := by
    intro u
    rw [List.filter_append]
    by_cases hu : key a = u
    · simp [hu]
    · simp [hu]
  have hcount : (seen.filter (key · == key a)).length < count (key a) := by
    have hle := hroom (key a)
    rw [hfilter, if_pos rfl, List.length_append, List.length_singleton] at hle
    exact hle
  refine ⟨fun u => ?_, fun u c b hb => ?_⟩
  · rw [hfilter]
    by_cases hu : key a = u
    · subst hu
      simp only [scatterStep, Function.update_self, h.cursor, if_true, List.length_append,
        List.length_singleton, Nat.add_assoc]
    · simp only [scatterStep, Function.update_of_ne (Ne.symm hu), h.cursor, if_neg hu,
        List.append_nil]
  · rw [hfilter] at hb
    simp only [scatterStep, h.cursor (key a)]
    by_cases hold : c < (seen.filter (key · == u)).length
    · rw [List.getElem?_append_left hold] at hb
      have hc : c < count u :=
        Nat.lt_of_lt_of_le hold (((List.sublist_append_left seen [a]).filter _).length_le.trans (hroom u))
      rw [Function.update_of_ne, h.cells u c b hb]
      by_cases hu : key a = u
      · subst hu
        omega
      · exact stretch_apart hc hcount (Ne.symm hu)
    · by_cases hu : key a = u
      · subst hu
        rw [if_pos rfl, List.getElem?_append_right (Nat.le_of_not_lt hold)] at hb
        obtain ⟨hlt, hget⟩ := List.getElem?_eq_some_iff.mp hb
        rw [List.length_singleton, Nat.lt_one_iff] at hlt
        rw [List.getElem_singleton] at hget
        have hc : c = (seen.filter (key · == key a)).length := by omega
        rw [hc, Function.update_self, hget]
      · rw [if_neg hu, List.append_nil, List.getElem?_eq_none (Nat.le_of_not_lt hold)] at hb
        cases hb

theorem scattered {items : List α}
    (hcount : ∀ u, (items.filter (key · == u)).length ≤ count u) (cells : ℕ → α) :
    Scattered key count items (items.foldl (scatterStep key) (stretch count, cells)) := by
  induction items using List.reverseRecOn with
  | nil => exact ⟨fun _ => rfl, fun _ _ _ h => absurd h (by simp)⟩
  | append_singleton seen a ih =>
    rw [List.foldl_append]
    refine Scattered.step (ih fun u => ?_) hcount
    exact ((List.sublist_append_left seen [a]).filter _).length_le.trans (hcount u)

/-- A key's stretch holds its items, in their order. -/
theorem map_scatter {items : List α}
    (hcount : ∀ u, (items.filter (key · == u)).length ≤ count u) (cells : ℕ → α) (u : ℕ) :
    (List.range (items.filter (key · == u)).length).map
        (fun c => scatter key (stretch count) cells items (stretch count u + c)) =
      items.filter (key · == u) := by
  have hlaid := scattered hcount cells
  refine List.ext_getElem? fun c => ?_
  by_cases hc : c < (items.filter (key · == u)).length
  · have hget := List.getElem?_eq_getElem hc
    rw [List.getElem?_map, List.getElem?_range hc, Option.map_some, hget]
    exact congrArg some (hlaid.cells u c _ hget)
  · rw [List.getElem?_eq_none (Nat.le_of_not_lt hc), List.getElem?_eq_none]
    rw [List.length_map, List.length_range]
    exact Nat.le_of_not_lt hc

/-- The items of each key, taken together, are the items. -/
theorem flatMap_filter_perm {keys : List ℕ} (hnodup : keys.Nodup) {items : List α}
    (h : ∀ a ∈ items, key a ∈ keys) :
    (keys.flatMap fun u => items.filter (key · == u)).Perm items := by
  induction keys generalizing items with
  | nil =>
    cases items with
    | nil => exact .refl _
    | cons a items => exact absurd (h a List.mem_cons_self) List.not_mem_nil
  | cons u keys ih =>
    obtain ⟨hu, hnodup⟩ := List.nodup_cons.mp hnodup
    have hrest : ∀ a ∈ items.filter (fun a => !(key a == u)), key a ∈ keys := by
      intro a ha
      obtain ⟨ha, hne⟩ := List.mem_filter.mp ha
      rcases List.mem_cons.mp (h a ha) with heq | hmem
      · simp [heq] at hne
      · exact hmem
    have hsame : ∀ v ∈ keys, (items.filter fun a => !(key a == u)).filter (key · == v) =
        items.filter (key · == v) := by
      intro v hv
      rw [List.filter_filter]
      refine List.filter_congr fun a _ => ?_
      by_cases hav : key a = v
      · have hne : v ≠ u := fun heq => hu (heq ▸ hv)
        simp [hav, hne]
      · simp [hav]
    have hflat := ih hnodup hrest
    rw [List.flatMap_congr hsame] at hflat
    rw [List.flatMap_cons]
    exact (hflat.append_left _).trans (List.filter_append_perm _ items)

/-- The `n` cells from `base` on. -/
def cellsFrom (base n : ℕ) (a : ℕ → α) : List α := (List.range n).map fun c => a (base + c)

@[simp] theorem length_cellsFrom (base n : ℕ) (a : ℕ → α) : (cellsFrom base n a).length = n := by
  simp [cellsFrom]

theorem cellsFrom_succ (base n : ℕ) (a : ℕ → α) :
    cellsFrom base (n + 1) a = cellsFrom base n a ++ [a (base + n)] := by
  simp [cellsFrom, List.range_succ]

theorem cellsFrom_congr {base n : ℕ} {a b : ℕ → α} (h : ∀ c < n, a (base + c) = b (base + c)) :
    cellsFrom base n a = cellsFrom base n b :=
  List.map_congr_left fun c hc => h c (List.mem_range.mp hc)

section InsertionSort

variable (r : α → α → Bool)

/-- From position `j` down, what may not stand before `k` moves up by one. -/
def shiftLate (k : α) (base : ℕ) : ℕ → (ℕ → α) → ℕ × (ℕ → α)
  | 0, a => (0, a)
  | j + 1, a =>
    if r (a (base + j)) k then
      shiftLate k base j (Function.update a (base + (j + 1)) (a (base + j)))
    else (j + 1, a)

/-- The member at `i` goes where it belongs among those before it. -/
def insertAt (base : ℕ) (a : ℕ → α) (i : ℕ) : ℕ → α :=
  Function.update (shiftLate r (a (base + i)) base i a).2
    (base + (shiftLate r (a (base + i)) base i a).1) (a (base + i))

def sortCells (base n : ℕ) (a : ℕ → α) : ℕ → α :=
  (List.range' 1 (n - 1)).foldl (insertAt r base) a

variable {r}

/-- Where the shift stops: all after it have moved, the one before it may stand there. -/
structure LateShift (r : α → α → Bool) (k : α) (base i : ℕ) (a : ℕ → α) (s : ℕ × (ℕ → α)) :
    Prop where
  le : s.1 ≤ i
  moved : ∀ c, s.1 ≤ c → c < i → r (a (base + c)) k = true ∧ s.2 (base + (c + 1)) = a (base + c)
  stop : ∀ c, c + 1 = s.1 → r (a (base + c)) k = false
  kept : ∀ c, c ≤ base + s.1 ∨ base + i < c → s.2 c = a c

theorem lateShift (k : α) (base i : ℕ) (a : ℕ → α) :
    LateShift r k base i a (shiftLate r k base i a) := by
  induction i generalizing a with
  | zero => exact ⟨Nat.le_refl _, by omega, by simp [shiftLate], fun _ _ => rfl⟩
  | succ j ih =>
    rw [shiftLate]
    split_ifs with hlate
    · have h := ih (Function.update a (base + (j + 1)) (a (base + j)))
      have hne : ∀ c, c < j + 1 → base + c ≠ base + (j + 1) := fun c hc => by omega
      refine ⟨h.le.trans (Nat.le_succ _), fun c hc hcj => ?_, fun c hc => ?_, fun c hc => ?_⟩
      · by_cases hj : c < j
        · have hmoved := h.moved c hc hj
          rw [Function.update_of_ne (hne c hcj)] at hmoved
          exact hmoved
        · obtain rfl : c = j := by omega
          refine ⟨hlate, ?_⟩
          rw [h.kept _ (.inr (by omega)), Function.update_self]
      · have hstop := h.stop c hc
        have hle := h.le
        rwa [Function.update_of_ne (hne c (by omega))] at hstop
      · have hle := h.le
        rw [h.kept c (by omega), Function.update_of_ne (by omega)]
    · refine ⟨Nat.le_refl _, by omega, fun c hc => ?_, fun _ _ => rfl⟩
      obtain rfl : c = j := Nat.succ.inj hc
      exact Bool.eq_false_iff.mpr hlate

/-- The member is put between two parts of the members before it, of which the second has moved. -/
theorem cellsFrom_insertAt (base i : ℕ) (a : ℕ → α) :
    ∃ front back, cellsFrom base i a = front ++ back ∧
      cellsFrom base (i + 1) (insertAt r base a i) = front ++ a (base + i) :: back ∧
      (∀ x ∈ back, r x (a (base + i)) = true) ∧
      (∀ x ∈ front.getLast?, r x (a (base + i)) = false) := by
  have h := lateShift (r := r) (a (base + i)) base i a
  set s := shiftLate r (a (base + i)) base i a
  have hcell : ∀ c, insertAt r base a i (base + c) =
      if c = s.1 then a (base + i) else s.2 (base + c) := by
    intro c
    by_cases hc : c = s.1
    · rw [if_pos hc, hc]
      exact Function.update_self ..
    · have hne : base + c ≠ base + s.1 := by omega
      rw [if_neg hc]
      exact Function.update_of_ne hne ..
  obtain ⟨d, hd⟩ : ∃ d, i = s.1 + d := ⟨i - s.1, by have := h.le; omega⟩
  refine ⟨cellsFrom base s.1 a, cellsFrom (base + s.1) d a, ?_, ?_, fun x hx => ?_, fun x hx => ?_⟩
  · rw [hd, cellsFrom, List.range_add, List.map_append, List.map_map]
    simp [cellsFrom, Function.comp_def, Nat.add_assoc]
  · have hsplit : List.range (i + 1) = List.range s.1 ++ s.1 :: (List.range d).map (s.1 + 1 + ·) := by
      rw [hd, Nat.add_assoc, Nat.add_comm d 1, ← Nat.add_assoc, List.range_add, List.range_succ,
        List.append_assoc, List.singleton_append]
    rw [cellsFrom, hsplit, List.map_append, List.map_cons, List.map_map, hcell, if_pos rfl]
    congr 1
    · refine List.map_congr_left fun c hc => ?_
      have hlt := List.mem_range.mp hc
      rw [hcell, if_neg (by omega), h.kept _ (.inl (by omega))]
    · congr 1
      refine List.map_congr_left fun c hc => ?_
      have hlt := List.mem_range.mp hc
      have hmoved := (h.moved (s.1 + c) (Nat.le_add_right _ _) (by omega)).2
      rw [Function.comp_apply, hcell, if_neg (by omega), Nat.add_right_comm, hmoved, Nat.add_assoc]
  · obtain ⟨c, hc, rfl⟩ := List.mem_map.mp hx
    have hlt := List.mem_range.mp hc
    rw [Nat.add_assoc]
    exact (h.moved (s.1 + c) (Nat.le_add_right _ _) (by omega)).1
  · rcases Nat.eq_zero_or_pos s.1 with h0 | h0
    · rw [h0] at hx
      simp [cellsFrom] at hx
    · obtain ⟨c, hc⟩ : ∃ c, s.1 = c + 1 := ⟨s.1 - 1, by omega⟩
      rw [hc, cellsFrom_succ, List.getLast?_concat, Option.mem_some_iff] at hx
      rw [← hx]
      exact h.stop c hc.symm

theorem insertAt_of_outside {base i c : ℕ} (a : ℕ → α) (hc : c < base ∨ base + i < c) :
    insertAt r base a i c = a c := by
  have h := lateShift (r := r) (a (base + i)) base i a
  have hle := h.le
  rw [insertAt, Function.update_of_ne (by omega)]
  exact h.kept c (by omega)

/-- `sortCells` one member longer. -/
theorem sortCells_succ (base n : ℕ) (a : ℕ → α) :
    sortCells r base (n + 2) a = insertAt r base (sortCells r base (n + 1) a) (n + 1) := by
  rw [sortCells, sortCells, show n + 2 - 1 = n + 1 from rfl, List.range'_1_concat, List.foldl_concat,
    Nat.add_comm 1 n]
  rfl

theorem sortCells_of_outside {base n c : ℕ} (a : ℕ → α) (hc : c < base ∨ base + n ≤ c) :
    sortCells r base n a c = a c := by
  induction n with
  | zero => rfl
  | succ n ih =>
    cases n with
    | zero => rfl
    | succ n => rw [sortCells_succ, insertAt_of_outside _ (by omega), ih (by omega)]

/-- Members that come in the order `S` end in the order `R`, if those that move for one belong after
it and the others before it. -/
theorem cellsFrom_sortCells {R S : α → α → Prop} (base n : ℕ) (a : ℕ → α)
    (hback : ∀ x k, S x k → r x k = true → R k x)
    (hfront : ∀ x k, S x k → r x k = false → R x k)
    (htrans : ∀ x y k, R x y → r y k = false → r x k = false)
    (hS : (cellsFrom base n a).Pairwise S) :
    (cellsFrom base n (sortCells r base n a)).Pairwise R ∧
      (cellsFrom base n (sortCells r base n a)).Perm (cellsFrom base n a) := by
  induction n with
  | zero => exact ⟨.nil, .refl _⟩
  | succ n ih =>
    cases n with
    | zero => exact ⟨List.pairwise_singleton _ _, .refl _⟩
    | succ n =>
      rw [cellsFrom_succ] at hS
      obtain ⟨hS', -, hlast⟩ := List.pairwise_append.mp hS
      obtain ⟨hpair, hperm⟩ := ih hS'
      have hkey : sortCells r base (n + 1) a (base + (n + 1)) = a (base + (n + 1)) :=
        sortCells_of_outside a (.inr (Nat.le_refl _))
      obtain ⟨front, back, hold, hnew, hb, hf⟩ :=
        cellsFrom_insertAt (r := r) base (n + 1) (sortCells r base (n + 1) a)
      rw [hkey] at hnew hb hf
      rw [hold] at hpair hperm
      have hbefore : ∀ x ∈ front ++ back, S x (a (base + (n + 1))) := fun x hx =>
        hlast x (hperm.mem_iff.mp hx) _ (List.mem_singleton_self _)
      have hall : ∀ x ∈ front, r x (a (base + (n + 1))) = false := by
        rcases List.eq_nil_or_concat' front with rfl | ⟨init, y, rfl⟩
        · exact fun x hx => absurd hx List.not_mem_nil
        · have hy := hf y (by simp)
          have hinit := (List.pairwise_append.mp (List.pairwise_append.mp hpair).1).2.2
          intro x hx
          rcases List.mem_append.mp hx with hx | hx
          · exact htrans x y _ (hinit x hx y (List.mem_singleton_self _)) hy
          · rw [List.mem_singleton.mp hx]
            exact hy
      rw [sortCells_succ, hnew]
      constructor
      · obtain ⟨hpf, hpb, hfb⟩ := List.pairwise_append.mp hpair
        refine List.pairwise_append.mpr ⟨hpf, List.pairwise_cons.mpr ⟨fun x hx => ?_, hpb⟩, ?_⟩
        · exact hback x _ (hbefore x (List.mem_append_right _ hx)) (hb x hx)
        · intro x hx y hy
          rcases List.mem_cons.mp hy with rfl | hy
          · exact hfront x _ (hbefore x (List.mem_append_left _ hx)) (hall x hx)
          · exact hfb x hx y hy
      · rw [cellsFrom_succ]
        exact List.perm_middle.trans ((hperm.cons _).trans (List.perm_append_singleton _ _).symm)

end InsertionSort

end Kappai

/-! A measure summed over the first `n` threads, of which one moves at a time. -/

namespace Kappai

variable {α M : Type*}

def tally [AddCommMonoid M] (n : ℕ) (f : α → M) (g : ℕ → α) : M := ∑ t ∈ Finset.range n, f (g t)

/-- Thread `k` gives up its share and gets another. -/
theorem tally_update [AddCommMonoid M] (f : α → M) (g : ℕ → α) {n k : ℕ} (hk : k < n) (x : α) :
    tally n f (Function.update g k x) + f (g k) = tally n f g + f x := by
  have hmem : k ∈ Finset.range n := Finset.mem_range.2 hk
  have hrest : ∑ t ∈ (Finset.range n).erase k, f (Function.update g k x t) =
      ∑ t ∈ (Finset.range n).erase k, f (g t) :=
    Finset.sum_congr rfl fun t ht => by rw [Function.update_of_ne (Finset.ne_of_mem_erase ht)]
  rw [tally, tally, ← Finset.add_sum_erase _ _ hmem, ← Finset.add_sum_erase _ (fun t => f (g t)) hmem,
    hrest, Function.update_self, add_comm _ (f (g k)), add_comm (f x), ← add_assoc]

theorem tally_congr [AddCommMonoid M] {f : α → M} {g g' : ℕ → α} {n : ℕ}
    (h : ∀ t < n, f (g t) = f (g' t)) : tally n f g = tally n f g' :=
  Finset.sum_congr rfl fun t ht => h t (Finset.mem_range.1 ht)

theorem tally_nonneg [AddCommMonoid M] [PartialOrder M] [IsOrderedAddMonoid M] {f : α → M}
    {g : ℕ → α} {n : ℕ} (h : ∀ t < n, 0 ≤ f (g t)) : 0 ≤ tally n f g :=
  Finset.sum_nonneg fun t ht => h t (Finset.mem_range.1 ht)

theorem le_tally [AddCommMonoid M] [PartialOrder M] [IsOrderedAddMonoid M] {f : α → M} {g : ℕ → α}
    {n : ℕ} (h : ∀ t < n, 0 ≤ f (g t)) {t : ℕ} (ht : t < n) : f (g t) ≤ tally n f g :=
  Finset.single_le_sum (f := fun t => f (g t)) (fun t ht => h t (Finset.mem_range.1 ht))
    (Finset.mem_range.2 ht)

/-- Where no share is negative, a sum of zero has no share. -/
theorem tally_eq_zero [AddCommMonoid M] [PartialOrder M] [IsOrderedAddMonoid M] {f : α → M}
    {g : ℕ → α} {n : ℕ} (h : ∀ t < n, 0 ≤ f (g t)) (hsum : tally n f g = 0) {t : ℕ} (ht : t < n) :
    f (g t) = 0 :=
  (Finset.sum_eq_zero_iff_of_nonneg fun t ht => h t (Finset.mem_range.1 ht)).1 hsum t
    (Finset.mem_range.2 ht)

theorem tally_zero [AddCommMonoid M] {f : α → M} {g : ℕ → α} {n : ℕ} (h : ∀ t < n, f (g t) = 0) :
    tally n f g = 0 := Finset.sum_eq_zero fun t ht => h t (Finset.mem_range.1 ht)

end Kappai
