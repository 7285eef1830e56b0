import Mathlib.Data.List.Nodup
import Mathlib.Logic.Function.Basic
import Mathlib.Tactic.Common
import Mathlib.Algebra.Order.Group.Nat
import Mathlib.Data.List.Basic
import Mathlib.Data.Nat.ModEq

/-! A queue of linked nodes with a head and a tail pointer, and the list it stands for. -/

namespace Kappai

variable {α : Type*}

structure LinkedQueue (α : Type*) where
  next : α → Option α
  head : Option α
  tail : Option α

/-- Following `next` from `h` goes through the members of the list and ends. -/
def Chained (next : α → Option α) : Option α → List α → Prop
  | h, [] => h = none
  | h, a :: l => h = some a ∧ Chained next (next a) l

theorem Chained.head?_eq {next : α → Option α} {h : Option α} {l : List α}
    (hc : Chained next h l) : h = l.head? := by
  cases l with
  | nil => exact hc
  | cons a l => exact hc.1

theorem Chained.unique {next : α → Option α} {h : Option α} {l l' : List α}
    (hc : Chained next h l) (hc' : Chained next h l') : l = l' := by
  induction l generalizing h l' with
  | nil =>
    cases l' with
    | nil => rfl
    | cons b l' => exact absurd (hc.symm.trans hc'.1) (by simp)
  | cons a l ih =>
    cases l' with
    | nil => exact absurd (hc'.symm.trans hc.1) (by simp)
    | cons b l' =>
      obtain ⟨ha, hl⟩ := hc
      obtain ⟨hb, hl'⟩ := hc'
      have hab : a = b := Option.some.inj (ha.symm.trans hb)
      subst hab
      rw [ih hl hl']

theorem Chained.suffix {next : α → Option α} {h : Option α} {xs l : List α}
    (hc : Chained next h (xs ++ l)) : ∃ h', Chained next h' l := by
  induction xs generalizing h with
  | nil => exact ⟨h, hc⟩
  | cons x xs ih => exact ih hc.2

theorem Chained.next_eq {next : α → Option α} {h : Option α} {xs ys : List α} {a : α}
    (hc : Chained next h (xs ++ a :: ys)) : next a = ys.head? := by
  obtain ⟨h', hc⟩ := hc.suffix
  exact hc.2.head?_eq

/-- The node after a member is the next member. -/
theorem Chained.split {next : α → Option α} {h : Option α} {l : List α} {a b : α}
    (hc : Chained next h l) (ha : a ∈ l) (hb : next a = some b) :
    ∃ xs ys, l = xs ++ a :: b :: ys := by
  obtain ⟨xs, ys, rfl⟩ := List.mem_iff_append.1 ha
  rw [hc.next_eq] at hb
  obtain ⟨ys, rfl⟩ := List.head?_eq_some_iff.1 hb
  exact ⟨xs, ys, rfl⟩

/-- The members in the order of the links, at most `fuel` of them. -/
def walk (next : α → Option α) : ℕ → Option α → List α
  | fuel + 1, some a => a :: walk next fuel (next a)
  | _, _ => []

theorem Chained.walk_eq {next : α → Option α} {h : Option α} {l : List α} {fuel : ℕ}
    (hc : Chained next h l) (hlen : l.length ≤ fuel) : walk next fuel h = l := by
  induction l generalizing h fuel with
  | nil =>
    obtain rfl : h = none := hc
    cases fuel <;> rfl
  | cons a l ih =>
    obtain ⟨rfl, hl⟩ := hc
    obtain ⟨fuel, rfl⟩ : ∃ n, fuel = n + 1 := ⟨fuel - 1, by simp at hlen; omega⟩
    rw [walk, ih hl (by simpa using hlen)]

namespace LinkedQueue

variable [DecidableEq α]

def empty : LinkedQueue α := ⟨fun _ => none, none, none⟩

def pushBack (q : LinkedQueue α) (a : α) : LinkedQueue α :=
  let next := Function.update q.next a none
  match q.tail with
  | some t => ⟨Function.update next t (some a), q.head, some a⟩
  | none => ⟨next, some a, some a⟩

def pushFront (q : LinkedQueue α) (a : α) : LinkedQueue α :=
  ⟨Function.update q.next a q.head, some a, q.tail.or (some a)⟩

/-- The queue after its head `a` is taken out. -/
def popFront (q : LinkedQueue α) (a : α) : LinkedQueue α :=
  ⟨q.next, q.next a, (q.next a).bind fun _ => q.tail⟩

end LinkedQueue

theorem Chained.update [DecidableEq α] {next : α → Option α} {h : Option α} {l : List α} {a : α}
    (b : Option α) (hc : Chained next h l) (ha : a ∉ l) :
    Chained (Function.update next a b) h l := by
  induction l generalizing h with
  | nil => exact hc
  | cons c l ih =>
    obtain ⟨hac, hal⟩ := not_or.mp (mt List.mem_cons.mpr ha)
    refine ⟨hc.1, ?_⟩
    rw [Function.update_of_ne (Ne.symm hac)]
    exact ih hc.2 hal

/-- Linking a node that stands alone behind the last one appends it. -/
theorem Chained.link [DecidableEq α] {next : α → Option α} {h : Option α} {l : List α} {t a : α}
    (hc : Chained next h l) (hnd : l.Nodup) (ha : a ∉ l) (hnone : next a = none)
    (ht : l.getLast? = some t) :
    Chained (Function.update next t (some a)) h (l ++ [a]) := by
  induction l generalizing h with
  | nil => simp at ht
  | cons b l ih =>
    obtain ⟨hb, hbl⟩ := hc
    obtain ⟨hbn, hnd⟩ := List.nodup_cons.mp hnd
    obtain ⟨hab, hal⟩ := not_or.mp (mt List.mem_cons.mpr ha)
    cases l with
    | nil =>
      obtain rfl : b = t := by simpa using ht
      refine ⟨hb, ?_⟩
      rw [Function.update_self]
      exact ⟨rfl, (Function.update_of_ne hab _ _).trans hnone⟩
    | cons c l =>
      have hlast : (c :: l).getLast? = some t := by simpa using ht
      have htl : t ∈ c :: l := List.mem_of_getLast? hlast
      have hbt : b ≠ t := fun h => hbn (h ▸ htl)
      refine ⟨hb, ?_⟩
      rw [Function.update_of_ne hbt]
      exact ih hbl hnd hal hlast

/-- A member links to the one after the next. -/
theorem Chained.unlink [DecidableEq α] {next : α → Option α} {h : Option α} {xs ys : List α} {a b : α}
    (hc : Chained next h (xs ++ a :: b :: ys)) (hnd : (xs ++ a :: b :: ys).Nodup) :
    Chained (Function.update next a (next b)) h (xs ++ a :: ys) := by
  induction xs generalizing h with
  | nil =>
    obtain ⟨ha, hb, hys⟩ := hc
    refine ⟨ha, ?_⟩
    rw [Function.update_self]
    exact hys.update _ fun hmem => (List.nodup_cons.1 hnd).1 (List.mem_cons_of_mem b hmem)
  | cons x xs ih =>
    obtain ⟨hx, hrest⟩ := hc
    obtain ⟨hxn, hnd⟩ := List.nodup_cons.1 hnd
    have hxa : x ≠ a := fun he => hxn (by simp [he])
    refine ⟨hx, ?_⟩
    rw [Function.update_of_ne hxa]
    exact ih hrest hnd

/-- The queue stands for the list. -/
structure LinkedQueue.Holds (q : LinkedQueue α) (l : List α) : Prop where
  chained : Chained q.next q.head l
  tail : q.tail = l.getLast?
  nodup : l.Nodup

namespace LinkedQueue

variable {q : LinkedQueue α} {l : List α} {a : α}

theorem holds_empty [DecidableEq α] : (empty : LinkedQueue α).Holds [] := ⟨rfl, rfl, List.nodup_nil⟩

theorem Holds.head_eq_none_iff (h : q.Holds l) : q.head = none ↔ l = [] := by
  rw [h.chained.head?_eq, List.head?_eq_none_iff]

theorem Holds.pushBack [DecidableEq α] (h : q.Holds l) (ha : a ∉ l) :
    (q.pushBack a).Holds (l ++ [a]) := by
  have hnd : (l ++ [a]).Nodup := by
    rw [List.nodup_append]
    simp only [List.nodup_singleton, List.mem_singleton]
    exact ⟨h.nodup, trivial, fun b hb c hc hbc => ha (hc ▸ hbc ▸ hb)⟩
  have hch : Chained (Function.update q.next a none) q.head l := h.chained.update none ha
  cases ht : q.tail with
  | none =>
    obtain rfl : l = [] := by simpa [h.tail] using ht
    exact ⟨by simp [LinkedQueue.pushBack, ht, Chained], by simp [LinkedQueue.pushBack, ht], hnd⟩
  | some t =>
    have hlast : l.getLast? = some t := h.tail.symm.trans ht
    refine ⟨?_, by simp [LinkedQueue.pushBack, ht], hnd⟩
    simpa [LinkedQueue.pushBack, ht] using hch.link h.nodup ha (by simp) hlast

theorem Holds.pushFront [DecidableEq α] (h : q.Holds l) (ha : a ∉ l) :
    (q.pushFront a).Holds (a :: l) := by
  refine ⟨⟨rfl, ?_⟩, ?_, List.nodup_cons.mpr ⟨ha, h.nodup⟩⟩
  · simpa [LinkedQueue.pushFront] using h.chained.update q.head ha
  · simp only [LinkedQueue.pushFront, h.tail]
    cases l with
    | nil => rfl
    | cons b l => simp [List.getLast?_cons]

theorem Holds.popFront (h : q.Holds (a :: l)) : (q.popFront a).Holds l := by
  have hnext : q.next a = l.head? := h.chained.2.head?_eq
  refine ⟨h.chained.2, ?_, (List.nodup_cons.mp h.nodup).2⟩
  simp only [LinkedQueue.popFront, hnext, h.tail]
  cases l with
  | nil => rfl
  | cons b l => simp [List.getLast?_cons_cons]

end LinkedQueue

end Kappai

/-! A ring of cells: `count` values from cell `head` on, going round after the last of `cap` cells. -/

namespace Kappai

structure CellRing (α : Type*) where
  cells : ℕ → α
  cap : ℕ
  head : ℕ
  count : ℕ

namespace CellRing

variable {α : Type*} (r : CellRing α)

/-- The values, from the oldest on. -/
def contents : List α := (List.range r.count).map fun i => r.cells ((r.head + i) % r.cap)

structure Valid : Prop where
  head_lt : r.head < r.cap
  count_le : r.count ≤ r.cap

/-- A new value goes behind the others; in a full ring it takes the place of the oldest. -/
def push (a : α) : CellRing α :=
  if r.cap ≤ r.count then
    { r with cells := Function.update r.cells r.head a, head := (r.head + 1) % r.cap }
  else
    { r with
      cells := Function.update r.cells ((r.head + r.count) % r.cap) a
      count := r.count + 1 }

/-- The values move to the beginning of other cells. -/
def relaid (fresh : ℕ → α) (cap : ℕ) : CellRing α where
  cells i := if i < r.count then r.cells ((r.head + i) % r.cap) else fresh i
  cap := cap
  head := 0
  count := r.count

variable {r}

@[simp] theorem length_contents : r.contents.length = r.count := by simp [contents]

/-- Different places of the ring are different cells. -/
theorem mod_inj {h i j cap : ℕ} (hi : i < cap) (hj : j < cap) (he : (h + i) % cap = (h + j) % cap) :
    i = j := by
  have hmod : i % cap = j % cap := Nat.ModEq.add_left_cancel' h he
  rwa [Nat.mod_eq_of_lt hi, Nat.mod_eq_of_lt hj] at hmod

theorem Valid.push (hv : r.Valid) (a : α) : (r.push a).Valid := by
  have hpos : 0 < r.cap := Nat.lt_of_le_of_lt (Nat.zero_le _) hv.head_lt
  unfold CellRing.push
  split_ifs with hfull
  · exact ⟨Nat.mod_lt _ hpos, hv.count_le⟩
  · exact ⟨hv.head_lt, Nat.lt_of_not_le hfull⟩

theorem contents_push_of_lt (hlt : r.count < r.cap) (a : α) :
    (r.push a).contents = r.contents ++ [a] := by
  rw [CellRing.push, if_neg (Nat.not_le.2 hlt)]
  simp only [contents, List.range_succ, List.map_append, List.map_cons, List.map_nil,
    Function.update_self]
  congr 1
  refine List.map_congr_left fun i hi => Function.update_of_ne ?_ _ _
  have hi : i < r.count := by simpa using hi
  exact fun he => absurd (mod_inj (by omega) hlt he) (by omega)

theorem contents_push_of_full (hv : r.Valid) (hfull : r.cap ≤ r.count) (a : α) :
    (r.push a).contents = r.contents.tail ++ [a] := by
  have hpos : 0 < r.cap := Nat.lt_of_le_of_lt (Nat.zero_le _) hv.head_lt
  obtain ⟨n, hn⟩ : ∃ n, r.count = n + 1 := ⟨r.count - 1, by omega⟩
  have hcap : r.cap = n + 1 := by have := hv.count_le; omega
  rw [CellRing.push, if_pos hfull]
  simp only [contents, hn]
  rw [List.range_succ, List.map_append, ← List.range_succ, List.range_succ_eq_map]
  simp only [List.map_cons, List.tail_cons, List.map_map, List.map_nil]
  congr 1
  · refine List.map_congr_left fun i hi => ?_
    have hi : i < n := by simpa using hi
    rw [Nat.mod_add_mod, Nat.add_right_comm, Nat.add_assoc, Function.update_of_ne]
    · rfl
    · intro he
      have hzero : (r.head + (i + 1)) % r.cap = (r.head + 0) % r.cap := by
        rw [he, Nat.add_zero, Nat.mod_eq_of_lt hv.head_lt]
      have := mod_inj (by omega) hpos hzero
      omega
  · have hhead : ((r.head + 1) % r.cap + n) % r.cap = r.head := by
      rw [Nat.mod_add_mod, show r.head + 1 + n = r.head + r.cap by omega, Nat.add_mod_right,
        Nat.mod_eq_of_lt hv.head_lt]
    rw [hhead, Function.update_self]

/-- Pushing into a ring that holds the last values of a log. -/
theorem contents_push (hv : r.Valid) {log : List α} (h : r.contents <:+ log) (a : α) :
    (r.push a).contents <:+ log ++ [a] := by
  rcases Nat.lt_or_ge r.count r.cap with hlt | hge
  · rw [contents_push_of_lt hlt]
    obtain ⟨pre, rfl⟩ := h
    exact ⟨pre, by simp⟩
  · rw [contents_push_of_full hv hge]
    obtain ⟨pre, hpre⟩ := (List.tail_suffix _).trans h
    exact ⟨pre, by rw [← hpre, List.append_assoc]⟩

theorem count_push (a : α) (hv : r.Valid) : (r.push a).count = min (r.count + 1) r.cap := by
  have hle := hv.count_le
  unfold CellRing.push
  split_ifs with hfull
  · simp only
    omega
  · simp only
    omega

@[simp] theorem cap_push (a : α) : (r.push a).cap = r.cap := by
  unfold CellRing.push
  split_ifs <;> rfl

theorem contents_relaid (fresh : ℕ → α) {cap : ℕ} (hcap : r.count ≤ cap) :
    (r.relaid fresh cap).contents = r.contents := by
  refine List.map_congr_left fun i hi => ?_
  have hi : i < r.count := by simpa [relaid] using hi
  simp only [relaid, Nat.zero_add]
  rw [Nat.mod_eq_of_lt (by omega), if_pos hi]

end CellRing

end Kappai
