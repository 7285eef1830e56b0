import Mathlib.Algebra.Order.Group.Nat
import Mathlib.Data.Finset.Card
import Mathlib.Logic.Function.Basic
import Mathlib.Tactic.Common

/-! Open addressing in a table that only grows. Every entry has an order of slots of its own; it goes
to the first that is free, unless an entry that counts as the same stands before it. -/

namespace Kappai.OpenTable

variable {ι ε : Type*}

/-- The entries on the way up to the first free slot. -/
def chain (tab : ι → Option ε) : List ι → List ε
  | [] => []
  | q :: qs =>
    match tab q with
    | none => []
    | some e => e :: chain tab qs

/-- The slot for a new entry: none where one that is the same comes first. -/
def freeSlot (tab : ι → Option ε) (same : ε → Bool) : List ι → Option ι
  | [] => none
  | q :: qs =>
    match tab q with
    | none => some q
    | some e => if same e then none else freeSlot tab same qs

example : freeSlot (fun q : ℕ => if q = 1 then none else some q) (· == 7) [0, 2, 1] = some 1 := by decide +kernel

def insert [DecidableEq ι] (tab : ι → Option ε) (same : ε → Bool) (e : ε) (qs : List ι) :
    ι → Option ε :=
  match freeSlot tab same qs with
  | none => tab
  | some q => Function.update tab q (some e)

/-- The entries put in one after the other. -/
def insertAll [DecidableEq ι] (same : ε → ε → Bool) (way : ε → List ι) (tab : ι → Option ε)
    (es : List ε) : ι → Option ε :=
  es.foldl (fun tab e => insert tab (same e) e (way e)) tab

/-- How many of the slots hold an entry. -/
def filled (tab : ι → Option ε) (slots : Finset ι) : ℕ :=
  (slots.filter fun q => (tab q).isSome).card

section Chain

variable {tab : ι → Option ε} {same : ε → Bool} {qs : List ι} {e : ε} {q : ι}

theorem chain_cons_none (h : tab q = none) : chain tab (q :: qs) = [] := by simp [chain, h]

theorem chain_cons_some (h : tab q = some e) : chain tab (q :: qs) = e :: chain tab qs := by
  simp [chain, h]

theorem mem_chain (h : e ∈ chain tab qs) : ∃ q ∈ qs, tab q = some e := by
  induction qs with
  | nil => cases h
  | cons q qs ih =>
    cases hq : tab q with
    | none => simp [chain_cons_none hq] at h
    | some f =>
      rw [chain_cons_some hq, List.mem_cons] at h
      rcases h with rfl | h
      · exact ⟨q, by simp, hq⟩
      · obtain ⟨r, hr, hr'⟩ := ih h
        exact ⟨r, by simp [hr], hr'⟩

theorem freeSlot_free (h : freeSlot tab same qs = some q) : tab q = none := by
  induction qs with
  | nil => cases h
  | cons r qs ih =>
    rw [freeSlot] at h
    split at h
    · next hr => exact Option.some.inj h ▸ hr
    · split_ifs at h
      exact ih h

/-- Before the slot for a new entry stands none that is the same. -/
theorem freeSlot_apart (h : freeSlot tab same qs = some q) : ∀ e ∈ chain tab qs, same e = false := by
  induction qs with
  | nil => cases h
  | cons r qs ih =>
    rw [freeSlot] at h
    split at h
    · next hr => simp [chain_cons_none hr]
    · next e he =>
      split_ifs at h with hsame
      simpa [chain_cons_some he, hsame] using ih h

theorem freeSlot_none (h : freeSlot tab same qs = none) :
    (∃ e ∈ chain tab qs, same e = true) ∨ ∀ q ∈ qs, tab q ≠ none := by
  induction qs with
  | nil => simp
  | cons r qs ih =>
    rw [freeSlot] at h
    split at h
    · cases h
    · next e he =>
      rw [chain_cons_some he]
      split_ifs at h with hsame
      · exact Or.inl ⟨e, by simp, hsame⟩
      · rcases ih h with ⟨f, hf, hfsame⟩ | hall
        · exact Or.inl ⟨f, by simp [hf], hfsame⟩
        · exact Or.inr (by simpa [he] using hall)

/-- The choice of a slot looks at the entries on the way only. -/
theorem freeSlot_congr {same' : ε → Bool} (h : ∀ q e, tab q = some e → same e = same' e) :
    freeSlot tab same qs = freeSlot tab same' qs := by
  induction qs with
  | nil => rfl
  | cons q qs ih =>
    rw [freeSlot, freeSlot, ih]
    split
    · rfl
    · next e he => rw [h q e he]

variable [DecidableEq ι]

/-- Filling a free slot leaves every chain, or makes it longer. -/
theorem chain_update (hq : tab q = none) (e : ε) (qs : List ι) :
    chain tab qs <+: chain (Function.update tab q (some e)) qs := by
  induction qs with
  | nil => simp [chain]
  | cons r qs ih =>
    cases hr : tab r with
    | none => simp [chain_cons_none hr]
    | some f =>
      have hne : r ≠ q := by
        rintro rfl
        simp [hq] at hr
      rw [chain_cons_some hr, chain_cons_some (e := f) (by simpa [hne] using hr)]
      simpa using ih

/-- In its own chain a new entry comes next. -/
theorem chain_update_self (h : freeSlot tab same qs = some q) (e : ε) :
    chain tab qs ++ [e] <+: chain (Function.update tab q (some e)) qs := by
  induction qs with
  | nil => cases h
  | cons r qs ih =>
    rw [freeSlot] at h
    split at h
    · next hr =>
      obtain rfl := Option.some.inj h
      rw [chain_cons_none hr, chain_cons_some (e := e) (by simp)]
      simp
    · next f hf =>
      split_ifs at h
      have hne : r ≠ q := by
        rintro rfl
        simp [freeSlot_free h] at hf
      rw [chain_cons_some hf, chain_cons_some (e := f) (by simpa [hne] using hf)]
      simpa using ih h

theorem chain_insert (e : ε) (rs qs : List ι) :
    chain tab qs <+: chain (insert tab same e rs) qs := by
  cases hq : freeSlot tab same rs with
  | none => simp [insert, hq]
  | some q => simpa [insert, hq] using chain_update (freeSlot_free hq) e qs

theorem insert_some {f : ε} (h : insert tab same e qs q = some f) : f = e ∨ tab q = some f := by
  cases hp : freeSlot tab same qs with
  | none => exact Or.inr (by simpa [insert, hp] using h)
  | some p =>
    simp only [insert, hp, Function.update_apply] at h
    split_ifs at h
    · exact Or.inl (Option.some.inj h).symm
    · exact Or.inr h

end Chain

section Find

variable {tab : ι → Option ε} {same : ε → Bool} {qs : List ι} {e : ε}

theorem find?_prefix {xs ys : List ε} (h : xs <+: ys) {x : ε} (hx : xs.find? same = some x) :
    ys.find? same = some x := by
  obtain ⟨more, rfl⟩ := h
  simp [hx]

variable [DecidableEq ι]

/-- A new entry is found in its chain, unless one that is the same was found before. -/
theorem find?_insert_self (he : same e = true) (hfree : ∃ q ∈ qs, tab q = none) :
    (chain (insert tab same e qs) qs).find? same = ((chain tab qs).find? same).or (some e) := by
  unfold insert
  split
  · next hnone =>
    rcases freeSlot_none hnone with ⟨f, hf, hsame⟩ | hall
    · obtain ⟨g, hg⟩ := Option.isSome_iff_exists.1 (List.find?_isSome.2 ⟨f, hf, hsame⟩)
      simp [hg]
    · obtain ⟨q, hq, hfree⟩ := hfree
      exact absurd hfree (hall q hq)
  · next q hq =>
    have hnot : (chain tab qs).find? same = none := by
      simpa using freeSlot_apart hq
    rw [hnot]
    exact find?_prefix (chain_update_self hq e) (by simp [hnot, he])

end Find

section Room

variable {tab : ι → Option ε} {slots : Finset ι}

theorem exists_free (hroom : filled tab slots < slots.card) {qs : List ι}
    (hqs : ∀ q ∈ slots, q ∈ qs) : ∃ q ∈ qs, tab q = none := by
  by_contra hall
  push Not at hall
  refine absurd hroom (not_lt.2 ?_)
  rw [filled, Finset.filter_true_of_mem fun q hq =>
    Option.isSome_iff_ne_none.2 (hall q (hqs q hq))]

theorem filled_insert [DecidableEq ι] (same : ε → Bool) (e : ε) (qs : List ι) :
    filled (insert tab same e qs) slots ≤ filled tab slots + 1 := by
  unfold insert
  split
  · exact Nat.le_succ _
  · next q hq =>
    refine (Finset.card_le_card fun r hr => ?_).trans (Finset.card_insert_le q _)
    rw [Finset.mem_filter] at hr
    by_cases hrq : r = q
    · simp [hrq]
    · rw [Function.update_of_ne hrq] at hr
      exact Finset.mem_insert_of_mem (Finset.mem_filter.2 hr)

end Room

/-! ### The whole table

An entry need not count as the same as itself: then it is put in anew every time. -/

section Whole

variable [DecidableEq ι] {same : ε → ε → Bool} {way : ε → List ι} {slots : Finset ι}

/-- What a table holds after the entries `done`. -/
structure Filed (same : ε → ε → Bool) (way : ε → List ι) (slots : Finset ι) (done : List ε)
    (tab : ι → Option ε) : Prop where
  room : filled tab slots ≤ done.length
  kept : ∀ q e, tab q = some e → e ∈ done
  found : ∀ e, same e e = true → (chain tab (way e)).find? (same e) = done.find? (same e)

/-- The relation and the ways fit: what is the same as an entry is so for both, on one way. -/
structure Fits (same : ε → ε → Bool) (way : ε → List ι) (slots : Finset ι) : Prop where
  alike : ∀ e f, same e f = true → same e = same f ∧ way e = way f
  whole : ∀ e, ∀ q ∈ slots, q ∈ way e

theorem Filed.insert {done : List ε} {tab : ι → Option ε} (hfit : Fits same way slots)
    (h : Filed same way slots done tab) (f : ε) (hroom : done.length < slots.card) :
    Filed same way slots (done ++ [f]) (insert tab (same f) f (way f)) where
  room := by
    have hle : filled (OpenTable.insert tab (same f) f (way f)) slots ≤ filled tab slots + 1 :=
      filled_insert (same f) f (way f)
    have hold := h.room
    rw [List.length_append, List.length_singleton]
    omega
  kept q e hq := by
    rcases insert_some hq with rfl | hq
    · simp
    · simp [h.kept q e hq]
  found e he := by
    rw [List.find?_append]
    by_cases hef : same e f = true
    · obtain ⟨hsame, hway⟩ := hfit.alike e f hef
      have hself : same f f = true := hsame ▸ hef
      rw [hsame, hway, find?_insert_self hself
        (exists_free (lt_of_le_of_lt h.room hroom) (hfit.whole f)), h.found f hself]
      simp [hself]
    · have hone : [f].find? (same e) = none := by simpa using hef
      rw [hone, Option.or_none]
      cases hdone : done.find? (same e) with
      | some g => exact find?_prefix (chain_insert f _ _) ((h.found e he).trans hdone)
      | none =>
        rw [List.find?_eq_none] at hdone ⊢
        intro g hg
        obtain ⟨q, -, hq⟩ := mem_chain hg
        rcases insert_some hq with rfl | hq
        · exact hef
        · exact hdone g (h.kept q g hq)

/-- In a table with a slot more than there are entries, the chain of an entry holds the first that is
the same. -/
theorem Filed.insertAll (hfit : Fits same way slots) (es : List ε) (hroom : es.length < slots.card) :
    Filed same way slots es (insertAll same way (fun _ => none) es) := by
  induction es using List.reverseRecOn with
  | nil =>
    refine ⟨by simp [filled, OpenTable.insertAll], fun q e h => by simp [OpenTable.insertAll] at h,
      fun e _ => ?_⟩
    cases hway : way e with
    | nil => rfl
    | cons q qs => simp [OpenTable.insertAll, chain]
  | append_singleton es f ih =>
    rw [List.length_append, List.length_singleton] at hroom
    have hstep := (ih (by omega)).insert hfit f (by omega)
    rw [OpenTable.insertAll, List.foldl_append]
    exact hstep

end Whole

end Kappai.OpenTable

/-! Open addressing with marks for removed keys. A table gives every slot a key or one of two marks:
`nul`, never used since it was cleared, and `tomb`, used before. A key is looked for along an order of
slots of its own, up to the first that was never used. -/

namespace Kappai.ProbeTable

variable {ι α : Type*} [DecidableEq α]

section Definitions

variable (nul tomb : α) (tab : ι → α) (k : α)

def lookup : List ι → Bool
  | [] => false
  | q :: qs => if tab q = nul then false else if tab q = k then true else lookup qs

/-- The slot that a key is written to: the first that was used before, if one comes before the first
that was not. Nothing is written where the key is there, nor where every slot has been used. -/
def insertSlot : Option ι → List ι → Option ι
  | _, [] => none
  | reuse, q :: qs =>
    if tab q = k then none
    else if tab q = nul then some (reuse.getD q)
    else insertSlot (if tab q = tomb ∧ reuse = none then some q else reuse) qs

def removeSlot : List ι → Option ι
  | [] => none
  | q :: qs => if tab q = nul then none else if tab q = k then some q else removeSlot qs

/-- The slots of a set that hold keys. -/
def held (slots : Finset ι) : Finset ι := slots.filter fun q => tab q ≠ nul ∧ tab q ≠ tomb

end Definitions

variable {nul tomb : α} {tab : ι → α} {k : α}

theorem lookup_of_pre {pre post : List ι} {q : ι} (hpre : ∀ r ∈ pre, tab r ≠ nul)
    (hq : tab q = k) (hk : k ≠ nul) : lookup nul tab k (pre ++ q :: post) = true := by
  induction pre with
  | nil => rw [List.nil_append, lookup, hq, if_neg hk, if_pos rfl]
  | cons r pre ih =>
    rw [List.cons_append, lookup, if_neg (hpre r List.mem_cons_self)]
    split_ifs
    · rfl
    · exact ih fun r' hr' => hpre r' (List.mem_cons_of_mem _ hr')

theorem exists_of_lookup {ps : List ι} (h : lookup nul tab k ps = true) :
    ∃ q ∈ ps, tab q = k ∧ k ≠ nul := by
  induction ps with
  | nil => cases h
  | cons q ps ih =>
    rw [lookup] at h
    split_ifs at h with hnul hkey
    · exact ⟨q, List.mem_cons_self, hkey, hkey ▸ hnul⟩
    · obtain ⟨r, hr, hkey'⟩ := ih h
      exact ⟨r, List.mem_cons_of_mem _ hr, hkey'⟩

/-- Where nothing is written the key is there, or every slot has been used. -/
theorem insertSlot_none {reuse : Option ι} {ps : List ι}
    (h : insertSlot nul tomb tab k reuse ps = none) (hk : k ≠ nul) :
    lookup nul tab k ps = true ∨ ∀ q ∈ ps, tab q ≠ nul := by
  induction ps generalizing reuse with
  | nil => exact Or.inr fun q hq => absurd hq List.not_mem_nil
  | cons q ps ih =>
    rw [insertSlot] at h
    split_ifs at h with hkey hnul htomb
    · exact Or.inl (by rw [lookup, hkey, if_neg hk, if_pos rfl])
    all_goals
      rcases ih h with hfound | hall
      · exact Or.inl (by rw [lookup, if_neg hnul, if_neg hkey]; exact hfound)
      · exact Or.inr fun r hr => by
          rcases List.mem_cons.1 hr with rfl | hr
          · exact hnul
          · exact hall r hr

theorem removeSlot_spec {ps : List ι} {p : ι} (h : removeSlot nul tab k ps = some p) :
    p ∈ ps ∧ tab p = k ∧ k ≠ nul := by
  induction ps with
  | nil => cases h
  | cons q ps ih =>
    rw [removeSlot] at h
    split_ifs at h with hnul hkey
    · obtain rfl := Option.some.inj h
      exact ⟨List.mem_cons_self, hkey, hkey ▸ hnul⟩
    · exact ⟨List.mem_cons_of_mem _ (ih h).1, (ih h).2⟩

theorem removeSlot_none {ps : List ι} (h : removeSlot nul tab k ps = none) :
    lookup nul tab k ps = false := by
  induction ps with
  | nil => rfl
  | cons q ps ih =>
    rw [removeSlot] at h
    rw [lookup]
    split_ifs at h ⊢
    · rfl
    · exact ih h

theorem insertSlot_mem {reuse : Option ι} {ps : List ι} {p : ι}
    (h : insertSlot nul tomb tab k reuse ps = some p) : p ∈ ps ∨ reuse = some p := by
  induction ps generalizing reuse with
  | nil => cases h
  | cons q ps ih =>
    rw [insertSlot] at h
    split_ifs at h with hkey hnul htomb
    · obtain rfl := Option.some.inj h
      cases reuse with
      | none => exact Or.inl List.mem_cons_self
      | some r => exact Or.inr rfl
    · rcases ih h with hp | hp
      · exact Or.inl (List.mem_cons_of_mem _ hp)
      · exact Or.inl (Option.some.inj hp ▸ List.mem_cons_self)
    · rcases ih h with hp | hp
      · exact Or.inl (List.mem_cons_of_mem _ hp)
      · exact Or.inr hp

variable [DecidableEq ι]

/-- A key stays where it is found when another slot is used. -/
theorem lookup_update {ps : List ι} {p : ι} {v : α} (h : lookup nul tab k ps = true) (hv : v ≠ nul)
    (hp : tab p = k → v = k) : lookup nul (Function.update tab p v) k ps = true := by
  induction ps with
  | nil => cases h
  | cons q ps ih =>
    rw [lookup] at h
    by_cases hqp : q = p
    · rw [lookup, hqp, Function.update_self, if_neg hv]
      split_ifs at h with hnul hkey
      · rw [if_pos (hp (hqp ▸ hkey))]
      · rw [ih h, ite_self]
    · rw [lookup, Function.update_of_ne hqp]
      split_ifs at h with hnul hkey
      · rw [if_neg hnul, if_pos hkey]
      · rw [if_neg hnul, if_neg hkey, ih h]

theorem insertSlot_spec {reuse : Option ι} {pre ps : List ι} {p : ι}
    (h : insertSlot nul tomb tab k reuse ps = some p) (hk : k ≠ nul)
    (hpre : ∀ q ∈ pre, tab q ≠ nul) (hreuse : ∀ r, reuse = some r → r ∈ pre ∧ tab r = tomb) :
    (tab p = nul ∨ tab p = tomb) ∧
      lookup nul (Function.update tab p k) k (pre ++ ps) = true := by
  induction ps generalizing reuse pre with
  | nil => cases h
  | cons q ps ih =>
    have hused : ∀ (p' : ι), ∀ r ∈ pre, Function.update tab p' k r ≠ nul := by
      intro p' r hr
      rw [Function.update_apply]
      split_ifs
      · exact hk
      · exact hpre r hr
    rw [insertSlot] at h
    split_ifs at h with hkey hnul htomb
    · obtain rfl := Option.some.inj h
      cases hr : reuse with
      | none =>
        rw [Option.getD_none]
        exact ⟨Or.inl hnul, lookup_of_pre (hused q) (Function.update_self ..) hk⟩
      | some r =>
        rw [Option.getD_some]
        obtain ⟨hmem, hold⟩ := hreuse r hr
        obtain ⟨a, b, rfl⟩ := List.append_of_mem hmem
        refine ⟨Or.inr hold, ?_⟩
        rw [List.append_assoc, List.cons_append]
        exact lookup_of_pre (fun r' hr' => hused r r' (List.mem_append_left _ hr'))
          (Function.update_self ..) hk
    all_goals
      have hnext : ∀ r ∈ pre ++ [q], tab r ≠ nul := by
        intro r hr
        rcases List.mem_append.1 hr with hr | hr
        · exact hpre r hr
        · rw [List.mem_singleton.1 hr]
          exact hnul
    · have hstep := ih h hnext fun r hr => by
        obtain rfl := Option.some.inj hr
        exact ⟨List.mem_append_right _ (List.mem_singleton.2 rfl), htomb.1⟩
      rwa [List.append_assoc, List.singleton_append] at hstep
    · have hstep := ih h hnext fun r hr =>
        ⟨List.mem_append_left _ (hreuse r hr).1, (hreuse r hr).2⟩
      rwa [List.append_assoc, List.singleton_append] at hstep

/-- The slot that is written was free, and the key is found then. -/
theorem insertSlot_start {ps : List ι} {p : ι} (h : insertSlot nul tomb tab k none ps = some p)
    (hk : k ≠ nul) :
    (tab p = nul ∨ tab p = tomb) ∧ lookup nul (Function.update tab p k) k ps = true :=
  @insertSlot_spec _ _ _ _ _ _ _ _ none [] _ _ h hk (fun _ hq => absurd hq List.not_mem_nil)
    fun _ hr => by cases hr

section Held

variable {slots : Finset ι} {p : ι}

theorem card_held_insert (hp : p ∈ slots) (hold : tab p = nul ∨ tab p = tomb) (hnul : k ≠ nul)
    (htomb : k ≠ tomb) :
    (held nul tomb (Function.update tab p k) slots).card = (held nul tomb tab slots).card + 1 := by
  have hnot : p ∉ held nul tomb tab slots := by
    rw [held, Finset.mem_filter]
    rintro ⟨-, h1, h2⟩
    rcases hold with h | h
    · exact h1 h
    · exact h2 h
  rw [← Finset.card_insert_of_notMem hnot]
  congr 1
  ext q
  simp only [held, Finset.mem_filter, Finset.mem_insert, Function.update_apply]
  split_ifs with hq
  · simp [hq, hp, hnul, htomb]
  · simp [hq]

theorem card_held_remove (hp : p ∈ slots) (hold : tab p ≠ nul) (hkey : tab p ≠ tomb) :
    (held nul tomb (Function.update tab p tomb) slots).card + 1 = (held nul tomb tab slots).card := by
  have hmem : p ∈ held nul tomb tab slots := Finset.mem_filter.2 ⟨hp, hold, hkey⟩
  rw [← Finset.card_erase_add_one hmem]
  congr 2
  ext q
  simp only [held, Finset.mem_filter, Finset.mem_erase, Function.update_apply]
  split_ifs with hq
  · simp [hq]
  · simp [hq]

end Held

end Kappai.ProbeTable
