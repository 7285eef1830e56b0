import Kappai.Spec.Bpe
import Mathlib.Algebra.Order.BigOperators.Group.Multiset
import Mathlib.Algebra.Order.Ring.Nat
import Mathlib.Tactic.Ring

/-! The merges end, their heap stays within its arrays, and the pieces are those of the reference: the
pair of least rank first, the leftmost of several. -/

namespace Kappai

namespace BpeTables

open PairMerge

variable {t : BpeTables}

/-- A merge of two pieces at their rank. -/
def mergeTwo (t : BpeTables) (a b : BpePiece) : BpePiece := t.mergePieces (t.pieceRank a b) a b

/-- What holds of the nodes, whatever is on the heap. -/
structure Nodes (s : BpeState) (live : List ℕ) : Prop where
  chained : Chained s.next (some 0) live
  sorted : live.Pairwise (· < ·)
  alive : ∀ i, s.alive i = true ↔ i ∈ live
  prev : ∀ a ∈ live, ∀ b, s.next a = some b → s.prev b = some a

/-- The entry of a pair as it is now. -/
def entryOf (t : BpeTables) (s : BpeState) (a : ℕ) : BpeEntry := ⟨t.bpePairRank s a, a, s.ver a⟩

/-- Every pair with a rank has its entry, but for those of the nodes in `due`. -/
def Current (t : BpeTables) (s : BpeState) (live : List ℕ) (due : ℕ → Prop) : Prop :=
  ∀ a ∈ live, ¬ due a → 0 ≤ t.bpePairRank s a → t.entryOf s a ∈ s.heap.entries

structure Ranked (s : BpeState) : Prop where
  ordered : s.heap.Ordered BpeEntry.key
  rank : ∀ e ∈ s.heap.entries, 0 ≤ e.rank

theorem exists_next {s : BpeState} {a : ℕ} (h : 0 ≤ t.bpePairRank s a) : ∃ b, s.next a = some b := by
  cases hx : s.next a with
  | some b => exact ⟨b, rfl⟩
  | none =>
    rw [bpePairRank, hx] at h
    have h : (0 : ℤ) ≤ -1 := h
    omega

/-! ### A pair goes on the heap -/

section PushPair

variable {s : BpeState} {live : List ℕ} {due : ℕ → Prop} (i : ℕ)

theorem pushPair_nodes (h : Nodes s live) : Nodes (t.pushPair s i) live := by
  unfold pushPair
  split_ifs
  · exact ⟨h.chained, h.sorted, h.alive, h.prev⟩
  · exact h

@[simp] theorem pushPair_pcs : (t.pushPair s i).pcs = s.pcs := by
  unfold pushPair
  split_ifs <;> rfl

@[simp] theorem pushPair_next : (t.pushPair s i).next = s.next := by
  unfold pushPair
  split_ifs <;> rfl

@[simp] theorem pushPair_npcs : (t.pushPair s i).npcs = s.npcs := by
  unfold pushPair
  split_ifs <;> rfl

@[simp] theorem pushPair_ver : (t.pushPair s i).ver = s.ver := by
  unfold pushPair
  split_ifs <;> rfl

@[simp] theorem pushPair_prev : (t.pushPair s i).prev = s.prev := by
  unfold pushPair
  split_ifs <;> rfl

@[simp] theorem pushPair_rank (a : ℕ) : t.bpePairRank (t.pushPair s i) a = t.bpePairRank s a := by
  simp [bpePairRank]

@[simp] theorem pushPair_entryOf (a : ℕ) : t.entryOf (t.pushPair s i) a = t.entryOf s a := by
  simp [entryOf]

theorem pushPair_hn : (t.pushPair s i).heap.hn ≤ s.heap.hn + 1 := by
  unfold pushPair
  split_ifs
  · rw [EntryHeap.push_hn]
  · exact Nat.le_succ _

theorem pushPair_entries : (t.pushPair s i).heap.entries =
    if 0 ≤ t.bpePairRank s i then t.entryOf s i ::ₘ s.heap.entries else s.heap.entries := by
  unfold pushPair
  split_ifs
  · exact EntryHeap.push_entries _ _
  · rfl

theorem Ranked.pushPair (h : Ranked s) : Ranked (t.pushPair s i) := by
  refine ⟨?_, fun e he => ?_⟩
  · unfold BpeTables.pushPair
    split_ifs
    · exact h.ordered.push _
    · exact h.ordered
  · rw [pushPair_entries] at he
    split_ifs at he with hr
    · rcases Multiset.mem_cons.1 he with rfl | he
      · exact hr
      · exact h.rank e he
    · exact h.rank e he

/-- The node is no longer due. -/
theorem Current.pushPair (h : t.Current s live due) :
    t.Current (t.pushPair s i) live fun a => due a ∧ a ≠ i := by
  intro a ha hdue hr
  rw [pushPair_rank] at hr
  rw [pushPair_entryOf, pushPair_entries]
  by_cases hai : a = i
  · subst hai
    rw [if_pos hr]
    exact Multiset.mem_cons_self _ _
  · have hmem := h a ha (fun hd => hdue ⟨hd, hai⟩) hr
    split_ifs
    · exact Multiset.mem_cons_of_mem hmem
    · exact hmem

end PushPair

/-- The pair of the node before goes on the heap. -/
theorem pushBefore_spec {s : BpeState} {live : List ℕ} {nd : ℕ} (hn : Nodes s live) (hr : Ranked s)
    (hc : t.Current s live fun a => a = nd ∨ s.next a = some nd) :
    Nodes (t.pushBefore s nd) live ∧ Ranked (t.pushBefore s nd) ∧
      t.Current (t.pushBefore s nd) live (· = nd) ∧ (t.pushBefore s nd).pcs = s.pcs ∧
      (t.pushBefore s nd).npcs = s.npcs ∧ (t.pushBefore s nd).heap.hn ≤ s.heap.hn + 1 := by
  have hbefore : ∀ a ∈ live, s.next a = some nd → s.prev nd = some a := fun a ha h =>
    hn.prev a ha nd h
  unfold pushBefore
  split
  · rename_i p hp
    refine ⟨pushPair_nodes p hn, hr.pushPair p, fun a ha hand => hc.pushPair p a ha ?_, pushPair_pcs p,
      pushPair_npcs p, pushPair_hn p⟩
    rintro ⟨h | h, hap⟩
    · exact hand h
    · exact hap (Option.some.inj (hp.symm.trans (hbefore a ha h))).symm
  · rename_i hp
    refine ⟨hn, hr, fun a ha hand => hc a ha ?_, rfl, rfl, Nat.le_succ _⟩
    rintro (h | h)
    · exact hand h
    · exact absurd (hp.symm.trans (hbefore a ha h)) (by simp)

/-- The pair of the node goes on the heap. -/
theorem pushAfter_spec {s : BpeState} {live : List ℕ} {nd : ℕ} (hn : Nodes s live) (hr : Ranked s)
    (hc : t.Current s live (· = nd)) :
    Nodes (t.pushAfter s nd) live ∧ Ranked (t.pushAfter s nd) ∧
      t.Current (t.pushAfter s nd) live (fun _ => False) ∧ (t.pushAfter s nd).pcs = s.pcs ∧
      (t.pushAfter s nd).npcs = s.npcs ∧ (t.pushAfter s nd).heap.hn ≤ s.heap.hn + 1 := by
  unfold pushAfter
  split
  · exact ⟨pushPair_nodes nd hn, hr.pushPair nd, fun a ha _ => hc.pushPair nd a ha fun h => h.2 h.1,
      pushPair_pcs nd, pushPair_npcs nd, pushPair_hn nd⟩
  · rename_i hx
    refine ⟨hn, hr, fun a ha _ hrank => hc a ha ?_ hrank, rfl, rfl, Nat.le_succ _⟩
    rintro rfl
    obtain ⟨b, hb⟩ := exists_next hrank
    exact absurd (hb.symm.trans hx) (by simp)

/-! ### A merge -/

section Merge

variable {s : BpeState} {xs ys : List ℕ} {nd nx : ℕ}

theorem Nodes.nodup {live : List ℕ} (h : Nodes s live) : live.Nodup :=
  h.sorted.imp fun hlt => Nat.ne_of_lt hlt

theorem sublist_without : (xs ++ nd :: ys).Sublist (xs ++ nd :: nx :: ys) :=
  (((List.sublist_cons_self nx ys).cons_cons nd).append_left xs)

theorem notMem_without (hnd : (xs ++ nd :: nx :: ys).Nodup) : nx ∉ xs ++ nd :: ys := by
  have hperm : (xs ++ nd :: nx :: ys).Perm (nx :: (xs ++ nd :: ys)) := by
    have hmid : (xs ++ [nd] ++ nx :: ys).Perm (nx :: (xs ++ [nd] ++ ys)) := List.perm_middle
    simpa using hmid
  exact (List.nodup_cons.1 (hperm.nodup_iff.1 hnd)).1

theorem mergeNode_nodes (cur : ℤ) (h : Nodes s (xs ++ nd :: nx :: ys)) :
    Nodes (t.mergeNode s cur nd nx) (xs ++ nd :: ys) := by
  have hsub : (xs ++ nd :: ys).Sublist (xs ++ nd :: nx :: ys) := sublist_without
  have hnx := notMem_without h.nodup
  have hchained := h.chained.unlink h.nodup
  refine ⟨hchained, h.sorted.sublist hsub, fun i => ?_, fun a ha b hb => ?_⟩
  · simp only [mergeNode, Function.update_apply]
    split_ifs with hi
    · exact ⟨fun hf => absurd hf (by decide), fun hmem => absurd (hi ▸ hmem) hnx⟩
    · rw [h.alive]
      simp [hi]
  · have hnext : Function.update s.next nd (s.next nx) a = some b := hb
    rw [Function.update_apply] at hnext
    have hnxa : nx ≠ a := fun he => hnx (he ▸ ha)
    split_ifs at hnext with hand
    · simp only [mergeNode, hnext, hand, Function.update_self]
    · have hold := h.prev a (hsub.subset ha) b hnext
      simp only [mergeNode]
      cases hc : s.next nx with
      | none => exact hold
      | some c =>
        have hbc : b ≠ c := by
          intro he
          have hpc := h.prev nx (by simp) c hc
          rw [← he, hold] at hpc
          exact hnxa (Option.some.inj hpc).symm
        exact (Function.update_of_ne hbc _ _).trans hold

/-- The pairs of the merged node and of the one before it are due. -/
theorem Current.mergeNode (cur : ℤ) (h : Nodes s (xs ++ nd :: nx :: ys))
    (hc : t.Current s (xs ++ nd :: nx :: ys) (· = nd)) :
    t.Current (t.mergeNode s cur nd nx) (xs ++ nd :: ys)
      fun a => a = nd ∨ (t.mergeNode s cur nd nx).next a = some nd := by
  intro a ha hdue hr
  push Not at hdue
  have hanx : a ≠ nx := fun he => notMem_without h.nodup (he ▸ ha)
  have hnext : (t.mergeNode s cur nd nx).next a = s.next a := Function.update_of_ne hdue.1 _ _
  have hrank : t.bpePairRank (t.mergeNode s cur nd nx) a = t.bpePairRank s a := by
    simp only [bpePairRank, hnext]
    cases hb : s.next a with
    | none => rfl
    | some b =>
      have hbnd : b ≠ nd := fun he => hdue.2 (by rw [hnext, hb, he])
      simp only [BpeTables.mergeNode, Function.update_of_ne hdue.1, Function.update_of_ne hbnd]
  have hver : (t.mergeNode s cur nd nx).ver a = s.ver a := by
    simp only [BpeTables.mergeNode, Function.update_of_ne hdue.1, Function.update_of_ne hanx]
  have hentry : t.entryOf (t.mergeNode s cur nd nx) a = t.entryOf s a := by
    rw [entryOf, entryOf, hrank, hver]
  rw [hentry]
  exact hc a (sublist_without.subset ha) hdue.1 (hrank ▸ hr)

theorem mergeNode_pieces (cur : ℤ) (hnd : (xs ++ nd :: nx :: ys).Nodup) :
    (xs ++ nd :: ys).map (t.mergeNode s cur nd nx).pcs =
      xs.map s.pcs ++ t.mergePieces cur (s.pcs nd) (s.pcs nx) :: ys.map s.pcs := by
  have hmem : nd ∉ xs ∧ nd ∉ ys := by
    have hperm : (xs ++ nd :: nx :: ys).Perm (nd :: (xs ++ nx :: ys)) := List.perm_middle
    have hn := (List.nodup_cons.1 (hperm.nodup_iff.1 hnd)).1
    simp only [List.mem_append, List.mem_cons, not_or] at hn
    exact ⟨hn.1, hn.2.2⟩
  have hkept : ∀ l : List ℕ, nd ∉ l → l.map (t.mergeNode s cur nd nx).pcs = l.map s.pcs := by
    intro l hl
    refine List.map_congr_left fun i hi => ?_
    have hne : i ≠ nd := fun he => hl (he ▸ hi)
    exact Function.update_of_ne hne _ _
  rw [List.map_append, List.map_cons, hkept xs hmem.1, hkept ys hmem.2]
  exact congrArg (fun x => xs.map s.pcs ++ x :: ys.map s.pcs) (Function.update_self ..)

/-- The root of the heap, if it is up to date, names the pair that the reference merges. -/
theorem isBest_top {live : List ℕ} (hlive : live = xs ++ nd :: nx :: ys) (hn : Nodes s live)
    (hr : Ranked s) (hc : t.Current s live fun _ => False) (hpos : 0 < s.heap.hn)
    (htop : (s.heap.entry 1).node = nd) (hcur : t.bpePairRank s nd = (s.heap.entry 1).rank) :
    IsBest t.pieceRank (live.map s.pcs) xs.length := by
  have hrankOf : ∀ {as bs : List ℕ} {a b : ℕ}, live = as ++ a :: b :: bs →
      t.pieceRank (s.pcs a) (s.pcs b) = t.bpePairRank s a := by
    intro as bs a b h
    have hnext : s.next a = some b := (h ▸ hn.chained).next_eq
    rw [bpePairRank, hnext]
  have hroot : s.heap.entry 1 ∈ s.heap.entries := by
    have hpop : s.heap.entries = _ ::ₘ (s.heap.pop BpeEntry.key).entries :=
      EntryHeap.pop_entries s.heap hpos
    rw [hpop]
    exact Multiset.mem_cons_self _ _
  have hat : rankAt t.pieceRank (live.map s.pcs) xs.length = (s.heap.entry 1).rank := by
    rw [rankAt_map, hlive, rankAt_append, hrankOf hlive, hcur]
  refine ⟨by rw [hat]; exact hr.rank _ hroot, fun j hj => ?_⟩
  rw [rankAt_map] at hj
  obtain ⟨as, a, b, bs, hcut, hlen, hrank⟩ := exists_pair hj
  rw [hat, rankAt_map, hrank, hrankOf hcut]
  rw [hrank, hrankOf hcut] at hj
  have hmem := hc a (by rw [hcut]; simp) (fun h => h) hj
  have hle := hr.ordered.root_le hmem
  rw [BpeEntry.key, BpeEntry.key, Prod.Lex.toLex_le_toLex] at hle
  refine hle.imp_right fun ⟨heq, hnode⟩ => ⟨heq, ?_⟩
  have hnode : nd ≤ a := htop ▸ hnode
  by_contra hlt
  have hj' : j < live.length := by rw [hcut]; simp; omega
  have hi' : xs.length < live.length := by rw [hlive]; simp
  have hsorted := List.pairwise_iff_getElem.1 hn.sorted j xs.length hj' hi' (by omega)
  have ha : live[j] = a := by subst hlen; simp [hcut]
  have hnd : live[xs.length] = nd := by simp [hlive]
  omega

end Merge

/-! ### The loop -/

/-- What holds at every head of the loop. -/
structure Inv (t : BpeTables) (pcs : List BpePiece) (s : BpeState) (live : List ℕ) : Prop where
  nodes : Nodes s live
  ranked : Ranked s
  current : t.Current s live fun _ => False
  npcs : s.npcs = pcs.length
  length : live.length ≤ s.npcs
  room : s.heap.hn + 2 * live.length < 3 * s.npcs
  same : reference t.pieceRank t.mergeTwo (live.map s.pcs) = reference t.pieceRank t.mergeTwo pcs

/-- An entry that is not up to date may come up once more. -/
def weight (t : BpeTables) (s : BpeState) (e : BpeEntry) : ℕ := if e.rank = t.bpePairRank s e.node then 1 else 2

/-- What is left to do: a merge outweighs all entries. -/
def todo (t : BpeTables) (s : BpeState) : ℕ :=
  s.live.length * (6 * s.npcs + 1) + (s.heap.entries.map (t.weight s)).sum

section Turn

variable {pcs : List BpePiece} {s : BpeState} {live : List ℕ}

theorem Inv.live_eq (h : t.Inv pcs s live) : s.live = live := h.nodes.chained.walk_eq h.length

theorem weights_le (t : BpeTables) (s : BpeState) :
    (s.heap.entries.map (t.weight s)).sum ≤ 2 * s.heap.hn := by
  have hcard : s.heap.entries.card = s.heap.hn := by simp [EntryHeap.entries]
  have hle := Multiset.sum_le_card_nsmul (s.heap.entries.map (t.weight s)) 2 fun w hw => by
    obtain ⟨e, -, rfl⟩ := Multiset.mem_map.1 hw
    unfold weight
    split_ifs <;> omega
  rw [Multiset.card_map, hcard] at hle
  simpa [Nat.mul_comm] using hle

/-- The state after the root is taken. -/
def popped (s : BpeState) : BpeState := { s with heap := s.heap.pop BpeEntry.key }

theorem popped_entries (hpos : 0 < s.heap.hn) :
    s.heap.entries = s.heap.entry 1 ::ₘ (popped s).heap.entries := EntryHeap.pop_entries s.heap hpos

theorem popped_hn : (popped s).heap.hn = s.heap.hn - 1 := EntryHeap.pop_hn s.heap

theorem popped_ranked (hpos : 0 < s.heap.hn) (h : Ranked s) : Ranked (popped s) :=
  ⟨h.ordered.pop, fun e he => h.rank e (by rw [popped_entries hpos]; exact Multiset.mem_cons_of_mem he)⟩

/-- Without the root all pairs but those with its entry are on the heap. -/
theorem Current.popped {due : ℕ → Prop} (hpos : 0 < s.heap.hn) (hc : t.Current s live fun _ => False)
    (hdue : ∀ a ∈ live, ¬ due a → 0 ≤ t.bpePairRank s a → t.entryOf s a ≠ s.heap.entry 1) :
    t.Current (popped s) live due := by
  intro a ha hnot hr
  have hmem := hc a ha (fun h => h) hr
  rw [popped_entries hpos] at hmem
  exact (Multiset.mem_cons.1 hmem).resolve_left (hdue a ha hnot hr)

/-- An entry that is not that of its pair is dropped, or ranked anew. -/
theorem Inv.outdated (h : t.Inv pcs s live) (hpos : 0 < s.heap.hn)
    (hne : ∀ a ∈ live, 0 ≤ t.bpePairRank s a → t.entryOf s a ≠ s.heap.entry 1) :
    t.Inv pcs (popped s) live where
  nodes := ⟨h.nodes.chained, h.nodes.sorted, h.nodes.alive, h.nodes.prev⟩
  ranked := popped_ranked hpos h.ranked
  current := h.current.popped hpos fun a ha _ => hne a ha
  npcs := h.npcs
  length := h.length
  room := by
    have hroom := h.room
    rw [popped_hn]
    change _ < 3 * s.npcs
    omega
  same := h.same

theorem todo_popped (hpos : 0 < s.heap.hn) :
    t.todo s = t.todo (popped s) + t.weight s (s.heap.entry 1) := by
  rw [todo, todo, popped_entries hpos, Multiset.map_cons, Multiset.sum_cons]
  change _ = s.live.length * (6 * s.npcs + 1) + ((popped s).heap.entries.map (t.weight s)).sum + _
  omega

theorem weight_pos (s : BpeState) (e : BpeEntry) : 0 < t.weight s e := by
  unfold weight
  split_ifs <;> omega

theorem Inv.pushPair (h : t.Inv pcs s live) (i : ℕ)
    (hroom : s.heap.hn + 1 + 2 * live.length < 3 * s.npcs) : t.Inv pcs (t.pushPair s i) live where
  nodes := pushPair_nodes i h.nodes
  ranked := h.ranked.pushPair i
  current := fun a ha _ => h.current.pushPair i a ha fun hf => hf.1
  npcs := by rw [pushPair_npcs, h.npcs]
  length := by rw [pushPair_npcs]; exact h.length
  room := by
    have := pushPair_hn (t := t) (s := s) i
    rw [pushPair_npcs]
    omega
  same := by rw [pushPair_pcs]; exact h.same

theorem todo_pushPair (i : ℕ) : t.todo (t.pushPair s i) ≤ t.todo s + 1 := by
  have hweight : ∀ e, t.weight (t.pushPair s i) e = t.weight s e := by
    intro e
    rw [weight, weight, pushPair_rank]
  have hlive : (t.pushPair s i).live = s.live := by
    rw [BpeState.live, BpeState.live, pushPair_next, pushPair_npcs]
  have hsum : ∀ es : Multiset BpeEntry, es.map (weight t (t.pushPair s i)) = es.map (weight t s) :=
    fun es => Multiset.map_congr rfl fun e _ => hweight e
  rw [todo, todo, hlive, pushPair_npcs, hsum, pushPair_entries]
  by_cases hr : 0 ≤ t.bpePairRank s i
  · have hone : t.weight s (t.entryOf s i) = 1 := if_pos rfl
    rw [if_pos hr, Multiset.map_cons, Multiset.sum_cons]
    omega
  · rw [if_neg hr]
    omega

/-- The pair of the root is merged. -/
theorem Inv.merge {xs ys : List ℕ} {nd nx : ℕ} (h : t.Inv pcs s (xs ++ nd :: nx :: ys))
    (hpos : 0 < s.heap.hn) (htop : (s.heap.entry 1).node = nd)
    (hcur : t.bpePairRank s nd = (s.heap.entry 1).rank) :
    t.Inv pcs (t.pushAfter (t.pushBefore (t.mergeNode (popped s) (t.bpePairRank s nd) nd nx) nd) nd)
      (xs ++ nd :: ys) := by
  have hnodes : Nodes (popped s) (xs ++ nd :: nx :: ys) :=
    ⟨h.nodes.chained, h.nodes.sorted, h.nodes.alive, h.nodes.prev⟩
  have hcurrent : t.Current (popped s) (xs ++ nd :: nx :: ys) (· = nd) :=
    h.current.popped hpos fun a _ hand _ he => hand (congrArg BpeEntry.node he |>.trans htop)
  have hranked : Ranked (t.mergeNode (popped s) (t.bpePairRank s nd) nd nx) :=
    ⟨(popped_ranked hpos h.ranked).ordered, (popped_ranked hpos h.ranked).rank⟩
  obtain ⟨hn₁, hr₁, hc₁, hp₁, hm₁, hh₁⟩ :=
    pushBefore_spec (mergeNode_nodes _ hnodes) hranked (hcurrent.mergeNode _ hnodes)
  obtain ⟨hn₂, hr₂, hc₂, hp₂, hm₂, hh₂⟩ := pushAfter_spec hn₁ hr₁ hc₁
  have hhn : (t.mergeNode (popped s) (t.bpePairRank s nd) nd nx).heap.hn = s.heap.hn - 1 := popped_hn
  have hnpcs : (t.mergeNode (popped s) (t.bpePairRank s nd) nd nx).npcs = s.npcs := rfl
  have hlength := h.length
  have hroom := h.room
  simp only [List.length_append, List.length_cons] at hlength hroom
  refine ⟨hn₂, hr₂, hc₂, ?_, ?_, ?_, ?_⟩
  · rw [hm₂, hm₁, hnpcs, h.npcs]
  · rw [hm₂, hm₁, hnpcs]
    simp only [List.length_append, List.length_cons]
    omega
  · rw [hm₂, hm₁, hnpcs]
    simp only [List.length_append, List.length_cons]
    omega
  · have hbest := isBest_top rfl h.nodes h.ranked h.current hpos htop hcur
    have hrank : t.bpePairRank s nd = t.pieceRank (s.pcs nd) (s.pcs nx) := by
      rw [bpePairRank, h.nodes.chained.next_eq]
      rfl
    rw [← h.same, hp₂, hp₁, mergeNode_pieces _ h.nodes.nodup, hrank]
    simp only [List.map_append, List.map_cons] at hbest ⊢
    rw [← List.length_map s.pcs] at hbest
    exact (reference_merge t.mergeTwo hbest).symm

theorem Inv.turn (h : t.Inv pcs s live) (hpos : 0 < s.heap.hn) :
    ∃ live', t.Inv pcs (t.takeTop s) live' ∧ t.todo (t.takeTop s) < t.todo s := by
  have hpop := todo_popped (t := t) hpos
  have hroom := h.room
  -- an entry that is dropped
  have hdrop : (∀ a ∈ live, 0 ≤ t.bpePairRank s a → t.entryOf s a ≠ s.heap.entry 1) →
      t.Inv pcs (popped s) live ∧ t.todo (popped s) < t.todo s := by
    intro hne
    have := weight_pos (t := t) s (s.heap.entry 1)
    exact ⟨h.outdated hpos hne, by omega⟩
  unfold takeTop
  dsimp only
  split
  · rename_i hx
    refine ⟨live, hdrop fun a _ hr he => ?_⟩
    obtain ⟨b, hb⟩ := exists_next hr
    have hnode : a = (s.heap.entry 1).node := congrArg BpeEntry.node he
    exact absurd (hb.symm.trans (hnode ▸ hx)) (by simp)
  · rename_i nx hx
    split_ifs with hstale hcur
    · refine ⟨live, hdrop fun a ha _ he => ?_⟩
      have hnode : a = (s.heap.entry 1).node := congrArg BpeEntry.node he
      rcases hstale with hdead | hver
      · have hdead : s.alive a = false := hnode ▸ hdead
        exact absurd ((h.nodes.alive a).2 ha) (by rw [hdead]; decide)
      · exact hver (hnode ▸ congrArg BpeEntry.ver he)
    · -- an entry of another rank than its pair has
      have hcur : t.bpePairRank s (s.heap.entry 1).node ≠ (s.heap.entry 1).rank := hcur
      have hout := hdrop fun a _ _ he => hcur <| by
        have hnode : a = (s.heap.entry 1).node := congrArg BpeEntry.node he
        exact hnode ▸ congrArg BpeEntry.rank he
      have hweight : t.weight s (s.heap.entry 1) = 2 := if_neg fun he => hcur he.symm
      have hpush := todo_pushPair (t := t) (s := popped s) (s.heap.entry 1).node
      refine ⟨live, hout.1.pushPair _ ?_, ?_⟩
      · rw [popped_hn]
        change _ < 3 * s.npcs
        omega
      · change t.todo (t.pushPair (popped s) (s.heap.entry 1).node) < _
        omega
    · -- the pair of the root
      have hcur : t.bpePairRank s (s.heap.entry 1).node = (s.heap.entry 1).rank := not_not.1 hcur
      rw [not_or] at hstale
      have halive : (s.heap.entry 1).node ∈ live :=
        (h.nodes.alive _).1 (Bool.eq_true_of_not_eq_false hstale.1)
      obtain ⟨xs, ys, hlive⟩ := h.nodes.chained.split halive hx
      subst hlive
      have hmerge := h.merge hpos rfl hcur
      refine ⟨_, hmerge, ?_⟩
      have hnpcs := hmerge.npcs.trans h.npcs.symm
      have hroom' := hmerge.room
      have hweights := weights_le t (t.pushAfter (t.pushBefore (t.mergeNode (popped s)
        (t.bpePairRank s (s.heap.entry 1).node) (s.heap.entry 1).node nx) (s.heap.entry 1).node)
        (s.heap.entry 1).node)
      rw [hnpcs] at hroom'
      change t.todo (t.pushAfter (t.pushBefore (t.mergeNode (popped s)
        (t.bpePairRank s (s.heap.entry 1).node) (s.heap.entry 1).node nx) (s.heap.entry 1).node)
        (s.heap.entry 1).node) < t.todo s
      rw [todo, todo, hmerge.live_eq, h.live_eq, hnpcs]
      simp only [List.length_append, List.length_cons] at hroom' ⊢
      have hmul : (xs.length + (ys.length + 1 + 1)) * (6 * s.npcs + 1) =
          (xs.length + (ys.length + 1)) * (6 * s.npcs + 1) + (6 * s.npcs + 1) := by ring
      omega

end Turn

/-! ### The start -/

theorem chained_start (work : ℕ → BpeEntry) (pcs : List BpePiece) (k m : ℕ) (hm : k + (m + 1) = pcs.length) :
    Chained (startNodes work pcs).next (some k) (List.range' k (m + 1)) := by
  induction m generalizing k with
  | zero =>
    refine ⟨rfl, ?_⟩
    exact if_neg (by omega)
  | succ m ih =>
    refine ⟨rfl, ?_⟩
    have hnext : (startNodes work pcs).next k = some (k + 1) := if_pos (by omega)
    rw [hnext]
    exact ih (k + 1) (by omega)

theorem startNodes_nodes (work : ℕ → BpeEntry) (p : BpePiece) (ps : List BpePiece) :
    Nodes (startNodes work (p :: ps)) (List.range (ps.length + 1)) where
  chained := by
    rw [List.range_eq_range']
    exact chained_start work (p :: ps) 0 ps.length (by simp)
  sorted := List.pairwise_lt_range
  alive i := by simp [startNodes]
  prev a _ b hb := by
    have hb : (if a + 1 < (p :: ps).length then some (a + 1) else none) = some b := hb
    split_ifs at hb
    obtain rfl := Option.some.inj hb
    rfl

/-- After some of the pushes, those of the nodes from `k` on are due. -/
theorem start_spec (work : ℕ → BpeEntry) (p : BpePiece) (ps : List BpePiece) (k : ℕ) :
    ∃ s, (List.range k).foldl t.pushPair (startNodes work (p :: ps)) = s ∧
      Nodes s (List.range (ps.length + 1)) ∧ Ranked s ∧
      t.Current s (List.range (ps.length + 1)) (k ≤ ·) ∧ s.pcs = (startNodes work (p :: ps)).pcs ∧
      s.next = (startNodes work (p :: ps)).next ∧ s.npcs = ps.length + 1 ∧ s.heap.hn ≤ k := by
  induction k with
  | zero =>
    refine ⟨_, rfl, startNodes_nodes work p ps, ⟨fun i hi hle => ?_, fun e he => ?_⟩,
      fun a _ hdue => absurd (Nat.zero_le a) hdue, rfl, rfl, rfl, Nat.le_refl 0⟩
    · have hle : i ≤ 0 := hle
      omega
    · have he : e ∈ (0 : Multiset BpeEntry) := he
      simp at he
  | succ k ih =>
    obtain ⟨s, hs, hn, hr, hc, hpcs, hnext, hnpcs, hhn⟩ := ih
    refine ⟨t.pushPair s k, ?_, pushPair_nodes k hn, hr.pushPair k,
      fun a ha hdue => hc.pushPair k a ha ?_, ?_, ?_, ?_, ?_⟩
    · rw [List.range_succ, List.foldl_append, hs]
      rfl
    · omega
    · rw [pushPair_pcs, hpcs]
    · rw [pushPair_next, hnext]
    · rw [pushPair_npcs, hnpcs]
    · have := pushPair_hn (t := t) (s := s) k
      omega

theorem start_inv (work : ℕ → BpeEntry) (p : BpePiece) (ps : List BpePiece) :
    t.Inv (p :: ps) (t.start work (p :: ps)) (List.range (ps.length + 1)) := by
  obtain ⟨s, hs, hn, hr, hc, hpcs, hnext, hnpcs, hhn⟩ := start_spec (t := t) work p ps ps.length
  have hstart : t.start work (p :: ps) = s := hs
  rw [hstart]
  refine ⟨hn, hr, fun a ha _ hrank => hc a ha ?_ hrank, ?_, ?_, ?_, ?_⟩
  · -- the last node has no pair
    obtain ⟨b, hb⟩ := exists_next hrank
    rw [hnext] at hb
    have hb : (if a + 1 < ps.length + 1 then some (a + 1) else none) = some b := hb
    split_ifs at hb
    omega
  · rw [hnpcs, List.length_cons]
  · rw [List.length_range, hnpcs]
  · rw [List.length_range, hnpcs]
    omega
  · have hpieces : (List.range (ps.length + 1)).map s.pcs = p :: ps := by
      rw [hpcs]
      refine List.ext_getElem (by simp) fun i h₁ h₂ => ?_
      simp [startNodes, List.getD_eq_getElem?_getD, List.getElem?_eq_getElem h₂]
    rw [hpieces]

/-- The merges end with the pieces of the reference, and at every turn the heap has room in its
arrays. -/
theorem bpe_reference (t : BpeTables) (work : ℕ → BpeEntry) (p : BpePiece) (ps : List BpePiece) :
    (∃ fuel s, Loop.run t.turn fuel (t.start work (p :: ps)) = some s ∧
      s.pieces = reference t.pieceRank t.mergeTwo (p :: ps)) ∧
    ∀ s, Loop.Head t.turn (t.start work (p :: ps)) s → s.heap.hn < heapCap (p :: ps).length := by
  have hstart : ∃ live, t.Inv (p :: ps) (t.start work (p :: ps)) live := ⟨_, start_inv work p ps⟩
  have hstep : ∀ s s', (∃ live, t.Inv (p :: ps) s live) → t.turn s = .next s' →
      (∃ live, t.Inv (p :: ps) s' live) ∧ t.todo s' < t.todo s := by
    rintro s s' ⟨live, h⟩ hturn
    unfold turn at hturn
    split_ifs at hturn with hpos
    obtain rfl := LoopStep.next.inj hturn
    obtain ⟨live', h', hlt⟩ := h.turn hpos
    exact ⟨⟨live', h'⟩, hlt⟩
  have hhead : ∀ s, Loop.Head t.turn (t.start work (p :: ps)) s → ∃ live, t.Inv (p :: ps) s live :=
    fun s hs =>
    hs.inv (I := fun s => ∃ live, t.Inv (p :: ps) s live) hstart fun s s' h hturn => (hstep s s' h hturn).1
  constructor
  · obtain ⟨s, hrun⟩ := Loop.run_of_variant t.todo hstep _ hstart (Nat.lt_succ_self _)
    refine ⟨_, s, hrun, ?_⟩
    obtain ⟨s', hs', hdone⟩ := Loop.exists_head_of_run hrun
    obtain ⟨live, h⟩ := hhead s' hs'
    unfold turn at hdone
    split_ifs at hdone with hpos
    obtain rfl := LoopStep.done.inj hdone
    rw [BpeState.pieces, h.live_eq, ← h.same]
    refine (reference_done t.mergeTwo fun j => ?_).symm
    by_contra hj
    have hj : 0 ≤ rankAt t.pieceRank (live.map s'.pcs) j := not_lt.1 hj
    rw [rankAt_map] at hj
    obtain ⟨as, a, b, bs, rfl, -, hrank⟩ := exists_pair hj
    have hpair : t.bpePairRank s' a = t.pieceRank (s'.pcs a) (s'.pcs b) := by
      rw [bpePairRank, h.nodes.chained.next_eq]
      rfl
    rw [hrank, ← hpair] at hj
    have hmem := h.current a (by simp) (fun hf => hf) hj
    have hempty : s'.heap.entries = 0 := by
      rw [EntryHeap.entries, Nat.eq_zero_of_not_pos hpos]
      rfl
    rw [hempty] at hmem
    exact absurd hmem (Multiset.notMem_zero _)
  · intro s hs
    obtain ⟨live, h⟩ := hhead s hs
    have hroom := h.room
    rw [h.npcs] at hroom
    unfold heapCap
    omega

end BpeTables

end Kappai
