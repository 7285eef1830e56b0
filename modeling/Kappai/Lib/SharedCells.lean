import Mathlib.Data.List.Basic
import Mathlib.Data.Set.Basic
import Mathlib.Logic.Function.Basic
import Mathlib.Data.List.Range

/-! Straight-line programs over cells that are bound to buffers. Two banks in which different cells
share buffers run alike as long as no write lands in the buffer of another live cell. -/

namespace Kappai

/-- An operation reads its cells, stores to its cells and may leave something in its scratch. -/
structure CellOp (C V S : Type*) where
  reads : List C
  stores : List C
  scratch : List C
  run : S → List V → S × (ℕ → V) × (ℕ → Option V)

/-- An exchange swaps what two cells are bound to. -/
inductive CellInstr (C V S : Type*)
  | op (o : CellOp C V S)
  | exchange (a b : C)

/-- A cell is bound to a buffer, and a buffer holds a value. -/
structure CellBank (B C V S : Type*) where
  env : S
  bound : C → B
  mem : B → V

variable {B B' C V S : Type*}

namespace CellBank

def read (m : CellBank B C V S) (c : C) : V := m.mem (m.bound c)

def write [DecidableEq B] (m : CellBank B C V S) (p : C × V) : CellBank B C V S :=
  { m with mem := Function.update m.mem (m.bound p.1) p.2 }

def writes [DecidableEq B] (m : CellBank B C V S) (ps : List (C × V)) : CellBank B C V S := ps.foldl write m

def exchange [DecidableEq C] (m : CellBank B C V S) (a b : C) : CellBank B C V S :=
  { m with bound := fun c => m.bound (if c = a then b else if c = b then a else c) }

/-- Cells bound to one buffer have one representative. -/
def Respects (m : CellBank B C V S) (rep : C → B) : Prop :=
  ∀ c d, m.bound c = m.bound d → rep c = rep d

/-- The environments are the same, and so is what the live cells hold. -/
def Agree (L : Set C) (m : CellBank B C V S) (m' : CellBank B' C V S) : Prop :=
  m.env = m'.env ∧ ∀ c ∈ L, m.read c = m'.read c

theorem Agree.mono {L L' : Set C} {m : CellBank B C V S} {m' : CellBank B' C V S}
    (h : Agree L m m') (hL : L' ⊆ L) : Agree L' m m' :=
  ⟨h.1, fun c hc => h.2 c (hL hc)⟩

variable [DecidableEq B]

@[simp] theorem read_write_self (m : CellBank B C V S) (c : C) (v : V) :
    (m.write (c, v)).read c = v := Function.update_self _ _ _

theorem read_write_of_ne {m : CellBank B C V S} {c w : C} (v : V) (h : m.bound w ≠ m.bound c) :
    (m.write (w, v)).read c = m.read c := Function.update_of_ne (Ne.symm h) _ _

@[simp] theorem writes_env (m : CellBank B C V S) (ps : List (C × V)) :
    (m.writes ps).env = m.env := by
  induction ps generalizing m with
  | nil => rfl
  | cons p ps ih => exact (ih _).trans rfl

@[simp] theorem writes_bound (m : CellBank B C V S) (ps : List (C × V)) :
    (m.writes ps).bound = m.bound := by
  induction ps generalizing m with
  | nil => rfl
  | cons p ps ih => exact (ih _).trans rfl

/-- Writes to other buffers leave a cell as it is. -/
theorem read_writes_of_ne {m : CellBank B C V S} {c : C} {ps : List (C × V)}
    (h : ∀ p ∈ ps, m.bound p.1 ≠ m.bound c) : (m.writes ps).read c = m.read c := by
  induction ps generalizing m with
  | nil => rfl
  | cons p ps ih =>
    have htail : ((m.write p).writes ps).read c = (m.write p).read c :=
      ih fun q hq => h q (List.mem_cons_of_mem _ hq)
    exact htail.trans (read_write_of_ne p.2 (h p List.mem_cons_self))

/-- The same writes leave two banks alike in a cell that was alike or is among them, if they reach
its buffer through it alone. -/
theorem read_writes_eq [DecidableEq B'] {m : CellBank B C V S} {m' : CellBank B' C V S} {c : C}
    {ps : List (C × V)} (h : ∀ p ∈ ps, p.1 ≠ c → m.bound p.1 ≠ m.bound c)
    (h' : ∀ p ∈ ps, p.1 ≠ c → m'.bound p.1 ≠ m'.bound c)
    (hc : m.read c = m'.read c ∨ c ∈ ps.map Prod.fst) :
    (m.writes ps).read c = (m'.writes ps).read c := by
  induction ps generalizing m m' with
  | nil =>
    rcases hc with heq | hmem
    · exact heq
    · cases hmem
  | cons p ps ih =>
    obtain ⟨w, v⟩ := p
    rw [writes, List.foldl_cons, writes, List.foldl_cons]
    refine ih (fun q hq => h q (List.mem_cons_of_mem _ hq))
      (fun q hq => h' q (List.mem_cons_of_mem _ hq)) ?_
    rcases eq_or_ne w c with rfl | hne
    · exact Or.inl ((read_write_self m w v).trans (read_write_self m' w v).symm)
    · rw [read_write_of_ne v (h _ List.mem_cons_self hne),
        read_write_of_ne v (h' _ List.mem_cons_self hne)]
      rcases hc with heq | hmem
      · exact Or.inl heq
      · exact Or.inr ((List.mem_cons.mp hmem).resolve_left fun heq => hne heq.symm)

omit [DecidableEq B] in
theorem Respects.exchange [DecidableEq C] {m : CellBank B C V S} {rep : C → B}
    (h : m.Respects rep) {a b : C}
    (ha : ∀ c, rep c = rep a → c = a) (hb : ∀ c, rep c = rep b → c = b) :
    (m.exchange a b).Respects rep := by
  intro c d hcd
  have hrep := h _ _ hcd
  by_cases hca : c = a <;> by_cases hda : d = a <;> by_cases hcb : c = b <;>
    by_cases hdb : d = b <;> simp only [hca, hda, hcb, hdb, if_true, if_false] at hrep ⊢ <;>
    grind

end CellBank

namespace CellInstr

def reads : CellInstr C V S → List C
  | .op o => o.reads
  | .exchange a b => [a, b]

/-- What the instruction takes in. -/
def inputs (m : CellBank B C V S) (i : CellInstr C V S) : List V := i.reads.map m.read

/-- The writes of an operation, in their order. -/
def pairs (o : CellOp C V S) (r : S × (ℕ → V) × (ℕ → Option V)) : List (C × V) :=
  (o.stores.zipIdx.map fun p => (p.1, r.2.1 p.2)) ++
    o.scratch.zipIdx.filterMap fun p => (r.2.2 p.2).map fun v => (p.1, v)

def step [DecidableEq B] [DecidableEq C] (m : CellBank B C V S) : CellInstr C V S → CellBank B C V S
  | .op o =>
    let r := o.run m.env (o.reads.map m.read)
    { m.writes (pairs o r) with env := r.1 }
  | .exchange a b => m.exchange a b

theorem fst_mem_of_mem_pairs {o : CellOp C V S} {r : S × (ℕ → V) × (ℕ → Option V)} {p : C × V}
    (h : p ∈ pairs o r) : p.1 ∈ o.stores ++ o.scratch := by
  rcases List.mem_append.mp h with h | h
  · obtain ⟨q, hq, rfl⟩ := List.mem_map.mp h
    exact List.mem_append_left _ (List.fst_mem_of_mem_zipIdx hq)
  · obtain ⟨q, hq, hp⟩ := List.mem_filterMap.mp h
    obtain ⟨v, -, rfl⟩ := Option.map_eq_some_iff.mp hp
    exact List.mem_append_right _ (List.fst_mem_of_mem_zipIdx hq)

theorem mem_pairs_of_mem_stores {o : CellOp C V S} (r : S × (ℕ → V) × (ℕ → Option V)) {c : C}
    (h : c ∈ o.stores) : c ∈ (pairs o r).map Prod.fst := by
  obtain ⟨k, hk, rfl⟩ := List.getElem_of_mem h
  refine List.mem_map.mpr ⟨(o.stores[k], r.2.1 k), List.mem_append_left _ ?_, rfl⟩
  exact List.mem_map.mpr ⟨(o.stores[k], k), List.mk_mem_zipIdx_iff_getElem?.mpr
    (List.getElem?_eq_getElem hk), rfl⟩

/-- What takes the cells live before an instruction to those live after it, where cells of one
representative may share a buffer. -/
def Sound (rep : C → B) (L : Set C) (i : CellInstr C V S) (L' : Set C) : Prop :=
  match i with
  | .op o =>
    (∀ c ∈ o.reads, c ∈ L) ∧ (∀ c ∈ L', c ∈ L ∨ c ∈ o.stores) ∧
      ∀ c ∈ L', ∀ w ∈ o.stores ++ o.scratch, w ≠ c → rep w ≠ rep c
  | .exchange a b =>
    (a ∈ L ∧ b ∈ L) ∧ L' ⊆ L ∧ ∀ c, (rep c = rep a → c = a) ∧ (rep c = rep b → c = b)

theorem inputs_eq {L : Set C} {m : CellBank B C V S} {m' : CellBank B' C V S}
    (h : CellBank.Agree L m m') {i : CellInstr C V S} (hr : ∀ c ∈ i.reads, c ∈ L) :
    i.inputs m = i.inputs m' :=
  List.map_congr_left fun c hc => h.2 c (hr c hc)

theorem Sound.reads {rep : C → B} {L L' : Set C} {i : CellInstr C V S} (h : Sound rep L i L') :
    ∀ c ∈ i.reads, c ∈ L := by
  cases i with
  | op o => exact h.1
  | exchange a b =>
    intro c hc
    rcases List.mem_pair.mp hc with rfl | rfl
    · exact h.1.1
    · exact h.1.2

/-- One instruction: the banks take in the same and agree on what is live afterwards. -/
theorem Sound.step [DecidableEq B] [DecidableEq B'] [DecidableEq C] {rep : C → B} {rep' : C → B'} {L L' : Set C} {i : CellInstr C V S}
    (h : Sound rep L i L') (h' : Sound rep' L i L') {m : CellBank B C V S}
    {m' : CellBank B' C V S} (hm : m.Respects rep) (hm' : m'.Respects rep')
    (ha : CellBank.Agree L m m') :
    CellBank.Agree L' (i.step m) (i.step m') ∧ (i.step m).Respects rep ∧
      (i.step m').Respects rep' := by
  cases i with
  | op o =>
    have hin : o.reads.map m.read = o.reads.map m'.read := inputs_eq (i := .op o) ha h.1
    refine ⟨⟨?_, fun c hc => ?_⟩, ?_, ?_⟩
    · simp only [CellInstr.step, hin, ha.1]
    · simp only [CellInstr.step, hin, ha.1]
      refine CellBank.read_writes_eq (fun p hp hne heq => ?_) (fun p hp hne heq => ?_) ?_
      · exact h.2.2 c hc p.1 (fst_mem_of_mem_pairs hp) hne (hm _ _ heq)
      · exact h'.2.2 c hc p.1 (fst_mem_of_mem_pairs hp) hne (hm' _ _ heq)
      · rcases h.2.1 c hc with hL | hs
        · exact Or.inl (ha.2 c hL)
        · exact Or.inr (mem_pairs_of_mem_stores _ hs)
    · intro c d hcd
      simp only [CellInstr.step, CellBank.writes_bound] at hcd
      exact hm c d hcd
    · intro c d hcd
      simp only [CellInstr.step, CellBank.writes_bound] at hcd
      exact hm' c d hcd
  | exchange a b =>
    obtain ⟨⟨haL, hbL⟩, hL, halone⟩ := h
    refine ⟨⟨ha.1, fun c hc => ?_⟩, hm.exchange (fun c => (halone c).1) (fun c => (halone c).2),
      hm'.exchange (fun c => (h'.2.2 c).1) fun c => (h'.2.2 c).2⟩
    refine ha.2 (if c = a then b else if c = b then a else c) ?_
    split_ifs
    · exact hbL
    · exact haL
    · exact hL hc

end CellInstr

/-! ### Programs -/

section

variable [DecidableEq B] [DecidableEq C]

/-- What each instruction takes in. -/
def cellTrace : CellBank B C V S → List (CellInstr C V S) → List (List V)
  | _, [] => []
  | m, i :: is => i.inputs m :: cellTrace (i.step m) is

def cellRun (m : CellBank B C V S) (is : List (CellInstr C V S)) : CellBank B C V S :=
  is.foldl CellInstr.step m

theorem cellRun_append (m : CellBank B C V S) (is js : List (CellInstr C V S)) :
    cellRun m (is ++ js) = cellRun (cellRun m is) js := List.foldl_append

theorem cellTrace_append (m : CellBank B C V S) (is js : List (CellInstr C V S)) :
    cellTrace m (is ++ js) = cellTrace m is ++ cellTrace (cellRun m is) js := by
  induction is generalizing m with
  | nil => rfl
  | cons i is ih => exact congrArg (_ :: ·) (ih _)

end

/-- Live sets for a whole program. -/
inductive SoundChain (rep : C → B) : Set C → List (CellInstr C V S) → Set C → Prop
  | nil {L L' : Set C} (h : L' ⊆ L) : SoundChain rep L [] L'
  | cons {L M L' : Set C} {i : CellInstr C V S} {is : List (CellInstr C V S)}
    (h : i.Sound rep L M) (t : SoundChain rep M is L') : SoundChain rep L (i :: is) L'

namespace SoundChain

variable {rep : C → B} {L M N : Set C} {is js : List (CellInstr C V S)}

theorem weaken (h : SoundChain rep M is N) (hL : M ⊆ L) : SoundChain rep L is N := by
  cases h with
  | nil h => exact .nil (h.trans hL)
  | @cons _ M' _ i is h t =>
    refine .cons ?_ t
    cases i with
    | op o =>
      exact ⟨fun c hc => hL (h.1 c hc), fun c hc => (h.2.1 c hc).imp (@hL c) id, h.2.2⟩
    | exchange a b => exact ⟨⟨hL h.1.1, hL h.1.2⟩, h.2.1.trans hL, h.2.2⟩

theorem append (h : SoundChain rep L is M) (h' : SoundChain rep M js N) :
    SoundChain rep L (is ++ js) N := by
  induction h with
  | nil h => exact h'.weaken h
  | cons h _ ih => exact .cons h (ih h')

theorem shrink (h : SoundChain rep L is M) (hN : N ⊆ M) : SoundChain rep L is N := by
  have happ := h.append (.nil hN)
  rwa [List.append_nil] at happ

/-- A section that is sound from a live set back to itself is sound over and over. -/
theorem flatMap {ι : Type*} {f : ι → List (CellInstr C V S)} (ks : List ι)
    (h : ∀ k ∈ ks, SoundChain rep L (f k) L) : SoundChain rep L (ks.flatMap f) L := by
  induction ks with
  | nil => exact .nil subset_rfl
  | cons k ks ih =>
    rw [List.flatMap_cons]
    exact (h k List.mem_cons_self).append (ih fun j hj => h j (List.mem_cons_of_mem _ hj))

/-- The live sets at the places of a program. -/
theorem of_places {L : ℕ → Set C} {lo : ℕ}
    (h : ∀ (k : ℕ) (i : CellInstr C V S), is[k]? = some i → i.Sound rep (L (lo + k)) (L (lo + k + 1))) :
    SoundChain rep (L lo) is (L (lo + is.length)) := by
  induction is generalizing lo with
  | nil => exact .nil subset_rfl
  | cons i is ih =>
    have hhead := h 0 i rfl
    rw [Nat.add_zero] at hhead
    refine .cons hhead ?_
    have hlen : lo + (i :: is).length = lo + 1 + is.length := by
      rw [List.length_cons]
      omega
    rw [hlen]
    refine ih fun k j hj => ?_
    have hk := h (k + 1) j hj
    rwa [show lo + (k + 1) = lo + 1 + k by omega] at hk

/-- Banks that agree on the cells live at the start run alike. -/
theorem run [DecidableEq B] [DecidableEq B'] [DecidableEq C] {rep' : C → B'} (h : SoundChain rep L is N)
    {m : CellBank B C V S} {m' : CellBank B' C V S} (hrep : Function.Injective rep')
    (hm : m.Respects rep) (hm' : m'.Respects rep') (ha : CellBank.Agree L m m') :
    cellTrace m is = cellTrace m' is ∧ CellBank.Agree N (cellRun m is) (cellRun m' is) := by
  induction h generalizing m m' with
  | nil h => exact ⟨rfl, ha.mono h⟩
  | @cons L M _ i is h _ ih =>
    have h' : i.Sound rep' L M := by
      cases i with
      | op o => exact ⟨h.1, h.2.1, fun c _ w _ hne heq => hne (hrep heq)⟩
      | exchange a b => exact ⟨h.1, h.2.1, fun c => ⟨fun heq => hrep heq, fun heq => hrep heq⟩⟩
    obtain ⟨ha', hm₁, hm₂⟩ := h.step h' hm hm' ha
    obtain ⟨htrace, hrun⟩ := ih hm₁ hm₂ ha'
    refine ⟨?_, hrun⟩
    rw [cellTrace, cellTrace, htrace, CellInstr.inputs_eq ha h.reads]

end SoundChain

end Kappai

/-! Two labelled programs that run side by side: a relation between their states that holds before a
piece of each holds after it, and the kept labels show the same in both. -/

namespace Kappai

/-- An instruction shows something of the state it meets. -/
structure Machine (σ ι ω : Type*) where
  step : σ → ι → σ
  shows : σ → ι → ω

namespace Machine

variable {σ ι ω τ : Type*} (M : Machine σ ι ω)

def run (s : σ) (P : List (τ × ι)) : σ := P.foldl (fun s p => M.step s p.2) s

def trace (s : σ) : List (τ × ι) → List (τ × ω)
  | [] => []
  | p :: P => (p.1, M.shows s p.2) :: trace (M.step s p.2) P

theorem run_append (s : σ) (P Q : List (τ × ι)) : M.run s (P ++ Q) = M.run (M.run s P) Q :=
  List.foldl_append

theorem trace_append (s : σ) (P Q : List (τ × ι)) :
    M.trace s (P ++ Q) = M.trace s P ++ M.trace (M.run s P) Q := by
  induction P generalizing s with
  | nil => rfl
  | cons p P ih => exact congrArg (_ :: ·) (ih _)

theorem fst_mem_of_mem_trace {s : σ} {P : List (τ × ι)} {q : τ × ω} (h : q ∈ M.trace s P) :
    ∃ p ∈ P, p.1 = q.1 := by
  induction P generalizing s with
  | nil => cases h
  | cons p P ih =>
    rcases List.mem_cons.mp h with rfl | h
    · exact ⟨p, List.mem_cons_self, rfl⟩
    · obtain ⟨p', hp, heq⟩ := ih h
      exact ⟨p', List.mem_cons_of_mem _ hp, heq⟩

/-- What the kept labels show. -/
def shown (keep : τ → Bool) (s : σ) (P : List (τ × ι)) : List (τ × ω) :=
  (M.trace s P).filter fun q => keep q.1

/-- From related states the programs show the same and end in related states. -/
def Relates (keep : τ → Bool) (R : σ → σ → Prop) (P P' : List (τ × ι)) (R' : σ → σ → Prop) :
    Prop :=
  ∀ s s', R s s' → M.shown keep s P = M.shown keep s' P' ∧ R' (M.run s P) (M.run s' P')

namespace Relates

variable {M} {keep : τ → Bool} {R R' R'' : σ → σ → Prop} {P P' Q Q' : List (τ × ι)}

theorem nil (h : ∀ s s', R s s' → R' s s') : M.Relates keep R [] [] R' :=
  fun s s' hR => ⟨rfl, h s s' hR⟩

theorem append (h : M.Relates keep R P P' R') (h' : M.Relates keep R' Q Q' R'') :
    M.Relates keep R (P ++ Q) (P' ++ Q') R'' := by
  intro s s' hR
  obtain ⟨hshown, hR'⟩ := h s s' hR
  obtain ⟨hshown', hR''⟩ := h' _ _ hR'
  refine ⟨?_, by rw [run_append, run_append]; exact hR''⟩
  simp only [shown, trace_append, List.filter_append] at hshown hshown' ⊢
  rw [hshown, hshown']

theorem mono (h : M.Relates keep R P P' R') {R₀ R₁ : σ → σ → Prop}
    (h₀ : ∀ s s', R₀ s s' → R s s') (h₁ : ∀ s s', R' s s' → R₁ s s') :
    M.Relates keep R₀ P P' R₁ :=
  fun s s' hR => (h s s' (h₀ s s' hR)).imp id (h₁ _ _)

/-- An instruction of both programs. -/
theorem same {t : τ} {i : ι}
    (h : ∀ s s', R s s' → M.shows s i = M.shows s' i ∧ R' (M.step s i) (M.step s' i)) :
    M.Relates keep R [(t, i)] [(t, i)] R' := by
  intro s s' hR
  obtain ⟨hshows, hR'⟩ := h s s' hR
  refine ⟨?_, hR'⟩
  simp only [shown, trace, hshows]

/-- Pieces whose labels are not kept. -/
theorem hidden (hP : ∀ p ∈ P, keep p.1 = false) (hP' : ∀ p ∈ P', keep p.1 = false)
    (h : ∀ s s', R s s' → R' (M.run s P) (M.run s' P')) : M.Relates keep R P P' R' := by
  have hnone : ∀ (s : σ) (P : List (τ × ι)), (∀ p ∈ P, keep p.1 = false) →
      M.shown keep s P = [] := by
    intro s P hP
    refine List.filter_eq_nil_iff.mpr fun q hq => ?_
    obtain ⟨p, hp, heq⟩ := M.fst_mem_of_mem_trace hq
    simp [← heq, hP p hp]
  exact fun s s' hR => ⟨by rw [hnone s P hP, hnone s' P' hP'], h s s' hR⟩

/-- Programs made of a piece for every place. -/
theorem places (keep : τ → Bool) (R : ℕ → σ → σ → Prop) (f f' : ℕ → List (τ × ι)) (lo n : ℕ)
    (h : ∀ t, lo ≤ t → t < lo + n → M.Relates keep (R t) (f t) (f' t) (R (t + 1))) :
    M.Relates keep (R lo) ((List.range' lo n).flatMap f) ((List.range' lo n).flatMap f')
      (R (lo + n)) := by
  induction n with
  | zero => exact nil fun _ _ hR => hR
  | succ n ih =>
    rw [List.range'_1_concat, List.flatMap_append, List.flatMap_append, List.flatMap_singleton,
      List.flatMap_singleton]
    exact (ih fun t hlo hhi => h t hlo (by omega)).append
      (h (lo + n) (Nat.le_add_right _ _) (by omega))

/-- Pieces that keep a relation, one after the other. -/
theorem flatMap {κ : Type*} {f f' : κ → List (τ × ι)} (ks : List κ)
    (h : ∀ k ∈ ks, M.Relates keep R (f k) (f' k) R) :
    M.Relates keep R (ks.flatMap f) (ks.flatMap f') R := by
  induction ks with
  | nil => exact nil fun _ _ hR => hR
  | cons k ks ih =>
    rw [List.flatMap_cons, List.flatMap_cons]
    exact (h k List.mem_cons_self).append (ih fun j hj => h j (List.mem_cons_of_mem _ hj))

end Relates

end Machine

end Kappai
