import Kappai.Spec.VkSuballoc

/-! The blocks of small buffers stay tidy whatever is allocated and freed, and no byte of them is lost as
long as no allocation skips bytes or is left unbound. -/

namespace Kappai

namespace VkSuballoc

open FreeRanges ByteRange

section Block

variable {blk : Block} {live : List Placed} {align size off b : ℕ} {qs : List ByteRange}

/-- What a request takes from a tidy block. -/
structure Taken (blk : Block) (live : List Placed) (align size off : ℕ) (qs : List ByteRange) : Prop where
  spaced : Spaced qs
  inside : ∀ q ∈ qs, q.stop ≤ blk.size
  aligned : align ∣ off
  stop : off + size ≤ blk.size
  live_apart : ∀ a ∈ live, a.range.Apart ⟨off, size⟩
  free_apart : ∀ q ∈ qs, (⟨off, size⟩ : ByteRange).Apart q
  kept : ∀ a ∈ live, ∀ q ∈ qs, a.range.Apart q
  total : ∃ r ∈ firstFit align size blk.ranges, total qs + size + r.slack align = total blk.ranges

theorem Tidy.taken (h : Tidy blk live) (halign : 0 < align) (hsize : 0 < size)
    (htake : take align size blk.ranges = some (off, qs)) : Taken blk live align size off qs := by
  have hspaced := h.spaced.rest hsize htake
  obtain ⟨before, r, after, hsplit, rfl, rfl, hfirst, hfits⟩ := take_eq_some htake
  rw [fits_iff hsize] at hfits
  have hr : r ∈ blk.ranges := by rw [hsplit]; simp
  have hbefore : ∀ q ∈ before, q ∈ blk.ranges := fun q hq => by rw [hsplit]; simp [hq]
  have hafter : ∀ q ∈ after, q ∈ blk.ranges := fun q hq => by rw [hsplit]; simp [hq]
  have hrise := h.spaced.rise
  rw [hsplit, List.pairwise_append, List.pairwise_cons] at hrise
  have hle := le_alignUp halign r.off
  have hslack : r.off + r.slack align = ByteRange.alignUp r.off align := Nat.add_sub_of_le hle
  have hin := h.inside r hr
  have hstop : ByteRange.alignUp r.off align + size ≤ r.stop := by
    rw [← hslack]
    simp only [ByteRange.stop]
    omega
  have hapart : ∀ a ∈ live, a.range.Apart ⟨ByteRange.alignUp r.off align, size⟩ := by
    intro a ha
    rcases h.free_apart a ha r hr with h' | h'
    · exact Or.inl (h'.trans hle)
    · exact Or.inr (hstop.trans h')
  refine ⟨hspaced, fun q hq => ?_, dvd_alignUp _ _, hstop.trans hin, hapart, fun q hq => ?_,
    fun a ha q hq => ?_, r, hfirst, ?_⟩
  · simp only [List.mem_append] at hq
    rcases hq with (hq | hq) | hq
    · exact h.inside q (hbefore q hq)
    · rw [(mem_rest hfits hq).2.1]
      exact hin
    · exact h.inside q (hafter q hq)
  · simp only [List.mem_append] at hq
    rcases hq with (hq | hq) | hq
    · exact Or.inr ((Nat.le_of_lt (hrise.2.2 q hq r List.mem_cons_self)).trans hle)
    · refine Or.inl ?_
      rw [(mem_rest hfits hq).1, hslack]
      exact Nat.le_refl _
    · exact Or.inl (hstop.trans (Nat.le_of_lt (hrise.2.1.1 q hq)))
  · simp only [List.mem_append] at hq
    rcases hq with (hq | hq) | hq
    · exact h.free_apart a ha q (hbefore q hq)
    · rcases h.free_apart a ha r hr with h' | h'
      · refine Or.inl (h'.trans ?_)
        rw [(mem_rest hfits hq).1]
        omega
      · refine Or.inr ?_
        rw [(mem_rest hfits hq).2.1]
        exact h'
    · exact h.free_apart a ha q (hafter q hq)
  · have := total_rest hfits
    rw [hsplit]
    simp only [total_append, total_cons]
    omega

theorem Taken.tidy (ht : Taken blk live align size off qs) (h : Tidy blk live) :
    Tidy { blk with ranges := qs } live :=
  ⟨ht.spaced, ht.inside, h.aligned, h.live_inside, h.live_apart, ht.kept⟩

theorem Taken.tidy_append (ht : Taken blk live align size off qs) (h : Tidy blk live) (hsize : 0 < size) :
    Tidy { blk with ranges := qs } (live ++ [⟨b, ⟨off, size⟩, align⟩]) where
  spaced := ht.spaced
  inside := ht.inside
  aligned a ha := by
    rcases List.mem_append.1 ha with ha | ha
    · exact h.aligned a ha
    · rw [List.mem_singleton.1 ha]
      exact ht.aligned
  live_inside a ha := by
    rcases List.mem_append.1 ha with ha | ha
    · exact h.live_inside a ha
    · rw [List.mem_singleton.1 ha]
      exact ⟨hsize, ht.stop⟩
  live_apart := List.pairwise_append.2 ⟨h.live_apart, List.pairwise_singleton _ _, fun a ha c hc => by
    rw [List.mem_singleton.1 hc]
    exact ht.live_apart a ha⟩
  free_apart a ha q hq := by
    rcases List.mem_append.1 ha with ha | ha
    · exact ht.kept a ha q hq
    · rw [List.mem_singleton.1 ha]
      exact ht.free_apart q hq

/-- Nothing is lost where the range that is taken from begins at the alignment. -/
theorem Taken.full (ht : Taken blk live align size off qs) (hfull : Full blk live) (halign : 0 < align)
    (hfirst : ∀ r ∈ firstFit align size blk.ranges, align ∣ r.off) :
    Full { blk with ranges := qs } (live ++ [⟨b, ⟨off, size⟩, align⟩]) := by
  obtain ⟨r, hr, htotal⟩ := ht.total
  have hslack : r.slack align = 0 := by
    rw [ByteRange.slack, alignUp_of_dvd halign (hfirst r hr), Nat.sub_self]
  simp only [Full, List.map_append, List.map_cons, List.map_nil, List.sum_append, List.sum_cons,
    List.sum_nil] at hfull ⊢
  omega

variable {before after : List Placed} {a : Placed}

/-- Giving back a live buffer. -/
theorem Tidy.given (h : Tidy blk (before ++ a :: after)) : Given blk.ranges a.range (give blk.ranges a.range) := by
  have ha : a ∈ before ++ a :: after := by simp
  exact h.spaced.give (h.live_inside a ha).1 (h.free_apart a ha)

theorem Tidy.release (h : Tidy blk (before ++ a :: after)) :
    Tidy { blk with ranges := give blk.ranges a.range } (before ++ after) := by
  have hgiven := h.given
  have ha : a ∈ before ++ a :: after := by simp
  have hmem : ∀ c ∈ before ++ after, c ∈ before ++ a :: after := fun c hc => by
    rcases List.mem_append.1 hc with hc | hc <;> simp [hc]
  have happ := List.pairwise_append.1 h.live_apart
  have hcons := List.pairwise_cons.1 happ.2.1
  refine ⟨hgiven.spaced, hgiven.upTo blk.size (h.live_inside a ha).2 h.inside,
    fun c hc => h.aligned c (hmem c hc), fun c hc => h.live_inside c (hmem c hc), ?_, fun c hc q hq => ?_⟩
  · exact List.pairwise_append.2 ⟨happ.1, hcons.2, fun c hc d hd => happ.2.2 c hc d (List.mem_cons_of_mem _ hd)⟩
  · have hca : c.range.Apart a.range := by
      rcases List.mem_append.1 hc with hc | hc
      · exact happ.2.2 c hc a List.mem_cons_self
      · exact (hcons.1 c hc).symm
    exact hgiven.apart c.range (h.live_inside c (hmem c hc)).1 hca (h.free_apart c (hmem c hc)) q hq

theorem Tidy.release_full (h : Tidy blk (before ++ a :: after)) (hfull : Full blk (before ++ a :: after)) :
    Full { blk with ranges := give blk.ranges a.range } (before ++ after) := by
  have := h.given.total
  simp only [Full, List.map_append, List.map_cons, List.sum_append, List.sum_cons] at hfull ⊢
  omega

end Block

section Pool

variable {deviceLocal : List Bool} {ans : Answers} {req : MemReq} {s : Pool} {b : ℕ} {blk : Block}

/-- Every block is tidy. -/
structure Sound (s : Pool) : Prop where
  tidy : ∀ b blk, s.blocks[b]? = some blk → Tidy blk (s.liveIn b)
  known : ∀ a ∈ s.live, a.block < s.blocks.length
  pos : ∀ blk ∈ s.blocks, 0 < blk.size

/-- No block has lost a byte. -/
def Balanced (s : Pool) : Prop := ∀ b blk, s.blocks[b]? = some blk → Full blk (s.liveIn b)

theorem MemReq.alignment_pos (req : MemReq) : 0 < req.alignment := Nat.two_pow_pos _

/-- The pool behind the choice of a block. -/
def ensured (deviceLocal : List Bool) (ans : Answers) (req : MemReq) (s : Pool) : Pool :=
  { s with blocks := (ensureBlock deviceLocal ans req s.blocks).1 }

/-- A block is there, or there is a new one that is all free. -/
theorem ensureBlock_cases (deviceLocal : List Bool) (ans : Answers) (req : MemReq) (blocks : List Block) :
    (ensureBlock deviceLocal ans req blocks).1 = blocks ∨
      ∃ n mt, 0 < n ∧ (ensureBlock deviceLocal ans req blocks).1 = blocks ++ [⟨n, mt, [⟨0, n⟩]⟩] := by
  rw [ensureBlock]
  cases findBlock blocks req with
  | some b => exact Or.inl rfl
  | none =>
    simp only
    by_cases hroom : blocks.length < maxBlocks
    · rw [if_pos hroom]
      cases findMemoryType deviceLocal req with
      | none => exact Or.inl rfl
      | some mt =>
        cases ans.allocated with
        | true => exact Or.inr ⟨_, _, Nat.lt_of_lt_of_le req.size_pos (Nat.le_max_right _ _), rfl⟩
        | false => exact Or.inl rfl
    · rw [if_neg hroom]
      exact Or.inl rfl

theorem liveIn_of_le (h : Sound s) (hb : s.blocks.length ≤ b) : s.liveIn b = [] := by
  refine List.filter_eq_nil_iff.2 fun a ha heq => ?_
  have := h.known a ha
  have := eq_of_beq heq
  omega

/-- What is true of the blocks of a pool is true with a new one. -/
theorem forall_blocks_append {blocks : List Block} {new : Block} {P : ℕ → Block → Prop}
    (h : ∀ b blk, blocks[b]? = some blk → P b blk) (hnew : P blocks.length new) :
    ∀ b blk, (blocks ++ [new])[b]? = some blk → P b blk := by
  intro b blk hblk
  rcases Nat.lt_or_ge b blocks.length with hlt | hge
  · rw [List.getElem?_append_left hlt] at hblk
    exact h b blk hblk
  · rw [List.getElem?_append_right hge] at hblk
    obtain ⟨hzero, rfl⟩ : b - blocks.length = 0 ∧ new = blk := by
      cases hk : b - blocks.length with
      | zero => exact ⟨rfl, by rw [hk] at hblk; exact Option.some.inj hblk⟩
      | succ k => rw [hk] at hblk; cases hblk
    obtain rfl : b = blocks.length := by omega
    exact hnew

theorem tidy_new (n mt : ℕ) (hn : 0 < n) : Tidy ⟨n, mt, [⟨0, n⟩]⟩ [] where
  spaced := ⟨List.pairwise_singleton _ _, fun r hr => by rw [List.mem_singleton.1 hr]; exact hn⟩
  inside r hr := by
    rw [List.mem_singleton.1 hr]
    exact Nat.le_of_eq (Nat.zero_add n)
  aligned a ha := by cases ha
  live_inside a ha := by cases ha
  live_apart := .nil
  free_apart a ha := by cases ha

theorem Sound.ensured (h : Sound s) : Sound (ensured deviceLocal ans req s) := by
  rcases ensureBlock_cases deviceLocal ans req s.blocks with heq | ⟨n, mt, hn, heq⟩
  · rw [VkSuballoc.ensured, heq]
    exact h
  · rw [VkSuballoc.ensured, heq]
    refine ⟨forall_blocks_append h.tidy ?_, fun a ha => ?_, fun blk hblk => ?_⟩
    · have := liveIn_of_le h (Nat.le_refl _)
      rw [Pool.liveIn] at this ⊢
      rw [this]
      exact tidy_new n mt hn
    · rw [List.length_append]
      exact Nat.lt_of_lt_of_le (h.known a ha) (Nat.le_add_right _ _)
    · rcases List.mem_append.1 hblk with hblk | hblk
      · exact h.pos blk hblk
      · rw [List.mem_singleton.1 hblk]
        exact hn

theorem Balanced.ensured (h : Sound s) (hb : Balanced s) : Balanced (ensured deviceLocal ans req s) := by
  rcases ensureBlock_cases deviceLocal ans req s.blocks with heq | ⟨n, mt, hn, heq⟩
  · rw [VkSuballoc.ensured, heq]
    exact hb
  · rw [VkSuballoc.ensured, heq]
    refine forall_blocks_append hb ?_
    have := liveIn_of_le h (Nat.le_refl _)
    rw [Pool.liveIn] at this ⊢
    rw [this]
    exact Nat.add_zero _

/-- The pool with other ranges in one block, and other live buffers there. -/
theorem Sound.set (h : Sound s) {live : List Placed} {blk' : Block}
    (hsize : 0 < blk'.size) (htidy : Tidy blk' (live.filter fun a => a.block == b))
    (hlive : ∀ c, c ≠ b → (live.filter fun a => a.block == c) = s.liveIn c)
    (hknown : ∀ a ∈ live, a.block < s.blocks.length) : Sound ⟨s.blocks.set b blk', live⟩ := by
  refine ⟨fun c blk'' hblk'' => ?_, fun a ha => ?_, fun blk'' hblk'' => ?_⟩
  · rw [List.getElem?_set] at hblk''
    by_cases hbc : b = c
    · rw [if_pos hbc] at hblk''
      obtain rfl := Option.some.inj (Option.ite_none_right_eq_some.1 hblk'').2
      exact hbc ▸ htidy
    · rw [if_neg hbc] at hblk''
      have := h.tidy c blk'' hblk''
      rw [← hlive c (Ne.symm hbc)] at this
      exact this
  · rw [List.length_set]
    exact hknown a ha
  · rcases List.mem_or_eq_of_mem_set hblk'' with hmem | rfl
    · exact h.pos blk'' hmem
    · exact hsize

theorem Balanced.set (h : Balanced s) {live : List Placed} {blk' : Block}
    (hfull : Full blk' (live.filter fun a => a.block == b))
    (hlive : ∀ c, c ≠ b → (live.filter fun a => a.block == c) = s.liveIn c) :
    Balanced ⟨s.blocks.set b blk', live⟩ := by
  intro c blk'' hblk''
  rw [List.getElem?_set] at hblk''
  by_cases hbc : b = c
  · rw [if_pos hbc] at hblk''
    obtain rfl := Option.some.inj (Option.ite_none_right_eq_some.1 hblk'').2
    exact hbc ▸ hfull
  · rw [if_neg hbc] at hblk''
    have := h c blk'' hblk''
    rw [← hlive c (Ne.symm hbc)] at this
    exact this

/-- What an allocation does to the blocks: nothing but to make one, or to take from one. -/
theorem step_alloc (deviceLocal : List Bool) (s : Pool) (req : MemReq) (ans : Answers) :
    step deviceLocal s (.alloc req ans) = ensured deviceLocal ans req s ∨
    ∃ b blk off qs, (ensureBlock deviceLocal ans req s.blocks).2 = some b ∧
      (ensured deviceLocal ans req s).blocks[b]? = some blk ∧
      take req.alignment req.size blk.ranges = some (off, qs) ∧
      step deviceLocal s (.alloc req ans) =
        ⟨(ensured deviceLocal ans req s).blocks.set b { blk with ranges := qs },
          s.live ++ if ans.bound then [⟨b, ⟨off, req.size⟩, req.alignment⟩] else []⟩ := by
  simp only [step, place]
  split
  · refine Or.inl ?_
    simp [ensured]
  · next b blk off qs heq =>
    obtain ⟨b', hb', heq⟩ := Option.bind_eq_some_iff.1 heq
    obtain ⟨blk', hblk', heq⟩ := Option.bind_eq_some_iff.1 heq
    obtain ⟨p, hp, heq⟩ := Option.map_eq_some_iff.1 heq
    obtain ⟨rfl, hrest⟩ := Prod.mk.inj heq
    obtain ⟨rfl, rfl⟩ := Prod.mk.inj hrest
    refine Or.inr ⟨b', blk', off, qs, hb', hblk', hp, ?_⟩
    split_ifs <;> simp [ensured]

/-- Where a buffer is placed, only its block gets one more. -/
theorem filter_append_placed (live : List Placed) (c : ℕ) (a : Placed) (bound : Bool) :
    (live ++ if bound then [a] else []).filter (fun x => x.block == c) =
      live.filter (fun x => x.block == c) ++ if bound && a.block == c then [a] else [] := by
  cases bound with
  | true => cases h : a.block == c <;> simp [h]
  | false => simp

theorem Sound.alloc (h : Sound s) : Sound (step deviceLocal s (.alloc req ans)) := by
  rcases step_alloc deviceLocal s req ans with heq | ⟨b, blk, off, qs, -, hblk, htake, heq⟩
  · rw [heq]
    exact h.ensured
  · rw [heq]
    have hens : Sound (VkSuballoc.ensured deviceLocal ans req s) := h.ensured
    have htidy := hens.tidy b blk hblk
    have htaken := htidy.taken req.alignment_pos req.size_pos htake
    have hlt : b < (VkSuballoc.ensured deviceLocal ans req s).blocks.length :=
      (List.getElem?_eq_some_iff.1 hblk).1
    refine hens.set (hens.pos blk (List.mem_of_getElem? hblk)) ?_ (fun c hc => ?_) fun a ha => ?_
    · rw [filter_append_placed]
      cases ans.bound with
      | true =>
        simp only [Bool.true_and, BEq.rfl, if_true]
        exact htaken.tidy_append htidy req.size_pos
      | false =>
        simp only [Bool.false_and, Bool.false_eq_true, if_false, List.append_nil]
        exact htaken.tidy htidy
    · rw [filter_append_placed]
      have : (b == c) = false := beq_eq_false_iff_ne.2 (Ne.symm hc)
      simp only [this, Bool.and_false, Bool.false_eq_true, if_false, List.append_nil]
      rfl
    · rcases List.mem_append.1 ha with ha | ha
      · exact hens.known a ha
      · cases hbound : ans.bound with
        | true =>
          rw [hbound, if_pos rfl, List.mem_singleton] at ha
          rw [ha]
          exact hlt
        | false =>
          rw [hbound] at ha
          cases ha

theorem Balanced.alloc (h : Sound s) (hb : Balanced s)
    (hlossless : Lossless deviceLocal s (.alloc req ans)) : Balanced (step deviceLocal s (.alloc req ans)) := by
  rcases step_alloc deviceLocal s req ans with heq | ⟨b, blk, off, qs, hens, hblk, htake, heq⟩
  · rw [heq]
    exact hb.ensured h
  · rw [heq]
    have hfirst : ∀ r ∈ firstFit req.alignment req.size blk.ranges, req.alignment ∣ r.off ∧ ans.bound = true :=
      hlossless b hens blk hblk
    have htidy := h.ensured.tidy b blk hblk
    have htaken := htidy.taken req.alignment_pos req.size_pos htake
    obtain ⟨r, hr, -⟩ := htaken.total
    have hbound := (hfirst r hr).2
    refine (hb.ensured h).set ?_ fun c hc => ?_
    · rw [filter_append_placed, hbound]
      simp only [Bool.true_and, BEq.rfl, if_true]
      exact htaken.full (hb.ensured h b blk hblk) req.alignment_pos fun r hr => (hfirst r hr).1
    · rw [filter_append_placed]
      have : (b == c) = false := beq_eq_false_iff_ne.2 (Ne.symm hc)
      simp only [this, Bool.and_false, Bool.false_eq_true, if_false, List.append_nil]
      rfl

/-- What giving back a buffer does, for what holds of the blocks. -/
theorem step_free (deviceLocal : List Bool) {i : ℕ} {a : Placed} (h : Sound s) (ha : s.live[i]? = some a) :
    ∃ before after blk, s.live = before ++ a :: after ∧ s.blocks[a.block]? = some blk ∧
      step deviceLocal s (.free i) =
        ⟨s.blocks.set a.block { blk with ranges := give blk.ranges a.range }, before ++ after⟩ := by
  obtain ⟨hlt, hget⟩ := List.getElem?_eq_some_iff.1 ha
  have hknown := h.known a (List.mem_of_getElem? ha)
  refine ⟨s.live.take i, s.live.drop (i + 1), s.blocks[a.block], ?_, List.getElem?_eq_getElem hknown, ?_⟩
  · rw [← hget, List.cons_getElem_drop_succ, List.take_append_drop]
  · simp only [step, ha, release, List.eraseIdx_eq_take_drop_succ]
    rw [List.modify_eq_set_getElem? , List.getElem?_eq_getElem hknown]
    rfl

theorem Sound.free {i : ℕ} (h : Sound s) : Sound (step deviceLocal s (.free i)) := by
  cases ha : s.live[i]? with
  | none =>
    simp only [step, ha]
    exact h
  | some a =>
    obtain ⟨before, after, blk, hlive, hblk, heq⟩ := step_free deviceLocal h ha
    rw [heq]
    have htidy := h.tidy _ blk hblk
    rw [Pool.liveIn, hlive, List.filter_append, List.filter_cons_of_pos (by simp)] at htidy
    refine h.set (h.pos blk (List.mem_of_getElem? hblk)) ?_ (fun c hc => ?_) fun d hd => ?_
    · rw [List.filter_append]
      exact htidy.release
    · have : (a.block == c) = false := beq_eq_false_iff_ne.2 (Ne.symm hc)
      rw [Pool.liveIn, hlive, List.filter_append, List.filter_append, List.filter_cons_of_neg (by simp [this])]
    · refine h.known d ?_
      rw [hlive]
      rcases List.mem_append.1 hd with hd | hd <;> simp [hd]

theorem Balanced.free {i : ℕ} (h : Sound s) (hb : Balanced s) : Balanced (step deviceLocal s (.free i)) := by
  cases ha : s.live[i]? with
  | none =>
    simp only [step, ha]
    exact hb
  | some a =>
    obtain ⟨before, after, blk, hlive, hblk, heq⟩ := step_free deviceLocal h ha
    rw [heq]
    have htidy := h.tidy _ blk hblk
    have hfull := hb _ blk hblk
    rw [Pool.liveIn, hlive, List.filter_append, List.filter_cons_of_pos (by simp)] at htidy hfull
    refine hb.set ?_ fun c hc => ?_
    · rw [List.filter_append]
      exact htidy.release_full hfull
    · have : (a.block == c) = false := beq_eq_false_iff_ne.2 (Ne.symm hc)
      rw [Pool.liveIn, hlive, List.filter_append, List.filter_append, List.filter_cons_of_neg (by simp [this])]

end Pool

section Run

variable {deviceLocal : List Bool}

theorem Sound.step {s : Pool} (h : Sound s) (op : Op) : Sound (step deviceLocal s op) := by
  cases op with
  | alloc req ans => exact h.alloc
  | free i => exact h.free

theorem Balanced.step {s : Pool} (h : Sound s) (hb : Balanced s) (op : Op) (hop : Lossless deviceLocal s op) :
    Balanced (step deviceLocal s op) := by
  cases op with
  | alloc req ans => exact hb.alloc h hop
  | free i => exact hb.free h

theorem Sound.run {s : Pool} (h : Sound s) (ops : List Op) : Sound (run deviceLocal s ops) := by
  induction ops generalizing s with
  | nil => exact h
  | cons op ops ih => exact ih (h.step op)

theorem Balanced.run {s : Pool} (h : Sound s) (hb : Balanced s) (ops : List Op)
    (hops : LosslessRun deviceLocal s ops) : Balanced (run deviceLocal s ops) := by
  induction ops generalizing s with
  | nil => exact hb
  | cons op ops ih => exact ih (h.step op) (hb.step h op hops.1) hops.2

theorem sound_empty : Sound Pool.empty :=
  ⟨fun b blk h => (by cases h), fun a ha => (by cases ha), fun blk hblk => (by cases hblk)⟩

/-- Whatever is allocated and freed, every block is tidy. As long as no allocation skips bytes or is left
unbound no byte is lost, and a block without live buffers is one free range again. -/
theorem run_spec (deviceLocal : List Bool) (ops : List Op) (b : ℕ) (blk : Block)
    (hblk : (run deviceLocal Pool.empty ops).blocks[b]? = some blk) :
    Tidy blk ((run deviceLocal Pool.empty ops).liveIn b) ∧
    (LosslessRun deviceLocal Pool.empty ops →
      Full blk ((run deviceLocal Pool.empty ops).liveIn b) ∧
      ((run deviceLocal Pool.empty ops).liveIn b = [] → blk.ranges = [⟨0, blk.size⟩])) := by
  have hsound : Sound (run deviceLocal Pool.empty ops) := sound_empty.run ops
  have htidy := hsound.tidy b blk hblk
  refine ⟨htidy, fun hops => ?_⟩
  have hfull := Balanced.run sound_empty (fun b blk h => by cases h) ops hops b blk hblk
  refine ⟨hfull, fun hnone => ?_⟩
  rw [hnone] at hfull
  exact htidy.spaced.whole (hsound.pos blk (List.mem_of_getElem? hblk)) htidy.inside hfull

/-- A request of `size` bytes at a multiple of `2 ^ alignLog`. -/
def smallReq (size alignLog : ℕ) (h : 0 < size) : MemReq := ⟨size, alignLog, [0], h⟩

theorem small_pos : (0 : ℕ) < 4 := by decide

/-- Two buffers, of which the first is freed. -/
def twoOps : List Op :=
  [.alloc (smallReq 4 2 small_pos) ⟨true, true⟩, .alloc (smallReq 8 2 (by decide)) ⟨true, true⟩, .free 0]

theorem run_spec_of_two : Full ⟨blockSize, 0, [⟨0, 4⟩, ⟨12, blockSize - 12⟩]⟩
    ((run [true] Pool.empty twoOps).liveIn 0) :=
  ((run_spec [true] twoOps 0 _ (by decide +kernel)).2
    ⟨by decide +kernel, by decide +kernel, by decide +kernel, trivial⟩).1

/-- The bytes before an aligned buffer, and those of one that was not bound, are in no list any more. -/
theorem run_of_skip :
    (run [true] Pool.empty [.alloc (smallReq 4 2 (by decide)) ⟨true, true⟩,
        .alloc (smallReq 8 4 (by decide)) ⟨true, true⟩, .free 0, .free 0]).live = [] ∧
    (run [true] Pool.empty [.alloc (smallReq 4 2 (by decide)) ⟨true, true⟩,
        .alloc (smallReq 8 4 (by decide)) ⟨true, true⟩, .free 0, .free 0]).blocks.map (·.ranges) =
      [[⟨0, 4⟩, ⟨16, blockSize - 16⟩]] ∧
    (run [true] Pool.empty [.alloc (smallReq 4 2 (by decide)) ⟨true, false⟩]).live = [] ∧
    (run [true] Pool.empty [.alloc (smallReq 4 2 (by decide)) ⟨true, false⟩]).blocks.map (·.ranges) =
      [[⟨4, blockSize - 4⟩]] := by
  decide +kernel

end Run

end VkSuballoc

end Kappai
