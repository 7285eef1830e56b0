import Kappai.Spec.BatchScratch
import Kappai.Proofs.MemPlan

/-! Every slot that an op takes is there, as long as the device has the memory that is asked for. -/

namespace Kappai

namespace BatchScratch

open OwnedHeap

/-- What may hold an allocation: the arena on the device and on the host, and a slot's floats and its buffer
on a device. -/
inductive Holder
  | arena
  | arenaHost
  | floats (s : Slot)
  | device (s : Slot)

variable {β : Type}

/-- What the floats of a buffer hold. -/
def FloatBuf.held (fb : FloatBuf) : Option (ℕ × Alloc β) := fb.p.map fun i => (i, ⟨none, 4 * fb.cap⟩)

/-- What a buffer on a device holds. -/
def Buffer.held (b : Buffer β) : Option (ℕ × Alloc β) := b.handle.map fun q => (q.alloc, ⟨b.owner, b.size⟩)

variable (isHost : β → Bool)

/-- What a holder of a scratch has. -/
def Scratch.hold (bs : Scratch β) : Holder → Option (ℕ × Alloc β)
  | .arena => bs.arena.held
  | .arenaHost => bs.arenaHost.held
  | .floats s => (bs.pair s).fb.held
  | .device s => if bs.own s && (bs.pair s).b.onDevice isHost then (bs.pair s).b.held else none

/-- The floats of a buffer with a capacity are there. -/
def FloatBuf.Ok (fb : FloatBuf) : Prop := 0 < fb.cap → fb.p.isSome = true

/-- A buffer of a slot's own: none, one of the host over the slot's floats, or one of a device. -/
def OwnShape (p : Pair β) : Prop :=
  p.b = Buffer.zero ∨
  (∃ o, isHost o = true ∧ p.b = ⟨p.fb.p.map (⟨·, 0⟩), p.b.size, 0, some o⟩ ∧ p.b.size ≤ 4 * p.fb.cap) ∨
  ∃ o i, isHost o = false ∧ p.b = ⟨some ⟨i, 0⟩, p.b.size, 0, some o⟩

/-- The arena on the backend of the scratch. -/
structure ArenaShape (a : β) (bs : Scratch β) : Prop where
  floats : bs.arenaHost.Ok
  host : isHost a = true → bs.arena = Buffer.zero ∧ bs.arenaBytes ≤ 4 * bs.arenaHost.cap
  device : isHost a = false → bs.arenaHost = FloatBuf.zero ∧ bs.arena.size = bs.arenaBytes ∧
    (bs.arena = Buffer.zero ∨ ∃ i, bs.arena = ⟨some ⟨i, 0⟩, bs.arenaBytes, 0, some a⟩)

section Ensure

variable {isHost} {a : β} {bs : Scratch β} {h : Heap (Alloc β)}

theorem freeFloats_eq (fb : FloatBuf) : freeFloats h fb = h.drop fb.held := by
  unfold freeFloats FloatBuf.held
  cases fb.p <;> rfl

theorem release_eq (b : Buffer β) (hb : b.owner.isSome = true) : release h b = h.drop b.held := by
  obtain ⟨o, ho⟩ := Option.isSome_iff_exists.1 hb
  unfold release Buffer.held
  rw [ho]
  cases b.handle <;> rfl

/-- The floats made large enough. -/
theorem floatBufEnsure_spec {hold hold' : Holder → Option (ℕ × Alloc β)} {fb : FloatBuf}
    {x : Holder} {need : ℕ} (ho : Owned h hold) (hok : fb.Ok) (hx : hold x = fb.held)
    (hx' : hold' x = (floatBufEnsure h fb need).2.held) (hrest : ∀ y, y ≠ x → hold' y = hold y) :
    Owned (floatBufEnsure h fb need).1 hold' ∧ (floatBufEnsure h fb need).2.Ok ∧
      need ≤ (floatBufEnsure h fb need).2.cap ∧ fb.cap ≤ (floatBufEnsure h fb need).2.cap := by
  unfold floatBufEnsure at *
  by_cases hneed : need > fb.cap
  · simp only [if_pos hneed, freeFloats_eq, ← hx] at hx' ⊢
    exact ⟨ho.replace hx' hrest, fun _ => rfl, le_rfl, hneed.le⟩
  · rw [if_neg hneed] at hx' ⊢
    refine ⟨ho.forget fun y => ?_, hok, Nat.le_of_not_lt hneed, le_rfl⟩
    by_cases hy : y = x
    · rw [hy, hx', hx]
      exact Or.inl rfl
    · exact Or.inl (hrest y hy)

theorem onDevice_isSome {b : Buffer β} (hb : b.onDevice isHost = true) : b.owner.isSome = true := by
  unfold Buffer.onDevice at hb
  cases ho : b.owner with
  | none => rw [ho] at hb; cases hb
  | some o => rfl

/-- A buffer on a device is released. -/
theorem release_device (own : Bool) (b : Buffer β) :
    (if own && b.onDevice isHost then release h b else h) =
      h.drop (if own && b.onDevice isHost then b.held else none) := by
  cases hd : own && b.onDevice isHost with
  | true =>
    rw [if_pos rfl, if_pos rfl]
    exact release_eq b (onDevice_isSome (Bool.and_eq_true_iff.1 hd).2)
  | false => rfl

theorem release_device' (b : Buffer β) :
    (if b.handle.isSome && b.onDevice isHost then release h b else h) =
      h.drop (if b.onDevice isHost then b.held else none) := by
  cases hd : b.onDevice isHost with
  | true =>
    obtain ⟨o, ho⟩ := Option.isSome_iff_exists.1 (onDevice_isSome hd)
    cases hh : b.handle <;> simp [release, ho, hh, Buffer.held, Heap.drop]
  | false => simp [Heap.drop]

theorem foreign_eq [DecidableEq β] {owner : β} (hhost : isHost owner = true) (b : Buffer β) :
    (b.owner.any fun o => decide (o ≠ owner) && !isHost o) = b.onDevice isHost := by
  unfold Buffer.onDevice
  cases b.owner with
  | none => rfl
  | some o =>
    by_cases ho : o = owner
    · simp [ho, hhost]
    · simp [ho]

/-- Only one slot differs. -/
structure SameBut (bs bs' : Scratch β) (s : Slot) : Prop where
  pair : ∀ t, t ≠ s → bs'.pair t = bs.pair t
  own : ∀ t, t ≠ s → bs'.own t = bs.own t
  arena : bs'.arena = bs.arena
  arenaHost : bs'.arenaHost = bs.arenaHost
  arenaBytes : bs'.arenaBytes = bs.arenaBytes
  layout : bs'.layout = bs.layout

theorem SameBut.hold {bs' : Scratch β} {s : Slot} (hsame : SameBut bs bs' s) (y : Holder)
    (hf : y ≠ .floats s) (hd : y ≠ .device s) : bs'.hold isHost y = bs.hold isHost y := by
  cases y with
  | arena => simp [Scratch.hold, hsame.arena]
  | arenaHost => simp [Scratch.hold, hsame.arenaHost]
  | floats t =>
    have ht : t ≠ s := fun h => hf (h ▸ rfl)
    simp [Scratch.hold, hsame.pair t ht]
  | device t =>
    have ht : t ≠ s := fun h => hd (h ▸ rfl)
    simp [Scratch.hold, hsame.pair t ht, hsame.own t ht]

/-- A slot before it gets a buffer of its own. -/
structure Ready (isHost : β → Bool) (bs : Scratch β) (s : Slot) : Prop where
  floats : (bs.pair s).fb.Ok
  owned : bs.own s = true → OwnShape isHost (bs.pair s)
  bare : bs.own s = false → (bs.pair s).b = Buffer.zero

/-- A slot with a buffer of its own. -/
structure Own (isHost : β → Bool) (bs : Scratch β) (s : Slot) : Prop where
  own : bs.own s = true
  floats : (bs.pair s).fb.Ok
  shape : OwnShape isHost (bs.pair s)

theorem Ready.shape {s : Slot} (hr : Ready isHost bs s) : OwnShape isHost (bs.pair s) := by
  cases ho : bs.own s with
  | true => exact hr.owned ho
  | false => exact Or.inl (hr.bare ho)

/-- What a slot has on a device, whether it is counted as its own yet or not. -/
theorem Ready.hold_device {s : Slot} (hr : Ready isHost bs s) : bs.hold isHost (.device s) =
    if (bs.pair s).b.onDevice isHost then (bs.pair s).b.held else none := by
  cases ho : bs.own s with
  | true => simp [Scratch.hold, ho]
  | false => simp [Scratch.hold, ho, hr.bare ho, Buffer.zero, Buffer.onDevice]

variable {owner : β} {s : Slot} {n : ℕ} {ok : Bool}

/-- What the buffer of a slot has on a device. -/
def Scratch.onDevice (isHost : β → Bool) (bs : Scratch β) (s : Slot) : Option (ℕ × Alloc β) :=
  if (bs.pair s).b.onDevice isHost then (bs.pair s).b.held else none

/-- A slot's buffer and memory after a change, as a buffer of its own. -/
def Scratch.put (bs : Scratch β) (s : Slot) (p : Pair β) (h : Heap (Alloc β)) : Scratch β :=
  { bs with pair := Function.update bs.pair s p, own := Function.update bs.own s true, heap := h }

theorem put_same (p : Pair β) (h : Heap (Alloc β)) : SameBut bs (bs.put s p h) s :=
  ⟨fun _ ht => Function.update_of_ne ht _ _, fun _ ht => Function.update_of_ne ht _ _, rfl, rfl, rfl, rfl⟩

@[simp] theorem put_pair (p : Pair β) (h : Heap (Alloc β)) : (bs.put s p h).pair s = p :=
  Function.update_self _ _ _

@[simp] theorem put_own (p : Pair β) (h : Heap (Alloc β)) : (bs.put s p h).own s = true :=
  Function.update_self _ _ _

theorem Own.usable_device (hown : Own isHost bs s) (ho : Owned bs.heap (bs.hold isHost))
    (hhost : isHost owner = false) {bytes : ℕ} (howner : (bs.pair s).b.owner = some owner)
    (hhandle : (bs.pair s).b.handle.isSome = true) (hsize : bytes ≤ (bs.pair s).b.size) :
    Usable isHost bs.heap (bs.pair s).b owner bytes := by
  rcases hown.shape with hz | ⟨o, ho', hb, -⟩ | ⟨o, i, ho', hb⟩
  · rw [hz] at hhandle
    cases hhandle
  · have hoo := (congrArg Buffer.owner hb).symm.trans howner
    rw [Option.some.inj hoo, hhost] at ho'
    cases ho'
  · have hh : (bs.pair s).b.handle = some ⟨i, 0⟩ := congrArg Buffer.handle hb
    have hoff : (bs.pair s).b.offset = 0 := congrArg Buffer.offset hb
    have hlive := ho.live (.device s) i ⟨some owner, (bs.pair s).b.size⟩ (by
      simp [Scratch.hold, hown.own, Buffer.onDevice, Buffer.held, howner, hhost, hh])
    exact ⟨howner, hsize, ⟨i, 0⟩, hh, _, hlive, by simp [hhost], by simp [hoff]⟩

theorem Own.usable_host (hown : Own isHost bs s) (ho : Owned bs.heap (bs.hold isHost))
    (hhost : isHost owner = true) {bytes : ℕ} (hpos : 0 < bytes)
    (howner : (bs.pair s).b.owner = some owner) (hsize : bytes ≤ (bs.pair s).b.size) :
    Usable isHost bs.heap (bs.pair s).b owner bytes := by
  rcases hown.shape with hz | ⟨o, ho', hb, hcap⟩ | ⟨o, i, ho', hb⟩
  · rw [hz] at howner
    cases howner
  · obtain ⟨i, hi⟩ := Option.isSome_iff_exists.1 (hown.floats (by omega))
    have hh : (bs.pair s).b.handle = some ⟨i, 0⟩ :=
      (congrArg Buffer.handle hb).trans (by rw [hi]; rfl)
    have hoff : (bs.pair s).b.offset = 0 := congrArg Buffer.offset hb
    have hlive := ho.live (.floats s) i ⟨none, 4 * (bs.pair s).fb.cap⟩ (by
      simp [Scratch.hold, FloatBuf.held, hi])
    exact ⟨howner, hsize, ⟨i, 0⟩, hh, _, hlive, by simp [hhost], by simp [hoff, hcap]⟩
  · have hoo := (congrArg Buffer.owner hb).symm.trans howner
    rw [Option.some.inj hoo, hhost] at ho'
    cases ho'

variable [DecidableEq β]

theorem ensureDetached_host (hhost : isHost owner = true) : (ensureDetached isHost bs owner s n ok).1 =
    let f := floatBufEnsure (bs.heap.drop (bs.onDevice isHost s)) (bs.pair s).fb n
    bs.put s ⟨⟨f.2.p.map (⟨·, 0⟩), sizeT (n * 4), 0, some owner⟩, f.2⟩ f.1 := by
  unfold ensureDetached
  rw [if_pos hhost]
  simp only [foreign_eq hhost, release_device']
  rfl

theorem ensureDetached_match (hhost : isHost owner = false) (hb : (bs.pair s).b.owner = some owner ∧
    (bs.pair s).b.handle.isSome ∧ sizeT (n * 4) ≤ (bs.pair s).b.size) :
    (ensureDetached isHost bs owner s n ok).1 = bs.put s (bs.pair s) bs.heap := by
  unfold ensureDetached
  rw [if_neg (by simp [hhost]), if_pos hb]
  simp [Scratch.put]

theorem ensureDetached_new (hhost : isHost owner = false) (hb : ¬ ((bs.pair s).b.owner = some owner ∧
    (bs.pair s).b.handle.isSome ∧ sizeT (n * 4) ≤ (bs.pair s).b.size)) :
    (ensureDetached isHost bs owner s n ok).1 =
      let h := bs.heap.drop (bs.onDevice isHost s)
      if ok then bs.put s ⟨⟨some ⟨h.next, 0⟩, sizeT (n * 4), 0, some owner⟩, (bs.pair s).fb⟩
        (h.alloc ⟨some owner, sizeT (n * 4)⟩)
      else bs.put s ⟨Buffer.zero, (bs.pair s).fb⟩ h := by
  unfold ensureDetached
  rw [if_neg (by simp [hhost]), if_neg hb]
  simp only [release_device']
  cases ok <;> rfl

/-- What a slot that has just been given a buffer has. -/
structure Given (isHost : β → Bool) (bs bs' : Scratch β) (s : Slot) : Prop where
  owned : Owned bs'.heap (bs'.hold isHost)
  same : SameBut bs bs' s
  own : Own isHost bs' s

theorem sizeT_four (hn : 4 * n < 2 ^ 64) : sizeT (n * 4) = 4 * n := by
  rw [show ((n : ℤ) * 4) = ((4 * n : ℕ) : ℤ) by push_cast; omega]
  exact sizeT_of_lt (by omega)

/-- A slot gets a buffer of its own, or none where the device has not the memory. -/
theorem ensureDetached_given (ho : Owned bs.heap (bs.hold isHost)) (hr : Ready isHost bs s)
    (hn : 4 * n < 2 ^ 64) : Given isHost bs (ensureDetached isHost bs owner s n ok).1 s := by
  have hdev : bs.onDevice isHost s = bs.hold isHost (.device s) := hr.hold_device.symm
  cases hhost : isHost owner with
  | true =>
    rw [ensureDetached_host hhost, hdev]
    classical
    have hmid : Owned (bs.heap.drop (bs.hold isHost (.device s)))
        (Function.update (bs.hold isHost) (.device s) none) :=
      ho.drop (Function.update_self _ _ _) fun y hy => Function.update_of_ne hy _ _
    generalize bs.heap.drop (bs.hold isHost (.device s)) = h at hmid
    set f := floatBufEnsure h (bs.pair s).fb n with hf
    simp only
    set bs' := bs.put s ⟨⟨f.2.p.map (⟨·, 0⟩), sizeT (n * 4), 0, some owner⟩, f.2⟩ f.1
    have hdevice : bs'.hold isHost (.device s) = none := by
      simp [Scratch.hold, bs', Buffer.onDevice, hhost]
    have hfloats : bs'.hold isHost (.floats s) = f.2.held := by simp [Scratch.hold, bs']
    have hrest : ∀ y, y ≠ .floats s →
        bs'.hold isHost y = Function.update (bs.hold isHost) (.device s) none y := by
      intro y hy
      by_cases hd : y = .device s
      · rw [hd, hdevice, Function.update_self]
      · rw [Function.update_of_ne hd]
        exact (put_same _ _).hold y hy hd
    obtain ⟨howned, hok, hneed, -⟩ := floatBufEnsure_spec hmid hr.floats
      (Function.update_of_ne (by simp) _ _) hfloats hrest
    have hcap : n ≤ f.2.cap := hneed
    refine ⟨howned, put_same _ _, ⟨put_own _ _, by simpa [bs'] using hok, ?_⟩⟩
    rw [put_pair]
    exact Or.inr (Or.inl ⟨owner, hhost, rfl, by simp only [sizeT_four hn]; omega⟩)
  | false =>
    by_cases hb : (bs.pair s).b.owner = some owner ∧ (bs.pair s).b.handle.isSome ∧
        sizeT (n * 4) ≤ (bs.pair s).b.size
    · rw [ensureDetached_match hhost hb]
      refine ⟨ho.forget fun y => Or.inl ?_, put_same _ _, ⟨put_own _ _, ?_, ?_⟩⟩
      · by_cases hd : y = .device s
        · rw [hd, hr.hold_device]
          simp [Scratch.hold]
        · by_cases hf : y = .floats s
          · rw [hf]
            simp [Scratch.hold]
          · exact (put_same _ _).hold y hf hd
      · rw [put_pair]
        exact hr.floats
      · rw [put_pair]
        exact hr.shape
    · rw [ensureDetached_new hhost hb, hdev]
      have hrest : ∀ (b : Buffer β) (h : Heap (Alloc β)) (y : Holder), y ≠ .device s →
          (bs.put s ⟨b, (bs.pair s).fb⟩ h).hold isHost y = bs.hold isHost y := by
        intro b h y hd
        by_cases hf : y = .floats s
        · rw [hf]
          simp [Scratch.hold]
        · exact (put_same _ _).hold y hf hd
      cases ok with
      | true =>
        simp only [if_true]
        have howned := ho.replace (x := .device s) (a := ⟨some owner, sizeT (n * 4)⟩)
          (by simp [Scratch.hold, Buffer.onDevice, hhost, Buffer.held])
          (hrest ⟨some ⟨(bs.heap.drop (bs.hold isHost (.device s))).next, 0⟩, sizeT (n * 4), 0, some owner⟩
            bs.heap)
        refine ⟨howned, put_same _ _, ⟨put_own _ _, ?_, ?_⟩⟩
        · rw [put_pair]
          exact hr.floats
        · rw [put_pair]
          exact Or.inr (Or.inr ⟨owner, _, hhost, rfl⟩)
      | false =>
        simp only [Bool.false_eq_true, if_false]
        have howned := ho.drop (x := .device s) (by simp [Scratch.hold, Buffer.onDevice, Buffer.zero])
          (hrest Buffer.zero bs.heap)
        refine ⟨howned, put_same _ _, ⟨put_own _ _, ?_, ?_⟩⟩
        · rw [put_pair]
          exact hr.floats
        · rw [put_pair]
          exact Or.inl rfl

/-- With the device's memory the buffer is as the op needs it. -/
theorem ensureDetached_usable (ho : Owned bs.heap (bs.hold isHost)) (hr : Ready isHost bs s)
    (hn : 4 * n < 2 ^ 64) (hpos : 0 < n)
    (hasks : isHost owner = false → ¬ ((bs.pair s).b.owner = some owner ∧ (bs.pair s).b.handle.isSome ∧
      sizeT (n * 4) ≤ (bs.pair s).b.size) → ok = true) :
    Usable isHost (ensureDetached isHost bs owner s n ok).1.heap
      ((ensureDetached isHost bs owner s n ok).1.pair s).b owner (4 * n) := by
  have hg : Given isHost bs (ensureDetached isHost bs owner s n ok).1 s := ensureDetached_given ho hr hn
  have hbytes := sizeT_four hn
  cases hhost : isHost owner with
  | true =>
    have heq : (ensureDetached isHost bs owner s n ok).1 = _ := ensureDetached_host hhost
    have hpair := congrArg (fun b => b.pair s) heq
    simp only [put_pair] at hpair
    refine hg.own.usable_host hg.owned hhost (by omega) ?_ ?_ <;> rw [hpair]
    exact hbytes.ge
  | false =>
    by_cases hb : (bs.pair s).b.owner = some owner ∧ (bs.pair s).b.handle.isSome ∧
        sizeT (n * 4) ≤ (bs.pair s).b.size
    · have heq : (ensureDetached isHost bs owner s n ok).1 = _ := ensureDetached_match hhost hb
      have hpair := congrArg (fun b => b.pair s) heq
      simp only [put_pair] at hpair
      obtain ⟨howner, hhandle, hsize⟩ := hb
      refine hg.own.usable_device hg.owned hhost ?_ ?_ ?_ <;> rw [hpair]
      · exact howner
      · exact hhandle
      · omega
    · have hok := hasks hhost hb
      have heq : (ensureDetached isHost bs owner s n ok).1 = _ := ensureDetached_new hhost hb
      have hpair := congrArg (fun b => b.pair s) heq
      simp only [hok, if_true, put_pair] at hpair
      rw [hok] at hg ⊢
      refine hg.own.usable_device hg.owned hhost ?_ ?_ ?_ <;> rw [hpair]
      · rfl
      · exact hbytes.ge

end Ensure

/-- The slots of a layout of a plan lie in its arena. -/
structure LayoutOk (p : MemPlan) (l : MemLayout) : Prop where
  planned : ∀ s, l.cap s ≠ 0 ↔ p.planned s = true
  inside : ∀ s, l.cap s ≠ 0 → l.offset s + l.cap s ≤ l.total
  four : 4 ∣ l.total

/-- What a slot has that has no buffer of its own: its place in the arena, if it has one. -/
def restView (a : β) (bs : Scratch β) (s : Slot) : Buffer β :=
  bs.layout.elim Buffer.zero fun l =>
    if l.cap s = 0 then Buffer.zero else arenaView isHost bs a (l.offset s) (l.cap s)

/-- What holds between the steps. -/
structure Inv (p : MemPlan) (a : β) (bs : Scratch β) : Prop where
  owned : Owned bs.heap (bs.hold isHost)
  arena : ArenaShape isHost a bs
  floats : ∀ s, (bs.pair s).fb.Ok
  shape : ∀ s, bs.own s = true → OwnShape isHost (bs.pair s)
  rest : ∀ s, bs.own s = false → bs.pair s = ⟨restView isHost a bs s, FloatBuf.zero⟩
  layout : ∀ l ∈ bs.layout, LayoutOk p l ∧ (isHost a = true → l.total ≤ bs.arenaBytes)

section Steps

variable {isHost} {p : MemPlan} {a : β} {bs bs' : Scratch β} {s : Slot}

theorem Inv.init (p : MemPlan) (a : β) : Inv isHost p a (Scratch.init : Scratch β) where
  owned := Owned.empty fun y => by cases y <;> rfl
  arena := ⟨by simp [Scratch.init, FloatBuf.Ok, FloatBuf.zero], fun _ => ⟨rfl, Nat.zero_le _⟩,
    fun _ => ⟨rfl, rfl, Or.inl rfl⟩⟩
  floats s := by simp [Scratch.init, FloatBuf.Ok, FloatBuf.zero]
  shape s h := by cases h
  rest s _ := rfl
  layout l h := by cases h

theorem SameBut.trans {bs'' : Scratch β} (h : SameBut bs bs' s) (h' : SameBut bs' bs'' s) :
    SameBut bs bs'' s :=
  ⟨fun t ht => (h'.pair t ht).trans (h.pair t ht), fun t ht => (h'.own t ht).trans (h.own t ht),
    h'.arena.trans h.arena, h'.arenaHost.trans h.arenaHost, h'.arenaBytes.trans h.arenaBytes,
    h'.layout.trans h.layout⟩

theorem SameBut.restView (h : SameBut bs bs' s) (t : Slot) :
    restView isHost a bs' t = restView isHost a bs t := by
  simp only [BatchScratch.restView, arenaView, h.layout, h.arena, h.arenaHost]

/-- One slot gets a buffer of its own. -/
theorem Inv.given (hinv : Inv isHost p a bs) (hsame : SameBut bs bs' s)
    (ho : Owned bs'.heap (bs'.hold isHost)) (hown : Own isHost bs' s) : Inv isHost p a bs' where
  owned := ho
  arena := by
    obtain ⟨hf, hh, hd⟩ := hinv.arena
    exact ⟨by rwa [hsame.arenaHost], by rwa [hsame.arena, hsame.arenaBytes, hsame.arenaHost],
      by rwa [hsame.arena, hsame.arenaBytes, hsame.arenaHost]⟩
  floats t := by
    by_cases ht : t = s
    · exact ht ▸ hown.floats
    · rw [hsame.pair t ht]
      exact hinv.floats t
  shape t := by
    by_cases ht : t = s
    · exact fun _ => ht ▸ hown.shape
    · rw [hsame.pair t ht, hsame.own t ht]
      exact hinv.shape t
  rest t hf := by
    by_cases ht : t = s
    · rw [ht, hown.own] at hf
      cases hf
    · rw [hsame.own t ht] at hf
      rw [hsame.pair t ht, hsame.restView]
      exact hinv.rest t hf
  layout := by
    rw [hsame.layout, hsame.arenaBytes]
    exact hinv.layout

theorem arenaView_host (hhost : isHost a = true) (offset bytes : ℕ) : arenaView isHost bs a offset bytes =
    ⟨bs.arenaHost.p.map (⟨·, offset⟩), bytes, 0, some a⟩ := if_pos hhost

theorem arenaView_device (hhost : isHost a = false) (offset bytes : ℕ) : arenaView isHost bs a offset bytes =
    { bs.arena with offset := bs.arena.offset + offset, size := bytes } := if_neg (by simp [hhost])

/-- A slot's place in the arena is as the op needs it. -/
theorem Inv.usable_rest (hinv : Inv isHost p a bs) {l : MemLayout} (hl : bs.layout = some l)
    (hcap : l.cap s ≠ 0) (htotal : l.total ≤ bs.arenaBytes) {bytes : ℕ} (hbytes : bytes ≤ l.cap s) :
    Usable isHost bs.heap (restView isHost a bs s) a bytes := by
  have hin := (hinv.layout l hl).1.inside s hcap
  have hpos := Nat.pos_of_ne_zero hcap
  have hview : restView isHost a bs s = arenaView isHost bs a (l.offset s) (l.cap s) := by
    simp [restView, hl, hcap]
  rw [hview]
  cases hhost : isHost a with
  | true =>
    obtain ⟨-, hbound⟩ := hinv.arena.host hhost
    obtain ⟨i, hi⟩ := Option.isSome_iff_exists.1 (hinv.arena.floats (by omega))
    have hlive := hinv.owned.live .arenaHost i ⟨none, 4 * bs.arenaHost.cap⟩ (by
      simp [Scratch.hold, FloatBuf.held, hi])
    rw [arenaView_host hhost]
    exact ⟨rfl, hbytes, ⟨i, l.offset s⟩, by simp [hi], _, hlive, by simp [hhost], by simp only; omega⟩
  | false =>
    obtain ⟨-, hsize, hz | ⟨i, hi⟩⟩ := hinv.arena.device hhost
    · rw [hz] at hsize
      have hzero : bs.arenaBytes = 0 := hsize.symm
      omega
    · have hlive := hinv.owned.live .arena i ⟨some a, bs.arenaBytes⟩ (by
        simp [Scratch.hold, Buffer.held, hi])
      rw [arenaView_device hhost, hi]
      exact ⟨rfl, hbytes, ⟨i, 0⟩, rfl, _, hlive, by simp [hhost], by simp only; omega⟩

/-- Where a slot's buffer is held, if it is the slot's own. -/
theorem Inv.holder_own (hinv : Inv isHost p a bs) (hown : bs.own s = true) {q : Ptr}
    (hq : (bs.pair s).b.handle = some q) :
    ∃ y r, bs.hold isHost y = some (q.alloc, r) ∧ (y = .floats s ∨ y = .device s) := by
  rcases hinv.shape s hown with hz | ⟨o, ho, hb, -⟩ | ⟨o, i, ho, hb⟩
  · rw [hz] at hq
    cases hq
  · have hh : (bs.pair s).b.handle = (bs.pair s).fb.p.map (⟨·, 0⟩) := congrArg Buffer.handle hb
    rw [hq] at hh
    obtain ⟨i, hi, hiq⟩ := Option.map_eq_some_iff.1 hh.symm
    subst hiq
    exact ⟨.floats s, ⟨none, 4 * (bs.pair s).fb.cap⟩, by simp [Scratch.hold, FloatBuf.held, hi], Or.inl rfl⟩
  · have howner : (bs.pair s).b.owner = some o := congrArg Buffer.owner hb
    exact ⟨.device s, ⟨some o, (bs.pair s).b.size⟩, by
      simp [Scratch.hold, hown, Buffer.onDevice, Buffer.held, howner, ho, hq], Or.inr rfl⟩

/-- A slot's place in the arena is held by the arena, at the place that the layout says. -/
theorem Inv.holder_rest (hinv : Inv isHost p a bs) (hown : bs.own s = false) {l : MemLayout}
    (hl : bs.layout = some l) (hcap : l.cap s ≠ 0) {q : Ptr} (hq : (bs.pair s).b.handle = some q) :
    (∃ y r, bs.hold isHost y = some (q.alloc, r) ∧ (y = .arena ∨ y = .arenaHost)) ∧
      q.off + (bs.pair s).b.offset = l.offset s ∧ (bs.pair s).b.size = l.cap s := by
  have hview : (bs.pair s).b = arenaView isHost bs a (l.offset s) (l.cap s) := by
    rw [hinv.rest s hown]
    simp [restView, hl, hcap]
  rw [hview] at hq ⊢
  cases hhost : isHost a with
  | true =>
    rw [arenaView_host hhost] at hq ⊢
    obtain ⟨i, hi, hiq⟩ := Option.map_eq_some_iff.1 hq
    subst hiq
    exact ⟨⟨.arenaHost, ⟨none, 4 * bs.arenaHost.cap⟩, by simp [Scratch.hold, FloatBuf.held, hi], Or.inr rfl⟩,
      rfl, rfl⟩
  | false =>
    rw [arenaView_device hhost] at hq ⊢
    obtain ⟨-, -, hz | ⟨i, hi⟩⟩ := hinv.arena.device hhost
    · rw [hz] at hq
      cases hq
    · have hqi : q = ⟨i, 0⟩ := by
        rw [hi] at hq
        exact (Option.some.inj hq).symm
      subst hqi
      refine ⟨⟨.arena, ⟨some a, bs.arenaBytes⟩, by simp [Scratch.hold, Buffer.held, hi], Or.inl rfl⟩, ?_, rfl⟩
      simp [hi]

theorem Inv.slotsApart (hinv : Inv isHost p a bs) : SlotsApart bs := by
  intro l hl s t hst hs ht hdis q hq r hr hqr
  cases hso : bs.own s with
  | true =>
    obtain ⟨y, ry, hy, hyh⟩ := hinv.holder_own hso hq
    cases hto : bs.own t with
    | true =>
      obtain ⟨z, rz, hz, hzh⟩ := hinv.holder_own hto hr
      rw [hqr] at hy
      have hyz := hinv.owned.inj y z _ _ _ hy hz
      subst hyz
      rcases hyh with rfl | rfl <;> rcases hzh with h | h <;> simp_all
    | false =>
      obtain ⟨⟨z, rz, hz, hzh⟩, -⟩ := hinv.holder_rest hto hl ht hr
      rw [hqr] at hy
      have hyz := hinv.owned.inj y z _ _ _ hy hz
      subst hyz
      rcases hyh with rfl | rfl <;> rcases hzh with h | h <;> cases h
  | false =>
    obtain ⟨⟨y, ry, hy, hyh⟩, hsoff, hssize⟩ := hinv.holder_rest hso hl hs hq
    cases hto : bs.own t with
    | true =>
      obtain ⟨z, rz, hz, hzh⟩ := hinv.holder_own hto hr
      rw [hqr] at hy
      have hyz := hinv.owned.inj y z _ _ _ hy hz
      subst hyz
      rcases hyh with rfl | rfl <;> rcases hzh with h | h <;> cases h
    | false =>
      obtain ⟨-, htoff, htsize⟩ := hinv.holder_rest hto hl ht hr
      rw [hsoff, htoff, hssize, htsize]
      exact hdis

section Ensure

/-- The slot after its place in the arena is given up. -/
def Scratch.unplace (bs : Scratch β) (s : Slot) : Scratch β :=
  { bs with pair := Function.update bs.pair s ⟨Buffer.zero, (bs.pair s).fb⟩ }

theorem unplace_same : SameBut bs (bs.unplace s) s :=
  ⟨fun _ ht => Function.update_of_ne ht _ _, fun _ _ => rfl, rfl, rfl, rfl, rfl⟩

theorem unplace_owned (ho : Owned bs.heap (bs.hold isHost)) (hown : bs.own s = false) :
    Owned (bs.unplace s).heap ((bs.unplace s).hold isHost) := by
  refine ho.forget fun y => Or.inl ?_
  by_cases hf : y = .floats s
  · rw [hf]
    simp [Scratch.hold, Scratch.unplace]
  · by_cases hd : y = .device s
    · have hown' : (bs.unplace s).own s = false := hown
      rw [hd]
      simp [Scratch.hold, hown, hown']
    · exact unplace_same.hold y hf hd

variable [DecidableEq β] {owner : β} {n : ℕ} {ok : Bool}

/-- What `bs_ensure_slot` comes to where the slot is not taken in the arena. -/
theorem ensureSlot_detached (owner : β) (ok : Bool) (hinv : Inv isHost p a bs) (hplan : ¬ bs.InPlan s n) :
    ∃ bs₁, SameBut bs bs₁ s ∧ Owned bs₁.heap (bs₁.hold isHost) ∧ Ready isHost bs₁ s ∧
      ensureSlot isHost bs owner s n ok = ensureDetached isHost bs₁ owner s n ok ∧
      (bs.own s = true → bs₁ = bs) := by
  by_cases hin : bs.cap s ≠ 0 ∧ bs.own s = false
  · have hbig : ¬ sizeT (n * 4) ≤ bs.cap s := fun h => hplan ⟨hin.1, hin.2, h⟩
    refine ⟨bs.unplace s, unplace_same, unplace_owned hinv.owned hin.2, ⟨?_, ?_, ?_⟩, ?_, ?_⟩
    · simpa [Scratch.unplace] using hinv.floats s
    · intro h
      rw [show (bs.unplace s).own s = bs.own s from rfl, hin.2] at h
      cases h
    · intro _
      simp [Scratch.unplace]
    · rw [ensureSlot, if_pos hin, if_neg hbig]
      rfl
    · intro h
      rw [hin.2] at h
      cases h
  · refine ⟨bs, ⟨fun _ _ => rfl, fun _ _ => rfl, rfl, rfl, rfl, rfl⟩, hinv.owned,
      ⟨hinv.floats s, hinv.shape s, fun h => ?_⟩, ?_, fun _ => rfl⟩
    · have hcap : bs.cap s = 0 := by
        by_contra hne
        exact hin ⟨hne, h⟩
      rw [hinv.rest s h]
      unfold Scratch.cap at hcap
      unfold restView
      cases hl : bs.layout with
      | none => rfl
      | some l =>
        rw [hl] at hcap
        exact if_pos hcap
    · rw [ensureSlot, if_neg hin]

theorem ensure_spec (hinv : Inv isHost p a bs) (hsound : Sound isHost p a bs (.ensure owner s n ok)) :
    Inv isHost p a (step isHost p a bs (.ensure owner s n ok)) ∧
      Relied isHost (step isHost p a bs (.ensure owner s n ok)) (.ensure owner s n ok) := by
  obtain ⟨hn, hin, hasks⟩ := hsound
  by_cases hplan : bs.InPlan s n
  · obtain ⟨rfl, htotal⟩ := hin hplan
    obtain ⟨hcap, hown, hbytes⟩ := hplan
    have hstep : step isHost p owner bs (.ensure owner s n ok) = bs := by
      rw [step, ensureSlot, if_pos ⟨hcap, hown⟩, if_pos hbytes]
    rw [hstep]
    refine ⟨hinv, hinv.slotsApart, fun _ => ?_⟩
    rw [sizeT_four hn] at hbytes
    unfold Scratch.cap at hcap hbytes
    cases hl : bs.layout with
    | none =>
      rw [hl] at hcap
      exact absurd rfl hcap
    | some l =>
      rw [hl] at hcap hbytes
      rw [hinv.rest s hown]
      exact hinv.usable_rest hl hcap (htotal l hl) hbytes
  · obtain ⟨bs₁, hsame, ho, hr, heq, hkeep⟩ := ensureSlot_detached owner ok hinv hplan
    rw [step, heq]
    have hg : Given isHost bs₁ (ensureDetached isHost bs₁ owner s n ok).1 s := ensureDetached_given ho hr hn
    have hnext := hinv.given (hsame.trans hg.same) hg.owned hg.own
    refine ⟨hnext, hnext.slotsApart, fun hpos => ensureDetached_usable ho hr hn hpos fun hhost hb => ?_⟩
    refine hasks ⟨hhost, hplan, fun hmatch => hb ?_⟩
    rw [hkeep hmatch.1]
    exact hmatch.2

end Ensure

section Bind

theorem hold_of_slots (hp : bs'.pair = bs.pair) (ho : bs'.own = bs.own) (y : Holder) (ha : y ≠ .arena)
    (hh : y ≠ .arenaHost) : bs'.hold isHost y = bs.hold isHost y := by
  cases y with
  | arena => exact absurd rfl ha
  | arenaHost => exact absurd rfl hh
  | floats t => simp [Scratch.hold, hp]
  | device t => simp [Scratch.hold, hp, ho]

/-- The old arena of a device is given back. -/
theorem release_arena (hinv : Inv isHost p a bs) (hhost : isHost a = false) :
    release bs.heap bs.arena = bs.heap.drop (bs.hold isHost .arena) := by
  obtain ⟨-, -, hz | ⟨i, hi⟩⟩ := hinv.arena.device hhost
  · simp [Scratch.hold, hz, release, Buffer.zero, Buffer.held, Heap.drop]
  · exact release_eq bs.arena (by rw [hi]; rfl)

/-- What the arena is for a layout, the slots being as they were. -/
structure ArenaReady (isHost : β → Bool) (a : β) (l : MemLayout) (bs bs' : Scratch β) : Prop where
  owned : Owned bs'.heap (bs'.hold isHost)
  shape : ArenaShape isHost a bs'
  host : isHost a = true → l.total ≤ bs'.arenaBytes
  pair : bs'.pair = bs.pair
  own : bs'.own = bs.own
  layout : bs'.layout = some l

theorem arenaEnsure_ready (hinv : Inv isHost p a bs) {l : MemLayout} (hl : LayoutOk p l) (ok : Bool) :
    ArenaReady isHost a l bs (arenaEnsure isHost { bs with layout := some l } a l.total ok) := by
  unfold arenaEnsure
  by_cases hfits : bs.arenaBytes ≥ l.total
  · rw [if_pos hfits]
    exact ⟨hinv.owned, ⟨hinv.arena.floats, hinv.arena.host, hinv.arena.device⟩, fun _ => hfits, rfl, rfl, rfl⟩
  · rw [if_neg hfits]
    cases hhost : isHost a with
    | true =>
      rw [if_pos rfl]
      set f := floatBufEnsure bs.heap bs.arenaHost (l.total / 4) with hf
      set bs' : Scratch β :=
        { bs with layout := some l, arenaHost := f.2, arenaBytes := l.total, heap := f.1 } with hbs
      have hx : bs'.hold isHost .arenaHost = f.2.held := rfl
      have hrest : ∀ y, y ≠ .arenaHost → bs'.hold isHost y = bs.hold isHost y := by
        intro y hy
        by_cases ha : y = .arena
        · rw [ha]
          rfl
        · refine hold_of_slots ?_ ?_ y ha hy <;> rfl
      obtain ⟨howned, hok, hneed, -⟩ := floatBufEnsure_spec hinv.owned hinv.arena.floats rfl hx hrest
      have hcap : l.total / 4 ≤ f.2.cap := hneed
      have hfour := Nat.div_mul_cancel hl.four
      refine ⟨howned, ⟨hok, fun _ => ⟨(hinv.arena.host hhost).1, ?_⟩, fun h => ?_⟩, fun _ => le_rfl, rfl, rfl,
        rfl⟩
      · simp only [hbs]
        omega
      · rw [hhost] at h
        cases h
    | false =>
      rw [if_neg (by simp)]
      simp only [release_arena hinv hhost]
      obtain ⟨hzero, -, -⟩ := hinv.arena.device hhost
      cases ok with
      | true =>
        rw [if_pos rfl]
        set h := bs.heap.drop (bs.hold isHost .arena) with hh
        set bs' : Scratch β := { bs with
          layout := some l, arena := ⟨some ⟨h.next, 0⟩, l.total, 0, some a⟩, arenaBytes := l.total,
          heap := h.alloc ⟨some a, l.total⟩ }
        have hx : bs'.hold isHost .arena = some (h.next, ⟨some a, l.total⟩) := rfl
        have hrest : ∀ y, y ≠ .arena → bs'.hold isHost y = bs.hold isHost y := by
          intro y hy
          by_cases hyh : y = .arenaHost
          · rw [hyh]
            rfl
          · refine hold_of_slots ?_ ?_ y hy hyh <;> rfl
        refine ⟨hinv.owned.replace hx hrest, ⟨hinv.arena.floats, fun h => ?_, fun _ => ?_⟩, fun h => ?_, rfl, rfl,
          rfl⟩
        · exact absurd (hhost.symm.trans h) Bool.false_ne_true
        · exact ⟨hzero, rfl, Or.inr ⟨h.next, rfl⟩⟩
        · exact absurd (hhost.symm.trans h) Bool.false_ne_true
      | false =>
        rw [if_neg (by simp)]
        set bs' : Scratch β := { bs with
          layout := some l, arena := Buffer.zero, arenaBytes := 0,
          heap := bs.heap.drop (bs.hold isHost .arena) }
        have hx : bs'.hold isHost .arena = none := rfl
        have hrest : ∀ y, y ≠ .arena → bs'.hold isHost y = bs.hold isHost y := by
          intro y hy
          by_cases hyh : y = .arenaHost
          · rw [hyh]
            rfl
          · refine hold_of_slots ?_ ?_ y hy hyh <;> rfl
        refine ⟨hinv.owned.drop hx hrest, ⟨hinv.arena.floats, fun h => ?_, fun _ => ?_⟩, fun h => ?_, rfl, rfl, rfl⟩
        · exact absurd (hhost.symm.trans h) Bool.false_ne_true
        · exact ⟨hzero, rfl, Or.inl rfl⟩
        · exact absurd (hhost.symm.trans h) Bool.false_ne_true

/-- The slots of `done` are bound. -/
structure Bound (isHost : β → Bool) (a : β) (l : MemLayout) (bs bs' : Scratch β) (done : List Slot) : Prop where
  owned : Owned bs'.heap (bs'.hold isHost)
  arena : bs'.arena = bs.arena ∧ bs'.arenaHost = bs.arenaHost ∧ bs'.arenaBytes = bs.arenaBytes ∧
    bs'.layout = bs.layout
  floats : ∀ s, (bs'.pair s).fb.Ok
  shape : ∀ s, bs'.own s = true → OwnShape isHost (bs'.pair s)
  bare : ∀ s, bs'.own s = false → (bs'.pair s).fb = FloatBuf.zero
  rest : ∀ s, l.cap s = 0 → bs'.own s = false → (bs'.pair s).b = Buffer.zero
  bound : ∀ s ∈ done, l.cap s ≠ 0 → bs'.own s = false ∧
    (bs'.pair s).b = arenaView isHost bs a (l.offset s) (l.cap s)

/-- A slot gives up a buffer of its own, and the floats. -/
theorem releaseSlot_spec (ho : Owned bs.heap (bs.hold isHost)) (s : Slot) :
    Owned (releaseSlot isHost bs s).heap ((releaseSlot isHost bs s).hold isHost) ∧
      SameBut bs (releaseSlot isHost bs s) s ∧ (releaseSlot isHost bs s).own s = false ∧
      (releaseSlot isHost bs s).pair s = ⟨Buffer.zero, FloatBuf.zero⟩ := by
  have hsame : SameBut bs (releaseSlot isHost bs s) s :=
    ⟨fun _ ht => Function.update_of_ne ht _ _, fun _ ht => Function.update_of_ne ht _ _, rfl, rfl, rfl, rfl⟩
  have hown : (releaseSlot isHost bs s).own s = false := Function.update_self _ _ _
  have hpair : (releaseSlot isHost bs s).pair s = ⟨Buffer.zero, FloatBuf.zero⟩ := Function.update_self _ _ _
  refine ⟨?_, hsame, hown, hpair⟩
  classical
  -- the buffer first, then the floats
  have hmid : Owned (bs.heap.drop (bs.hold isHost (.device s)))
      (Function.update (bs.hold isHost) (.device s) none) :=
    ho.drop (Function.update_self _ _ _) fun y hy => Function.update_of_ne hy _ _
  have hfloats : Function.update (bs.hold isHost) (.device s) none (.floats s) = (bs.pair s).fb.held :=
    Function.update_of_ne (by simp) _ _
  have hx : (releaseSlot isHost bs s).hold isHost (.floats s) = none := by
    simp [Scratch.hold, hpair, FloatBuf.held, FloatBuf.zero]
  have hrest : ∀ y, y ≠ .floats s → (releaseSlot isHost bs s).hold isHost y =
      Function.update (bs.hold isHost) (.device s) none y := by
    intro y hy
    by_cases hd : y = .device s
    · rw [hd, Function.update_self]
      simp [Scratch.hold, hown]
    · rw [Function.update_of_ne hd]
      exact hsame.hold y hy hd
  have hend := hmid.drop hx hrest
  rw [hfloats, ← freeFloats_eq] at hend
  have hheap : (releaseSlot isHost bs s).heap =
      freeFloats (bs.heap.drop (bs.hold isHost (.device s))) (bs.pair s).fb := by
    simp only [releaseSlot, release_device]
    rfl
  rw [hheap]
  exact hend

theorem Bound.bindSlot {l : MemLayout} {done : List Slot} (hb : Bound isHost a l bs bs' done) (s : Slot) :
    Bound isHost a l bs (bindSlot isHost a l bs' s) (done ++ [s]) := by
  unfold BatchScratch.bindSlot
  by_cases hcap : l.cap s = 0
  · rw [if_pos hcap]
    refine ⟨hb.owned, hb.arena, hb.floats, hb.shape, hb.bare, hb.rest, fun t ht hct => ?_⟩
    rcases List.mem_append.1 ht with ht | ht
    · exact hb.bound t ht hct
    · rw [List.mem_singleton.1 ht] at hct
      exact absurd hcap hct
  · rw [if_neg hcap]
    obtain ⟨bs₁, hbs₁⟩ : ∃ b, b = if bs'.own s then releaseSlot isHost bs' s else bs' := ⟨_, rfl⟩
    rw [← hbs₁]
    have hfree : Owned bs₁.heap (bs₁.hold isHost) ∧ SameBut bs' bs₁ s ∧ bs₁.own s = false ∧
        (bs₁.pair s).fb = FloatBuf.zero := by
      cases hown : bs'.own s with
      | true =>
        obtain ⟨ho, hsame, hown', hpair⟩ := releaseSlot_spec hb.owned s
        rw [hown, if_pos rfl] at hbs₁
        rw [hbs₁]
        exact ⟨ho, hsame, hown', by rw [hpair]⟩
      | false =>
        rw [hown, if_neg (by simp)] at hbs₁
        rw [hbs₁]
        exact ⟨hb.owned, ⟨fun _ _ => rfl, fun _ _ => rfl, rfl, rfl, rfl, rfl⟩, hown, hb.bare s hown⟩
    obtain ⟨ho, hsame, hown, hfb⟩ := hfree
    obtain ⟨ha, hah, hab, hlay⟩ := hb.arena
    have hview : arenaView isHost bs₁ a (l.offset s) (l.cap s) =
        arenaView isHost bs a (l.offset s) (l.cap s) := by
      simp only [arenaView, hsame.arena, hsame.arenaHost, ha, hah]
    simp only [hview]
    set bs₂ : Scratch β := { bs₁ with
      pair := Function.update bs₁.pair s ⟨arenaView isHost bs a (l.offset s) (l.cap s), (bs₁.pair s).fb⟩ }
      with hbs₂
    have hsame₂ : SameBut bs₁ bs₂ s :=
      ⟨fun _ ht => Function.update_of_ne ht _ _, fun _ _ => rfl, rfl, rfl, rfl, rfl⟩
    have hpair : bs₂.pair s = ⟨arenaView isHost bs a (l.offset s) (l.cap s), FloatBuf.zero⟩ := by
      rw [hbs₂, ← hfb]
      exact Function.update_self _ _ _
    have hown₂ : bs₂.own s = false := hown
    have hall := hsame.trans hsame₂
    refine ⟨ho.forget fun y => Or.inl ?_, ⟨hall.arena.trans ha, hall.arenaHost.trans hah,
      hall.arenaBytes.trans hab, hall.layout.trans hlay⟩, fun t => ?_, fun t => ?_, fun t => ?_, fun t => ?_,
      fun t => ?_⟩
    · by_cases hf : y = .floats s
      · rw [hf]
        simp [Scratch.hold, hpair, hfb]
      · by_cases hd : y = .device s
        · rw [hd]
          simp [Scratch.hold, hown, hown₂]
        · exact hsame₂.hold y hf hd
    · by_cases ht : t = s
      · rw [ht, hpair]
        simp [FloatBuf.Ok, FloatBuf.zero]
      · rw [hall.pair t ht]
        exact hb.floats t
    · by_cases ht : t = s
      · rw [ht, hown₂]
        intro h
        cases h
      · rw [hall.pair t ht, hall.own t ht]
        exact hb.shape t
    · by_cases ht : t = s
      · rw [ht, hpair]
        exact fun _ => rfl
      · rw [hall.pair t ht, hall.own t ht]
        exact hb.bare t
    · by_cases ht : t = s
      · rw [ht]
        exact fun h => absurd h hcap
      · rw [hall.pair t ht, hall.own t ht]
        exact hb.rest t
    · by_cases ht : t = s
      · rw [ht]
        exact fun _ _ => ⟨hown₂, by rw [hpair]⟩
      · rw [hall.pair t ht, hall.own t ht]
        intro hmem hct
        rcases List.mem_append.1 hmem with hm | hm
        · exact hb.bound t hm hct
        · exact absurd (List.mem_singleton.1 hm) ht

theorem Bound.foldl {l : MemLayout} {done : List Slot} (hb : Bound isHost a l bs bs' done)
    (todo : List Slot) :
    Bound isHost a l bs (todo.foldl (BatchScratch.bindSlot isHost a l) bs') (done ++ todo) := by
  induction todo generalizing bs' done with
  | nil => simpa using hb
  | cons s todo ih =>
    rw [List.foldl_cons, List.append_cons]
    exact ih (hb.bindSlot s)

theorem bind_inv (hinv : Inv isHost p a bs) {nRows : ℤ} (hl : LayoutOk p (MemLayout.compute p nRows))
    (ok : Bool) : Inv isHost p a (bind isHost bs p a nRows ok) := by
  have hready := arenaEnsure_ready hinv hl ok
  unfold bind
  simp only
  set l := MemLayout.compute p nRows
  set bs₁ := arenaEnsure isHost { bs with layout := some l } a l.total ok
  have hstart : Bound isHost a l bs₁ bs₁ [] := by
    refine ⟨hready.owned, ⟨rfl, rfl, rfl, rfl⟩, fun s => ?_, fun s => ?_, fun s => ?_, fun s hcap => ?_,
      fun s hs => by cases hs⟩
    · rw [hready.pair]
      exact hinv.floats s
    · rw [hready.pair, hready.own]
      exact hinv.shape s
    · rw [hready.pair, hready.own]
      exact fun h => by rw [hinv.rest s h]
    · rw [hready.pair, hready.own]
      intro h
      rw [hinv.rest s h]
      -- the plan has not changed, so the slot had no place in the old layout
      unfold restView
      cases hold : bs.layout with
      | none => rfl
      | some l' =>
        refine if_pos (by_contra fun hne => ?_)
        exact (hl.planned s).2 (((hinv.layout l' hold).1.planned s).1 hne) hcap
  have hend := hstart.foldl Slot.all
  set bs₂ := Slot.all.foldl (bindSlot isHost a l) bs₁
  obtain ⟨ha, hah, hab, hlay⟩ := hend.arena
  have hlayout : bs₂.layout = some l := hlay.trans hready.layout
  refine ⟨hend.owned, ?_, hend.floats, hend.shape, fun s hown => ?_, fun l' hl' => ?_⟩
  · obtain ⟨hf, hh, hd⟩ := hready.shape
    exact ⟨by rwa [hah], by rwa [ha, hab, hah], by rwa [ha, hab, hah]⟩
  · have hb : (bs₂.pair s).b = restView isHost a bs₂ s := by
      unfold restView
      rw [hlayout]
      by_cases hcap : l.cap s = 0
      · rw [hend.rest s hcap hown]
        exact (if_pos hcap).symm
      · rw [(hend.bound s (List.mem_append_right _ (MemPlan.mem_all s)) hcap).2]
        simp only [Option.elim_some, hcap, if_false, arenaView, ha, hah]
    rw [← hb, ← hend.bare s hown]
  · rw [hlayout] at hl'
    obtain rfl := Option.some.inj hl'
    exact ⟨hl, by rw [hab]; exact hready.host⟩

end Bind

end Steps

section Layouts

/-- A slot that is not planned has no place. -/
theorem compute_cap_of_unplanned (p : MemPlan) (n : ℤ) {s : Slot} (hs : p.planned s = false) :
    (MemLayout.compute p n).cap s = 0 := by
  have hplace : ∀ (todo : List Slot) (l : MemLayout),
      (todo.foldl (MemLayout.place p) l).cap s = l.cap s := by
    intro todo
    induction todo with
    | nil => exact fun l => rfl
    | cons t todo ih =>
      intro l
      rw [List.foldl_cons, ih, MemLayout.place]
      split_ifs with h
      · refine Function.update_of_ne ?_ _ _
        rintro rfl
        rw [hs] at h
        cases h.1
      · rfl
  have hshare : ∀ (todo : List Slot) (l : MemLayout),
      (todo.foldl (MemLayout.share p) l).cap s = l.cap s := by
    intro todo
    induction todo with
    | nil => exact fun l => rfl
    | cons t todo ih =>
      intro l
      rw [List.foldl_cons, ih, MemLayout.share]
      split_ifs with h
      · refine Function.update_of_ne ?_ _ _
        rintro rfl
        rw [hs] at h
        cases h.1
      · rfl
  rw [MemLayout.compute, hshare, hplace]

theorem build_isRoot (graphs : Option (List CgGraph)) (d : MemDims) (isHybrid : Bool) (s : Slot)
    (hs : (MemPlan.build graphs d isHybrid).planned s = true) :
    (MemPlan.build graphs d isHybrid).IsRoot ((MemPlan.build graphs d isHybrid).rep s) := by
  cases graphs with
  | none => exact ⟨hs, rfl⟩
  | some gs =>
    refine ⟨?_, (MemPlan.build_grouped gs d isHybrid).root s⟩
    by_cases hself : (MemPlan.build (some gs) d isHybrid).rep s = s
    · rwa [hself]
    · exact (MemPlan.build_rep_planned gs d isHybrid s hself).2

theorem dvd_rootBytes (p : MemPlan) (bucket : ℤ) (slots : List Slot) : 4 ∣ p.rootBytes bucket slots := by
  unfold MemPlan.rootBytes
  induction slots.filter fun s => p.IsRoot s with
  | nil => exact Nat.dvd_zero 4
  | cons s slots ih =>
    rw [List.map_cons, List.sum_cons]
    exact Nat.dvd_add (Nat.dvd_trans ⟨64, rfl⟩ (dvd_roundUp _)) ih

theorem layoutOk_build (graphs : Option (List CgGraph)) (d : MemDims) (isHybrid : Bool) {n : ℤ}
    (hn : n ≤ 2147483584) (hfit : (MemPlan.build graphs d isHybrid).arenaBytes n < 2 ^ 64) :
    LayoutOk (MemPlan.build graphs d isHybrid) (MemLayout.compute (MemPlan.build graphs d isHybrid) n) := by
  have hspans := MemLayout.compute_spans (build_isRoot graphs d isHybrid) hn (by simpa using hfit)
  obtain ⟨-, hbucket, -⟩ := memRowsBucket_spec hn
  have hplanned : ∀ s, (MemLayout.compute (MemPlan.build graphs d isHybrid) n).cap s ≠ 0 →
      (MemPlan.build graphs d isHybrid).planned s = true := by
    intro s hcap
    by_contra hs
    exact hcap (compute_cap_of_unplanned _ n (by simpa using hs))
  refine ⟨fun s => ⟨hplanned s, fun hs => ?_⟩, fun s hcap => hspans.inside s (hplanned s hcap), ?_⟩
  · have hrow : 0 < d.slotRowElems s := by
      have h := hs
      simp only [MemPlan.build, Bool.and_eq_true, decide_eq_true_eq] at h
      exact h.2
    have hgroup : d.slotRowElems s ≤ (MemPlan.build graphs d isHybrid).groupRowElems
        ((MemPlan.build graphs d isHybrid).rep s) := MemPlan.le_groupRows _ _ _ hs
    rw [hspans.cap s hs, MemPlan.bufferBytes]
    have hle := le_roundUp ((MemPlan.build graphs d isHybrid).groupRowElems
      ((MemPlan.build graphs d isHybrid).rep s) * (memRowsBucket n).toNat * 4)
    have hpos : 0 < (MemPlan.build graphs d isHybrid).groupRowElems
        ((MemPlan.build graphs d isHybrid).rep s) * (memRowsBucket n).toNat * 4 := by
      exact Nat.mul_pos (Nat.mul_pos (by omega) (by omega)) (by decide)
    omega
  · rw [hspans.total]
    exact dvd_rootBytes _ _ _

end Layouts

section Run

variable [DecidableEq β] {isHost} {a : β} {bs : Scratch β} {graphs : Option (List CgGraph)} {d : MemDims}
  {isHybrid : Bool}

theorem step_spec (hinv : Inv isHost (.build graphs d isHybrid) a bs) {op : Op β}
    (hsound : Sound isHost (.build graphs d isHybrid) a bs op) :
    Inv isHost (.build graphs d isHybrid) a (step isHost (.build graphs d isHybrid) a bs op) ∧
      Relied isHost (step isHost (.build graphs d isHybrid) a bs op) op := by
  cases op with
  | prepare nRows ok =>
    obtain ⟨hn, hfit⟩ := hsound
    have hnext := bind_inv hinv (layoutOk_build graphs d isHybrid hn hfit) ok
    exact ⟨hnext, hnext.slotsApart⟩
  | ensure owner s n ok => exact ensure_spec hinv hsound

theorem Inv.run (hinv : Inv isHost (.build graphs d isHybrid) a bs) {ops : List (Op β)}
    (hsound : SoundRun isHost (.build graphs d isHybrid) a bs ops) :
    ReliedRun isHost (.build graphs d isHybrid) a bs ops := by
  induction ops generalizing bs with
  | nil => trivial
  | cons op ops ih =>
    obtain ⟨hnext, hrelied⟩ := step_spec hinv hsound.1
    exact ⟨hrelied, ih hnext hsound.2⟩

/-- Where the device has the memory that is asked for, every op finds its slot live, its backend's, large
enough and apart from the slots that the plan has apart. -/
theorem scratchRun_spec (isHost : β → Bool) (graphs : Option (List CgGraph)) (d : MemDims) (isHybrid : Bool) (a : β)
    (ops : List (Op β)) (hsound : SoundRun isHost (.build graphs d isHybrid) a Scratch.init ops) :
    ReliedRun isHost (.build graphs d isHybrid) a Scratch.init ops :=
  (Inv.init _ a).run hsound

/-- Rows of 8 floats, for a device without a graph. -/
def plainDims : MemDims := ⟨8, 8, 8, 8, 8, 8, 8, 0, 0, 0, 0, 0⟩

/-- Two passes, the second larger, each with a slot in the arena and one outside it. -/
def plainOps : List (Op ℕ) :=
  [.prepare 1 true, .ensure 0 .x 8 true, .ensure 0 .logits 100 true, .prepare 2 true, .ensure 0 .x 16 true,
    .ensure 0 .logits 200 true]

theorem scratchRun_spec_of_plain :
    ReliedRun (fun _ => false) (.build none plainDims false) 0 Scratch.init plainOps :=
  scratchRun_spec (fun _ => false) none plainDims false 0 plainOps (by
    refine ⟨?_, ?_, ?_, ?_, ?_, ?_, trivial⟩ <;> decide +kernel)

/-- The arena's allocation fails, or that of a slot outside it, and the op runs with a buffer that is not
there. -/
theorem run_of_failed :
    ¬ ReliedRun (fun _ => false) (.build none plainDims false) 0 (Scratch.init : Scratch ℕ)
        [.prepare 1 false, .ensure 0 .x 8 true] ∧
      ¬ ReliedRun (fun _ => false) (.build none plainDims false) 0 (Scratch.init : Scratch ℕ)
        [.prepare 1 true, .ensure 0 .logits 100 false] := by
  constructor
  · rintro ⟨-, ⟨-, h⟩, -⟩
    obtain ⟨-, -, q, hq, -⟩ := h (by decide)
    rw [show (Scratch.pair _ _).b.handle = none by decide +kernel] at hq
    cases hq
  · rintro ⟨-, ⟨-, h⟩, -⟩
    obtain ⟨-, -, q, hq, -⟩ := h (by decide)
    rw [show (Scratch.pair _ _).b.handle = none by decide +kernel] at hq
    cases hq

end Run

end BatchScratch

end Kappai
