import Kappai.Spec.Specials

/-! The search by first byte finds what a search over all special tokens finds: the first place at which
one occurs, and there the longest of them. -/

namespace Kappai

theorem bitmapBit_and (d c : UInt8) : bitmapBit d &&& bitmapBit c = 0 ↔ d &&& 7 ≠ c &&& 7 := by
  have key : ∀ a b : Fin 8, (1 <<< UInt8.ofNat a &&& 1 <<< UInt8.ofNat b : UInt8) = 0 ↔ a ≠ b := by
    decide
  have hlt : ∀ e : UInt8, (e &&& 7).toNat < 8 := by
    intro e
    rw [UInt8.toNat_and]
    exact Nat.lt_of_le_of_lt Nat.and_le_right (by decide)
  have h := key ⟨_, hlt d⟩ ⟨_, hlt c⟩
  rw [UInt8.ofNat_toNat, UInt8.ofNat_toNat] at h
  rw [bitmapBit, bitmapBit, h, Ne, Fin.mk.injEq, UInt8.toNat_inj]

/-- A byte is known by its cell of the bitmap and its bit there. -/
theorem eq_of_bitmapCell {d c : UInt8} (hcell : bitmapCell d = bitmapCell c)
    (hbit : d &&& 7 = c &&& 7) : d = c := by
  have hlow : ∀ e : UInt8, (e &&& 7).toNat = e.toNat % 8 := fun e => by
    rw [UInt8.toNat_and]
    exact Nat.and_two_pow_sub_one_eq_mod e.toNat 3
  have hhigh : ∀ e : UInt8, bitmapCell e = e.toNat / 8 := fun e => by
    rw [bitmapCell, UInt8.toNat_shiftRight]
    exact Nat.shiftRight_eq_div_pow e.toNat 3
  rw [hhigh, hhigh] at hcell
  have hmod := congrArg UInt8.toNat hbit
  rw [hlow, hlow] at hmod
  exact UInt8.toNat_inj.mp (by omega)

theorem bitmap_or (x d c : UInt8) :
    (x ||| bitmapBit d) &&& bitmapBit c = 0 ↔ x &&& bitmapBit c = 0 ∧ d &&& 7 ≠ c &&& 7 := by
  have h : (x ||| bitmapBit d) &&& bitmapBit c =
      x &&& bitmapBit c ||| bitmapBit d &&& bitmapBit c :=
    UInt8.toBitVec_inj.mp BitVec.and_or_distrib_right
  rw [h, UInt8.or_eq_zero_iff, bitmapBit_and]

namespace Vocab

variable (v : Vocab)

/-- The special tokens with a text. -/
def named : List ℕ := v.specialIds.filter fun sid => v.textLen sid ≠ 0

/-- Those with a text that begins with byte `u`. -/
def namedBy (u : ℕ) : List ℕ := v.named.filter fun sid => (v.firstByte sid).toNat == u

theorem mem_named {sid : ℕ} :
    sid ∈ v.named ↔ sid < v.nTokens ∧ v.isSpecial sid = true ∧ (v.tokens sid).text ≠ [] := by
  rw [named, specialIds, List.mem_filter, List.mem_filter, List.mem_range, and_assoc]
  simp [textLen]

theorem counted_fst (u : ℕ) : v.counted.1 u = (v.namedBy u).length := by
  have key : ∀ (ids : List ℕ) (s : (ℕ → ℕ) × (ℕ → UInt8)), (ids.foldl v.countStep s).1 u = s.1 u +
      ((ids.filter fun sid => v.textLen sid ≠ 0).filter
        fun sid => (v.firstByte sid).toNat == u).length := by
    intro ids
    induction ids with
    | nil => exact fun s => rfl
    | cons sid ids ih =>
      intro s
      rw [List.foldl_cons, ih, countStep]
      by_cases hlen : v.textLen sid = 0
      · simp [hlen]
      · by_cases hu : (v.firstByte sid).toNat = u
        · simp [hlen, hu]
          omega
        · simp [hlen, hu, Function.update_of_ne (Ne.symm hu)]
  rw [counted, key]
  exact Nat.zero_add _

/-- The bitmap has the first bytes of the special tokens. -/
theorem counted_snd (c : UInt8) :
    v.counted.2 (bitmapCell c) &&& bitmapBit c = 0 ↔ ∀ sid ∈ v.named, v.firstByte sid ≠ c := by
  have key : ∀ (ids : List ℕ) (s : (ℕ → ℕ) × (ℕ → UInt8)),
      (ids.foldl v.countStep s).2 (bitmapCell c) &&& bitmapBit c = 0 ↔
        s.2 (bitmapCell c) &&& bitmapBit c = 0 ∧
          ∀ sid ∈ ids.filter fun sid => v.textLen sid ≠ 0, v.firstByte sid ≠ c := by
    intro ids
    induction ids with
    | nil => simp
    | cons sid ids ih =>
      intro s
      rw [List.foldl_cons, ih, countStep]
      by_cases hlen : v.textLen sid = 0
      · simp [hlen]
      · have hstep : Function.update s.2 (bitmapCell (v.firstByte sid))
              (s.2 (bitmapCell (v.firstByte sid)) ||| bitmapBit (v.firstByte sid)) (bitmapCell c) &&&
            bitmapBit c = 0 ↔ s.2 (bitmapCell c) &&& bitmapBit c = 0 ∧ v.firstByte sid ≠ c := by
          by_cases hcell : bitmapCell (v.firstByte sid) = bitmapCell c
          · rw [hcell, Function.update_self, bitmap_or]
            refine and_congr_right fun _ => not_congr ⟨eq_of_bitmapCell hcell, fun h => by rw [h]⟩
          · rw [Function.update_of_ne (Ne.symm hcell)]
            exact (and_iff_left fun h => hcell (by rw [h])).symm
        rw [if_neg hlen]
        simp only
        rw [hstep, and_assoc]
        simp [hlen]
  rw [counted, key]
  exact and_iff_right UInt8.zero_and

theorem mem_firstBytes {c : UInt8} :
    c ∈ v.specialIndex.firstBytes ↔ ∃ sid ∈ v.named, v.firstByte sid = c := by
  have hpos : v.counted.1 c.toNat ≠ 0 ↔ ∃ sid ∈ v.named, v.firstByte sid = c := by
    rw [counted_fst, ← Nat.pos_iff_ne_zero, List.length_pos_iff_exists_mem]
    simp [namedBy, UInt8.toNat_inj]
  rw [← hpos]
  constructor
  · intro h
    obtain ⟨b2, hb, rfl⟩ := List.mem_map.mp h
    obtain ⟨hlt, hne⟩ := List.mem_filter.mp hb
    rw [UInt8.toNat_ofNat', Nat.mod_eq_of_lt (List.mem_range.mp hlt)]
    simpa using hne
  · intro h
    refine List.mem_map.mpr ⟨c.toNat, List.mem_filter.mpr ⟨?_, by simpa using h⟩, UInt8.ofNat_toNat⟩
    exact List.mem_range.mpr c.toNat_lt

/-- Each first byte's tokens stand together, in the order of their ids. -/
theorem cellsFrom_placed (u : ℕ) :
    cellsFrom (v.specialOff u) (v.counted.1 u) v.placed = v.namedBy u := by
  have hskip : v.placed = scatter (fun sid => (v.firstByte sid).toNat) v.specialOff (fun _ => 0)
      v.named := by
    rw [placed, scatter, named, List.foldl_filter]
    congr 2
    funext s sid
    by_cases h : v.textLen sid = 0
    · simp [placeStep, h]
    · simp [placeStep, h]
  rw [hskip, counted_fst]
  exact map_scatter (fun u => (v.counted_fst u).ge) _ u

/-- The longer text comes first, of texts of one length that of the smaller id. -/
def Before (a b : ℕ) : Prop := v.textLen b < v.textLen a ∨ v.textLen a = v.textLen b ∧ a < b

theorem specialOff_succ (u : ℕ) : v.specialOff (u + 1) = v.specialOff u + v.counted.1 u := rfl

theorem sortFirstByte_eq (arr : ℕ → ℕ) (b2 : ℕ) : v.sortFirstByte arr b2 =
    sortCells (fun x key => decide (v.textLen x < v.textLen key)) (v.specialOff b2)
      (v.counted.1 b2) arr := by
  simp only [sortFirstByte, specialOff_succ, Nat.add_sub_cancel_left]
  split_ifs with h
  · rw [sortCells, Nat.sub_eq_zero_of_le h]
    rfl
  · rfl

theorem namedBy_sorted (u : ℕ) : (v.namedBy u).Pairwise (· < ·) :=
  ((List.pairwise_lt_range.filter _).filter _).filter _

/-- A token's place among those of its first byte, after the sorts of the bytes below `m`. -/
theorem cellsFrom_sorted (m u : ℕ) :
    (m ≤ u → cellsFrom (v.specialOff u) (v.counted.1 u) ((List.range m).foldl v.sortFirstByte v.placed) =
      v.namedBy u) ∧
    (u < m →
      (cellsFrom (v.specialOff u) (v.counted.1 u)
        ((List.range m).foldl v.sortFirstByte v.placed)).Pairwise v.Before ∧
      (cellsFrom (v.specialOff u) (v.counted.1 u)
        ((List.range m).foldl v.sortFirstByte v.placed)).Perm (v.namedBy u)) := by
  induction m with
  | zero => exact ⟨fun _ => v.cellsFrom_placed u, fun h => absurd h (Nat.not_lt_zero _)⟩
  | succ m ih =>
    rw [List.range_succ, List.foldl_concat, sortFirstByte_eq]
    set arr := (List.range m).foldl v.sortFirstByte v.placed
    by_cases hu : u = m
    · subst hu
      have hold := ih.1 (Nat.le_refl _)
      refine ⟨fun h => absurd h (by omega), fun _ => ?_⟩
      have hsort := cellsFrom_sortCells (r := fun x key => decide (v.textLen x < v.textLen key))
        (R := v.Before) (S := (· < ·)) (v.specialOff u) (v.counted.1 u) arr
        (fun x k _ hlate => .inl (of_decide_eq_true hlate))
        (fun x k hlt hlate => by
          have := of_decide_eq_false hlate
          rcases Nat.lt_or_ge (v.textLen k) (v.textLen x) with h | h
          · exact .inl h
          · exact .inr ⟨by omega, hlt⟩)
        (fun x y k hxy hlate => by
          have := of_decide_eq_false hlate
          refine decide_eq_false fun h => ?_
          rcases hxy with hxy | ⟨hxy, -⟩
          · omega
          · omega)
        (hold ▸ v.namedBy_sorted u)
      rw [hold] at hsort
      exact hsort
    · have hkeep : cellsFrom (v.specialOff u) (v.counted.1 u)
          (sortCells (fun x key => decide (v.textLen x < v.textLen key)) (v.specialOff m)
            (v.counted.1 m) arr) = cellsFrom (v.specialOff u) (v.counted.1 u) arr := by
        refine cellsFrom_congr fun c hc => sortCells_of_outside arr ?_
        rcases Nat.lt_or_gt_of_ne hu with h | h
        · have hle : stretch v.counted.1 (u + 1) ≤ stretch v.counted.1 m := stretch_mono _ h
          have := v.specialOff_succ u
          simp only [specialOff] at *
          omega
        · have hle : stretch v.counted.1 (m + 1) ≤ stretch v.counted.1 u := stretch_mono _ h
          have := v.specialOff_succ m
          simp only [specialOff] at *
          omega
      rw [hkeep]
      exact ⟨fun h => ih.1 (by omega), fun h => ih.2 (by omega)⟩

/-- The tokens that a search at a byte `c` tries, in the order in which it tries them. -/
def bucket (c : UInt8) : List ℕ :=
  cellsFrom (v.specialIndex.off c.toNat) (v.specialIndex.off (c.toNat + 1) - v.specialIndex.off c.toNat)
    v.specialIndex.byFirstByte

theorem bucket_sorted (c : UInt8) :
    (v.bucket c).Pairwise v.Before ∧ (v.bucket c).Perm (v.namedBy c.toNat) := by
  have h := (v.cellsFrom_sorted 256 c.toNat).2 c.toNat_lt
  have hcount : v.specialOff (c.toNat + 1) - v.specialOff c.toNat = v.counted.1 c.toNat := by
    rw [specialOff_succ, Nat.add_sub_cancel_left]
  rw [bucket]
  simp only [specialIndex, hcount]
  exact h

theorem mem_bucket {c : UInt8} {sid : ℕ} :
    sid ∈ v.bucket c ↔ sid ∈ v.named ∧ v.firstByte sid = c := by
  rw [(v.bucket_sorted c).2.mem_iff, namedBy, List.mem_filter, beq_iff_eq, UInt8.toNat_inj]

variable {text : Text} {p start : ℕ}

theorem matchesAt_iff {sid : ℕ} :
    v.matchesAt text p sid = true ↔ OccursAt (v.tokens sid).text text p := by
  rw [matchesAt, textLen, OccursAt]
  split_ifs with h
  · refine iff_of_false (by simp) ?_
    rintro ⟨hp, hpre⟩
    have := hpre.length_le
    rw [List.length_drop] at this
    omega
  · rw [beq_iff_eq, List.prefix_iff_eq_take, eq_comm]
    exact (and_iff_right (by omega)).symm

theorem specialAt_iff_named {sid : ℕ} :
    v.SpecialAt text p sid ↔ sid ∈ v.named ∧ v.matchesAt text p sid = true := by
  rw [mem_named, matchesAt_iff]
  exact ⟨fun h => ⟨⟨h.lt, h.special, h.nonempty⟩, h.occurs⟩, fun ⟨⟨h1, h2, h3⟩, h4⟩ => ⟨h1, h2, h3, h4⟩⟩

/-- A token that stands at a place begins with the byte there. -/
theorem SpecialAt.firstByte_eq {sid : ℕ} (h : v.SpecialAt text p sid) :
    text[p]? = some (v.firstByte sid) := by
  obtain ⟨b, rest, htext⟩ := List.exists_cons_of_ne_nil h.nonempty
  obtain ⟨more, hmore⟩ := h.occurs.2
  rw [htext] at hmore
  rw [firstByte, htext, List.headD_cons, ← Nat.add_zero p, ← List.getElem?_drop, ← hmore]
  rfl

theorem specialAt_iff {sid : ℕ} {c : UInt8} (hc : text[p]? = some c) :
    v.SpecialAt text p sid ↔ sid ∈ v.bucket c ∧ v.matchesAt text p sid = true := by
  rw [mem_bucket]
  constructor
  · intro h
    have hfirst := h.firstByte_eq
    rw [hc] at hfirst
    have hnamed := v.specialAt_iff_named.mp h
    exact ⟨⟨hnamed.1, (Option.some.inj hfirst).symm⟩, hnamed.2⟩
  · exact fun h => v.specialAt_iff_named.mpr ⟨h.1.1, h.2⟩

theorem FirstSpecial.extend {q : ℕ} {r : Option (ℕ × ℕ)} (h : v.FirstSpecial text q r)
    (hle : p ≤ q) (hnone : ∀ x, p ≤ x → x < q → ∀ sid, ¬v.SpecialAt text x sid) :
    v.FirstSpecial text p r := by
  match r with
  | none =>
    intro x hx
    rcases Nat.lt_or_ge x q with hlt | hge
    · exact hnone x hx hlt
    · exact h x hge
  | some (y, sid) =>
    obtain ⟨hy, hat, hbefore, hbest⟩ := h
    refine ⟨hle.trans hy, hat, fun x hx hxy => ?_, hbest⟩
    rcases Nat.lt_or_ge x q with hlt | hge
    · exact hnone x hx hlt
    · exact hbefore x hge hxy

/-- The first token of the bucket that stands at the place is the best of those that do. -/
theorem firstSpecial_bucket {c : UInt8} {sid : ℕ} (hc : text[p]? = some c)
    (hfind : (v.bucket c).find? (v.matchesAt text p) = some sid) :
    v.FirstSpecial text p (some (p, sid)) := by
  obtain ⟨hmatch, front, back, hsplit, hfront⟩ := List.find?_eq_some_iff_append.mp hfind
  refine ⟨Nat.le_refl _, ?_, fun q hq hlt => absurd hlt (Nat.not_lt.mpr hq), fun s hs => ?_⟩
  · exact (v.specialAt_iff hc).mpr ⟨by rw [hsplit]; simp, hmatch⟩
  · obtain ⟨hmem, hs⟩ := (v.specialAt_iff hc).mp hs
    have hpair := (v.bucket_sorted c).1
    rw [hsplit] at hmem hpair
    rcases List.mem_append.mp hmem with hmem | hmem
    · have := hfront s hmem
      simp [hs] at this
    · rcases List.mem_cons.mp hmem with rfl | hmem
      · exact .inr ⟨rfl, Nat.le_refl _⟩
      · have hbefore := (List.pairwise_cons.mp (List.pairwise_append.mp hpair).2.1).1 s hmem
        exact hbefore.imp_right fun h => ⟨h.1.symm, Nat.le_of_lt h.2⟩

theorem memchrFrom_spec (text : Text) (p : ℕ) (b : UInt8) :
    match memchrFrom text p b with
    | some hit => p ≤ hit ∧ text[hit]? = some b ∧ ∀ q, p ≤ q → q < hit → text[q]? ≠ some b
    | none => ∀ q, p ≤ q → text[q]? ≠ some b := by
  rw [memchrFrom]
  cases h : (text.drop p).findIdx? (· == b) with
  | none =>
    intro q hq hb
    obtain ⟨d, rfl⟩ := Nat.exists_eq_add_of_le hq
    rw [← List.getElem?_drop] at hb
    have := List.findIdx?_eq_none_iff.mp h b (List.mem_of_getElem? hb)
    simp at this
  | some d =>
    obtain ⟨hd, hb, hbefore⟩ := List.findIdx?_eq_some_iff_getElem.mp h
    simp only [Option.map_some]
    refine ⟨Nat.le_add_right _ _, ?_, fun q hq hlt hqb => ?_⟩
    · rw [← List.getElem?_drop, List.getElem?_eq_getElem hd, beq_iff_eq.mp hb]
    · obtain ⟨e, rfl⟩ := Nat.exists_eq_add_of_le hq
      rw [← List.getElem?_drop] at hqb
      have he := hbefore e (by omega)
      obtain ⟨helt, hget⟩ := List.getElem?_eq_some_iff.mp hqb
      simp [hget] at he

/-- The jump goes to the next place with one of the bytes, or to the end. -/
theorem nearest (text : Text) (bytes : List UInt8) (next : ℕ) (hp : p ≤ next) :
    p ≤ bytes.foldl (nearer text p) next ∧
    (bytes.foldl (nearer text p) next = next ∨
      ∃ b ∈ bytes, text[bytes.foldl (nearer text p) next]? = some b) ∧
    bytes.foldl (nearer text p) next ≤ next ∧
    ∀ b ∈ bytes, ∀ q, p ≤ q → q < bytes.foldl (nearer text p) next → text[q]? ≠ some b := by
  induction bytes generalizing next with
  | nil => exact ⟨hp, .inl rfl, Nat.le_refl _, fun b hb => absurd hb List.not_mem_nil⟩
  | cons b bytes ih =>
    have hstep : p ≤ nearer text p next b ∧
        (nearer text p next b = next ∨ text[nearer text p next b]? = some b) ∧
        nearer text p next b ≤ next ∧
        ∀ q, p ≤ q → q < nearer text p next b → text[q]? ≠ some b := by
      have hspec := memchrFrom_spec text p b
      rw [nearer]
      cases hmem : memchrFrom text p b with
      | none =>
        rw [hmem] at hspec
        exact ⟨hp, .inl rfl, Nat.le_refl _, fun q hq _ => hspec q hq⟩
      | some hit =>
        rw [hmem] at hspec
        obtain ⟨hle, hb, hbefore⟩ := hspec
        simp only
        split_ifs with hlt
        · exact ⟨hle, .inr hb, Nat.le_of_lt hlt, hbefore⟩
        · exact ⟨hp, .inl rfl, Nat.le_refl _, fun q hq hqn => hbefore q hq (by omega)⟩
    obtain ⟨hlow, hwhich, hhigh, hnone⟩ := hstep
    obtain ⟨ihlow, ihwhich, ihhigh, ihnone⟩ := ih _ hlow
    rw [List.foldl_cons]
    refine ⟨ihlow, ?_, ihhigh.trans hhigh, fun d hd q hq hlt => ?_⟩
    · rcases ihwhich with heq | ⟨d, hd, hget⟩
      · rw [heq]
        exact hwhich.imp_right fun h => ⟨b, List.mem_cons_self, h⟩
      · exact .inr ⟨d, List.mem_cons_of_mem _ hd, hget⟩
    · rcases List.mem_cons.mp hd with rfl | hd
      · exact hnone q hq (Nat.lt_of_lt_of_le hlt ihhigh)
      · exact ihnone d hd q hq hlt

/-- No special token stands where no byte is a first byte. -/
theorem not_specialAt {q : ℕ} (h : ∀ b ∈ v.specialIndex.firstBytes, text[q]? ≠ some b) (sid : ℕ) :
    ¬v.SpecialAt text q sid := fun hat =>
  h _ (v.mem_firstBytes.mpr ⟨sid, (v.specialAt_iff_named.mp hat).1, rfl⟩) hat.firstByte_eq

theorem findNextSpecialFrom_spec (text : Text) (fuel p : ℕ) (hfuel : text.length - p < fuel) :
    ∃ r, findNextSpecialFrom v v.specialIndex text fuel p = some r ∧ v.FirstSpecial text p r := by
  induction fuel generalizing p with
  | zero => exact absurd hfuel (Nat.not_lt_zero _)
  | succ fuel ih =>
    rw [findNextSpecialFrom]
    by_cases hp : p < text.length
    · have hc : text[p]? = some text[p] := List.getElem?_eq_getElem hp
      rw [dif_pos hp]
      simp only
      obtain ⟨hle, hwhich, -, hnone⟩ :=
        nearest text v.specialIndex.firstBytes text.length hp.le
      set next := v.specialIndex.firstBytes.foldl (nearer text p) text.length
      by_cases hbit : v.specialIndex.bitmap (bitmapCell text[p]) &&& bitmapBit text[p] == 0
      · rw [if_pos hbit]
        by_cases hnext : next ≥ text.length
        · rw [if_pos hnext]
          refine ⟨none, rfl, fun q hq sid hat => ?_⟩
          have hlt := hat.occurs.lt_length hat.nonempty
          exact v.not_specialAt (fun b hb => hnone b hb q hq (Nat.lt_of_lt_of_le hlt hnext)) sid hat
        · -- the byte here is no first byte, so the jump moves on
          obtain ⟨b, hb, hget⟩ := hwhich.resolve_left fun h => hnext (by omega)
          have hne : next ≠ p := by
            intro heq
            rw [heq, hc] at hget
            obtain ⟨sid, hsid, hfirst⟩ := v.mem_firstBytes.mp hb
            exact (v.counted_snd _).mp (beq_iff_eq.mp hbit) sid hsid
              (hfirst.trans (Option.some.inj hget).symm)
          obtain ⟨r, hr, hspec⟩ := ih next (by omega)
          rw [if_neg hnext]
          exact ⟨r, hr, hspec.extend v hle fun q hq hlt =>
            v.not_specialAt fun b hb => hnone b hb q hq hlt⟩
      · rw [if_neg hbit]
        change ∃ r, (match (v.bucket text[p]).find? (v.matchesAt text p) with
          | some sid => some (some (p, sid))
          | none => v.findNextSpecialFrom v.specialIndex text fuel (p + 1)) = some r ∧ _
        cases hfind : (v.bucket text[p]).find? (v.matchesAt text p) with
        | some sid => exact ⟨_, rfl, v.firstSpecial_bucket hc hfind⟩
        | none =>
          obtain ⟨r, hr, hspec⟩ := ih (p + 1) (by omega)
          refine ⟨r, hr, hspec.extend v (Nat.le_succ _) fun q hq hlt sid hat => ?_⟩
          obtain rfl : q = p := by omega
          obtain ⟨hmem, hmatch⟩ := (v.specialAt_iff hc).mp hat
          exact List.find?_eq_none.mp hfind sid hmem hmatch
    · rw [dif_neg hp]
      refine ⟨none, rfl, fun q hq sid hat => ?_⟩
      have := hat.occurs.lt_length hat.nonempty
      omega

/-- The longest of some of the special tokens at a place. -/
theorem longest_fold (text : Text) (p : ℕ) (sids : List ℕ) (hsorted : sids.Pairwise (· < ·)) (best : Option ℕ)
    (hbest : ∀ b ∈ best, ∀ sid ∈ sids, b < sid) :
    let found := sids.foldl
      (fun best sid =>
        if v.textLen sid ≠ 0 ∧ v.matchesAt text p sid = true ∧
            ∀ b ∈ best, v.textLen b < v.textLen sid then some sid
        else best) best
    (∀ b ∈ found, b ∈ best ∨ b ∈ sids ∧ v.textLen b ≠ 0 ∧ v.matchesAt text p b = true) ∧
    (∀ s, s ∈ best ∨ s ∈ sids ∧ v.textLen s ≠ 0 ∧ v.matchesAt text p s = true →
      ∃ b ∈ found, v.textLen s < v.textLen b ∨ v.textLen s = v.textLen b ∧ b ≤ s) := by
  induction sids generalizing best with
  | nil =>
    refine ⟨fun b hb => .inl hb, fun s hs => ⟨s, hs.resolve_right (by simp), .inr ⟨rfl, Nat.le_refl _⟩⟩⟩
  | cons sid sids ih =>
    obtain ⟨hlt, hsorted⟩ := List.pairwise_cons.mp hsorted
    simp only [List.foldl_cons]
    by_cases htake : v.textLen sid ≠ 0 ∧ v.matchesAt text p sid = true ∧
        ∀ b ∈ best, v.textLen b < v.textLen sid
    · rw [if_pos htake]
      obtain ⟨hfrom, htop⟩ := ih hsorted (some sid) fun b hb s hs => by
        rw [← Option.mem_some_iff.mp hb]
        exact hlt s hs
      refine ⟨fun b hb => ?_, fun s hs => ?_⟩
      · rcases hfrom b hb with hb | ⟨hb, hrest⟩
        · rw [← Option.mem_some_iff.mp hb]
          exact .inr ⟨List.mem_cons_self, htake.1, htake.2.1⟩
        · exact .inr ⟨List.mem_cons_of_mem _ hb, hrest⟩
      · have hsid := htop sid (.inl rfl)
        rcases hs with hs | ⟨hs, hrest⟩
        · obtain ⟨b, hb, hle⟩ := hsid
          have := htake.2.2 s hs
          exact ⟨b, hb, .inl (by omega)⟩
        · rcases List.mem_cons.mp hs with rfl | hs
          · exact hsid
          · exact htop s (.inr ⟨hs, hrest⟩)
    · rw [if_neg htake]
      obtain ⟨hfrom, htop⟩ := ih hsorted best fun b hb s hs => hbest b hb s (List.mem_cons_of_mem _ hs)
      refine ⟨fun b hb => (hfrom b hb).imp_right fun h => ⟨List.mem_cons_of_mem _ h.1, h.2⟩,
        fun s hs => ?_⟩
      rcases hs with hs | ⟨hs, hlen, hmatch⟩
      · exact htop s (.inl hs)
      · rcases List.mem_cons.mp hs with rfl | hs
        · -- passed over for a token that is not shorter and was there before
          have hbetter : ∃ b ∈ best, v.textLen s ≤ v.textLen b := by
            by_contra hno
            push Not at hno
            exact htake ⟨hlen, hmatch, hno⟩
          obtain ⟨b, hb, hle⟩ := hbetter
          have hbs := hbest b hb s List.mem_cons_self
          obtain ⟨top, htop, hcmp⟩ := htop b (.inl hb)
          exact ⟨top, htop, by omega⟩
        · exact htop s (.inr ⟨hs, hlen, hmatch⟩)

theorem specialIds_sorted : v.specialIds.Pairwise (· < ·) := List.pairwise_lt_range.filter _

theorem longestAt_none : v.longestAt text p = none ↔ ∀ sid, ¬v.SpecialAt text p sid := by
  obtain ⟨hfrom, htop⟩ := v.longest_fold text p v.specialIds v.specialIds_sorted none (by simp)
  rw [← longestAt] at hfrom htop
  constructor
  · intro h sid hat
    obtain ⟨hmem, hmatch⟩ := v.specialAt_iff_named.mp hat
    obtain ⟨hmem, hlen⟩ := List.mem_filter.mp hmem
    obtain ⟨b, hb, -⟩ := htop sid (.inr ⟨hmem, by simpa using hlen, hmatch⟩)
    rw [h] at hb
    cases hb
  · intro h
    refine Option.eq_none_iff_forall_not_mem.mpr fun b hb => ?_
    obtain ⟨hmem, hlen, hmatch⟩ := (hfrom b hb).resolve_left (by simp)
    exact h b (v.specialAt_iff_named.mpr ⟨List.mem_filter.mpr ⟨hmem, by simpa using hlen⟩, hmatch⟩)

theorem longestAt_some {sid : ℕ} (h : v.longestAt text p = some sid) :
    v.FirstSpecial text p (some (p, sid)) := by
  obtain ⟨hfrom, htop⟩ := v.longest_fold text p v.specialIds v.specialIds_sorted none (by simp)
  rw [← longestAt, h] at hfrom htop
  obtain ⟨hmem, hlen, hmatch⟩ := (hfrom sid rfl).resolve_left (by simp)
  refine ⟨Nat.le_refl _, ?_, fun q hq hlt => absurd hlt (Nat.not_lt.mpr hq), fun s hs => ?_⟩
  · exact v.specialAt_iff_named.mpr ⟨List.mem_filter.mpr ⟨hmem, by simpa using hlen⟩, hmatch⟩
  · obtain ⟨hmem, hmatch⟩ := v.specialAt_iff_named.mp hs
    obtain ⟨hmem, hlen⟩ := List.mem_filter.mp hmem
    obtain ⟨b, hb, hle⟩ := htop s (.inr ⟨hmem, by simpa using hlen, hmatch⟩)
    rwa [← Option.some.inj hb] at hle

theorem scanSpecial_spec (text : Text) (start : ℕ) :
    v.FirstSpecial text start (v.scanSpecial text start) := by
  rw [scanSpecial]
  generalize hn : text.length - start = n
  induction n generalizing start with
  | zero =>
    intro q hq sid hat
    have := hat.occurs.lt_length hat.nonempty
    omega
  | succ n ih =>
    rw [List.range'_succ, List.findSome?_cons]
    cases hlong : v.longestAt text start with
    | some sid => exact v.longestAt_some hlong
    | none =>
      refine (ih (start + 1) (by omega)).extend v (Nat.le_succ _) fun q hq hlt => ?_
      obtain rfl : q = start := by omega
      exact v.longestAt_none.mp hlong

/-- There is one answer. -/
theorem FirstSpecial.unique {r r' : Option (ℕ × ℕ)} (h : v.FirstSpecial text start r)
    (h' : v.FirstSpecial text start r') : r = r' := by
  match r, r' with
  | none, none => rfl
  | none, some (p, sid) => exact absurd h'.2.1 (h p h'.1 sid)
  | some (p, sid), none => exact absurd h.2.1 (h' p h.1 sid)
  | some (p, sid), some (p', sid') =>
    obtain ⟨hp, hat, hbefore, hbest⟩ := h
    obtain ⟨hp', hat', hbefore', hbest'⟩ := h'
    obtain rfl : p = p' := by
      rcases Nat.lt_trichotomy p p' with hlt | heq | hgt
      · exact absurd hat (hbefore' p hp hlt sid)
      · exact heq
      · exact absurd hat' (hbefore p' hp' hgt sid')
    have h1 := hbest sid' hat'
    have h2 := hbest' sid hat
    obtain rfl : sid = sid' := by omega
    rfl

/-- `find_next_special` ends, with what the scan of all special tokens finds: the first place and the
longest token there, of those the one with the smallest id. -/
theorem findNextSpecial_spec (text : Text) (start : ℕ) :
    v.findNextSpecial text start = some (v.scanSpecial text start) ∧
      v.FirstSpecial text start (v.scanSpecial text start) := by
  have hscan := v.scanSpecial_spec text start
  obtain ⟨r, hr, hspec⟩ := v.findNextSpecialFrom_spec text
    (text.length - start + 1) start (Nat.lt_succ_self _)
  rw [hspec.unique v hscan] at hr
  exact ⟨hr, hscan⟩

end Vocab

end Kappai
