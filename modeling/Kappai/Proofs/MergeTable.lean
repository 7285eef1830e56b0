import Kappai.Spec.Bpe
import Mathlib.Algebra.Ring.Nat
import Mathlib.Data.List.Infix
import Mathlib.Data.List.Iterate
import Mathlib.Data.List.TakeWhile

/-! Looking up merge rules. Putting a rule in compares the whole string, but the lookup compares the
right part only as far as the one that is asked for goes; so a longer rule on the way is taken for
the one that is sought. -/

namespace Kappai

/-! ### Rules and their parts -/

def leftPart (rule : Text) : Text := rule.take (rule.idxOf space)

def rightPart (rule : Text) : Text := rule.drop (rule.idxOf space + 1)

/-- The left part is `a` and the right part is `b`. -/
def isRule (a b rule : Text) : Bool :=
  decide (space ∈ rule) && leftPart rule == a && rightPart rule == b

/-- The index of the first rule for a pair. -/
def firstRule (merges : List Text) (a b : Text) : Option ℕ := merges.findIdx? (isRule a b)

/-- What the lookup is to return. -/
def ruleIndex (merges : List Text) (a b : Text) : ℤ :=
  match firstRule merges a b with
  | some i => i
  | none => -1

/-- The rules on the way of a pair, up to the first free slot. -/
def pairChain (merges : List Text) (a b : Text) : List TokHashEntry :=
  OpenTable.chain (mergeHash merges) (probes (mergeCap merges.length) (fnv1aUpdateStr (fnv1a a) b))

/-- No rule with the same left part and a right part that begins like the one asked for stands before
it on its way; and the numbers fit their types. -/
structure Unmasked (merges : List Text) (a b : Text) : Prop where
  fits : ∀ i, firstRule merges a b = some i → a.length < 2 ^ 32 ∧ i < 2 ^ 31
  before : a.length < 2 ^ 32 → ∀ e ∈ (pairChain merges a b).takeWhile (!isRule a b ·.key),
    leftPart e.key = a → ¬ b <+: rightPart e.key

section Parts

variable {a b rule : Text}

theorem rule_eq (h : space ∈ rule) : rule = leftPart rule ++ space :: rightPart rule := by
  have hlt : rule.idxOf space < rule.length := List.idxOf_lt_length_of_mem h
  calc rule = rule.take (rule.idxOf space) ++ rule.drop (rule.idxOf space) := by simp
    _ = leftPart rule ++ space :: rightPart rule := by
        rw [List.drop_eq_getElem_cons hlt, List.getElem_idxOf hlt, leftPart, rightPart]

theorem idxOf_joined (ha : space ∉ a) : (a ++ space :: b).idxOf space = a.length := by
  simp [List.idxOf_append_of_notMem ha]

theorem leftPart_joined (ha : space ∉ a) : leftPart (a ++ space :: b) = a := by
  simp [leftPart, idxOf_joined ha]

theorem rightPart_joined (ha : space ∉ a) : rightPart (a ++ space :: b) = b := by
  simp [rightPart, idxOf_joined ha]

theorem isRule_iff (ha : space ∉ a) : isRule a b rule = true ↔ rule = a ++ space :: b := by
  constructor
  · intro h
    simp only [isRule, Bool.and_eq_true, decide_eq_true_eq, beq_iff_eq] at h
    obtain ⟨⟨hmem, hleft⟩, hright⟩ := h
    rw [rule_eq hmem, hleft, hright]
  · rintro rfl
    simp [isRule, leftPart_joined ha, rightPart_joined ha]

end Parts

/-! ### The entries of the table -/

/-- What `merge_hash_insert` puts in a slot. -/
def ruleEntry (rule : Text) (id : ℤ) : TokHashEntry := ⟨rule, rule.idxOf space % 2 ^ 32, id⟩

/-- The rules that are put in, from rule `i` on. -/
def ruleEntries : ℕ → List Text → List TokHashEntry
  | _, [] => []
  | i, rule :: rest =>
    (if space ∈ rule then [ruleEntry rule (mergeId i)] else []) ++ ruleEntries (i + 1) rest

/-- A left part of 2^32 bytes or more is the same as none, not even its own. -/
def sameEntry (e f : TokHashEntry) : Bool := decide (e.key.idxOf space < 2 ^ 32 ∧ e.key = f.key)

def entryWay (cap : ℕ) (e : TokHashEntry) : List ℕ := probes cap (ruleHash e.key (e.key.idxOf space))

/-- The shape of the entries. -/
structure Ruled (e : TokHashEntry) : Prop where
  rule : space ∈ e.key
  keyLen : e.keyLen = e.key.idxOf space % 2 ^ 32

theorem ruleEntry_ruled {rule : Text} (h : space ∈ rule) (id : ℤ) : Ruled (ruleEntry rule id) := ⟨h, rfl⟩

section Tests

variable {e : TokHashEntry} (he : Ruled e)

include he

/-- A stored length at which a space stands is the true one. -/
theorem Ruled.idxOf_eq (h : e.key[e.keyLen]? = some space) : e.key.idxOf space = e.keyLen := by
  have hle : e.keyLen ≤ e.key.idxOf space := he.keyLen ▸ Nat.mod_le _ _
  refine Nat.le_antisymm ?_ hle
  by_contra hlt
  obtain ⟨hbound, hget⟩ := List.getElem?_eq_some_iff.1 h
  have hnot := List.not_of_lt_findIdx (Nat.lt_of_not_le hlt)
  simp [hget] at hnot

theorem Ruled.keyLen_lt : e.keyLen < 2 ^ 32 := he.keyLen ▸ Nat.mod_lt _ (by decide)

theorem Ruled.sameRule_eq {rule : Text} (hrule : space ∈ rule) (id : ℤ) :
    sameRule rule (rule.idxOf space) e = sameEntry (ruleEntry rule id) e := by
  rw [Bool.eq_iff_iff]
  simp only [sameRule, sameEntry, Bool.and_eq_true, beq_iff_eq, decide_eq_true_eq]
  simp only [ruleEntry]
  constructor
  · rintro ⟨⟨⟨hlen, hleft⟩, hspace⟩, hright⟩
    have hidx := he.idxOf_eq hspace
    refine ⟨hlen ▸ he.keyLen_lt, ?_⟩
    rw [rule_eq hrule, rule_eq he.rule, leftPart, leftPart, rightPart, rightPart, hidx, hright,
      ← hleft, hlen]
  · rintro ⟨hlt, rfl⟩
    have hlen : e.keyLen = e.key.idxOf space := by rw [he.keyLen, Nat.mod_eq_of_lt hlt]
    simp [hlen, List.getElem?_idxOf hrule]

theorem Ruled.ruleHit_iff {a b : Text} (ha : space ∉ a) :
    ruleHit a b e = true ↔ a.length < 2 ^ 32 ∧ leftPart e.key = a ∧ b <+: rightPart e.key := by
  simp only [ruleHit, Bool.and_eq_true, beq_iff_eq, List.isPrefixOf_iff_prefix]
  constructor
  · rintro ⟨⟨⟨hlen, hleft⟩, hspace⟩, hright⟩
    have hidx := he.idxOf_eq (hlen ▸ hspace)
    rw [leftPart, rightPart, hidx, hlen]
    exact ⟨hlen ▸ he.keyLen_lt, hleft, hright⟩
  · rintro ⟨hlt, hleft, hright⟩
    have hidx : e.key.idxOf space = a.length := by
      rw [rule_eq he.rule, hleft, idxOf_joined ha]
    rw [leftPart, hidx] at hleft
    rw [rightPart, hidx] at hright
    refine ⟨⟨⟨by rw [he.keyLen, hidx, Nat.mod_eq_of_lt hlt], hleft⟩, ?_⟩, hright⟩
    rw [← hidx, List.getElem?_idxOf he.rule]

end Tests

/-! ### The table as it is built -/

theorem probes_whole (k : ℕ) (h : UInt64) : ∀ q ∈ Finset.range (2 ^ k), q ∈ probes (2 ^ k) h := by
  intro q hq
  have hq : q < 2 ^ k := Finset.mem_range.1 hq
  have hpos : 0 < 2 ^ k := Nat.two_pow_pos k
  set f : ℕ → ℕ := fun q => (q + 1) &&& (2 ^ k - 1)
  have hiter : ∀ n, f^[n] (h.toNat &&& (2 ^ k - 1)) = (h.toNat + n) % 2 ^ k := by
    intro n
    induction n with
    | zero => simp
    | succ n ih =>
      rw [Function.iterate_succ_apply', ih]
      simp [f, Nat.add_assoc]
  refine List.mem_iterate.2 ⟨(q + (2 ^ k - h.toNat % 2 ^ k)) % 2 ^ k, Nat.mod_lt _ hpos, ?_⟩
  have hlt : h.toNat % 2 ^ k < 2 ^ k := Nat.mod_lt _ hpos
  rw [hiter, Nat.add_mod_mod, ← Nat.mod_add_mod,
    show h.toNat % 2 ^ k + (q + (2 ^ k - h.toNat % 2 ^ k)) = q + 2 ^ k by omega,
    Nat.add_mod_right, Nat.mod_eq_of_lt hq]

theorem mergeCapLoop_spec (want n j : ℕ) (h : want ≤ 2 ^ (j + n)) :
    ∃ k, mergeCapLoop want n (2 ^ j) = 2 ^ k ∧ want ≤ 2 ^ k := by
  induction n generalizing j with
  | zero => exact ⟨j, rfl, h⟩
  | succ n ih =>
    rw [mergeCapLoop]
    split_ifs with hlt
    · have hshift : 2 ^ j <<< 1 = 2 ^ (j + 1) := by simp [Nat.shiftLeft_eq, Nat.pow_succ]
      rw [hshift]
      exact ih (j + 1) (by rwa [Nat.add_right_comm])
    · exact ⟨j, rfl, Nat.le_of_not_lt hlt⟩

/-- There is always a free slot. -/
theorem mergeCap_spec (n : ℕ) : ∃ k, mergeCap n = 2 ^ k ∧ n < 2 ^ k := by
  obtain ⟨k, hk, hle⟩ := mergeCapLoop_spec (n * 2) (n * 2) 0
    (by rw [Nat.zero_add]; exact Nat.lt_two_pow_self.le)
  refine ⟨k, by simpa [mergeCap] using hk, ?_⟩
  have hpos : 0 < 2 ^ k := Nat.two_pow_pos k
  omega

theorem fits_entries (k : ℕ) :
    OpenTable.Fits sameEntry (entryWay (2 ^ k)) (Finset.range (2 ^ k)) where
  alike e f h := by
    have hkey : e.key = f.key := (of_decide_eq_true h).2
    exact ⟨funext fun g => by simp [sameEntry, hkey], by simp [entryWay, hkey]⟩
  whole e := probes_whole k _

theorem ruleEntries_ruled {i : ℕ} {merges : List Text} {e : TokHashEntry}
    (h : e ∈ ruleEntries i merges) : Ruled e := by
  induction merges generalizing i with
  | nil => cases h
  | cons rule rest ih =>
    rw [ruleEntries, List.mem_append] at h
    rcases h with h | h
    · split_ifs at h with hrule
      · exact List.mem_singleton.1 h ▸ ruleEntry_ruled hrule _
      · cases h
    · exact ih h

theorem length_ruleEntries (i : ℕ) (merges : List Text) :
    (ruleEntries i merges).length ≤ merges.length := by
  induction merges generalizing i with
  | nil => simp [ruleEntries]
  | cons rule rest ih =>
    have hrest := ih (i + 1)
    rw [ruleEntries, List.length_append, List.length_cons]
    split_ifs
    · simp only [List.length_singleton]
      omega
    · simp only [List.length_nil]
      omega

theorem insertMerges_eq {cap i : ℕ} {merges : List Text} {ht : TokHash}
    (h : ∀ q e, ht q = some e → Ruled e) :
    insertMerges cap i merges ht =
      OpenTable.insertAll sameEntry (entryWay cap) ht (ruleEntries i merges) := by
  induction merges generalizing i ht with
  | nil => rfl
  | cons rule rest ih =>
    rw [insertMerges, ruleEntries]
    split_ifs with hrule
    · have hone : mergeHashInsert ht cap rule (rule.idxOf space) (mergeId i) =
          OpenTable.insert ht (sameEntry (ruleEntry rule (mergeId i))) (ruleEntry rule (mergeId i))
            (entryWay cap (ruleEntry rule (mergeId i))) := by
        rw [mergeHashInsert, OpenTable.insert, OpenTable.insert,
          OpenTable.freeSlot_congr fun q e he => (h q e he).sameRule_eq hrule (mergeId i)]
        rfl
      rw [ih, hone]
      · rfl
      · intro q e he
        rw [hone] at he
        rcases OpenTable.insert_some he with rfl | he
        · exact ruleEntry_ruled hrule _
        · exact h q e he
    · exact ih h

section Table

variable (merges : List Text)

theorem mergeHash_filed : ∃ k, mergeCap merges.length = 2 ^ k ∧ merges.length < 2 ^ k ∧
    OpenTable.Filed sameEntry (entryWay (2 ^ k)) (Finset.range (2 ^ k)) (ruleEntries 0 merges)
      (mergeHash merges) := by
  obtain ⟨k, hk, hlt⟩ := mergeCap_spec merges.length
  refine ⟨k, hk, hlt, ?_⟩
  rw [mergeHash, insertMerges_eq fun q e he => by simp at he, hk]
  refine OpenTable.Filed.insertAll (fits_entries k) _ ?_
  have hle := length_ruleEntries 0 merges
  rw [Finset.card_range]
  omega

theorem mergeHash_mem {q : ℕ} {e : TokHashEntry} (h : mergeHash merges q = some e) :
    e ∈ ruleEntries 0 merges := by
  obtain ⟨k, -, -, hfiled⟩ := mergeHash_filed merges
  exact hfiled.kept q e h

/-- Every walk ends. -/
theorem mergeHash_free (h : UInt64) :
    ((probes (mergeCap merges.length) h).any fun q => (mergeHash merges q).isNone) = true := by
  obtain ⟨k, hk, hlt, hfiled⟩ := mergeHash_filed merges
  have hroom : OpenTable.filled (mergeHash merges) (Finset.range (2 ^ k)) <
      (Finset.range (2 ^ k)).card := by
    have hle := length_ruleEntries 0 merges
    have hfill := hfiled.room
    rw [Finset.card_range]
    omega
  obtain ⟨q, hq, hfree⟩ := OpenTable.exists_free hroom (probes_whole k h)
  rw [hk]
  exact List.any_eq_true.2 ⟨q, hq, by simp [hfree]⟩

end Table

/-! ### Looking a rule up -/

section Lookup

variable {merges : List Text} {a b : Text}

theorem pairChain_ruled {e : TokHashEntry} (h : e ∈ pairChain merges a b) :
    e ∈ ruleEntries 0 merges ∧ Ruled e := by
  obtain ⟨q, -, hq⟩ := OpenTable.mem_chain h
  exact ⟨mergeHash_mem merges hq, ruleEntries_ruled (mergeHash_mem merges hq)⟩

/-- The ids of the entries are the indices of their rules. -/
theorem ruleEntries_id {i : ℕ} {e : TokHashEntry} (h : e ∈ ruleEntries i merges) :
    ∃ j, merges[j]? = some e.key ∧ e.id = mergeId (i + j) := by
  induction merges generalizing i with
  | nil => cases h
  | cons rule rest ih =>
    rw [ruleEntries, List.mem_append] at h
    rcases h with h | h
    · split_ifs at h
      · obtain rfl := List.mem_singleton.1 h
        exact ⟨0, by simp [ruleEntry], by simp [ruleEntry]⟩
      · cases h
    · obtain ⟨j, hj, hid⟩ := ih h
      exact ⟨j + 1, by simpa using hj, by rw [hid, Nat.add_right_comm, Nat.add_assoc]⟩

theorem ruleEntries_find? (ha : space ∉ a) (i : ℕ) (merges : List Text) :
    ((ruleEntries i merges).find? fun e => isRule a b e.key).map TokHashEntry.id =
      (firstRule merges a b).map fun j => mergeId (i + j) := by
  induction merges generalizing i with
  | nil => rfl
  | cons rule rest ih =>
    rw [ruleEntries, firstRule, List.find?_append, List.findIdx?_cons]
    by_cases hrule : isRule a b rule = true
    · have hmem : space ∈ rule := by simp [(isRule_iff ha).1 hrule]
      simp [hmem, hrule, ruleEntry]
    · have hnone : (if space ∈ rule then [ruleEntry rule (mergeId i)] else []).find?
          (fun e => isRule a b e.key) = none := by
        split_ifs
        · simpa [ruleEntry] using hrule
        · rfl
      rw [hnone, Option.none_or, ih]
      simp [hrule, firstRule, Function.comp_def, Nat.add_assoc, Nat.add_comm 1]

/-- With the whole strings compared the walk finds the first rule. -/
theorem pairChain_find? (merges : List Text) (ha : space ∉ a) (hlen : a.length < 2 ^ 32) :
    ((pairChain merges a b).find? fun e => isRule a b e.key).map TokHashEntry.id =
      (firstRule merges a b).map mergeId := by
  obtain ⟨k, hk, -, hfiled⟩ := mergeHash_filed merges
  set pair := ruleEntry (a ++ space :: b) 0 with hpair
  have hidx : pair.key.idxOf space = a.length := idxOf_joined ha
  have hself : sameEntry pair pair = true := decide_eq_true ⟨hidx.symm ▸ hlen, rfl⟩
  have hway : entryWay (2 ^ k) pair =
      probes (mergeCap merges.length) (fnv1aUpdateStr (fnv1a a) b) := by
    rw [entryWay, hidx, hk, ruleHash]
    simp [hpair, ruleEntry]
  have hsame : ∀ e : TokHashEntry, sameEntry pair e = isRule a b e.key := by
    intro e
    rw [Bool.eq_iff_iff, isRule_iff ha]
    simp only [sameEntry, decide_eq_true_eq]
    exact ⟨fun h => h.2.symm, fun h => ⟨hidx.symm ▸ hlen, h.symm⟩⟩
  have hfound := hfiled.found pair hself
  rw [hway, funext hsame] at hfound
  rw [pairChain, hfound, ruleEntries_find? ha 0 merges]
  simp

/-- What comes first of two kinds, one of which is part of the other. -/
theorem find?_or_takeWhile {α : Type*} {p r : α → Bool} (xs : List α)
    (h : ∀ x ∈ xs, r x = true → p x = true) :
    xs.find? p = ((xs.takeWhile (!r ·)).find? p).or (xs.find? r) := by
  induction xs with
  | nil => rfl
  | cons x xs ih =>
    have hrest := ih fun y hy => h y (List.mem_cons_of_mem _ hy)
    by_cases hr : r x = true
    · simp [hr, h x (by simp) hr]
    · by_cases hp : p x = true
      · simp [hr, hp]
      · simpa [hr, hp] using hrest

theorem pairLookup_eq : pairLookup merges a b =
    some ((((pairChain merges a b).find? (ruleHit a b)).map TokHashEntry.id).getD (-1)) := by
  rw [pairLookup, mergeHashLookupH, mergeHash_free, pairChain]
  cases (OpenTable.chain (mergeHash merges) (probes (mergeCap merges.length)
    (fnv1aUpdateStr (fnv1a a) b))).find? (ruleHit a b) <;> rfl

end Lookup

/-! ### When the lookup is exact -/

section Exact

variable {merges : List Text} {a b : Text}

theorem mergeId_emod (i : ℕ) : mergeId i % 4294967296 = (i : ℤ) % 4294967296 := Int.bmod_emod

theorem mergeId_lt (i : ℕ) : mergeId i < 2147483648 := Int.bmod_lt (by decide)

theorem mergeId_of_lt {i : ℕ} (h : i < 2 ^ 31) : mergeId i = i :=
  Int.bmod_eq_of_le (by omega) (by omega)

/-- Ids name rules apart, in a list of up to 2^32. -/
theorem mergeId_inj {i j : ℕ} (hi : i < 2 ^ 32) (hj : j < 2 ^ 32) (h : mergeId i = i)
    (hij : mergeId j = i) : i = j := by
  have hemod := mergeId_emod j
  rw [hij] at hemod
  omega

theorem lt_of_mergeId {i : ℕ} (h : mergeId i = i) : i < 2 ^ 31 := by
  have hlt := mergeId_lt i
  omega

theorem mergeId_ne {j : ℕ} (hj : j < 2 ^ 32 - 1) : mergeId j ≠ -1 := by
  intro h
  have hemod := mergeId_emod j
  rw [h] at hemod
  omega

theorem firstRule_lt {i : ℕ} (h : firstRule merges a b = some i) : i < merges.length := by
  rw [firstRule, List.findIdx?_eq_some_iff_getElem] at h
  exact h.1

/-- What a walk finds before the rule itself is not the rule. -/
theorem masked_id {e : TokHashEntry} (hlen : merges.length < 2 ^ 32)
    (h : ((pairChain merges a b).takeWhile (!isRule a b ·.key)).find? (ruleHit a b) = some e) :
    e.id ≠ ruleIndex merges a b := by
  have hmem := List.mem_of_find?_eq_some h
  have hnot : isRule a b e.key = false := by simpa using List.mem_takeWhile_imp hmem
  obtain ⟨j, hj, hid⟩ :=
    ruleEntries_id (pairChain_ruled (List.takeWhile_subset _ hmem)).1
  obtain ⟨hjlt, hkey⟩ := List.getElem?_eq_some_iff.1 hj
  rw [Nat.zero_add] at hid
  rw [hid, ruleIndex]
  cases hfirst : firstRule merges a b with
  | none => exact mergeId_ne (by omega)
  | some i =>
    intro heq
    rw [firstRule, List.findIdx?_eq_some_iff_getElem] at hfirst
    obtain ⟨hilt, hrule, -⟩ := hfirst
    have hij : i = j := by
      have heq : mergeId j = i := heq
      have hsmall := mergeId_lt j
      exact mergeId_inj (by omega) (by omega) (mergeId_of_lt (by omega)) heq
    subst hij
    simp [hkey, hnot] at hrule

/-- A lookup gives the index of the first rule for the pair, or -1, exactly where no rule that goes
on after it masks it; in a list of 2^32 rules and more it is still so where none does. -/
theorem pairLookup_exact (ha : space ∉ a) :
    (Unmasked merges a b → pairLookup merges a b = some (ruleIndex merges a b)) ∧
    (merges.length < 2 ^ 32 → pairLookup merges a b = some (ruleIndex merges a b) →
      Unmasked merges a b) := by
  have hhit : ∀ e ∈ pairChain merges a b, ruleHit a b e = true ↔
      a.length < 2 ^ 32 ∧ leftPart e.key = a ∧ b <+: rightPart e.key :=
    fun e he => (pairChain_ruled he).2.ruleHit_iff ha
  rw [pairLookup_eq, Option.some_inj]
  by_cases hlen : a.length < 2 ^ 32
  swap
  · -- no entry has so long a left part, not even the rule itself
    have hnone : (pairChain merges a b).find? (ruleHit a b) = none :=
      List.find?_eq_none.2 fun e he h => hlen ((hhit e he).1 h).1
    rw [hnone, ruleIndex]
    cases hfirst : firstRule merges a b with
    | none => exact ⟨fun _ => rfl, fun _ _ => ⟨fun i hi => by simp [hfirst] at hi, fun h => absurd h hlen⟩⟩
    | some i =>
      exact ⟨fun h => absurd (h.fits i hfirst).1 hlen, fun _ h => by simp at h⟩
  have hwhole : ∀ e ∈ pairChain merges a b, isRule a b e.key = true → ruleHit a b e = true := by
    intro e he hrule
    have hkey := (isRule_iff ha).1 hrule
    exact (hhit e he).2 ⟨hlen, by rw [hkey, leftPart_joined ha], by rw [hkey, rightPart_joined ha]⟩
  have hfind := pairChain_find? merges (b := b) ha hlen
  rw [find?_or_takeWhile _ hwhole]
  cases hmask : ((pairChain merges a b).takeWhile (!isRule a b ·.key)).find? (ruleHit a b) with
  | some e =>
    have hmem := List.mem_of_find?_eq_some hmask
    have hbegin := (hhit e (List.takeWhile_subset _ hmem)).1 (List.find?_some hmask)
    exact ⟨fun h => absurd hbegin.2.2 (h.before hlen e hmem hbegin.2.1),
      fun hn h => absurd h (masked_id hn hmask)⟩
  | none =>
    have hbefore : ∀ e ∈ (pairChain merges a b).takeWhile (!isRule a b ·.key),
        leftPart e.key = a → ¬ b <+: rightPart e.key := by
      intro e he hleft hright
      exact List.find?_eq_none.1 hmask e he ((hhit e (List.takeWhile_subset _ he)).2 ⟨hlen, hleft, hright⟩)
    rw [Option.none_or, hfind, ruleIndex]
    cases hfirst : firstRule merges a b with
    | none => exact ⟨fun _ => rfl, fun _ _ => ⟨fun i hi => by simp [hfirst] at hi, fun _ => hbefore⟩⟩
    | some i =>
      rw [Option.map_some, Option.getD_some]
      simp only
      refine ⟨fun h => mergeId_of_lt (h.fits i hfirst).2, fun _ h => ⟨fun j hj => ?_, fun _ => hbefore⟩⟩
      obtain rfl : i = j := Option.some.inj (hfirst.symm.trans hj)
      exact ⟨hlen, lt_of_mergeId h⟩

end Exact

/-- With the rule `t hr` alone, `t` and `h` are taken for its parts. -/
theorem pairLookup_prefix :
    pairLookup ["t hr".toUTF8.toList] "t".toUTF8.toList "h".toUTF8.toList = some 0 ∧
      ruleIndex ["t hr".toUTF8.toList] "t".toUTF8.toList "h".toUTF8.toList = -1 := by
  decide +kernel

theorem pairLookup_exact_th :
    space ∉ [0x74] ∧ pairLookup [[0x74, space, 0x68]] [0x74] [0x68] = some 0 := by
  have hspace : space ∉ [0x74] := by decide
  have hfirst : firstRule [[0x74, space, 0x68]] [0x74] [0x68] = some 0 := by decide
  refine ⟨hspace, (pairLookup_exact hspace).1 ⟨fun i hi => ?_, fun _ => by decide +kernel⟩⟩
  obtain rfl : 0 = i := Option.some.inj (hfirst.symm.trans hi)
  decide

end Kappai
