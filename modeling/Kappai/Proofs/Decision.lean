import Mathlib.Data.List.Forall2
import Kappai.Spec.Decision

/-! Assembling a prompt puts the spans of its pieces one after the other, and with a span cache it gives
the same as long as the key tells the shared pieces apart. -/

namespace Kappai

namespace Decision

/-- The prefix pieces, then the state if there is one, then the tail pieces. -/
structure InOrder (ps pre st tail : List Piece) : Prop where
  split : ps = pre ++ st ++ tail
  pre : ∀ p ∈ pre, p.isState = false ∧ p.shared = true
  tail : ∀ p ∈ tail, p.isState = false ∧ p.shared = false
  st : st = [] ∨ ∃ p, st = [p] ∧ p.isState = true ∧ p.shared = true

section Layout

variable {ops : Ops} {lim : Limits}

/-- Behind the state there are only tail pieces. -/
theorem readPieces_tail {texts : List Text} {ps : List Piece} (h : readPieces ops lim true texts = some ps) :
    ∀ p ∈ ps, p.isState = false ∧ p.shared = false := by
  induction texts generalizing ps with
  | nil =>
    obtain rfl : [] = ps := Option.some.inj h
    simp
  | cons t texts ih =>
    simp only [readPieces, Bool.and_true, Bool.true_or, Bool.not_true, Bool.or_false] at h
    split_ifs at h with hk
    obtain ⟨qs, hqs, rfl⟩ := Option.map_eq_some_iff.1 h
    rw [Bool.not_eq_true] at hk
    intro p hp
    rcases List.mem_cons.1 hp with rfl | hp
    · exact ⟨hk, hk⟩
    · exact ih hqs p hp

theorem readPieces_inOrder {texts : List Text} {ps : List Piece}
    (h : readPieces ops lim false texts = some ps) : ∃ pre st tail, InOrder ps pre st tail := by
  induction texts generalizing ps with
  | nil =>
    obtain rfl : [] = ps := Option.some.inj h
    exact ⟨[], [], [], ⟨rfl, by simp, by simp, Or.inl rfl⟩⟩
  | cons t texts ih =>
    simp only [readPieces, Bool.and_false, Bool.false_or, Bool.not_false, Bool.or_true] at h
    rw [if_neg Bool.false_ne_true] at h
    obtain ⟨qs, hqs, rfl⟩ := Option.map_eq_some_iff.1 h
    cases hk : (kindOf ops lim t).2.2 with
    | true =>
      rw [hk] at hqs
      exact ⟨[], [⟨_, _, true, true⟩], qs, ⟨rfl, by simp, readPieces_tail hqs, Or.inr ⟨_, rfl, rfl, rfl⟩⟩⟩
    | false =>
      rw [hk] at hqs
      obtain ⟨pre, st, tail, rfl, hpre, htail, hst⟩ := ih hqs
      refine ⟨⟨_, _, false, true⟩ :: pre, st, tail, ⟨rfl, fun p hp => ?_, htail, hst⟩⟩
      rcases List.mem_cons.1 hp with rfl | hp
      · exact ⟨rfl, rfl⟩
      · exact hpre p hp

theorem layout_inOrder {prompt : Text} {ps : List Piece} (h : layout ops lim prompt = some ps) :
    ∃ pre st tail, InOrder ps pre st tail :=
  readPieces_inOrder (Option.filter_eq_some_iff.1 h).1

namespace InOrder

variable {ps pre st tail : List Piece} (h : InOrder ps pre st tail)
include h

theorem st_marked : ∀ p ∈ st, p.isState = true ∧ p.shared = true := by
  rcases h.st with rfl | ⟨p, rfl, hp⟩
  · simp
  · simpa using hp

theorem filter_shared : ps.filter (·.shared) = pre ++ st := by
  rw [h.split, List.filter_append, List.filter_append,
    List.filter_eq_self.2 fun p hp => (h.pre p hp).2, List.filter_eq_self.2 fun p hp => (h.st_marked p hp).2,
    List.filter_eq_nil_iff.2 fun p hp => by simp [(h.tail p hp).2], List.append_nil]

/-- The pieces are already where `meaning` puts them. -/
theorem filters : ps.filter (fun p => p.shared && !p.isState) ++ ps.filter (·.isState) ++
    ps.filter (fun p => !p.shared) = ps := by
  have hpre : ps.filter (fun p => p.shared && !p.isState) = pre := by
    rw [h.split, List.filter_append, List.filter_append,
      List.filter_eq_self.2 fun p hp => by simp [h.pre p hp],
      List.filter_eq_nil_iff.2 fun p hp => by simp [h.st_marked p hp],
      List.filter_eq_nil_iff.2 fun p hp => by simp [(h.tail p hp).2], List.append_nil, List.append_nil]
  have hst : ps.filter (·.isState) = st := by
    rw [h.split, List.filter_append, List.filter_append,
      List.filter_eq_nil_iff.2 fun p hp => by simp [h.pre p hp],
      List.filter_eq_self.2 fun p hp => (h.st_marked p hp).1,
      List.filter_eq_nil_iff.2 fun p hp => by simp [(h.tail p hp).1], List.nil_append, List.append_nil]
  have htail : ps.filter (fun p => !p.shared) = tail := by
    rw [h.split, List.filter_append, List.filter_append,
      List.filter_eq_nil_iff.2 fun p hp => by simp [h.pre p hp],
      List.filter_eq_nil_iff.2 fun p hp => by simp [h.st_marked p hp],
      List.filter_eq_self.2 fun p hp => by simp [(h.tail p hp).2], List.nil_append, List.nil_append]
  rw [hpre, hst, htail, h.split]

end InOrder

end Layout

variable {τ : Type} {encode : Text → Option (List τ)}

section Spans

variable {ps qs : List Piece}

@[simp] theorem spans_nil : spans encode [] = some [] := rfl

theorem spans_append :
    spans encode (ps ++ qs) = (spans encode ps).bind fun l => (spans encode qs).map (l ++ ·) := by
  simp only [spans, List.mapM_append]
  cases ps.mapM fun p : Piece => p.span encode with
  | none => rfl
  | some l =>
    cases qs.mapM fun p : Piece => p.span encode with
    | none => rfl
    | some r => simp

theorem spans_singleton (p : Piece) : spans encode [p] = p.span encode := by
  simp only [spans, List.mapM_cons, List.mapM_nil]
  cases p.span encode with
  | none => rfl
  | some l => simp

theorem spans_cons (p : Piece) :
    spans encode (p :: ps) = (p.span encode).bind fun l => (spans encode ps).map (l ++ ·) := by
  rw [← spans_singleton, ← spans_append, List.singleton_append]

/-- Where the shared pieces do the same, their spans are the same. -/
theorem spans_congr (h : List.Forall₂ (fun p q : Piece => p.text = q.text ∧
    ∀ ids ∈ encode p.text, min p.limit ids.length = min q.limit ids.length) ps qs) :
    spans encode ps = spans encode qs := by
  induction h with
  | nil => rfl
  | @cons p q ps qs hpq _ ih =>
    have hspan : p.span encode = q.span encode := by
      rw [Piece.span, Piece.span, ← hpq.1]
      refine Option.map_congr fun ids hids => ?_
      rw [List.take_eq_take_min (i := p.limit), hpq.2 ids hids, ← List.take_eq_take_min]
    rw [spans_cons, spans_cons, hspan, ih]

end Spans


/-- `ids` begins with what was written, and the counters say how much that is. -/
structure Holds (total : ℕ) (a : Assembly τ) (ids : List τ) : Prop where
  size : a.ids.length = total
  written : ids.map some <+: a.ids
  count : a.nPrefix + a.nState + a.nTail = ids.length

/-- Either `ids` is all there and fits and `r` holds it, or `r` is the error. -/
inductive Fills (total : ℕ) (r : Except Stop (Assembly τ)) (ids : Option (List τ))
    (P : List τ → Assembly τ → Prop) : Prop
  | done (l : List τ) (a : Assembly τ) (hids : ids = some l) (hr : r = .ok a) (h : Holds total a l) (hP : P l a)
  | stop (hids : ∀ l, ids = some l → total < l.length) (hr : r = .error .errInvalidArg)

section Fill

variable {total : ℕ} {a : Assembly τ} {ids : List τ} {P Q : List τ → Assembly τ → Prop}

theorem Holds.length_le (h : Holds total a ids) : ids.length ≤ total := by
  have := h.written.length_le
  rwa [List.length_map, h.size] at this

theorem take_written {cells : List (Option τ)} (hw : ids.map some <+: cells) :
    cells.take ids.length = ids.map some := by
  have := List.prefix_iff_eq_take.1 hw
  rw [List.length_map] at this
  exact this.symm

/-- A copy behind what is written. -/
theorem copyTo_append {cells : List (Option τ)} (span : List τ) (hw : ids.map some <+: cells)
    (hfit : ids.length + span.length ≤ cells.length) :
    ∃ cells', copyTo cells ids.length (span.map some) = .ok cells' ∧ cells'.length = cells.length ∧
      (ids ++ span).map some <+: cells' := by
  have htake := take_written hw
  refine ⟨_, if_pos (by rwa [List.length_map]), ?_, ?_⟩
  · rw [htake, List.length_append, List.length_append, List.length_drop, List.length_map,
      List.length_map]
    omega
  · rw [htake, List.map_append]
    exact List.prefix_append _ _

theorem Fills.bind {r : Except Stop (Assembly τ)} {all more : Option (List τ)}
    {f : Assembly τ → Except Stop (Assembly τ)} (h : Fills total r all P)
    (hf : ∀ l a, all = some l → Holds total a l → P l a → Fills total (f a) (more.map (l ++ ·)) Q) :
    Fills total (r.bind f) (all.bind fun l => more.map (l ++ ·)) Q := by
  induction h with
  | done l a hids hr h hP =>
    have := hf l a hids h hP
    rw [hids, hr]
    exact this
  | stop hids hr =>
    refine .stop (fun l hl => ?_) (by rw [hr]; rfl)
    obtain ⟨k, hk, hl⟩ := Option.bind_eq_some_iff.1 hl
    obtain ⟨m, -, rfl⟩ := Option.map_eq_some_iff.1 hl
    rw [List.length_append]
    exact Nat.lt_of_lt_of_le (hids k hk) (Nat.le_add_right _ _)

theorem Fills.mono {r : Except Stop (Assembly τ)} {all : Option (List τ)} (h : Fills total r all P)
    (hPQ : ∀ l a, Holds total a l → P l a → Q l a) : Fills total r all Q := by
  induction h with
  | done l a hids hr h hP => exact .done l a hids hr h (hPQ l a h hP)
  | stop hids hr => exact .stop hids hr

/-- One piece puts its span behind the others; a prefix piece leaves the tail counter, a tail piece the
other two. -/
theorem addPiece_fills (encode : Text → Option (List τ)) (hit : Bool) (pc : Piece) (h : Holds total a ids)
    (hskip : (pc.shared && hit) = false) (hstate : pc.isState = true → a.nState = 0 ∧ a.nTail = 0) :
    Fills total (addPiece encode total hit a pc) ((pc.span encode).map (ids ++ ·)) fun _ a' =>
      (pc.isState = false → a'.nState = a.nState) ∧
      (pc.isState = true ∨ pc.shared = true → a'.nTail = a.nTail) ∧
      (pc.isState = true ∨ pc.shared = false → a'.nPrefix = a.nPrefix) := by
  rw [addPiece, if_neg (by rw [hskip]; exact Bool.false_ne_true)]
  cases hspan : pc.span encode with
  | none => exact .stop (fun l hl => by cases hl) rfl
  | some span =>
    have hoff : (if pc.isState then a.nPrefix else a.nPrefix + a.nState + a.nTail) = ids.length := by
      split_ifs with hs
      · have := hstate hs
        have := h.count
        omega
      · exact h.count
    simp only [hoff]
    by_cases hfit : ids.length + span.length > total
    · rw [if_pos hfit]
      refine .stop (fun l hl => ?_) rfl
      obtain rfl := Option.some.inj hl
      rw [List.length_append]
      exact hfit
    · obtain ⟨cells, hcopy, hlen, hw⟩ := copyTo_append span h.written (by rw [h.size]; omega)
      have hcount := h.count
      rw [if_neg hfit, hcopy]
      by_cases hs : pc.isState
      · refine .done (ids ++ span) { a with ids := cells, nState := span.length } rfl ?_
          ⟨hlen.trans h.size, hw, ?_⟩ ?_
        · simp [Except.map, hs]
        · have := hstate hs
          rw [List.length_append]
          simp only
          omega
        · simp [hs]
      · by_cases hsh : pc.shared
        · refine .done (ids ++ span) { a with ids := cells, nPrefix := a.nPrefix + span.length } rfl ?_
            ⟨hlen.trans h.size, hw, ?_⟩ ?_
          · simp [Except.map, hs, hsh]
          · rw [List.length_append]
            simp only
            omega
          · simp [hs, hsh]
        · refine .done (ids ++ span) { a with ids := cells, nTail := a.nTail + span.length } rfl ?_
            ⟨hlen.trans h.size, hw, ?_⟩ ?_
          · simp [Except.map, hs, hsh]
          · rw [List.length_append]
            simp only
            omega
          · simp [hs, hsh]

/-- Pieces of one kind, none of them the state. -/
theorem addPieces_fills (encode : Text → Option (List τ)) (hit : Bool) {b : Bool} {ps : List Piece} (hb : ∀ p ∈ ps, p.isState = false ∧ p.shared = b)
    (hskip : (b && hit) = false) (h : Holds total a ids) :
    Fills total (ps.foldlM (addPiece encode total hit) a) ((spans encode ps).map (ids ++ ·)) fun _ a' =>
      a'.nState = a.nState ∧ (b = true → a'.nTail = a.nTail) ∧ (b = false → a'.nPrefix = a.nPrefix) := by
  induction ps generalizing a ids with
  | nil =>
    refine .done ids a ?_ rfl h ⟨rfl, fun _ => rfl, fun _ => rfl⟩
    simp
  | cons p ps ih =>
    have hp := hb p List.mem_cons_self
    have hstep := addPiece_fills encode hit p h (by rw [hp.2, hskip])
      fun hs => absurd (hp.1.symm.trans hs) Bool.false_ne_true
    have hall : (spans encode (p :: ps)).map (ids ++ ·) =
        ((p.span encode).map (ids ++ ·)).bind fun l => (spans encode ps).map (l ++ ·) := by
      rw [spans_cons]
      cases p.span encode with
      | none => rfl
      | some l => cases spans encode ps <;> simp
    rw [List.foldlM_cons, hall]
    refine hstep.bind fun l a' _ ha' hcnt => (ih (fun q hq => hb q (List.mem_cons_of_mem _ hq)) ha').mono ?_
    rintro _ a'' - ⟨hst, htail, hpre⟩
    exact ⟨hst.trans (hcnt.1 hp.1), fun hb' => (htail hb').trans (hcnt.2.1 (Or.inr (hp.2.trans hb'))),
      fun hb' => (hpre hb').trans (hcnt.2.2 (Or.inr (hp.2.trans hb')))⟩

end Fill

section Assemble

variable {total : ℕ} {ps pre st tail : List Piece} {cache : Option (SpanCache τ)}

theorem holds_blank (τ : Type) (total : ℕ) : Holds total (⟨List.replicate total none, 0, 0, 0⟩ : Assembly τ) [] :=
  ⟨List.length_replicate, List.nil_prefix, rfl⟩

/-- The shared pieces from nothing. -/
theorem addShared_fills (hord : InOrder ps pre st tail) :
    Fills total ((pre ++ st).foldlM (addPiece encode total false) ⟨List.replicate total none, 0, 0, 0⟩)
      (spans encode (pre ++ st)) fun _ a => a.nTail = 0 := by
  have hpre := addPieces_fills encode false hord.pre rfl (holds_blank τ total)
  have hid : (spans encode pre).map (([] : List τ) ++ ·) = spans encode pre := by simp
  rw [hid] at hpre
  rw [List.foldlM_append, spans_append]
  refine hpre.bind fun l a _ ha hcnt => ?_
  rcases hord.st with rfl | ⟨p, rfl, hp⟩
  · exact .done l a (by simp) rfl ha (hcnt.2.1 rfl)
  · rw [spans_singleton, List.foldlM_cons]
    have hstep := addPiece_fills encode false p ha (by simp)
      fun _ => ⟨hcnt.1, hcnt.2.1 rfl⟩
    have hone : (p.span encode).map (l ++ ·) =
        ((p.span encode).map (l ++ ·)).bind fun m => (some []).map (m ++ ·) := by
      cases p.span encode <;> simp
    rw [hone]
    exact hstep.bind fun m a' _ ha' hcnt' =>
      .done m a' (by simp) rfl ha' ((hcnt'.2.1 (Or.inl hp.1)).trans (hcnt.2.1 rfl))

/-- Without a hit everything is encoded; the first two counters count the shared pieces. -/
theorem fill_miss (encode : Text → Option (List τ)) (hord : InOrder ps pre st tail) (hmiss : isHit cache (keyOf ps) = false) :
    Fills total (fill encode total cache ps) (spans encode ps) fun _ a =>
      ∃ l, spans encode (pre ++ st) = some l ∧ a.nPrefix + a.nState = l.length := by
  have hstart : start total cache (keyOf ps) = .ok ⟨List.replicate total none, 0, 0, 0⟩ := by
    induction cache with
    | none => rfl
    | some c =>
      have hnone : (some c).filter (fun c => isHit (some c) (keyOf ps)) = none := by
        rw [Option.filter_some, hmiss]
        rfl
      rw [start, hnone]
  have hloop : fill encode total cache ps =
      ((pre ++ st).foldlM (addPiece encode total false) ⟨List.replicate total none, 0, 0, 0⟩).bind fun a =>
        tail.foldlM (addPiece encode total false) a := by
    rw [fill, hstart, hmiss]
    conv_lhs => rw [hord.split]
    exact List.foldlM_append
  rw [hloop, hord.split, spans_append]
  refine (addShared_fills hord).bind fun l a hl ha htail => ?_
  refine (addPieces_fills encode false hord.tail rfl ha).mono fun _ a' _ hcnt => ?_
  refine ⟨l, hl, ?_⟩
  have := ha.count
  rw [hcnt.1, hcnt.2.2 rfl]
  omega

/-- A hit passes over the shared pieces. -/
theorem addShared_hit {a : Assembly τ} (hps : ∀ p ∈ ps, p.shared = true) :
    ps.foldlM (addPiece encode total true) a = .ok a := by
  induction ps with
  | nil => rfl
  | cons p ps ih =>
    have hp : addPiece encode total true a p = .ok a := by
      rw [addPiece, hps p List.mem_cons_self]
      rfl
    rw [List.foldlM_cons, hp]
    exact ih fun q hq => hps q (List.mem_cons_of_mem _ hq)

/-- A cache that holds the spans of the shared pieces. -/
theorem fill_hit {c : SpanCache τ} {l : List τ} (hord : InOrder ps pre st tail)
    (hhit : isHit (some c) (keyOf ps) = true) (hl : spans encode (pre ++ st) = some l)
    (hc : c.ids = l.map some) (hle : c.nPrefix ≤ l.length) :
    Fills total (fill encode total (some c) ps) (spans encode ps) fun _ _ => True := by
  have hlen : c.ids.length = l.length := by rw [hc, List.length_map]
  have hsp : spans encode ps = (some l).bind fun l => (spans encode tail).map (l ++ ·) := by
    rw [hord.split, spans_append, hl]
  have hstart : Fills total (start total (some c) (keyOf ps)) (some l) fun _ _ => True := by
    have hsome : (some c).filter (fun c => isHit (some c) (keyOf ps)) = some c := by
      rw [Option.filter_some, hhit]
      rfl
    rw [start, hsome]
    by_cases htot : c.ids.length > total
    · refine .stop (fun k hk => ?_) (if_pos htot)
      obtain rfl := Option.some.inj hk
      omega
    · obtain ⟨cells, hcopy, hsize, hw⟩ := copyTo_append l
        (holds_blank τ total).written (by
          rw [List.length_replicate, List.length_nil]
          omega)
      refine .done l ⟨cells, c.nPrefix, c.ids.length - c.nPrefix, 0⟩ rfl ?_ ⟨?_, hw, ?_⟩ trivial
      · simp only
        rw [if_neg htot, hc]
        exact congrArg (Except.map _) hcopy
      · rw [hsize, List.length_replicate]
      · simp only
        omega
  rw [fill, hhit, hsp]
  refine hstart.bind fun k a _ ha _ => ?_
  have hloop : ps.foldlM (addPiece encode total true) a = tail.foldlM (addPiece encode total true) a := by
    conv_lhs => rw [hord.split]
    rw [List.foldlM_append, addShared_hit fun p hp => ?_]
    · rfl
    · rcases List.mem_append.1 hp with hp | hp
      · exact (hord.pre p hp).2
      · exact (hord.st_marked p hp).2
  rw [hloop]
  exact (addPieces_fills encode true hord.tail rfl ha).mono fun _ _ _ _ => trivial

/-- What the cache holds comes from one of the calls. -/
def Backed (encode : Text → Option (List τ)) (calls : List Call) (cache : Option (SpanCache τ)) : Prop :=
  ∀ c ∈ cache, c.valid = true → ∃ d ∈ calls, ∃ ps ∈ layout d.ops d.lim d.prompt,
    ∃ l ∈ spans encode (ps.filter (·.shared)),
      c.text = some (keyOf ps) ∧ c.ids = l.map some ∧ c.nPrefix ≤ l.length

theorem meaning_of_layout {ops : Ops} {lim : Limits} {prompt : Text}
    (hlay : layout ops lim prompt = some ps) (hord : InOrder ps pre st tail) :
    meaning encode ops lim prompt =
      match spans encode ps with
      | none => .error .errInvalidArg
      | some ids => if ids.length ≤ lim.total then .ok ids else .error .errInvalidArg := by
  rw [meaning, hlay]
  cases hspans : spans encode ps with
  | none => simp only [hord.filters, hspans]
  | some ids => simp only [hord.filters, hspans]

/-- A loop that fills `ids` gives what the prompt stands for, and stores the shared ids behind a miss. -/
theorem assemble_of_fills {c : Call} {P : List τ → Assembly τ → Prop}
    (hlay : layout c.ops c.lim c.prompt = some ps) (hord : InOrder ps pre st tail)
    (hfill : Fills c.lim.total (fill encode c.lim.total cache ps) (spans encode ps) P) :
    (assemble encode c.ops c.lim c.prompt cache).1 =
        (meaning encode c.ops c.lim c.prompt).map (List.map some) ∧
      ((assemble encode c.ops c.lim c.prompt cache).2 = cache ∨
        isHit cache (keyOf ps) = false ∧ ∃ l a, spans encode ps = some l ∧ Holds c.lim.total a l ∧ P l a ∧
          (assemble encode c.ops c.lim c.prompt cache).2 = cache.map fun _ =>
            ⟨true, some (keyOf ps), (l.map some).take (a.nPrefix + a.nState), a.nPrefix⟩) := by
  rw [meaning_of_layout hlay hord, assemble, hlay]
  simp only
  induction hfill with
  | done l a hids hr h hP =>
    have hle := h.length_le
    rw [hr, hids]
    simp only
    rw [if_neg (by rw [h.count]; omega), if_pos hle, h.count, take_written h.written]
    refine ⟨rfl, ?_⟩
    cases hhit : isHit cache (keyOf ps) with
    | true => exact Or.inl rfl
    | false => exact Or.inr ⟨rfl, l, a, rfl, h, hP, rfl⟩
  | stop hids hr =>
    rw [hr]
    refine ⟨?_, Or.inl rfl⟩
    cases hsp : spans encode ps with
    | none => rfl
    | some l =>
      simp only
      rw [if_neg (Nat.not_le.2 (hids l hsp))]
      rfl

end Assemble

section Run

variable {cache : Option (SpanCache τ)}

/-- One call: the cache changes nothing for it and stays backed. -/
theorem assemble_step {d : Call} {calls : List Call} (hd : d ∈ calls) (hkey : ∀ c ∈ calls, KeyTells encode c d)
    (hb : Backed encode calls cache) :
    (assemble encode d.ops d.lim d.prompt cache).1 =
        (meaning encode d.ops d.lim d.prompt).map (List.map some) ∧
      Backed encode calls (assemble encode d.ops d.lim d.prompt cache).2 := by
  cases hlay : layout d.ops d.lim d.prompt with
  | none =>
    rw [meaning, assemble, hlay]
    exact ⟨rfl, hb⟩
  | some ps =>
    obtain ⟨pre, st, tail, hord⟩ := layout_inOrder hlay
    cases hhit : isHit cache (keyOf ps) with
    | false =>
      obtain ⟨hres, hcache⟩ := assemble_of_fills hlay hord (fill_miss encode hord hhit)
      refine ⟨hres, ?_⟩
      rcases hcache with hcache | ⟨-, l, a, hl, ha, ⟨m, hm, hcnt⟩, hcache⟩
      · rwa [hcache]
      · rw [hcache]
        rintro c hc -
        obtain ⟨_, -, rfl⟩ := Option.map_eq_some_iff.1 hc
        refine ⟨d, hd, ps, hlay, m, by rw [hord.filter_shared]; exact hm, rfl, ?_, ?_⟩
        · rw [hord.split, spans_append, hm] at hl
          obtain ⟨t, -, rfl⟩ := Option.map_eq_some_iff.1 hl
          rw [hcnt, ← List.map_take, List.take_left' rfl]
        · rw [← hcnt]
          exact Nat.le_add_right _ _
    | true =>
      cases cache with
      | none => cases hhit
      | some c =>
        have hc : c.valid = true ∧ c.text = some (keyOf ps) := by simpa [isHit] using hhit
        obtain ⟨e, he, qs, hqs, l, hl, htext, hids, hle⟩ := hb c rfl hc.1
        have hsame := spans_congr (hkey e he qs hqs ps hlay
          (Option.some.inj (htext.symm.trans hc.2)))
        rw [hord.filter_shared] at hsame
        obtain ⟨hres, hcache⟩ := assemble_of_fills hlay hord
          (fill_hit hord hhit (hsame.symm.trans hl) hids hle)
        refine ⟨hres, ?_⟩
        rcases hcache with hcache | ⟨hmiss, -⟩
        · rwa [hcache]
        · rw [hhit] at hmiss
          cases hmiss

theorem backed_fresh {calls : List Call} : Backed encode calls (some SpanCache.fresh) := by
  rintro c hc hvalid
  obtain rfl := Option.some.inj hc
  cases hvalid

theorem backed_none (calls : List Call) : Backed encode calls none := fun c hc => by cases hc

/-- Calls that share a cache which is backed. -/
theorem assembleAll_backed {calls rest : List Call} (hrest : ∀ d ∈ rest, d ∈ calls)
    (hkey : ∀ c ∈ calls, ∀ d ∈ calls, KeyTells encode c d) (hb : Backed encode calls cache) :
    assembleAll encode cache rest =
      rest.map fun d => (meaning encode d.ops d.lim d.prompt).map (List.map some) := by
  induction rest generalizing cache with
  | nil => rfl
  | cons d rest ih =>
    have hd := hrest d List.mem_cons_self
    obtain ⟨hres, hnext⟩ := assemble_step hd (fun c hc => hkey c hc d hd) hb
    rw [assembleAll, List.map_cons]
    exact congrArg₂ List.cons hres (ih (fun e he => hrest e (List.mem_cons_of_mem _ he)) hnext)

theorem keyTells_self (d : Call) : KeyTells encode d d := by
  intro ps hps qs hqs _
  obtain rfl : ps = qs := Option.some.inj (hps.symm.trans hqs)
  exact List.forall₂_same.2 fun p _ => ⟨rfl, fun _ _ => rfl⟩

/-- Without a cache a call gives what its prompt stands for. -/
theorem assemble_none (d : Call) : (assemble encode d.ops d.lim d.prompt none).1 =
    (meaning encode d.ops d.lim d.prompt).map (List.map some) := by
  refine (assemble_step List.mem_cons_self (fun c hc => ?_) (backed_none [d])).1
  rw [List.mem_singleton.1 hc]
  exact keyTells_self d

theorem meaning_cases (d : Call) :
    (∃ ids, meaning encode d.ops d.lim d.prompt = .ok ids ∧ ids.length ≤ d.lim.total) ∨
      meaning encode d.ops d.lim d.prompt = .error .errFormat ∨
      meaning encode d.ops d.lim d.prompt = .error .errInvalidArg := by
  rw [meaning]
  cases layout d.ops d.lim d.prompt with
  | none => exact Or.inr (Or.inl rfl)
  | some ps =>
    simp only
    cases spans encode (ps.filter (fun p => p.shared && !p.isState) ++ ps.filter (·.isState) ++
        ps.filter fun p => !p.shared) with
    | none => exact Or.inr (Or.inr rfl)
    | some ids =>
      by_cases hle : ids.length ≤ d.lim.total
      · exact Or.inl ⟨ids, if_pos hle, hle⟩
      · exact Or.inr (Or.inr (if_neg hle))

end Run

section Example

/-- Two zeros part the pieces, and a piece begins with 3, 4 or 5 after its kind. -/
def exampleOps : Ops := ⟨some [0, 0], some [3], some [4], some [5], by decide⟩

/-- A marked question before the state and an option behind it. -/
def exampleCall (question option : ℕ) : Call :=
  ⟨exampleOps, ⟨9, question, option, 9⟩, [4, 65, 66, 0, 0, 3, 67, 0, 0, 5, 68, 69]⟩

/-- The limit of an option differs, which is behind the state. -/
theorem keyTells_example : ∀ c ∈ [exampleCall 1 1, exampleCall 1 2], ∀ d ∈ [exampleCall 1 1, exampleCall 1 2],
    KeyTells some c d := by
  have hshared : ∀ n, (layout (exampleCall 1 n).ops (exampleCall 1 n).lim (exampleCall 1 n).prompt).map
      (·.filter (·.shared)) = some [⟨[65, 66], 1, false, true⟩, ⟨[67], 9, true, true⟩] := fun _ => rfl
  have hcall : ∀ n m, KeyTells some (exampleCall 1 n) (exampleCall 1 m) := by
    intro n m ps hps qs hqs _
    have hp := hshared n
    have hq := hshared m
    rw [Option.mem_def.1 hps, Option.map_some, Option.some.injEq] at hp
    rw [Option.mem_def.1 hqs, Option.map_some, Option.some.injEq] at hq
    rw [SameShared, hp, hq]
    exact List.forall₂_same.2 fun p _ => ⟨rfl, fun _ _ => rfl⟩
  intro c hc d hd
  simp only [List.mem_cons, List.not_mem_nil, or_false] at hc hd
  rcases hc with rfl | rfl <;> rcases hd with rfl | rfl <;> exact hcall _ _

end Example

end Decision

end Kappai
