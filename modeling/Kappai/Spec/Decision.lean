import Kappai.Lib.Framing
import Kappai.Lib.Occurrence
import Kappai.Spec.Chat

/-! The prompt of a decision question: its pieces, what they are encoded to, and the span cache that the
questions of one request share. -/

namespace Kappai

namespace Decision

/-- `decision_ops`: the separator of the pieces and the marks at the head of one. -/
structure Ops where
  sep : Option Text
  stateMark : Option Text
  questionMark : Option Text
  optionMark : Option Text
  sep_ne : ∀ s ∈ sep, s ≠ []

/-- `decision_limits` -/
structure Limits where
  plain : ℕ
  question : ℕ
  option : ℕ
  total : ℕ

/-- `decision_piece` -/
structure Piece where
  text : Text
  limit : ℕ
  isState : Bool
  shared : Bool
  deriving DecidableEq

inductive Stop
  | errFormat
  | errInvalidArg
  /-- A write past the end of `ids`, which C leaves undefined. -/
  | overrun
  deriving DecidableEq

/-- The cuts at `sep`, at most `fuel` of them. -/
def cutAt (sep : Text) : ℕ → Text → List Text
  | 0, piece => [piece]
  | fuel + 1, piece =>
    match findAt sep piece with
    | none => [piece]
    | some k => piece.take k :: cutAt sep fuel (piece.drop (k + sep.length))

def splitPieces (ops : Ops) (prompt : Text) : List Text :=
  match ops.sep with
  | none => [prompt]
  | some sep => cutAt sep prompt.length prompt

/-- The text behind a mark. -/
def afterMark (m : Option Text) (piece : Text) : Option Text :=
  m.bind fun m => if m.isPrefixOf piece then some (piece.drop m.length) else none

/-- Text, limit and `is_state` of a piece. -/
def kindOf (ops : Ops) (lim : Limits) (piece : Text) : Text × ℕ × Bool :=
  match afterMark ops.stateMark piece with
  | some t => (t, lim.plain, true)
  | none =>
    match afterMark ops.questionMark piece with
    | some t => (t, lim.question, false)
    | none =>
      match afterMark ops.optionMark piece with
      | some t => (t, lim.option, false)
      | none => (piece, lim.plain, false)

/-- The loop over the pieces, from `has_state`. A second state is `none`. -/
def readPieces (ops : Ops) (lim : Limits) : Bool → List Text → Option (List Piece)
  | _, [] => some []
  | hasState, piece :: rest =>
    let k := kindOf ops lim piece
    if k.2.2 && hasState then none
    else
      (readPieces ops lim (hasState || k.2.2) rest).map
        ({ text := k.1, limit := k.2.1, isState := k.2.2, shared := k.2.2 || !hasState } :: ·)

/-- The pieces of a prompt; `none` is `ERR_FORMAT`. -/
def layout (ops : Ops) (lim : Limits) (prompt : Text) : Option (List Piece) :=
  (readPieces ops lim false (splitPieces ops prompt)).filter
    fun ps => !(ops.stateMark.isSome && !ps.any (·.isState))

/-- `key`: the texts of the shared pieces, each closed by a byte 1. -/
def keyOf (ps : List Piece) : Text := Framing.terminated 1 ((ps.filter (·.shared)).map (·.text))

variable {τ : Type}

/-- `decision_span_cache`, where `n` is the number of `ids`. A cell without a value was never written. -/
structure SpanCache (τ : Type) where
  valid : Bool
  text : Option Text
  ids : List (Option τ)
  nPrefix : ℕ

/-- The cache of a new request. -/
def SpanCache.fresh : SpanCache τ := ⟨false, none, [], 0⟩

/-- `ids` and what is counted while it is filled. -/
structure Assembly (τ : Type) where
  ids : List (Option τ)
  nPrefix : ℕ
  nState : ℕ
  nTail : ℕ

/-- `memcpy(ids + offset, span, ..)` -/
def copyTo (ids : List (Option τ)) (offset : ℕ) (span : List (Option τ)) :
    Except Stop (List (Option τ)) :=
  if offset + span.length ≤ ids.length then
    .ok (ids.take offset ++ span ++ ids.drop (offset + span.length))
  else .error .overrun

/-- `hit` -/
def isHit (cache : Option (SpanCache τ)) (key : Text) : Bool :=
  match cache with
  | none => false
  | some c => c.valid && c.text == some key

/-- What stands in `ids` before the loop. -/
def start (total : ℕ) (cache : Option (SpanCache τ)) (key : Text) : Except Stop (Assembly τ) :=
  match cache.filter fun c => isHit (some c) key with
  | none => .ok ⟨List.replicate total none, 0, 0, 0⟩
  | some c =>
    if c.ids.length > total then .error .errInvalidArg
    else
      (copyTo (List.replicate total none) 0 c.ids).map fun ids =>
        ⟨ids, c.nPrefix, c.ids.length - c.nPrefix, 0⟩

section Encode

variable (encode : Text → Option (List τ))

/-- A piece encoded and cut to its limit. -/
def Piece.span (pc : Piece) : Option (List τ) := (encode pc.text).map (·.take pc.limit)

def addPiece (total : ℕ) (hit : Bool) (a : Assembly τ) (pc : Piece) : Except Stop (Assembly τ) :=
  if pc.shared && hit then .ok a
  else
    match pc.span encode with
    | none => .error .errInvalidArg
    | some span =>
      let offset := if pc.isState then a.nPrefix else a.nPrefix + a.nState + a.nTail
      if offset + span.length > total then .error .errInvalidArg
      else
        (copyTo a.ids offset (span.map some)).map fun ids =>
          if pc.isState then { a with ids := ids, nState := span.length }
          else if pc.shared then { a with ids := ids, nPrefix := a.nPrefix + span.length }
          else { a with ids := ids, nTail := a.nTail + span.length }

/-- The loop over the pieces, behind `start`. -/
def fill (total : ℕ) (cache : Option (SpanCache τ)) (ps : List Piece) : Except Stop (Assembly τ) :=
  (start total cache (keyOf ps)).bind fun a =>
    ps.foldlM (addPiece encode total (isHit cache (keyOf ps))) a

/-- `decision_assemble`: the status with `*out_ids`, and the cache after it. `cache` may be `NULL`. -/
def assemble (ops : Ops) (lim : Limits) (prompt : Text) (cache : Option (SpanCache τ)) :
    Except Stop (List (Option τ)) × Option (SpanCache τ) :=
  match layout ops lim prompt with
  | none => (.error .errFormat, cache)
  | some ps =>
    match fill encode lim.total cache ps with
    | .error e => (.error e, cache)
    | .ok a =>
      let n := a.nPrefix + a.nState + a.nTail
      if n > lim.total then (.error .errInvalidArg, cache)
      else
        let ids := a.ids.take n
        (.ok ids,
          if isHit cache (keyOf ps) then cache
          else cache.map fun _ => ⟨true, some (keyOf ps), ids.take (a.nPrefix + a.nState), a.nPrefix⟩)

/-- The arguments of one call. -/
structure Call where
  ops : Ops
  lim : Limits
  prompt : Text

/-- The results of calls one after the other on one cache. -/
def assembleAll : Option (SpanCache τ) → List Call → List (Except Stop (List (Option τ)))
  | _, [] => []
  | cache, c :: calls =>
    let r := assemble encode c.ops c.lim c.prompt cache
    r.1 :: assembleAll r.2 calls

/-- The spans of some pieces, one after the other. -/
def spans (ps : List Piece) : Option (List τ) := (ps.mapM fun p : Piece => p.span encode).map List.flatten

/-- What a prompt stands for: the prefix pieces, the state and the tail, each cut to its limit, if all
of it fits. -/
def meaning (ops : Ops) (lim : Limits) (prompt : Text) : Except Stop (List τ) :=
  match layout ops lim prompt with
  | none => .error .errFormat
  | some ps =>
    match spans encode (ps.filter (fun p => p.shared && !p.isState) ++ ps.filter (·.isState) ++
        ps.filter fun p => !p.shared) with
    | none => .error .errInvalidArg
    | some ids => if ids.length ≤ lim.total then .ok ids else .error .errInvalidArg

/-- The shared pieces of two prompts have the same texts, and a limit that cuts one of them cuts the
other at the same place. -/
def SameShared (ps qs : List Piece) : Prop :=
  List.Forall₂ (fun p q => p.text = q.text ∧
    ∀ ids ∈ encode p.text, min p.limit ids.length = min q.limit ids.length)
    (ps.filter (·.shared)) (qs.filter (·.shared))

/-- The key tells the shared pieces of two calls apart. -/
def KeyTells (c d : Call) : Prop :=
  ∀ ps ∈ layout c.ops c.lim c.prompt, ∀ qs ∈ layout d.ops d.lim d.prompt,
    keyOf ps = keyOf qs → SameShared encode ps qs

end Encode

end Decision

end Kappai
