import Kappai.Lib.Procedures
import Kappai.Spec.JinjaParse

/-! The values of a rendering and its state. A value is an object of a heap, and what names, lists and
dictionaries hold is its address. -/

namespace Kappai.Jinja

abbrev Addr := ℕ

/-- `jinja_value`, with the numbers of C's `double` in `F`. The text that an integer caches is that of
its value. -/
inductive Obj (F : Type)
  | none
  | bool (b : Bool)
  | int (value : ℤ)
  | float (value : F)
  | string (s : Text)
  | dict (entries : List (Text × Addr))
  | list (items : List Addr)
  | macroVal (params : List MacroParam) (body : List Stmt)

inductive ValueType
  | none | bool | int | float | string | dict | list | macroVal
  deriving DecidableEq

def Obj.type {F : Type} : Obj F → ValueType
  | .none => .none
  | .bool _ => .bool
  | .int _ => .int
  | .float _ => .float
  | .string _ => .string
  | .dict _ => .dict
  | .list _ => .list
  | .macroVal _ _ => .macroVal

/-- What an object holds of other values. -/
def Obj.children {F : Type} : Obj F → List Addr
  | .dict entries => entries.map Prod.snd
  | .list items => items
  | _ => []

abbrev Heap (F : Type) := List (Obj F)

namespace Heap

variable {F : Type} (h : Heap F)

/-- The object at an address. A null pointer is an address without one and reads as nothing does. -/
def obj (a : Addr) : Obj F := h.getD a .none

/-- The address that is reached from another one along the positions of elements and entries. -/
def follow : Addr → List ℕ → Option Addr
  | a, [] => some a
  | a, i :: path => do
    let o ← h[a]?
    let b ← o.children[i]?
    follow b path

/-- The object that is read there. -/
def read (a : Addr) (path : List ℕ) : Option (Obj F) := do
  let b ← h.follow a path
  h[b]?

end Heap

/-- What happens to objects that exist: a turn of a loop begins, and the loop's dictionary and its
numbers are brought up to date, or an attribute of a dictionary is set. -/
inductive Event
  | turn (loop index0 index : Addr)
  | setAttr (target : Addr)
  deriving DecidableEq

/-- The objects that an event is about. -/
def Event.objects : Event → List Addr
  | .turn loop index0 index => [loop, index0, index]
  | .setAttr target => [target]

abbrev Scope := List (Text × Addr)

/-- `scope_lookup` -/
def scopeLookup (scopes : List Scope) (name : Text) : Option Addr := scopes.flatten.lookup name

/-- `jinja_dict_set`: a new key comes last. -/
def dictSet : List (Text × Addr) → Text → Addr → List (Text × Addr)
  | [], key, val => [(key, val)]
  | (k, v) :: es, key, val => if k = key then (k, val) :: es else (k, v) :: dictSet es key val

/-- `scope_assign`: a new name comes first. -/
def scopeAssign (sc : Scope) (name : Text) (val : Addr) : Scope :=
  if (sc.lookup name).isSome then dictSet sc name val else (name, val) :: sc

/-- The values at one moment, and what has happened to objects until then. -/
structure Moment (F : Type) where
  heap : Heap F
  scopes : List Scope
  events : List Event

/-- From one moment to another one, an object is what it was unless an event was about it. -/
def Moment.Kept {F : Type} (older newer : Moment F) : Prop :=
  ∃ new, newer.events = older.events ++ new ∧
    ∀ a o, older.heap[a]? = some o → (∀ e ∈ new, a ∉ e.objects) → newer.heap[a]? = some o

instance {F : Type} : Preorder (Moment F) where
  le := Moment.Kept
  le_refl m := ⟨[], (List.append_nil _).symm, fun _ _ h _ => h⟩
  le_trans := by
    rintro m m' m'' ⟨new, he, h⟩ ⟨new', he', h'⟩
    refine ⟨new ++ new', by rw [he', he, List.append_assoc], fun a o ha hn => ?_⟩
    obtain ⟨hn, hn'⟩ := List.forall_mem_append.1 hn
    exact h' a o (h a o ha hn) hn'

/-- `eval_ctx` and what an evaluation works on, with the moments at which an expression or a statement
was begun. `out` is the text of the innermost builder. -/
structure State (F : Type) where
  heap : Heap F
  scopes : List Scope
  events : List Event
  past : List (Moment F)
  out : Text
  failed : Option Text
  callDepth : ℕ
  breakHit : Bool

namespace State

variable {F : Type}

def now (s : State F) : Moment F := ⟨s.heap, s.scopes, s.events⟩

instance : Preorder (State F) where
  le := Traced now past
  le_refl := Traced.refl
  le_trans _ _ _ := Traced.trans

/-- What leaves the heap and the record alone. -/
theorem le_of_same {s s' : State F}
    (h : s'.heap = s.heap ∧ s'.events = s.events ∧ s'.past = s.past) : s ≤ s' := by
  obtain ⟨hh, he, hp⟩ := h
  refine traced_of_le hp ⟨[], ?_, fun a o ha _ => ?_⟩
  · rw [now, now, he, List.append_nil]
  · rwa [now, hh]

theorem le_record (s : State F) : s ≤ { s with past := s.past ++ [s.now] } := traced_record rfl rfl

theorem le_alloc (s : State F) (o : Obj F) : s ≤ { s with heap := s.heap ++ [o] } := by
  refine traced_of_le rfl ⟨[], (List.append_nil _).symm, fun a o' ha _ => ?_⟩
  have hlt : a < s.heap.length := (List.getElem?_eq_some_iff.1 ha).1
  exact (List.getElem?_append_left hlt).trans ha

/-- Writing objects one after the other. -/
def writeAll (heap : Heap F) (ws : List (Addr × Obj F)) : Heap F :=
  ws.foldl (fun h w => h.set w.1 w.2) heap

theorem writeAll_of_notMem {heap : Heap F} {ws : List (Addr × Obj F)} {a : Addr}
    (h : a ∉ ws.map Prod.fst) : (writeAll heap ws)[a]? = heap[a]? := by
  induction ws generalizing heap with
  | nil => rfl
  | cons w ws ih =>
    rw [List.map_cons, List.mem_cons, not_or] at h
    exact (ih h.2).trans (List.getElem?_set_ne (Ne.symm h.1))

theorem le_event (s : State F) (e : Event) {ws : List (Addr × Obj F)}
    (hw : ∀ w ∈ ws, w.1 ∈ e.objects) :
    s ≤ { s with heap := writeAll s.heap ws, events := s.events ++ [e] } := by
  refine traced_of_le rfl ⟨[e], rfl, fun a o ha hn => ?_⟩
  have hnot : a ∉ ws.map Prod.fst := fun h => by
    obtain ⟨w, hmem, rfl⟩ := List.mem_map.1 h
    exact hn e (List.mem_singleton_self e) (hw w hmem)
  exact (writeAll_of_notMem hnot).trans ha

end State

/-- A piece of an evaluation. Its type says that objects change only by the two events. -/
abbrev Eval (F : Type) := Rising (State F)

section Primitives

variable {F : Type}

open Rising

/-- The moment before an expression or a statement. -/
def observe : Eval F Unit := update (fun s => { s with past := s.past ++ [s.now] }) State.le_record

/-- A new object, tracked by the arena until the rendering ends. -/
def alloc (o : Obj F) : Eval F Addr :=
  ⟨fun s => (some s.heap.length, { s with heap := s.heap ++ [o] }), fun s => s.le_alloc o⟩

/-- A change of what is not in the heap. -/
def control (g : State F → State F)
    (h : ∀ s, (g s).heap = s.heap ∧ (g s).events = s.events ∧ (g s).past = s.past) : Eval F Unit :=
  update g fun s => State.le_of_same (h s)

def objAt (a : Addr) : Eval F (Obj F) := look fun s => s.heap.obj a

def isFailed : Eval F Bool := look fun s => s.failed.isSome

/-- `everr`: only the first message is kept. -/
def everr (msg : String) : Eval F Unit :=
  control (fun s => { s with failed := s.failed <|> some ("render error: " ++ msg).toList })
    fun _ => ⟨rfl, rfl, rfl⟩

/-- `sb_puts` on the builder in use -/
def puts (t : Text) : Eval F Unit :=
  control (fun s => { s with out := s.out ++ t }) fun _ => ⟨rfl, rfl, rfl⟩

/-- Another builder in the place of the one in use, whose text is returned. -/
def swapOut (t : Text) : Eval F Text := do
  let out ← look State.out
  control (fun s => { s with out := t }) fun _ => ⟨rfl, rfl, rfl⟩
  pure out

def pushScope (sc : Scope) : Eval F Unit :=
  control (fun s => { s with scopes := sc :: s.scopes }) fun _ => ⟨rfl, rfl, rfl⟩

/-- The innermost scope, which ends. -/
def popScope : Eval F Scope := do
  let sc ← look fun s => s.scopes.headD []
  control (fun s => { s with scopes := s.scopes.tail }) fun _ => ⟨rfl, rfl, rfl⟩
  pure sc

/-- `scope_assign` in the innermost scope -/
def assign (name : Text) (val : Addr) : Eval F Unit :=
  control (fun s => { s with scopes := s.scopes.modifyHead fun sc => scopeAssign sc name val })
    fun _ => ⟨rfl, rfl, rfl⟩

def setBreak (b : Bool) : Eval F Unit :=
  control (fun s => { s with breakHit := b }) fun _ => ⟨rfl, rfl, rfl⟩

def setCallDepth (g : ℕ → ℕ) : Eval F Unit :=
  control (fun s => { s with callDepth := g s.callDepth }) fun _ => ⟨rfl, rfl, rfl⟩

/-- `jinja_dict_set` on a dictionary of the template -/
def setAttr (target : Addr) (entries : List (Text × Addr)) (key : Text) (val : Addr) : Eval F Unit :=
  update (fun s => { s with
      heap := State.writeAll s.heap [(target, .dict (dictSet entries key val))]
      events := s.events ++ [.setAttr target] })
    fun s => s.le_event (.setAttr target) (by simp [Event.objects])

/-- The objects that a for statement keeps for its turns. -/
structure LoopObj where
  obj : Addr
  index0 : Addr
  index : Addr
  boolTrue : Addr
  boolFalse : Addr
  noneVal : Addr

/-- Turn `i` of `n`: the two numbers in place, the other entries with other values. -/
def beginTurn (l : LoopObj) (i n : ℕ) (prev next : Option Addr) : Eval F Unit := do
  let o ← objAt l.obj
  let entries := match o with
    | .dict es => es
    | _ => []
  let entries := dictSet entries "first".toList (if i = 0 then l.boolTrue else l.boolFalse)
  let entries := dictSet entries "last".toList (if i + 1 = n then l.boolTrue else l.boolFalse)
  let entries := dictSet entries "previtem".toList (prev.getD l.noneVal)
  let entries := dictSet entries "nextitem".toList (next.getD l.noneVal)
  update (fun s => { s with
      heap := State.writeAll s.heap
        [(l.index0, .int i), (l.index, .int (i + 1)), (l.obj, .dict entries)]
      events := s.events ++ [.turn l.obj l.index0 l.index] })
    fun s => s.le_event (.turn l.obj l.index0 l.index) (by simp [Event.objects])

end Primitives

end Kappai.Jinja
