import Kappai.Lib.OpenTable
import Kappai.Lib.Procedures
import Mathlib.Algebra.Order.Ring.Nat

/-! The command stream of the Vulkan backend: a ring of command buffers with the semaphore that counts
their submissions, and what is remembered about the commands of the buffer that is being recorded. Every
call to the driver takes its answer from a list, so an operation is a function of the state. -/

namespace Kappai

inductive VkResult
  | success | error | deviceLost
deriving DecidableEq

/-- What the driver answers: the result of the call or, where it waits for the fence, of the wait, how many
more submissions the device has completed by then, and the handle of what the call makes. -/
structure VkAnswer where
  result : VkResult
  fence : VkResult
  ticks : ℕ
  handle : ℕ

/-- `ERR_INTERNAL`, `ERR_INVALID_ARG` -/
inductive VkErr
  | internal | invalidArg
deriving DecidableEq

/-- A binding of a descriptor set: the handle of a buffer, which buffer of that handle it is, the offset
and the range; no range is `VK_WHOLE_SIZE`. -/
structure VkBinding where
  buf : ℕ
  gen : ℕ
  off : ℕ
  range : Option ℕ
deriving DecidableEq

/-- A recorded command. A dispatch is recorded with the buffers it reads and those it writes, with what
it was to be given, and with what its descriptor set describes. -/
inductive VkCmd
  | barrier
  | bufferBarriers (bufs : List ℕ)
  | bindPipeline (pipeline : ℕ)
  | bindSet (set : ℕ)
  | dispatch (uses : List (ℕ × Bool)) (wants : List VkBinding) (bound : Option (List VkBinding))

namespace VkCmd

variable (buf : ℕ)

def writes : VkCmd → Prop
  | dispatch uses _ _ => (buf, true) ∈ uses
  | _ => False

def reads : VkCmd → Prop
  | dispatch uses _ _ => (buf, false) ∈ uses
  | _ => False

/-- A barrier that makes earlier writes of the buffer visible to later dispatches. -/
def covers : VkCmd → Prop
  | barrier => True
  | bufferBarriers bufs => buf ∈ bufs
  | _ => False

/-- A barrier: what comes later waits for what came earlier. -/
def orders : VkCmd → Prop
  | barrier => True
  | bufferBarriers _ => True
  | _ => False

end VkCmd

structure VkRingSlot where
  recording : Bool
  hasWork : Bool
  submitted : Bool
  signalValue : ℕ
  cmds : List VkCmd

def VkRingSlot.init : VkRingSlot := ⟨false, false, false, 0, []⟩

/-- A command buffer that the queue was given. -/
structure VkSubmission where
  signalValue : ℕ
  cmds : List VkCmd

/-- An entry of a pipeline's cache of descriptor sets. -/
structure VkDescSlot where
  set : ℕ
  bufs : ℕ → ℕ
  offs : ℕ → ℕ
  valid : Bool
  lastUsed : ℕ
  hash : ℕ

def VkDescSlot.init : VkDescSlot := ⟨0, fun _ => 0, fun _ => 0, false, 0, 0⟩

/-- What is remembered about the buffers that commands of the recorded buffer use: those with writes that
no barrier covers, in a hash table, and those with reads, in a list that may overflow. -/
structure VkHazards where
  dirtyTable : ℕ → ℕ
  dirtyCount : ℕ
  readSet : List ℕ
  readOverflow : Bool

/-- What does not change: the device's kind, the number of bindings of a pipeline, and the pipelines that
`vk_invalidate_desc_cache_for_buf` walks. -/
structure VkSetup where
  timelineSupported : Bool
  /-- `is_mali`, `is_power_vr` or `is_adreno` -/
  mobile : Bool
  nBindings : ℕ → ℕ
  walked : List ℕ

/-- The part of `vk_priv` that the stream of commands uses, after the driver: the answers still to come,
the submissions so far with the number of those that are complete, the live buffers (each with the number
of its creation) and the allocated descriptor sets. -/
structure VkPriv where
  answers : List VkAnswer
  subs : List VkSubmission
  completed : ℕ
  live : ℕ → Option ℕ
  created : ℕ
  sets : List (ℕ × List VkBinding)
  badFree : Bool
  setup : VkSetup
  deviceLost : Bool
  timelineValue : ℕ
  lastSignalValue : ℕ
  timelineCompleted : ℕ
  ring : ℕ → VkRingSlot
  ringCur : ℕ
  /-- The slot that `cmd` is the command buffer of. -/
  cmd : Option ℕ
  pendingDispatches : ℕ
  lastPipeline : ℕ
  lastDescSet : ℕ
  lastDescPipelineMatch : Bool
  hazards : VkHazards
  descCache : ℕ → ℕ → VkDescSlot
  descTick : ℕ
  totalDescAllocs : ℕ
  deadBufs : List ℕ
  pendingFreeSets : List ℕ
  pendingFreeAfter : ℕ
  wbatchCount : ℕ
  wbatchOff : ℕ
  stagingReadRecorded : Bool
  stagingPendingValue : ℕ

abbrev VkM := Proc VkPriv VkErr

namespace VkPriv

/-- The state before the first command buffer is begun. -/
def init (setup : VkSetup) : VkPriv :=
  ⟨[], [], 0, fun _ => none, 0, [], false, setup, false, 0, 0, 0, fun _ => .init, 0, none, 0, 0, 0, false,
    ⟨fun _ => 0, 0, [], false⟩, fun _ _ => .init, 0, 0, [], [], 0, 0, 0, false, 0⟩

/-- The value of the semaphore. -/
def counter (s : VkPriv) : ℕ :=
  if s.completed = 0 then 0 else ((s.subs[s.completed - 1]?).map VkSubmission.signalValue).getD 0

/-- The command buffers that are being recorded or executed. -/
def pending (s : VkPriv) : List (List VkCmd) :=
  (s.subs.drop s.completed).map VkSubmission.cmds ++
    ((List.range 4).filter fun i => (s.ring i).recording).map fun i => (s.ring i).cmds

/-- Whether a command buffer binds a descriptor set. -/
def binds (set : ℕ) (cmds : List VkCmd) : Bool :=
  cmds.any fun c =>
    match c with
    | .bindSet t => t == set
    | _ => false

end VkPriv

open VkPriv Proc

/-- One place of an array is written. -/
def setAt {α : Type} (f : ℕ → α) (i : ℕ) (v : α) : ℕ → α := fun j => bif j.beq i then v else f j

/-- A call to the driver: its answer, after the device has gone on. -/
def ask : VkM VkAnswer := do
  let s ← get
  let a := s.answers.headD ⟨.success, .success, 0, 0⟩
  modify fun s => { s with
    answers := s.answers.tail
    completed := min s.subs.length (s.completed + a.ticks) }
  return a

/-- `VK_CHECK` of an answer. -/
def vkCheck (a : VkAnswer) : VkM Unit := do
  if a.result = .deviceLost then modify fun s => { s with deviceLost := true }
  if a.result ≠ .success then throw .internal

def modifySlot (idx : ℕ) (f : VkRingSlot → VkRingSlot) : VkM Unit :=
  modify fun s => { s with ring := setAt s.ring idx (f (s.ring idx)) }

/-- A `vkCmd` call on `cmd`. -/
def vkCmd (c : VkCmd) : VkM Unit := do
  let s ← get
  match s.cmd with
  | some idx => modifySlot idx fun r => { r with cmds := r.cmds ++ [c] }
  | none => return

namespace VkHazards

variable (h : VkHazards) (buf : ℕ)

def vkReadsClear : VkHazards := { h with readSet := [], readOverflow := false }

def vkReadsHas : Bool := h.readOverflow || h.readSet.contains buf

/-- 64 is `VK_READ_SET_CAP`. -/
def vkReadsAdd : VkHazards :=
  if h.vkReadsHas buf then h
  else if h.readSet.length = 64 then { h with readOverflow := true }
  else { h with readSet := h.readSet ++ [buf] }

def vkDirtyIndex (buf : ℕ) : ℕ := buf / 16 * 0x9E3779B9 % 2 ^ 32

/-- The slots of the dirty table in the order of a buffer; 256 is `VK_DIRTY_TABLE_SIZE`. -/
def vkDirtyProbe (buf : ℕ) : List ℕ := (List.range 256).map fun i => (vkDirtyIndex buf % 256 + i) % 256

def vkDirtyClear : VkHazards := { h.vkReadsClear with dirtyTable := fun _ => 0, dirtyCount := 0 }

/-- A removed handle leaves the value 1 behind. -/
def vkDirtyLookup : Bool := ProbeTable.lookup 0 h.dirtyTable buf (vkDirtyProbe buf)

def vkDirtyInsert : VkHazards :=
  match ProbeTable.insertSlot 0 1 h.dirtyTable buf none (vkDirtyProbe buf) with
  | some q => { h with dirtyTable := setAt h.dirtyTable q buf, dirtyCount := h.dirtyCount + 1 }
  | none => h

def vkDirtyRemove : VkHazards :=
  match ProbeTable.removeSlot 0 h.dirtyTable buf (vkDirtyProbe buf) with
  | some q => { h with dirtyTable := setAt h.dirtyTable q 1, dirtyCount := h.dirtyCount - 1 }
  | none => h

end VkHazards

def vkRingBegin (idx : ℕ) : VkM Unit := do
  modifySlot idx fun r => { r with cmds := [] }
  vkCheck (← ask)
  modify fun s => { s with hazards := s.hazards.vkReadsClear }
  modifySlot idx fun r => { r with recording := true, hasWork := false, submitted := false }
  modify fun s => { s with
    cmd := some idx
    pendingDispatches := 0
    lastPipeline := 0
    lastDescSet := 0
    lastDescPipelineMatch := false }

/-- `vkWaitSemaphores` returns when the counter has reached the value. -/
def vkTimelineWait (value : ℕ) : VkM Unit := do
  let s ← get
  if s.timelineCompleted < value then
    vkCheck (← ask)
    modify fun s => { s with
      completed := max s.completed (s.subs.countP fun sub => sub.signalValue ≤ value)
      timelineCompleted := value }

def vkTimelinePoll : VkM Unit := do
  let s ← get
  if s.setup.timelineSupported then
    let a ← ask
    modify fun s =>
      if a.result = .success ∧ s.timelineCompleted < s.counter then
        { s with timelineCompleted := s.counter }
      else s

def vkTimelineDone (value : ℕ) : VkM Bool := do
  let s ← get
  if value = 0 ∨ value ≤ s.timelineCompleted then return true
  vkTimelinePoll
  let s ← get
  return value ≤ s.timelineCompleted

def vkRingInvalidate (idx : ℕ) : VkM Unit := do
  modifySlot idx fun r =>
    { r with cmds := [], recording := false, hasWork := false, submitted := false }
  modify fun s =>
    if s.cmd = some idx then
      { s with cmd := none, lastPipeline := 0, lastDescSet := 0, lastDescPipelineMatch := false }
    else s
  modify fun s => { s with pendingDispatches := 0 }
  modify fun s => { s with hazards := s.hazards.vkDirtyClear }

/-- `vkFreeDescriptorSets`. A set that is not allocated, or that a pending command buffer binds, must not
be among them. -/
def vkFreeDescriptorSets (sets : List ℕ) : VkM Unit := modify fun s => { s with
  badFree := s.badFree || !decide sets.Nodup ||
    sets.any fun set => !(s.sets.any fun e => e.1 == set) || s.pending.any (binds set)
  sets := s.sets.filter fun e => !sets.contains e.1 }

def vkFlushPendingDescFrees : VkM Unit := do
  let s ← get
  if s.pendingFreeSets = [] then return
  if !(← vkTimelineDone s.pendingFreeAfter) then return
  vkFreeDescriptorSets s.pendingFreeSets
  modify fun s => { s with pendingFreeSets := [] }

def vkQueueSubmitChecked (idx : ℕ) : VkM Unit := do
  let a ← ask
  if a.result = .success then
    modify fun s => { s with
      subs := s.subs ++ [⟨(s.ring idx).signalValue, (s.ring idx).cmds⟩] }
  else
    if a.result = .deviceLost then modify fun s => { s with deviceLost := true }
    vkRingInvalidate idx
    throw .internal

def vkRingSubmit (idx : ℕ) (waitNow : Bool) : VkM Unit := do
  let s ← get
  if !(s.ring idx).recording || (s.ring idx).submitted then return
  let a ← ask
  if a.result ≠ .success then
    vkRingInvalidate idx
    vkFlushPendingDescFrees
    throw .internal
  if s.setup.timelineSupported then
    modify fun s => { s with timelineValue := s.timelineValue + 1 }
    let s ← get
    modifySlot idx fun r => { r with signalValue := s.timelineValue }
    vkQueueSubmitChecked idx
    modifySlot idx fun r => { r with submitted := true, recording := false }
    modify fun s' => { s' with lastSignalValue := s.timelineValue }
    if waitNow then
      match ← outcome (vkTimelineWait s.timelineValue) with
      | .ok _ => vkFlushPendingDescFrees
      | .error e =>
        vkRingInvalidate idx
        throw e
  else
    vkQueueSubmitChecked idx
    modifySlot idx fun r => { r with submitted := true, recording := false }
    let a ← ask
    if a.fence = .success then
      modify fun s => { s with completed := s.subs.length }
      vkFlushPendingDescFrees
    else
      if a.fence = .deviceLost then modify fun s => { s with deviceLost := true }
      vkRingInvalidate idx
      throw .internal

/-- The current command buffer is begun, if it is not being recorded. -/
def vkRingResume : VkM Unit := do
  let s ← get
  if !(s.ring s.ringCur).recording then vkRingBegin s.ringCur

/-- The sets that wait to be freed wait for this submission too. -/
def VkPriv.noteFrees (s : VkPriv) (cur : VkRingSlot) : VkPriv :=
  if s.pendingFreeSets ≠ [] ∧ s.pendingFreeAfter < cur.signalValue then
    { s with pendingFreeAfter := cur.signalValue }
  else s

/-- The staging memory waits for it, if commands that it holds use it. -/
def VkPriv.noteStaged (s : VkPriv) (cur : VkRingSlot) : VkPriv :=
  if s.wbatchCount ≠ 0 ∨ s.stagingReadRecorded then
    { s with
      stagingPendingValue := max s.stagingPendingValue cur.signalValue
      wbatchCount := 0
      wbatchOff := 0
      stagingReadRecorded := false }
  else s

/-- What `vk_run_cmd` notes about a submission. -/
def vkNoteSubmitted (idx : ℕ) : VkM Unit := modify fun s =>
  if (s.ring idx).submitted then (s.noteFrees (s.ring idx)).noteStaged (s.ring idx) else s

/-- 4 is `VK_RING_DEPTH`. -/
def vkRunCmd : VkM Unit := do
  let s ← get
  let idx := s.ringCur
  let waitNow := !s.setup.timelineSupported
  vkRingSubmit idx waitNow
  vkNoteSubmitted idx
  modify fun s => { s with ringCur := (idx + 1) % 4 }
  let s ← get
  if (s.ring s.ringCur).recording && (s.ring s.ringCur).hasWork then vkRingSubmit s.ringCur waitNow
  let s ← get
  if !waitNow && (s.ring s.ringCur).submitted &&
      s.timelineCompleted < (s.ring s.ringCur).signalValue then
    vkTimelineWait (s.ring s.ringCur).signalValue
  vkRingResume
  modify fun s => { s with hazards := s.hazards.vkDirtyClear }
  if waitNow then
    modify fun s => { s with wbatchCount := 0, wbatchOff := 0, stagingPendingValue := 0 }

def vkFlush : VkM Unit := do
  let s ← get
  if s.deviceLost then throw .internal
  if (s.ring s.ringCur).hasWork then vkRunCmd
  let s ← get
  if !s.setup.timelineSupported then return
  if s.timelineCompleted < s.lastSignalValue then vkTimelineWait s.lastSignalValue
  modify fun s => { s with
    wbatchCount := 0
    wbatchOff := 0
    stagingPendingValue := 0
    stagingReadRecorded := false }
  vkFlushPendingDescFrees
  vkRingResume

end Kappai
