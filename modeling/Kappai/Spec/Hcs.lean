import Kappai.Spec.JinjaText
import Mathlib.Algebra.BigOperators.Group.List.Basic

/-! The settings of heterogeneous serving: how many layers and experts each device is to hold, which of
them are accepted for a model, and what the loader is told to do. -/

namespace Kappai

open Jinja (signed atol intText isspace)

/-- `INT_MAX` -/
def intMax : ℤ := 2 ^ 31 - 1

def hcsCountAll : ℤ := -1

def hcsCountUnset : ℤ := -2

/-- `HCS_TASKS_ALL` -/
def hcsTasksAll : ℕ := 3

def hcsMaxDevices : ℕ := 8

def hcsPinlistMax : ℕ := 256

inductive HcsField
  | layers
  | experts
deriving DecidableEq, Repr

/-- The words of `check_coverage` for a field. -/
def HcsField.key : HcsField → String
  | .layers => "layers"
  | .experts => "experts"

def HcsField.unit : HcsField → String
  | .layers => "layer(s)"
  | .experts => "expert(s)"

def HcsField.scope : HcsField → String
  | .layers => ""
  | .experts => " per layer"

/-! ### Lists of pins -/

def skipBlanks (s : Jinja.Text) : Jinja.Text := s.dropWhile fun c => c == ' ' || c == '\t'

/-- `strtol` in base ten with what stands behind the number; `none` where there is no number. -/
def strtol (s : Jinja.Text) : Option (ℤ × Jinja.Text) :=
  let digits := (signed (s.dropWhile isspace)).2
  if digits.takeWhile Char.isDigit = [] then none else some (atol s, digits.dropWhile Char.isDigit)

/-- The loop of `hcs_parse_pinlist`: a turn for each number, with what has been written. -/
def pinlistLoop (cap : ℕ) : ℕ → Jinja.Text → Jinja.Text → Option Jinja.Text
  | 0, _, _ => none
  | n + 1, p, out =>
    match strtol (skipBlanks p) with
    | none => none
    | some (v, tail) =>
      let out := out ++ (if out = [] then [] else [',']) ++ intText v
      if cap < out.length + 1 then none
      else match skipBlanks tail with
        | [] => some out
        | ',' :: p => pinlistLoop cap n p out
        | _ => none

/-- `hcs_parse_pinlist`: the list that it writes, `none` when it returns -1. -/
def hcsParsePinlist (text : Jinja.Text) (cap : ℕ) : Option Jinja.Text :=
  if skipBlanks text = [] then some [] else pinlistLoop cap (text.length + 1) (skipBlanks text) []

/-- `atoi`, which cuts a `long` to an `int`. -/
def atoi (s : Jinja.Text) : ℤ := (atol s).bmod (2 ^ 32)

/-- `hcs_pin_list_ids`; the tokens of `strtok_r` are not empty. -/
def hcsPinListIds (pins : Jinja.Text) (cap : ℕ) : List ℤ :=
  if pins = [] then []
  else match hcsParsePinlist pins hcsPinlistMax with
    | none => []
    | some canon => (((canon.splitOn ',').filter (· ≠ [])).take cap).map atoi

/-! ### Configurations -/

structure HcsDevice where
  name : String
  tasks : ℕ
  layers : ℤ
  experts : ℤ
  pins : Jinja.Text
  hasPriority : Bool
  priority : ℤ

structure HcsConfig where
  enabled : Bool
  devices : List HcsDevice
  small : devices.length ≤ hcsMaxDevices

namespace HcsDevice

variable (d : HcsDevice)

/-- `device_count` -/
def count : HcsField → ℤ
  | .layers => d.layers
  | .experts => d.experts

/-- The ids that the pins of a device are read as everywhere. -/
def pinIds : List ℤ := hcsPinListIds d.pins 128

/-- The number that a device is given outright: none for `*` and where nothing is set. -/
def numeric (field : HcsField) : ℕ := (d.count field).toNat

/-- `pin_n`, which stays zero for layers. -/
def pinCount : HcsField → ℕ
  | .layers => 0
  | .experts => d.pinIds.length

end HcsDevice

/-- `hcs_set_simple` -/
def hcsSimple (device : String) : HcsDevice := ⟨device, hcsTasksAll, hcsCountAll, hcsCountUnset, [], false, 0⟩

namespace HcsConfig

variable (h : HcsConfig)

/-- `hcs_effective`; a configuration without devices has an empty first name. -/
def effective : HcsConfig :=
  if h.enabled then h else ⟨false, [hcsSimple ((h.devices.head?.map (·.name)).getD "")], Nat.le_add_left 1 7⟩

/-- The first device with `*`, if there is one. -/
def star (field : HcsField) : Option ℕ := h.devices.findIdx? fun d => d.count field = hcsCountAll

/-- What each device is given outright: its number and its pins. -/
def outright (field : HcsField) : List ℕ := h.devices.map fun d => d.numeric field + d.pinCount field

def assigned (field : HcsField) : ℕ := (h.outright field).sum

/-- `hcs_resolve_counts`: `held` and what is returned; `none` is an addition that does not fit an `int`. -/
def resolveCounts (field : HcsField) (total : ℤ) : Option (List ℕ × ℤ) :=
  let numeric := h.assigned field
  match h.star field, decide (numeric < total) with
  | some star, true =>
    let held : List ℕ := h.devices.map (·.numeric field)
    let own : ℕ := ((h.devices.map (·.pinCount field)).getD star 0)
    some (held.set star ((total - numeric).toNat + own), min total intMax)
  | _, _ =>
    if ∀ c ∈ h.outright field, (c : ℤ) ≤ intMax then some (h.outright field, min numeric intMax) else none

/-- A device has `*`, and what is given outright leaves something for it. -/
def LeavesRemainder (field : HcsField) (total : ℤ) : Prop := (h.star field).isSome ∧ h.assigned field < total

/-- Only the device with `*` has pins where it is given a remainder, and the numbers fit an `int`. -/
def SumsUp (field : HcsField) (total : ℤ) : Prop :=
  match h.star field with
  | some s =>
    if (h.assigned field : ℤ) < total then
      total ≤ intMax ∧ ∀ d ∈ h.devices.eraseIdx s, d.pinCount field = 0
    else (h.assigned field : ℤ) ≤ intMax
  | none => (h.assigned field : ℤ) ≤ intMax

/-- `first_set_experts` -/
def firstSetExperts : ℤ :=
  ((h.devices.find? fun d => d.experts ≠ hcsCountUnset).map (·.experts)).getD hcsCountUnset

end HcsConfig

/-! ### What is accepted -/

/-- A report of `add_violation`: the section, the key and the message. -/
structure HcsViolation where
  device : Option String
  key : String
  msg : String
deriving DecidableEq

/-- What `model_probe_shape` finds in a model file. -/
structure HcsShape where
  nLayers : ℕ
  nExperts : ℕ
  layersInt : (nLayers : ℤ) ≤ intMax
  expertsInt : (nExperts : ℤ) ≤ intMax

inductive HcsModel
  | diffusion
  | unreadable
  | readable (shape : HcsShape)

/-- A model that is not readable has no experts. -/
def HcsModel.nExperts : HcsModel → ℕ
  | .readable shape => shape.nExperts
  | _ => 0

/-- What validation asks the machine. -/
structure HcsHost where
  /-- `backend_parse_device` -/
  validName : String → Bool
  available : List String
  best : String
  modelPath : String

namespace HcsConfig

variable (h : HcsConfig)

/-- `check_device_name` -/
def checkDeviceName (host : HcsHost) (idx : ℕ) (d : HcsDevice) : List HcsViolation :=
  if !host.validName d.name then
    [⟨some d.name, "device", "'" ++ d.name ++ "' is not a valid device name; expected <backend><n>"⟩]
  else if (h.devices.take idx).any fun e => e.name = d.name then
    [⟨some d.name, "device", "listed more than once in 'devices'"⟩]
  else if d.name = "cpu0" ∨ d.name ∈ host.available then []
  else
    [⟨some d.name, "device", "'" ++ d.name ++ "' is not an available device; available: " ++
      ", ".intercalate host.available⟩]

/-- The name of the first device before this one that has `*`. -/
def starBefore (field : HcsField) (idx : ℕ) : Option String :=
  ((h.devices.take idx).find? fun d => d.count field = hcsCountAll).map (·.name)

/-- The part of `check_device_fields` and `check_experts_star` that is about `*`. -/
def checkStar (field : HcsField) (idx : ℕ) (d : HcsDevice) : List HcsViolation :=
  if d.count field ≠ hcsCountAll then []
  else match h.starBefore field idx with
    | some owner =>
      [⟨some d.name, field.key, "'*' already used by [hcs." ++ owner ++ "]; at most one '*' per key"⟩]
    | none => []

/-- `check_device_fields` -/
def checkDeviceFields (idx : ℕ) (d : HcsDevice) : List HcsViolation :=
  (if d.tasks ≠ hcsTasksAll then
    [⟨some d.name, "tasks", if d.tasks = 0 then "no tasks listed; a device must run both prefill and decode"
      else "splitting prefill/decode execution is not supported yet; a device must run both prefill and " ++
        "decode ('tasks = prefill, decode')"⟩]
  else []) ++
  (if d.layers = hcsCountUnset then [⟨some d.name, "layers", "not set; use a layer count or '*'"⟩] else []) ++
  h.checkStar .layers idx d

/-- `check_experts_star` -/
def checkExpertsStar : List HcsViolation :=
  h.devices.zipIdx.flatMap fun r => h.checkStar .experts r.2 r.1

/-- `check_coverage`: the reports, and `held`. -/
def checkCoverage (field : HcsField) (total : ℕ) (moeStream : Bool) :
    Option (List HcsViolation × List ℕ) :=
  let report := (h.star field).getD (h.devices.length - 1)
  let name := (h.devices[report]?.map (·.name)).getD ""
  (h.resolveCounts field total).map fun counts =>
    let held := counts.1
    let assigned := counts.2
    let told := toString assigned ++ " " ++ field.unit ++ " assigned, model has " ++ toString total ++
      field.scope
    if (total : ℤ) < assigned then
      ([⟨some name, field.key, told ++ "; remove " ++ toString (assigned - total)⟩], held)
    else if (h.star field).isSome ∧ held.getD report 0 = 0 then
      ([⟨some name, field.key, "'*' has no " ++ field.unit ++ " remaining; all " ++ toString total ++
        " are already assigned"⟩], held)
    else if assigned < total ∧ ¬(field = .experts ∧ moeStream) then
      ([⟨some name, field.key, told ++ "; add '" ++ field.key ++ " = *' to a device or assign " ++
        toString (total - assigned) ++ " more"⟩], held)
    else ([], held)

/-- What `check_pin_rules` reports of the pin at position `k` of a list; `before` has the devices listed
before with their pins. -/
def checkPin (name : String) (nExperts : ℕ) (before : List (String × List ℤ)) (pins : List ℤ) (k : ℕ)
    (e : ℤ) : List HcsViolation :=
  ((pins.take k).filter (· = e)).map (fun _ =>
    ⟨some name, "pins", "expert " ++ toString e ++ " is listed more than once"⟩) ++
  if 0 < nExperts ∧ (nExperts : ℤ) ≤ e then
    [⟨some name, "pins", "expert id " ++ toString e ++ " out of range; the model has " ++
      toString nExperts ++ " expert(s) per layer"⟩]
  else before.flatMap fun b => (b.2.filter (· = e)).map fun _ =>
    ⟨some name, "pins", "expert " ++ toString e ++ " is already pinned on '" ++ b.1 ++
      "'; an expert can only be pinned once"⟩

/-- `check_pin_rules` -/
def checkPinRules (nExperts : ℕ) : List HcsViolation :=
  h.devices.zipIdx.flatMap fun r =>
    r.1.pinIds.zipIdx.flatMap fun p =>
      checkPin r.1.name nExperts ((h.devices.take r.2).map fun d => (d.name, d.pinIds)) r.1.pinIds p.2 p.1

/-- What `check_model_rules` reports of one device that is to hold `held` layers. -/
def checkHolds (nExperts : ℕ) (d : HcsDevice) (held : ℕ) : List HcsViolation :=
  (if nExperts = 0 ∧ d.experts ≠ hcsCountUnset then
    [⟨some d.name, "experts", "model is not a MoE model; remove this key"⟩] else []) ++
  (if nExperts = 0 ∧ d.hasPriority then
    [⟨some d.name, "priority", "model is not a MoE model; remove this key"⟩] else []) ++
  if held = 0 ∧ ((d.experts = 0 ∨ d.experts = hcsCountUnset) ∧ d.pins = []) ∧
      d.layers ≠ hcsCountUnset then
    [⟨some d.name, "device", "holds nothing; remove it from 'devices'"⟩] else []

/-- What `check_model_rules` reports of the expert counts. -/
def checkExperts (nExperts : ℕ) (moeStream : Bool) : Option (List HcsViolation) :=
  if 0 < nExperts ∧ h.firstSetExperts ≠ hcsCountUnset then
    (h.checkCoverage .experts nExperts moeStream).map (·.1)
  else some []

/-- `check_model_rules` -/
def checkModelRules (shape : HcsShape) (moeStream : Bool) : Option (List HcsViolation) := do
  let layers ← h.checkCoverage .layers shape.nLayers false
  let experts ← h.checkExperts shape.nExperts moeStream
  let pins := if 0 < shape.nExperts then h.checkPinRules shape.nExperts else []
  some (layers.1 ++ experts ++ pins ++
    (h.devices.zip layers.2).flatMap fun r => checkHolds shape.nExperts r.1 r.2)

/-- `hcs_validate`; a configuration is accepted when nothing is reported. -/
def validate (host : HcsHost) (model : HcsModel) (moeStream : Bool) : Option (List HcsViolation) :=
  let eff := h.effective
  let empty : List HcsViolation :=
    if eff.devices = [] then [⟨none, "devices", "no devices listed; e.g. 'devices = " ++ host.best ++ "'"⟩]
    else []
  let fields := empty ++
    (eff.devices.zipIdx.flatMap fun r =>
      eff.checkDeviceName host r.2 r.1 ++ eff.checkDeviceFields r.2 r.1) ++
    eff.checkExpertsStar
  if eff.devices = [] ∨ !h.enabled then some fields
  else match model with
    | .diffusion =>
      some (if 1 < eff.devices.length then
        fields ++ [⟨none, "devices", "diffusion models run on a single device"⟩] else fields)
    | .unreadable => some (fields ++ [⟨none, "", "cannot validate HCS: model '" ++ host.modelPath ++ "' unreadable"⟩])
    | .readable shape => (eff.checkModelRules shape moeStream).map (fields ++ ·)

/-- The numbers of an accepted configuration fit an `int`, and where only pins are given there are not more
of them than experts. -/
def Fits (shape : HcsShape) : Prop :=
  h.enabled → (2 ≤ h.devices.length → (h.assigned .layers : ℤ) ≤ intMax) ∧
    (0 < shape.nExperts → if h.firstSetExperts = hcsCountUnset then h.assigned .experts ≤ shape.nExperts
      else (h.assigned .experts : ℤ) ≤ intMax)

end HcsConfig

/-! ### What the loader is told -/

def configMaxLayerDevices : ℕ := 8

/-- One of the devices that are to hold experts; `priority` is `none` for `CONFIG_PRIORITY_UNSET`, `pins`
for `NULL`. -/
structure HcsPart where
  device : String
  count : ℕ
  priority : Option ℤ
  pins : Option Jinja.Text

/-- The fields of the loader's configuration that `hcs_materialize` writes. -/
structure HcsMaterial where
  device : String
  /-- `layer_devices` and `layer_counts` -/
  layers : List (String × ℕ)
  parts : List HcsPart
  hostPriority : Option ℤ
  moeCacheCap : Option ℤ

namespace HcsConfig

variable (h : HcsConfig)

/-- `hcs_layout_order`: devices of the host come last. -/
def layoutOrder (isHost : String → Bool) : List ℕ :=
  let host (d : ℕ) : Bool := isHost ((h.devices[d]?.map (·.name)).getD "")
  (List.range h.devices.length).filter (fun d => !host d) ++ (List.range h.devices.length).filter host

/-- `materialize_layer_map` -/
def materializeLayerMap (isHost : String → Bool) (nLayers : ℕ) : Option (List (String × ℕ)) :=
  (h.resolveCounts .layers nLayers).map fun counts =>
    (((h.layoutOrder isHost).map fun d =>
      ((h.devices[d]?.map (·.name)).getD "", counts.1.getD d 0)).filter (·.2 ≠ 0)).take configMaxLayerDevices

/-- `materialize_expert_parts` without the priority of the host. -/
def materializeExpertParts (nExperts : ℕ) : Option (List HcsPart) :=
  if !h.enabled ∨ nExperts = 0 ∨
      h.firstSetExperts = hcsCountUnset ∧ ∀ d ∈ h.devices, d.pins = [] then some []
  else
    (h.resolveCounts .experts nExperts).map fun counts =>
      (((h.devices.zip counts.1).filter fun r => 0 < r.2 ∨ r.1.pins ≠ []).take configMaxLayerDevices).map
        fun r => ⟨r.1.name, r.2, if r.1.hasPriority then some r.1.priority else none,
          if r.1.pins ≠ [] then some r.1.pins else none⟩

/-- `host_priority`, which only configurations with expert devices set. -/
def hostPriority (isHost : String → Bool) (nExperts : ℕ) : Option ℤ :=
  if !h.enabled ∨ nExperts = 0 ∨
      h.firstSetExperts = hcsCountUnset ∧ ∀ d ∈ h.devices, d.pins = [] then none
  else (h.devices.find? fun d => isHost d.name && d.hasPriority).map (·.priority)

/-- The layer map that `hcs_materialize` writes. -/
def materializeLayers (isHost : String → Bool) : HcsModel → Option (List (String × ℕ))
  | .readable shape =>
    if 2 ≤ h.effective.devices.length then h.materializeLayerMap isHost shape.nLayers else some []
  | _ => some []

/-- `hcs_materialize` -/
def materialize (isHost : String → Bool) (model : HcsModel) : Option HcsMaterial := do
  let layers ← h.materializeLayers isHost model
  let parts ← h.materializeExpertParts model.nExperts
  let counts ← h.effective.resolveCounts .experts model.nExperts
  let experts := h.effective.firstSetExperts
  let cached := counts.1.sum
  some {
    device := (layers.head?.map (·.1)).getD ((h.devices.head?.map (·.name)).getD "")
    layers, parts
    hostPriority := h.hostPriority isHost model.nExperts
    moeCacheCap :=
      if experts = hcsCountAll then some intMax
      else if experts ≠ hcsCountUnset then some (if 0 < cached then cached else experts)
      else none }

end HcsConfig

end Kappai
