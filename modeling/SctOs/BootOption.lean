import SctOs.EfiVars
import SctOs.LoadOption

/-!
# Installing the boot option

`enumerate_efi_vars`, `set_boot_variables` and `print_next_efi_variable` of `efi/efivars.c`. The
firmware keeps the variables, and its services for them are a parameter, as are gnu-efi's functions.
The page for a name is the name in it. A call that leaves the loader stops with the message.
-/

namespace SctOs

namespace BootOption

open Bytes EfiVars LoadOption

/-! ## The variable services -/

abbrev Guid := BitVec 128

/-- A variable's name, and whose it is. -/
structure VariableId where
  name : CString 16
  guid : Guid

structure Variable where
  attributes : BitVec 32
  data : List (BitVec 8)
  deriving DecidableEq, Repr

inductive EfiStatus
  | success
  | notFound
  | aborted
  | other (status : U64)
  deriving DecidableEq, Repr

/-- The services, in each state of the firmware; a call gives the size of its buffer. -/
structure RuntimeServices (σ : Type) where
  getNextVariableName : σ → ℕ → VariableId → Except EfiStatus VariableId
  getVariable : σ → ℕ → VariableId → Except EfiStatus Variable
  setVariable : σ → VariableId → Variable → Except EfiStatus σ

def nonVolatile : BitVec 32 := 1

/-- Kept, and for the boot services and at run time. -/
def bootAttributes : BitVec 32 := 7

/-- `sizeof` the name. -/
def nameSize (id : VariableId) : ℕ := 2 * (id.name.chars.length + 1)

/-- A string literal as an object. -/
def text (s : String) (nonzero : ∀ c ∈ literal s, c ≠ 0#16) (short : (literal s).length < 256) :
    CString 16 :=
  ⟨literal s, nonzero, by omega⟩

def noName : CString 16 := text "" (by simp [literal]) (by simp [literal])

def bootOrder : CString 16 := text "BootOrder" (by simp [literal]) (by simp [literal])

def bootCurrent : CString 16 := text "BootCurrent" (by simp [literal]) (by simp [literal])

def bootNext : CString 16 := text "BootNext" (by simp [literal]) (by simp [literal])

def boot0004 : CString 16 := text "Boot0004" (by simp [literal]) (by simp [literal])

def opsysLoader : CString 16 := text "opsys loader" (by simp [literal]) (by simp [literal])

/-! ## The loader -/

/-- What is printed of a variable's data. -/
inductive Contents
  | bootOrder (options : List (BitVec 16))
  | bootCurrent (option : BitVec 16)
  | bootNext (option : BitVec 16)
  /-- A description and a device path, where they are in the memory. -/
  | bootOption (active : Bool) (memory : Memory) (description filePathList : U64)
  | unknown

structure Line where
  star : Bool
  id : VariableId
  contents : Contents

inductive Stop
  | exitStatus (status : EfiStatus) (message : String)
  | outOfRounds
  deriving DecidableEq, Repr

structure Boot (σ : Type) where
  firmware : σ
  memory : Memory
  printed : List Line
  /-- How many pages have been allocated. -/
  pages : ℕ

abbrev M (σ : Type) := EStateM Stop (Boot σ)

/-- What the loader is linked with, and where its local variables and its string are. -/
structure System (σ : Type) where
  rt : RuntimeServices σ
  strLen : List Char16 → Option (BitVec 64)
  strSize : Memory → U64 → U64
  allocatePool : U64 → U64
  allocatePages : ℕ → Except EfiStatus U64
  gEfiGlobalVariableGuid : Guid
  /-- `Guid` before it is set. -/
  guid : Guid
  header : U64
  description : U64
  efiDebug : Bool

/-- The identifier of a variable that is everybody's. -/
def System.global {σ : Type} (sys : System σ) (name : CString 16) : VariableId :=
  ⟨name, sys.gEfiGlobalVariableGuid⟩

def pageSize : ℕ := 4096

section Loader

variable {σ : Type} (sys : System σ)

/-- Allocate and zero a page. -/
def allocatePage : M σ U64 := fun b =>
  match sys.allocatePages b.pages with
  | .error status => .error (.exitStatus status "AllocatePages") b
  | .ok page => .ok page { b with
      memory := place b.memory page (List.replicate pageSize 0)
      pages := b.pages + 1 }

def readUInt16 (m : Memory) (a : U64) : BitVec 16 := BitVec.ofNat 16 (readLE m a 2)

/-- What is printed of the data in a page. -/
def contents (m : Memory) (data : U64) (dataSize : ℕ) (name : CString 16) : Contents :=
  if name.chars = bootOrder.chars then
    .bootOrder <| (List.range (dataSize / 2)).map fun i =>
      readUInt16 m (data + BitVec.ofNat 64 (2 * i))
  else if name.chars = bootCurrent.chars then .bootCurrent (readUInt16 m data)
  else if name.chars = bootNext.chars then .bootNext (readUInt16 m data)
  else if variableIsBootOption sys.strLen name.object = some true then
    let option := parseLoadOption sys.strSize m data (BitVec.ofNat 64 dataSize)
    .bootOption (option.attributes &&& loadOptionActive ≠ 0) m option.description
      option.filePathList
  else .unknown

/-- Print the variable after this one, if there is one. -/
def printNextEfiVariable (data : U64) (id : VariableId) : M σ (Option VariableId) := fun b =>
  match sys.rt.getNextVariableName b.firmware pageSize id with
  | .error .notFound => .ok none b
  | .error status => .error (.exitStatus status "GetNextVariableName") b
  | .ok id =>
    match sys.rt.getVariable b.firmware pageSize id with
    | .error status => .error (.exitStatus status "GetVariable") b
    | .ok v =>
      let m := place b.memory data v.data
      let line := ⟨v.attributes &&& nonVolatile ≠ 0, id, contents sys m data v.data.length id.name⟩
      .ok (some id) { b with memory := m, printed := b.printed ++ [line] }

/-- The variables after this one, and whether one is `Boot0004`. -/
def printVariables (data : U64) : ℕ → VariableId → Bool → M σ Bool
  | 0, _, _ => throw .outOfRounds
  | rounds + 1, id, boot0004Exists => do
    match ← printNextEfiVariable sys data id with
    | none => return boot0004Exists
    | some id => printVariables data rounds id (boot0004Exists || id.name.chars = boot0004.chars)

/-- The message names the other service. -/
def getBootCurrent : M σ (BitVec 16) := fun b =>
  match sys.rt.getVariable b.firmware 2 (sys.global bootCurrent) with
  | .error status => .error (.exitStatus status "SetVariable") b
  | .ok v =>
    if v.data.length = 2 then .ok (BitVec.ofNat 16 (number (v.data.getD · 0) 0 2)) b
    else .error (.exitStatus .aborted
      "Failed assertion: BootCurrentSize == sizeof(BootCurrent)") b

/-- Print all variables; the boot option needs to be installed or reinstalled. -/
def readVariables (rounds : ℕ) : M σ Bool := do
  let _name ← allocatePage sys
  let data ← allocatePage sys
  let boot0004Exists ← printVariables sys data rounds ⟨noName, sys.guid⟩ false
  return !boot0004Exists || (← getBootCurrent sys) ≠ 4

def setVariable (id : VariableId) (v : Variable) : M σ Unit := fun b =>
  match sys.rt.setVariable b.firmware id v with
  | .error status => .error (.exitStatus status "SetVariable") b
  | .ok firmware => .ok () { b with firmware }

/-- A dummy option, the loader, the UEFI shell. -/
def bootOrderData : List (BitVec 8) := bytesLE 2 0 ++ bytesLE 2 4 ++ bytesLE 2 3

/-- A load option in the pool. -/
def makeBootOption (bootDevp : U64) (devpSize : BitVec 16) : M σ (List (BitVec 8)) := fun b =>
  let m := place b.memory sys.header (bootHeader devpSize).bytes
  match makeLoadOption sys.strSize sys.allocatePool m sys.header sys.description bootDevp
      devpSize with
  | none => .error (.exitStatus .aborted "AllocatePool") { b with memory := m }
  | some made =>
    let m := patchAll m made.writes
    .ok ((List.range made.loadOptionSize.toNat).map (bytesFrom m made.buf)) { b with memory := m }

/-- Set boot option 4 to the device path, and update the boot order. -/
def setBootVariables (bootDevp : U64) (devpSize : BitVec 16) : M σ Unit := do
  let loadOption ← makeBootOption sys bootDevp devpSize
  setVariable sys (sys.global boot0004) ⟨bootAttributes, loadOption⟩
  setVariable sys (sys.global bootOrder) ⟨bootAttributes, bootOrderData⟩

/-- Read the variables, and install a boot option for the device path. -/
def enumerateEfiVars (rounds : ℕ) (bootDevp : U64) (devpSize : BitVec 16) : M σ Unit := do
  let needed ← readVariables sys rounds
  if _h : needed ∧ bootDevp ≠ 0 ∧ devpSize ≠ 0 then
    setBootVariables sys bootDevp devpSize
    enumerateEfiVars rounds 0 0
    if sys.efiDebug then throw (.exitStatus .success "installed boot option; reboot")
termination_by if bootDevp = 0 then 0 else 1
decreasing_by
  rw [if_pos trivial, if_neg _h.2.1]
  exact Nat.zero_lt_one

end Loader

/-! ## What the firmware is to do -/

/-- The names that come after one; the empty name is before them all. -/
def Rest (order : List VariableId) (id : VariableId) (rest : List VariableId) : Prop :=
  (id.name.chars = [] ∧ rest = order) ∨ ∃ before, order = before ++ id :: rest

/-- The variables of the firmware's states, and the order in which it goes through their names: what
the services give is documented in these terms. -/
structure Documented {σ : Type} (rt : RuntimeServices σ) (order : σ → List VariableId)
    (vars : σ → VariableId → Option Variable) : Prop where
  named : ∀ s, ∀ id ∈ order s, id.name.chars ≠ []
  listed : ∀ s id, id ∈ order s ↔ (vars s id).isSome
  last : ∀ s size id, Rest (order s) id [] → rt.getNextVariableName s size id = .error .notFound
  next : ∀ s size id id' rest, Rest (order s) id (id' :: rest) → nameSize id' ≤ size →
    rt.getNextVariableName s size id = .ok id'
  get : ∀ s size id v, vars s id = some v → v.data.length ≤ size →
    rt.getVariable s size id = .ok v
  set : ∀ s id v s', v.data ≠ [] → rt.setVariable s id v = .ok s' →
    vars s' id = some v ∧ ∀ id' ≠ id, vars s' id' = vars s id'

end BootOption

end SctOs
