import SctOs.BootOption
import SctOs.Proofs.EfiVars
import SctOs.Proofs.LoadOption
import SctOs.Proofs.Related
import SctOs.Proofs.Stateful

/-!
# Installing the boot option

Whatever the services answer, only `Boot0004` and `BootOrder` are set (`enumerate_touches`). When
they do what is documented, the variables are read in the firmware's order, and what is installed is
read back (`enumerate_installs`).
-/

namespace SctOs

namespace BootOption

open Bytes EfiVars EfiWrapper LoadOption Stateful

variable {σ : Type} {sys : System σ} {Q : σ → Prop}

/-! ## What is not touched -/

theorem allocatePage_keeps : Keeps (fun _ => True) (fun b => Q b.firmware) (allocatePage sys) := by
  refine keeps_of_final fun b hb => ?_
  rw [EStateM.run, allocatePage]
  split <;> dsimp only [final] <;> exact hb

theorem printNext_keeps (data : U64) (id : VariableId) :
    Keeps (fun _ => True) (fun b => Q b.firmware) (printNextEfiVariable sys data id) := by
  refine keeps_of_final fun b hb => ?_
  rw [EStateM.run, printNextEfiVariable]
  split
  · exact hb
  · exact hb
  · split <;> exact hb

theorem printVariables_keeps (data : U64) : ∀ (rounds : ℕ) (id : VariableId) (seen : Bool),
    Keeps (fun _ => True) (fun b => Q b.firmware) (printVariables sys data rounds id seen)
  | 0, _, _ => .throw _
  | rounds + 1, id, seen => by
    refine (printNext_keeps data id).bind fun next => ?_
    cases next with
    | none => exact .pure _
    | some id => exact printVariables_keeps data rounds id _

theorem getBootCurrent_keeps : Keeps (fun _ => True) (fun b => Q b.firmware) (getBootCurrent sys) := by
  refine keeps_of_final fun b hb => ?_
  rw [EStateM.run, getBootCurrent]
  split
  · exact hb
  · split_ifs <;> exact hb

theorem readVariables_keeps (rounds : ℕ) :
    Keeps (fun _ => True) (fun b => Q b.firmware) (readVariables sys rounds) :=
  allocatePage_keeps.bind fun _ => allocatePage_keeps.bind fun _ =>
    (printVariables_keeps _ rounds _ _).bind fun _ => getBootCurrent_keeps.bind fun _ => .pure _

theorem makeBootOption_keeps (bootDevp : U64) (devpSize : BitVec 16) :
    Keeps (fun _ => True) (fun b => Q b.firmware) (makeBootOption sys bootDevp devpSize) := by
  refine keeps_of_final fun b hb => ?_
  rw [EStateM.run, makeBootOption]
  dsimp only
  split <;> exact hb

theorem setVariable_keeps {id : VariableId} {v : Variable}
    (h : ∀ s s', Q s → sys.rt.setVariable s id v = .ok s' → Q s') :
    Keeps (fun _ => True) (fun b => Q b.firmware) (setVariable sys id v) := by
  refine keeps_of_final fun b hb => ?_
  rw [EStateM.run, setVariable]
  split
  · exact hb
  · rename_i s' hs
    exact h b.firmware s' hb hs

/-- Without a device path nothing is set. -/
theorem enumerate_null (rounds : ℕ) {bootDevp : U64} {devpSize : BitVec 16}
    (h : bootDevp = 0 ∨ devpSize = 0) :
    Keeps (fun _ => True) (fun b => Q b.firmware) (enumerateEfiVars sys rounds bootDevp devpSize) := by
  rw [enumerateEfiVars]
  refine (readVariables_keeps rounds).bind fun needed => ?_
  rw [dif_neg fun hn => h.elim hn.2.1 hn.2.2]
  exact .pure _

theorem enumerate_keeps (rounds : ℕ) (bootDevp : U64) (devpSize : BitVec 16)
    (h : ∀ s s' v, ∀ id ∈ [sys.global boot0004, sys.global bootOrder], Q s →
      sys.rt.setVariable s id v = .ok s' → Q s') :
    Keeps (fun _ => True) (fun b => Q b.firmware) (enumerateEfiVars sys rounds bootDevp devpSize) := by
  rw [enumerateEfiVars]
  refine (readVariables_keeps rounds).bind fun needed => ?_
  by_cases hneeded : needed ∧ bootDevp ≠ 0 ∧ devpSize ≠ 0
  · rw [dif_pos hneeded]
    refine Keeps.bind ?_ fun _ => (enumerate_null rounds (.inl rfl)).bind fun _ => ?_
    · refine (makeBootOption_keeps bootDevp devpSize).bind fun option => ?_
      refine (setVariable_keeps fun s s' => h s s' _ _ (by simp)).bind fun _ => ?_
      exact setVariable_keeps fun s s' => h s s' _ _ (by simp)
    · split_ifs
      · exact .throw _
      · exact .pure _
  · rw [dif_neg hneeded]
    exact .pure _

/-- Whatever the services answer and wherever the loader is left, no variable but the boot option
and the boot order is touched, and none without a device path. -/
theorem enumerate_touches {vars : σ → VariableId → Option Variable}
    (hset : ∀ s id v s', sys.rt.setVariable s id v = .ok s' →
      ∀ id' ≠ id, vars s' id' = vars s id')
    (rounds : ℕ) (bootDevp : U64) (devpSize : BitVec 16) (b : Boot σ) :
    let b' := final ((enumerateEfiVars sys rounds bootDevp devpSize).run b)
    (∀ id ∉ [sys.global boot0004, sys.global bootOrder],
      vars b'.firmware id = vars b.firmware id)
    ∧ (bootDevp = 0 ∨ devpSize = 0 → b'.firmware = b.firmware) := by
  intro b'
  constructor
  · exact (enumerate_keeps (Q := fun s => ∀ id ∉ [sys.global boot0004, sys.global bootOrder],
      vars s id = vars b.firmware id) rounds bootDevp devpSize
      (fun s s' v id' hid' hs hrun id hid => by
        rw [hset s id' v s' hrun id fun he => hid (he ▸ hid'), hs id hid])).final fun _ _ => rfl
  · intro hnull
    exact (enumerate_null (Q := fun s => s = b.firmware) rounds hnull).final rfl

/-! ## Reading the variables -/

/-- What the loader relies on: all fits a page, and the firmware says which option it has booted. -/
structure Ready (sys : System σ) (order : σ → List VariableId)
    (vars : σ → VariableId → Option Variable) (s : σ) (current : BitVec 16) : Prop where
  names : ∀ id ∈ order s, nameSize id ≤ pageSize
  data : ∀ id v, vars s id = some v → v.data.length ≤ pageSize
  booted : ∃ attributes, vars s (sys.global bootCurrent)
    = some ⟨attributes, bytesLE 2 current.toNat⟩

section Documented

variable {order : σ → List VariableId} {vars : σ → VariableId → Option Variable}
  {current : BitVec 16} {b : Boot σ}

/-- The line for a variable, from its data in a page. -/
def PrintedFrom (sys : System σ) (vars : VariableId → Option Variable) (data : U64)
    (id : VariableId) (line : Line) : Prop :=
  ∃ v m, vars id = some v ∧ BytesAt m data v.data
    ∧ line = ⟨v.attributes &&& nonVolatile ≠ 0, id, contents sys m data v.data.length id.name⟩

/-- After some variables have been printed from a page. -/
structure Printed (sys : System σ) (vars : VariableId → Option Variable) (data : U64)
    (ids : List VariableId) (b b' : Boot σ) : Prop where
  firmware : b'.firmware = b.firmware
  pages : b'.pages = b.pages
  lines : ∃ lines, b'.printed = b.printed ++ lines
    ∧ List.Forall₂ (PrintedFrom sys vars data) ids lines
  kept : ∀ a bs, Apart data pageSize a bs.length → BytesAt b.memory a bs → BytesAt b'.memory a bs

theorem Rest.tail {ids rest : List VariableId} {id id' : VariableId}
    (h : Rest ids id (id' :: rest)) : Rest ids id' rest := by
  rcases h with ⟨-, h⟩ | ⟨before, h⟩
  · exact .inr ⟨[], h.symm⟩
  · exact .inr ⟨before ++ [id], by rw [h, List.append_assoc, List.singleton_append]⟩

theorem Rest.mem {ids rest : List VariableId} {id id' : VariableId}
    (h : Rest ids id (id' :: rest)) : id' ∈ ids := by
  rcases h with ⟨-, h⟩ | ⟨before, h⟩
  · simp [← h]
  · simp [h]

theorem Apart.mono {a c : U64} {n n' k : ℕ} (h : Apart a n c k) (hn : n' ≤ n) : Apart a n' c k :=
  fun j hj => hn.trans (h j hj)

theorem zeros_kept {m : Memory} {page a : U64} {bs : List (BitVec 8)}
    (h : Apart page pageSize a bs.length) (hb : BytesAt m a bs) :
    BytesAt (place m page (List.replicate pageSize 0)) a bs := by
  have hlen : (List.replicate pageSize (0 : BitVec 8)).length = pageSize := List.length_replicate
  exact hb.congr (sameAt_place (hlen.symm ▸ h)).symm

theorem noName_chars : noName.chars = [] := by
  simp [noName, text, literal]

theorem printVariables_run (doc : Documented sys.rt order vars) (data : U64) :
    ∀ {rest : List VariableId} {b : Boot σ} {rounds : ℕ} (id : VariableId) (seen : Bool),
      Ready sys order vars b.firmware current → Rest (order b.firmware) id rest →
      rest.length < rounds → ∃ b', (printVariables sys data rounds id seen).run b
        = .ok (seen || rest.any (·.name.chars = boot0004.chars)) b'
        ∧ Printed sys (vars b.firmware) data rest b b'
  | _, _, 0, _, _, _, _, hlt => absurd hlt (Nat.not_lt_zero _)
  | [], b, rounds + 1, id, seen, _, hrest, _ => by
    have hnext : (printNextEfiVariable sys data id).run b = .ok none b := by
      rw [EStateM.run, printNextEfiVariable, doc.last _ _ _ hrest]
    refine ⟨b, ?_, rfl, rfl, ⟨[], by simp, .nil⟩, fun _ _ _ h => h⟩
    rw [printVariables, run_bind_eq hnext, List.any_nil, Bool.or_false]
    rfl
  | id' :: rest, b, rounds + 1, id, seen, ready, hrest, hlt => by
    obtain ⟨v, hv⟩ := Option.isSome_iff_exists.1 ((doc.listed _ _).1 hrest.mem)
    have hfit := ready.data id' v hv
    let line : Line := ⟨v.attributes &&& nonVolatile ≠ 0, id',
      contents sys (place b.memory data v.data) data v.data.length id'.name⟩
    let b₁ : Boot σ := { b with
      memory := place b.memory data v.data
      printed := b.printed ++ [line] }
    have hnext : (printNextEfiVariable sys data id).run b = .ok (some id') b₁ := by
      rw [EStateM.run, printNextEfiVariable, doc.next _ _ _ _ _ hrest (ready.names _ hrest.mem)]
      dsimp only
      rw [doc.get _ _ _ _ hv hfit]
    obtain ⟨b', hrun, h⟩ := printVariables_run doc data (b := b₁) id'
      (seen || id'.name.chars = boot0004.chars) ready hrest.tail (Nat.lt_of_succ_lt_succ hlt)
    obtain ⟨lines, hlines, hall⟩ := h.lines
    refine ⟨b', ?_, h.firmware, h.pages, ⟨line :: lines, ?_, .cons ⟨v, _, hv, ?_, rfl⟩ hall⟩, ?_⟩
    · rw [printVariables, run_bind_eq hnext]
      dsimp only
      rw [hrun, List.any_cons, Bool.or_assoc]
    · rw [hlines, List.append_assoc, List.singleton_append]
    · exact bytesAt_place (hfit.trans (by decide))
    · intro a bs hapart hbytes
      exact h.kept a bs hapart (hbytes.congr (sameAt_place (Apart.mono hapart hfit)).symm)

/-- The variables have all been read. -/
structure ReadAll (sys : System σ) (order : σ → List VariableId)
    (vars : σ → VariableId → Option Variable) (b b' : Boot σ) : Prop where
  firmware : b'.firmware = b.firmware
  pages : b'.pages = b.pages + 2
  lines : ∃ data lines, b'.printed = b.printed ++ lines
    ∧ List.Forall₂ (PrintedFrom sys (vars b.firmware) data) (order b.firmware) lines
  kept : ∀ a bs, (∀ n page, sys.allocatePages n = .ok page → Apart page pageSize a bs.length) →
    BytesAt b.memory a bs → BytesAt b'.memory a bs

/-- The option is there, and the firmware has booted it. -/
def BootedFrom (order : List VariableId) (current : BitVec 16) : Prop :=
  (∃ id ∈ order, id.name.chars = boot0004.chars) ∧ current = 4

instance (order : List VariableId) (current : BitVec 16) : Decidable (BootedFrom order current) :=
  inferInstanceAs (Decidable (_ ∧ _))

theorem needed_eq (ids : List VariableId) (current : BitVec 16) :
    (!ids.any (·.name.chars = boot0004.chars) || decide (current ≠ 4))
      = decide (¬ BootedFrom ids current) := by
  rw [Bool.eq_iff_iff, decide_eq_true_iff, BootedFrom, not_and_or]
  simp

theorem allocatePage_run {page : U64} (h : sys.allocatePages b.pages = .ok page) :
    (allocatePage sys).run b = .ok page { b with
      memory := place b.memory page (List.replicate pageSize 0)
      pages := b.pages + 1 } := by
  rw [EStateM.run, allocatePage, h]

theorem getBootCurrent_run (doc : Documented sys.rt order vars)
    (ready : Ready sys order vars b.firmware current) :
    (getBootCurrent sys).run b = .ok current b := by
  obtain ⟨attributes, hv⟩ := ready.booted
  have hlen : (bytesLE 2 current.toNat).length = 2 := bytesLE_length _ _
  rw [EStateM.run, getBootCurrent, doc.get _ _ _ _ hv hlen.le]
  dsimp only
  have hnum : BitVec.ofNat 16 (number ((bytesLE 2 current.toNat).getD · 0) 0 2) = current := by
    apply BitVec.eq_of_toNat_eq
    have := current.isLt
    simp [number, bytesLE]
    omega
  rw [if_pos hlen, hnum]

theorem readVariables_run (doc : Documented sys.rt order vars)
    (ready : Ready sys order vars b.firmware current)
    (hpages : ∀ n, ∃ page, sys.allocatePages n = .ok page) (rounds : ℕ)
    (hrounds : (order b.firmware).length < rounds) :
    ∃ b', (readVariables sys rounds).run b
        = .ok (decide (¬ BootedFrom (order b.firmware) current)) b'
      ∧ ReadAll sys order vars b b' := by
  obtain ⟨name, hname⟩ := hpages b.pages
  obtain ⟨data, hdata⟩ := hpages (b.pages + 1)
  have h1 := allocatePage_run hname
  have h2 := allocatePage_run (b := { b with
    memory := place b.memory name (List.replicate pageSize 0)
    pages := b.pages + 1 }) hdata
  obtain ⟨b', hrun, h⟩ := printVariables_run doc data (b := { b with
      memory := place (place b.memory name (List.replicate pageSize 0)) data
        (List.replicate pageSize 0)
      pages := b.pages + 1 + 1 }) ⟨noName, sys.guid⟩ false ready (.inl ⟨noName_chars, rfl⟩) hrounds
  refine ⟨b', ?_, h.firmware, h.pages, ⟨data, h.lines⟩, fun a bs hapart hbytes => ?_⟩
  · rw [readVariables, run_bind_eq h1, run_bind_eq h2, run_bind_eq hrun]
    rw [run_bind_eq (getBootCurrent_run doc (h.firmware ▸ ready))]
    rw [Bool.false_or, ← needed_eq]
    rfl
  · have hname := zeros_kept (hapart _ _ hname) hbytes
    have hdata' := zeros_kept (hapart _ _ hdata) hname
    have hk := h.kept a bs (hapart _ _ hdata)
    dsimp only at hk
    exact hk hdata'

/-! ## Installing -/

theorem loader_length : opsysLoader.chars.length = 12 := by
  simp [opsysLoader, text, literal]

theorem description_length : (stringBytes opsysLoader).length = 26 := by
  rw [stringBytes_length, loader_length]

/-- The bytes of the loader's boot option: it is active, and the length of its path. -/
def optionBytes (path : List (BitVec 8)) : List (BitVec 8) :=
  [1, 0, 0, 0, byteOf path.length 0, byteOf path.length 1] ++ (stringBytes opsysLoader ++ path)

/-- Where the loader's objects are, each apart from what is written before it is read. -/
structure Laid (sys : System σ) (m : Memory) (bootDevp : U64) (path : List (BitVec 8)) : Prop where
  pages : ∀ n, ∃ page, sys.allocatePages n = .ok page
  description : BytesAt m sys.description (stringBytes opsysLoader)
  devp : BytesAt m bootDevp path
  pagesDescription : ∀ n page, sys.allocatePages n = .ok page →
    Apart page pageSize sys.description (stringBytes opsysLoader).length
  pagesPath : ∀ n page, sys.allocatePages n = .ok page → Apart page pageSize bootDevp path.length
  headerDescription : Apart sys.header 6 sys.description (stringBytes opsysLoader).length
  headerPath : Apart sys.header 6 bootDevp path.length
  pool : PoolGives sys.allocatePool (BitVec.ofNat 64 (optionBytes path).length)
    [(sys.header, 6), (sys.description, (stringBytes opsysLoader).length), (bootDevp, path.length)]

theorem optionBytes_length (path : List (BitVec 8)) :
    (optionBytes path).length = 6 + 2 * (opsysLoader.chars.length + 1) + path.length := by
  rw [optionBytes, List.length_append, List.length_append, stringBytes_length, ← Nat.add_assoc]
  rfl

theorem optionBytes_eq {path : List (BitVec 8)} (h : path.length < 2 ^ 16) : optionBytes path
    = (bootHeader (BitVec.ofNat 16 path.length)).bytes ++ (stringBytes opsysLoader ++ path) := by
  have hn : (BitVec.ofNat 16 path.length).toNat = path.length := Nat.mod_eq_of_lt h
  have hactive : bytesLE 4 loadOptionActive.toNat = [1, 0, 0, 0] := by decide
  rw [Header.bytes, bootHeader, hn, hactive]
  rfl

/-- What is laid is what is read back from there. -/
theorem bytesFrom_eq {m : Memory} {a : U64} {bs : List (BitVec 8)} (h : BytesAt m a bs) :
    (List.range bs.length).map (bytesFrom m a) = bs := by
  refine List.ext_getElem (by simp) fun i hi hi' => ?_
  rw [List.getElem_map, List.getElem_range]
  exact h i hi'

theorem makeBootOption_run (hstr : IsStrSize sys.strSize) {bootDevp : U64} {path : List (BitVec 8)}
    (hpath : path.length < 2 ^ 16) (laid : Laid sys b.memory bootDevp path) :
    ∃ m, (makeBootOption sys bootDevp (BitVec.ofNat 16 path.length)).run b
      = .ok (optionBytes path) { b with memory := m } := by
  let h := bootHeader (BitVec.ofNat 16 path.length)
  have hh : h.bytes.length = 6 := header_length h
  have hheader : BytesAt (place b.memory sys.header h.bytes) sys.header h.bytes :=
    bytesAt_place (by rw [hh]; decide)
  have hdesc : BytesAt (place b.memory sys.header h.bytes) sys.description
      (stringBytes opsysLoader) :=
    laid.description.congr (sameAt_place (hh.symm ▸ laid.headerDescription)).symm
  have hdevp : BytesAt (place b.memory sys.header h.bytes) bootDevp path :=
    laid.devp.congr (sameAt_place (hh.symm ▸ laid.headerPath)).symm
  have hpool := laid.pool
  rw [optionBytes_length, stringBytes_length] at hpool
  obtain ⟨made, hmade, hsize, hlays⟩ :=
    makeLoadOption_lays hstr hheader hdesc hdevp hpath hpool
  have hlt : (optionBytes path).length < 2 ^ 64 := by
    rw [optionBytes_length]
    have := loader_length
    omega
  have hn : made.loadOptionSize.toNat = (optionBytes path).length := by
    rw [hsize, optionBytes_length, BitVec.toNat_ofNat, Nat.mod_eq_of_lt]
    rwa [optionBytes_length] at hlt
  have hbytes : BytesAt (patchAll (place b.memory sys.header h.bytes) made.writes) made.buf
      (optionBytes path) := by
    have hb := hlays.holds (m := place b.memory sys.header h.bytes) (by
      rw [List.append_nil]
      exact hlt.le)
    rwa [List.append_nil, ← optionBytes_eq hpath] at hb
  refine ⟨patchAll (place b.memory sys.header h.bytes) made.writes, ?_⟩
  rw [EStateM.run, makeBootOption]
  dsimp only
  rw [hmade]
  dsimp only
  rw [hn, bytesFrom_eq hbytes]

/-- The boot option and the boot order are set, and nothing else. -/
structure Installed (sys : System σ) (path : List (BitVec 8))
    (before after : VariableId → Option Variable) : Prop where
  option : after (sys.global boot0004) = some ⟨7, optionBytes path⟩
  order : after (sys.global bootOrder) = some ⟨7, [0, 0, 4, 0, 3, 0]⟩
  others : ∀ id ∉ [sys.global boot0004, sys.global bootOrder], after id = before id

theorem setVariable_run {id : VariableId} {v : Variable} {s' : σ}
    (h : sys.rt.setVariable b.firmware id v = .ok s') :
    (setVariable sys id v).run b = .ok () { b with firmware := s' } := by
  rw [EStateM.run, setVariable, h]

theorem global_ne {name name' : CString 16} (h : name.chars ≠ name'.chars) :
    sys.global name ≠ sys.global name' := fun he => h (congrArg (·.name.chars) he)

/-- The firmware takes both variables, and is then in the state `s'`. -/
def Accepts (sys : System σ) (path : List (BitVec 8)) (s s' : σ) : Prop :=
  ∃ s₁, sys.rt.setVariable s (sys.global boot0004) ⟨7, optionBytes path⟩ = .ok s₁
    ∧ sys.rt.setVariable s₁ (sys.global bootOrder) ⟨7, [0, 0, 4, 0, 3, 0]⟩ = .ok s'

theorem Accepts.installed (doc : Documented sys.rt order vars) {path : List (BitVec 8)} {s s' : σ}
    (h : Accepts sys path s s') : Installed sys path (vars s) (vars s') := by
  obtain ⟨s₁, h₁, h₂⟩ := h
  have hbytes : optionBytes path ≠ [] := fun h => by
    have := optionBytes_length path
    rw [h, List.length_nil] at this
    omega
  obtain ⟨hoption, hkept₁⟩ := doc.set _ _ _ _ hbytes h₁
  obtain ⟨horder, hkept₂⟩ := doc.set _ _ _ _ (by decide) h₂
  have hne : sys.global boot0004 ≠ sys.global bootOrder :=
    global_ne (by simp [boot0004, bootOrder, text, literal])
  refine ⟨by rw [hkept₂ _ hne, hoption], horder, fun id hid => ?_⟩
  simp only [List.mem_cons, List.not_mem_nil, or_false, not_or] at hid
  rw [hkept₂ id hid.2, hkept₁ id hid.1]

theorem setBootVariables_run (hstr : IsStrSize sys.strSize) {bootDevp : U64}
    {path : List (BitVec 8)} {s' : σ} (hpath : path.length < 2 ^ 16)
    (laid : Laid sys b.memory bootDevp path) (h : Accepts sys path b.firmware s') :
    ∃ m, (setBootVariables sys bootDevp (BitVec.ofNat 16 path.length)).run b
      = .ok () { b with firmware := s', memory := m } := by
  obtain ⟨m, hmade⟩ := makeBootOption_run hstr hpath laid
  obtain ⟨s₁, h₁, h₂⟩ := h
  have hset₁ := setVariable_run (b := { b with memory := m }) h₁
  have hset₂ := setVariable_run (b := { b with firmware := s₁, memory := m }) h₂
  exact ⟨m, (run_bind_eq hmade).trans ((run_bind_eq hset₁).trans hset₂)⟩

/-- What is set fits a page again. -/
theorem Installed.ready {path : List (BitVec 8)} {s s' : σ}
    (doc : Documented sys.rt order vars) (h : Installed sys path (vars s) (vars s'))
    (hpath : (optionBytes path).length ≤ pageSize) (ready : Ready sys order vars s current) :
    Ready sys order vars s' current := by
  have hcases : ∀ id, id = sys.global boot0004 ∨ id = sys.global bootOrder
      ∨ vars s' id = vars s id := fun id => by
    by_cases hid : id ∈ [sys.global boot0004, sys.global bootOrder]
    · simp only [List.mem_cons, List.not_mem_nil, or_false] at hid
      tauto
    · exact .inr (.inr (h.others id hid))
  refine ⟨fun id hid => ?_, fun id v hv => ?_, ?_⟩
  · rcases hcases id with rfl | rfl | he
    · simp [nameSize, System.global, boot0004, text, literal, pageSize]
    · simp [nameSize, System.global, bootOrder, text, literal, pageSize]
    · refine ready.names id ((doc.listed s id).2 ?_)
      rw [← he]
      exact (doc.listed s' id).1 hid
  · rcases hcases id with rfl | rfl | he
    · rw [h.option] at hv
      cases hv
      exact hpath
    · rw [h.order] at hv
      cases hv
      decide
    · exact ready.data id v (he ▸ hv)
  · obtain ⟨attributes, hv⟩ := ready.booted
    refine ⟨attributes, ?_⟩
    rw [h.others, hv]
    simp only [List.mem_cons, List.not_mem_nil, or_false, not_or]
    exact ⟨global_ne (by simp [boot0004, bootCurrent, text, literal]),
      global_ne (by simp [bootOrder, bootCurrent, text, literal])⟩

/-- The line shows the loader's boot option. -/
def ShowsOption (sys : System σ) (path : List (BitVec 8)) (line : Line) : Prop :=
  line.id = sys.global boot0004 ∧ line.star = true ∧ ∃ m description filePathList,
    line.contents = .bootOption true m description filePathList
      ∧ BytesAt m description (stringBytes opsysLoader) ∧ BytesAt m filePathList path

/-- What was installed is read back. -/
theorem Installed.shows (hlen : IsStrLen sys.strLen) (hstr : IsStrSize sys.strSize)
    {path : List (BitVec 8)} {before after : VariableId → Option Variable}
    (h : Installed sys path before after) (hpath : path.length < 2 ^ 16) {data : U64} {line : Line}
    (hline : PrintedFrom sys after data (sys.global boot0004) line) :
    ShowsOption sys path line := by
  obtain ⟨v, m, hv, hbytes, rfl⟩ := hline
  rw [h.option] at hv
  cases hv
  rw [optionBytes_eq hpath] at hbytes
  have hsize : BitVec.ofNat 64 (optionBytes path).length = headerSize
      + BitVec.ofNat 64 (2 * (opsysLoader.chars.length + 1)) + BitVec.ofNat 64 path.length := by
    rw [optionBytes_length, BitVec.ofNat_add, BitVec.ofNat_add]
    rfl
  have hparsed := parseLoadOption_holds hstr (h := bootHeader (BitVec.ofNat 16 path.length)) rfl
    hpath hbytes hsize
  obtain ⟨hattr, hdesc, hfile, -⟩ := hparsed
  have hstar : (7 : BitVec 32) &&& nonVolatile ≠ 0 := by decide
  have hactive : loadOptionActive &&& loadOptionActive ≠ 0 := by decide
  refine ⟨rfl, decide_eq_true hstar, m, _, _, ?_, hdesc, hfile⟩
  have hboot : variableIsBootOption sys.strLen boot0004.object = some true := by
    rw [variableIsBootOption_boot hlen (a := 0x30) (b := 0x30) (c := 0x30) (d := 0x34) (by
      simp [boot0004, text, literal])]
    decide
  dsimp only
  rw [contents, if_neg, if_neg, if_neg, System.global, if_pos hboot]
  · dsimp only
    rw [hattr, bootHeader, decide_eq_true hactive]
  · simp [boot0004, bootNext, text, literal, System.global]
  · simp [boot0004, bootCurrent, text, literal, System.global]
  · simp [boot0004, bootOrder, text, literal, System.global]

theorem printed_ids {data : U64} {ids : List VariableId} {lines : List Line}
    {vars : VariableId → Option Variable} (h : List.Forall₂ (PrintedFrom sys vars data) ids lines) :
    lines.map Line.id = ids := by
  induction h with
  | nil => rfl
  | cons hline _ ih =>
    obtain ⟨v, m, -, -, rfl⟩ := hline
    rw [List.map_cons, ih]

theorem enumerate_null_run {rounds : ℕ} {needed : Bool} {b' : Boot σ}
    (h : (readVariables sys rounds).run b = .ok needed b') :
    (enumerateEfiVars sys rounds 0 0).run b = .ok () b' := by
  rw [enumerateEfiVars, run_bind_eq h, dif_neg fun hn => hn.2.1 rfl]
  rfl

/-- How the loader goes on after an installation. -/
def System.goesOn (sys : System σ) (b : Boot σ) : EStateM.Result Stop (Boot σ) Unit :=
  if sys.efiDebug then .error (.exitStatus .success "installed boot option; reboot") b else .ok () b

/-- The variables are printed in the firmware's order. Unless the firmware has booted from it, the
boot option is then installed, and the variables are printed again, with it. -/
def Enumerated (sys : System σ) (order : σ → List VariableId)
    (vars : σ → VariableId → Option Variable) (current : BitVec 16) (path : List (BitVec 8))
    (s' : σ) (b : Boot σ) (r : EStateM.Result Stop (Boot σ) Unit) : Prop :=
  if BootedFrom (order b.firmware) current then
    ∃ b' lines, r = .ok () b' ∧ b'.firmware = b.firmware ∧ b'.printed = b.printed ++ lines
      ∧ lines.map Line.id = order b.firmware
  else
    ∃ b' lines again, r = sys.goesOn b' ∧ b'.firmware = s'
      ∧ Installed sys path (vars b.firmware) (vars s')
      ∧ b'.printed = b.printed ++ lines ++ again ∧ lines.map Line.id = order b.firmware
      ∧ again.map Line.id = order s' ∧ ∃ line ∈ again, ShowsOption sys path line

end Documented

/-! ## A firmware -/

instance : DecidableEq (CString 16) := fun s t =>
  decidable_of_iff (s.chars = t.chars) ⟨fun h => by cases s; cases t; cases h; rfl, congrArg _⟩

deriving instance DecidableEq for VariableId

/-- Variables in the order in which they were set. -/
structure Store where
  vars : List (VariableId × Variable)
  nodup : (vars.map Prod.fst).Nodup
  named : ∀ id ∈ vars.map Prod.fst, id.name.chars ≠ []

namespace Store

def order (s : Store) : List VariableId := s.vars.map Prod.fst

def lookup (s : Store) (id : VariableId) : Option Variable :=
  (s.vars.find? (·.1 = id)).map Prod.snd

/-- The names after one. -/
def rest (s : Store) (id : VariableId) : List VariableId :=
  if id.name.chars = [] then s.order else (s.order.dropWhile (· ≠ id)).tail

def others (s : Store) (id : VariableId) : List (VariableId × Variable) :=
  s.vars.filter (·.1 ≠ id)

theorem others_sublist (s : Store) (id : VariableId) :
    ((s.others id).map Prod.fst).Sublist (s.vars.map Prod.fst) :=
  List.filter_sublist.map _

theorem not_mem_others (s : Store) (id : VariableId) : id ∉ (s.others id).map Prod.fst := by
  simp [others]

/-- The variable is deleted if there is no data. -/
def set (s : Store) (id : VariableId) (v : Variable) (h : id.name.chars ≠ []) : Store :=
  if v.data = [] then
    ⟨s.others id, (s.others_sublist id).nodup s.nodup,
      fun id' hid' => s.named id' ((s.others_sublist id).subset hid')⟩
  else
    ⟨(id, v) :: s.others id,
      List.nodup_cons.2 ⟨s.not_mem_others id, (s.others_sublist id).nodup s.nodup⟩,
      List.forall_mem_cons.2 ⟨h, fun id' hid' => s.named id' ((s.others_sublist id).subset hid')⟩⟩

def services : RuntimeServices Store where
  getNextVariableName s size id :=
    match s.rest id with
    | [] => .error .notFound
    | id' :: _ => if nameSize id' ≤ size then .ok id' else .error (.other 0x8000000000000005)
  getVariable s size id :=
    match s.lookup id with
    | none => .error .notFound
    | some v => if v.data.length ≤ size then .ok v else .error (.other 0x8000000000000005)
  setVariable s id v :=
    if h : id.name.chars ≠ [] then .ok (s.set id v h) else .error (.other 0x8000000000000002)

theorem rest_eq {s : Store} {id : VariableId} {ids : List VariableId} (h : Rest s.order id ids) :
    s.rest id = ids := by
  unfold rest
  rcases h with ⟨hnil, rfl⟩ | ⟨before, h⟩
  · rw [if_pos hnil]
  have hmem : id ∈ s.order := by simp [h]
  have hbefore : id ∉ before := fun hb => by
    have hn := s.nodup
    rw [show s.vars.map Prod.fst = before ++ id :: ids from h] at hn
    exact List.disjoint_of_nodup_append hn hb List.mem_cons_self
  rw [if_neg (s.named id hmem), h, List.dropWhile_append_of_pos,
    List.dropWhile_cons_of_neg (by simp), List.tail_cons]
  intro id' hid'
  exact decide_eq_true fun he => hbefore (he ▸ hid')

theorem setVariable_eq {s s' : Store} {id : VariableId} {v : Variable}
    (h : services.setVariable s id v = .ok s') : ∃ hn : id.name.chars ≠ [], s.set id v hn = s' := by
  have hn : id.name.chars ≠ [] := fun h0 => by simp [services, h0] at h
  simp only [services, dif_pos hn, Except.ok.injEq] at h
  exact ⟨hn, h⟩

theorem lookup_set {s : Store} {id id' : VariableId} {v : Variable} {hn : id.name.chars ≠ []}
    (h : id' ≠ id) : (s.set id v hn).lookup id' = s.lookup id' := by
  have hothers : (s.others id).find? (·.1 = id') = s.vars.find? (·.1 = id') := by
    rw [others, List.find?_filter]
    congr 1
    funext x
    by_cases hx : x.1 = id'
    · simp [hx, h]
    · simp [hx]
  unfold lookup set
  split_ifs
  · rw [hothers]
  · dsimp only
    rw [List.find?_cons_of_neg (by simpa using Ne.symm h), hothers]

theorem documented : Documented services order lookup where
  named s := s.named
  listed s id := by
    rw [lookup, Option.isSome_map, List.find?_isSome]
    simp [order]
  last s size id h := by
    simp only [services, rest_eq h]
  next s size id id' ids h hsize := by
    simp only [services, rest_eq h, if_pos hsize]
  get s size id v hv hsize := by
    simp only [services, hv, if_pos hsize]
  set s id v s' hv h := by
    obtain ⟨hn, rfl⟩ := setVariable_eq h
    exact ⟨by simp [lookup, Store.set, hv], fun id' hid' => lookup_set hid'⟩

end Store

/-! ## A boot from the shell -/

/-- The loader's string, and the end of a device path. -/
def shellMemory : Memory :=
  place (place (fun _ => 0) 0x2000 (stringBytes opsysLoader)) 0x3000 endOfDevicePath

/-- Option 0 was booted. -/
def shellStore : Store where
  vars := [(⟨bootCurrent, 1⟩, ⟨6, bytesLE 2 0⟩)]
  nodup := by simp
  named := by simp [bootCurrent, text, literal]

def shellSystem : System Store where
  rt := Store.services
  strLen s := CString.lengthFrom s 0
  strSize m a := scanSize m (2 ^ 63) a
  allocatePool _ := 0x10000
  allocatePages _ := .ok 0x20000
  gEfiGlobalVariableGuid := 1
  guid := 0
  header := 0x1000
  description := 0x2000
  efiDebug := false

def shellBoot : Boot Store := ⟨shellStore, shellMemory, [], 0⟩

theorem shell_laid : Laid shellSystem shellBoot.memory 0x3000 endOfDevicePath where
  pages _ := ⟨_, rfl⟩
  description := by
    have h : BytesAt (place (fun _ => 0) (0x2000 : U64) (stringBytes opsysLoader)) 0x2000
        (stringBytes opsysLoader) := bytesAt_place (by rw [description_length]; decide)
    refine h.congr (sameAt_place ?_).symm
    rw [description_length]
    decide
  devp := bytesAt_place (by decide)
  pagesDescription n page h := by
    cases h
    rw [description_length]
    decide
  pagesPath n page h := by
    cases h
    decide
  headerDescription := by
    rw [description_length]
    decide
  headerPath := by decide
  pool := by
    rw [optionBytes_length, description_length, loader_length]
    decide

theorem shell_ready : Ready shellSystem Store.order Store.lookup shellBoot.firmware 0 where
  names := by
    simp [shellBoot, shellStore, Store.order, nameSize, bootCurrent, text, literal, pageSize]
  data id v h := by
    have hv : ∃ x ∈ shellStore.vars, x.2 = v := by
      obtain ⟨x, hx, rfl⟩ := Option.map_eq_some_iff.1 h
      exact ⟨x, List.mem_of_find?_eq_some hx, rfl⟩
    obtain ⟨x, hx, rfl⟩ := hv
    rw [List.mem_singleton.1 hx]
    decide
  booted := ⟨6, by simp [shellBoot, shellStore, Store.lookup, shellSystem, System.global]⟩

theorem shell_accepts (path : List (BitVec 8)) :
    ∃ s', Accepts shellSystem path shellBoot.firmware s' := by
  have h4 : (shellSystem.global boot0004).name.chars ≠ [] := by
    simp [System.global, boot0004, text, literal]
  have ho : (shellSystem.global bootOrder).name.chars ≠ [] := by
    simp [System.global, bootOrder, text, literal]
  have hset : ∀ {s : Store} {id : VariableId} (v : Variable) (h : id.name.chars ≠ []),
      shellSystem.rt.setVariable s id v = .ok (s.set id v h) := fun v h => dif_pos h
  exact ⟨_, _, hset _ h4, hset _ ho⟩

theorem enumerate_touches_shell :
    let b' := final ((enumerateEfiVars shellSystem 3 0x3000 4).run shellBoot)
    (∀ id ∉ [shellSystem.global boot0004, shellSystem.global bootOrder],
      b'.firmware.lookup id = shellBoot.firmware.lookup id)
    ∧ ((0x3000 : U64) = 0 ∨ (4 : BitVec 16) = 0 → b'.firmware = shellBoot.firmware) :=
  enumerate_touches (fun s id v s' h id' hid' => by
    obtain ⟨hn, rfl⟩ := Store.setVariable_eq h
    exact Store.lookup_set hid') 3 0x3000 4 shellBoot

end BootOption

end SctOs
