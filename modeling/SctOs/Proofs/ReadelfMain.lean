import SctOs.ReadelfMain
import SctOs.Proofs.ElfContents

/-!
# The `readelf` program

Each known letter sets the flags as if it were the last one so far (`setFlag_known`), so the
options set them by the last letter about each, up to the first letter that is no flag
(`setFlags_spec`). Then the files are read one after the other, and nothing of one is left for the
next (`main_reads`).
-/

namespace SctOs

namespace ReadelfMain

open PrintElf Readelf
open Printf (Byte ch chars)

variable {programName : Arg} {ls : List (Byte × Byte)} {out : List Byte}

/-! ## One letter -/

theorem known_iff {c : Byte} : Known c ↔ c = ch 'f' ∨ c = ch 'l' ∨ c = ch 'S' ∨ c = ch 'd'
    ∨ c = ch 's' ∨ c = ch 'r' ∨ c = ch 'm' ∨ c = ch 'a' := by
  simp [Known, chars]

theorem isSet_append (c : Byte) (l : Byte × Byte) : isSet c (ls ++ [l])
    = if l.2 = c ∨ l.2 = ch 'a' then decide (l.1 = ch '-') else isSet c ls := by
  unfold isSet
  rw [List.reverse_append, List.reverse_singleton, List.singleton_append, List.find?_cons]
  by_cases h : l.2 = c ∨ l.2 = ch 'a'
  · simp [h]
  · simp [h]

theorem setFlag_known (d : Byte) {c : Byte} (hc : Known c) :
    setFlag programName d c ⟨flagsOf ls, out⟩
      = (.sfContinue, ⟨flagsOf (ls ++ [(d, c)]), out⟩) := by
  simp only [flagsOf, isSet_append]
  rcases known_iff.1 hc with rfl | rfl | rfl | rfl | rfl | rfl | rfl | rfl <;>
    simp [setFlag, ch]

theorem setFlag_refused (d : Byte) {c : Byte} (hc : ¬ Known c) (g : Globals) :
    setFlag programName d c g
      = ((refused programName c).1, g.print (refused programName c).2) := by
  rw [known_iff] at hc
  simp only [not_or] at hc
  obtain ⟨h1, h2, h3, h4, h5, h6, h7, h8⟩ := hc
  unfold setFlag refused
  rw [if_neg h1, if_neg h2, if_neg h3, if_neg h4, if_neg h5, if_neg h6, if_neg h7, if_neg h8]
  split_ifs
  · rfl
  · simp [printHelp, Globals.print]

theorem refused_ne (programName : Arg) (c : Byte) : (refused programName c).1 ≠ .sfContinue := by
  unfold refused
  split_ifs <;> simp

/-! ## One argument -/

theorem setFlagsIn_known (d : Byte) : ∀ {cs : List Byte} {ls : List (Byte × Byte)},
    (∀ c ∈ cs, Known c) → setFlagsIn programName d cs ⟨flagsOf ls, out⟩
      = (.sfContinue, ⟨flagsOf (ls ++ cs.map (d, ·)), out⟩)
  | [], ls, _ => by simp [setFlagsIn]
  | c :: cs, ls, h => by
    obtain ⟨hc, hcs⟩ := List.forall_mem_cons.1 h
    rw [setFlagsIn, setFlag_known d hc]
    dsimp only
    rw [setFlagsIn_known d hcs]
    simp

theorem setFlagsIn_refused (programName : Arg) (d : Byte) {c : Byte} (hc : ¬ Known c)
    (after : List Byte) (out : List Byte) :
    ∀ {before : List Byte} (ls : List (Byte × Byte)), (∀ b ∈ before, Known b) →
      ∃ flags, setFlagsIn programName d (before ++ c :: after) ⟨flagsOf ls, out⟩
        = ((refused programName c).1, ⟨flags, out ++ (refused programName c).2⟩)
  | [], ls, _ => by
    refine ⟨flagsOf ls, ?_⟩
    rw [List.nil_append, setFlagsIn, setFlag_refused d hc]
    have := refused_ne programName c
    split
    · rename_i heq
      exact absurd (congrArg Prod.fst heq) this
    · rfl
  | b :: before, ls, h => by
    obtain ⟨hb, hbs⟩ := List.forall_mem_cons.1 h
    rw [List.cons_append, setFlagsIn, setFlag_known d hb]
    exact setFlagsIn_refused programName d hc after out _ hbs

/-! ## All the arguments -/

theorem charAt_of_lt {arg : Arg} {i : ℕ} (h : i < arg.chars.length) :
    charAt arg i = arg.chars[i] := by
  unfold charAt CString.object
  rw [List.getD_eq_getElem?_getD, List.getElem?_append_left h, List.getElem?_eq_getElem h]
  rfl

theorem charAt_of_le {arg : Arg} {i : ℕ} (h : arg.chars.length ≤ i) : charAt arg i = 0 := by
  unfold charAt CString.object
  rw [List.getD_eq_getElem?_getD, List.getElem?_append_right h, List.getElem?_singleton]
  split_ifs <;> rfl

/-- The terminator is the first zero. -/
theorem charAt_eq_zero {arg : Arg} {i : ℕ} : charAt arg i = 0 ↔ arg.chars.length ≤ i := by
  refine ⟨fun h => ?_, charAt_of_le⟩
  by_contra hlt
  rw [charAt_of_lt (Nat.lt_of_not_le hlt)] at h
  exact arg.nonzero _ (List.getElem_mem _) h

theorem charAt_eq {arg : Arg} {i : ℕ} {c : Byte} (hc : c ≠ 0) :
    charAt arg i = c ↔ arg.chars[i]? = some c := by
  rcases Nat.lt_or_ge i arg.chars.length with h | h
  · rw [charAt_of_lt h, List.getElem?_eq_getElem h, Option.some.injEq]
  · rw [charAt_of_le h, List.getElem?_eq_none h]
    exact iff_of_false hc.symm nofun

/-- The tests for the end of the options. -/
theorem charAt_dashes {arg : Arg} : charAt arg 0 = ch '-' ∧ charAt arg 1 = ch '-'
    ∧ charAt arg 2 = 0 ↔ arg.chars = chars "--" := by
  have hne : ch '-' ≠ 0 := by decide
  rw [charAt_eq hne, charAt_eq hne, charAt_eq_zero]
  constructor
  · rintro ⟨h0, h1, h2⟩
    refine List.ext_getElem? fun i => ?_
    rcases i with _ | _ | i
    · exact h0
    · exact h1
    · rw [List.getElem?_eq_none (by omega)]
      rfl
  · intro h
    rw [h]
    exact ⟨rfl, rfl, Nat.le_refl 2⟩

theorem direction_iff {arg : Arg} : ¬ (charAt arg 0 ≠ ch '-' ∧ charAt arg 0 ≠ ch '+')
    ↔ arg.chars.head? = some (ch '-') ∨ arg.chars.head? = some (ch '+') := by
  rw [List.head?_eq_getElem?, ← charAt_eq (by decide), ← charAt_eq (by decide)]
  tauto

theorem long {arg : Arg} (h : IsOption arg) : charAt arg 1 ≠ 0 := fun h1 => by
  have := charAt_eq_zero.1 h1
  have := h.2.1
  omega

section Option

variable {arg : Arg} {g g' : Globals} (argv : List Arg)

theorem setFlagsFrom_option (h : IsOption arg)
    (hr : setFlagsIn programName (charAt arg 0) arg.chars.tail g = (.sfContinue, g')) :
    setFlagsFrom programName (arg :: argv) g = setFlagsFrom programName argv g' := by
  rw [setFlagsFrom, if_neg (mt charAt_dashes.1 h.2.2), if_neg (direction_iff.2 h.1),
    if_neg (long h), hr]

theorem setFlagsFrom_stop {stop : SetFlagsExit} (h : IsOption arg) (hs : stop ≠ .sfContinue)
    (hr : setFlagsIn programName (charAt arg 0) arg.chars.tail g = (stop, g')) :
    setFlagsFrom programName (arg :: argv) g = (stop, g', arg :: argv) := by
  rw [setFlagsFrom, if_neg (mt charAt_dashes.1 h.2.2), if_neg (direction_iff.2 h.1),
    if_neg (long h), hr]
  cases stop with
  | sfContinue => exact absurd rfl hs
  | sfExit0 => rfl
  | sfExit1 => rfl

end Option

theorem setFlagsFrom_end {arg : Arg} (h : ¬ IsOption arg) (argv : List Arg) (g : Globals) :
    setFlagsFrom programName (arg :: argv) g = (.sfContinue, g, files (arg :: argv)) := by
  have hf : files (arg :: argv) = if arg.chars = chars "--" then argv else arg :: argv := by
    rw [files, List.dropWhile_cons_of_neg (by simpa using h)]
  rw [hf, setFlagsFrom]
  simp only [charAt_dashes]
  split_ifs with h1 h2 h3
  · rfl
  · rfl
  · rfl
  · rw [charAt_eq_zero] at h3
    exact absurd ⟨direction_iff.1 h2, by omega, h1⟩ h

theorem letters_option {arg : Arg} (h : IsOption arg) (argv : List Arg) :
    letters (arg :: argv) = lettersOf arg ++ letters argv := by
  rw [letters, List.takeWhile_cons_of_pos (by simpa using h), List.flatMap_cons, letters]

theorem letters_end {arg : Arg} (h : ¬ IsOption arg) (argv : List Arg) :
    letters (arg :: argv) = [] := by
  rw [letters, List.takeWhile_cons_of_neg (by simpa using h), List.flatMap_nil]

theorem files_option {arg : Arg} (h : IsOption arg) (argv : List Arg) :
    files (arg :: argv) = files argv := by
  rw [files, List.dropWhile_cons_of_pos (by simpa using h), files]

/-- Without a letter that is no flag, the options are all read. -/
theorem setFlagsFrom_known : ∀ {argv : List Arg} {ls : List (Byte × Byte)},
    (∀ l ∈ letters argv, Known l.2) → setFlagsFrom programName argv ⟨flagsOf ls, out⟩
      = (.sfContinue, ⟨flagsOf (ls ++ letters argv), out⟩, files argv)
  | [], ls, _ => by simp [setFlagsFrom, letters, files]
  | arg :: argv, ls, h => by
    by_cases ho : IsOption arg
    · rw [letters_option ho] at h ⊢
      obtain ⟨harg, hargv⟩ := List.forall_mem_append.1 h
      have hk : ∀ c ∈ arg.chars.tail, Known c := fun c hc => harg _ (List.mem_map_of_mem hc)
      rw [setFlagsFrom_option argv ho (setFlagsIn_known _ hk), files_option ho,
        setFlagsFrom_known hargv, ← List.append_assoc, lettersOf]
    · rw [setFlagsFrom_end ho, letters_end ho, List.append_nil]

/-- The first letter that is no flag ends the program. -/
theorem setFlagsFrom_refused (programName : Arg) (out : List Byte) {l : Byte × Byte} :
    ∀ {argv : List Arg} (ls : List (Byte × Byte)),
      (letters argv).find? (fun l => ¬ Known l.2) = some l → ∃ flags rest,
        setFlagsFrom programName argv ⟨flagsOf ls, out⟩
        = ((refused programName l.2).1, ⟨flags, out ++ (refused programName l.2).2⟩, rest)
  | [], ls, h => by simp [letters] at h
  | arg :: argv, ls, h => by
    by_cases ho : IsOption arg
    swap
    · simp [letters_end ho] at h
    rw [letters_option ho, List.find?_append] at h
    rcases hl : (lettersOf arg).find? fun l => ¬ Known l.2 with _ | l'
    · rw [hl, Option.none_or] at h
      have hk : ∀ c ∈ arg.chars.tail, Known c := fun c hc => by
        have := List.find?_eq_none.1 hl _ (List.mem_map_of_mem hc)
        simpa using this
      rw [setFlagsFrom_option argv ho (setFlagsIn_known _ hk)]
      exact setFlagsFrom_refused programName out _ h
    · rw [hl, Option.some_or, Option.some.injEq] at h
      obtain ⟨hk, before, after, heq, hbefore⟩ := List.find?_eq_some_iff_append.1 hl
      rw [lettersOf, List.map_eq_append_iff] at heq
      obtain ⟨cs, cs', hcs, rfl, hcs'⟩ := heq
      obtain ⟨c, rest, rfl, rfl, rfl⟩ := List.map_eq_cons_iff.1 hcs'
      subst h
      have hk : ¬ Known c := by simpa using hk
      have hcs' : ∀ b ∈ cs, Known b := fun b hb => by
        simpa using hbefore _ (List.mem_map_of_mem hb)
      obtain ⟨flags, hin⟩ := setFlagsIn_refused programName (charAt arg 0) hk rest out ls hcs'
      rw [← hcs] at hin
      exact ⟨flags, _, setFlagsFrom_stop argv ho (refused_ne _ c) hin⟩

theorem setFlags_refused (programName : Arg) {argv : List Arg} {l : Byte × Byte}
    (h : (letters argv).find? (fun l => ¬ Known l.2) = some l) :
    ∃ flags rest, setFlags programName argv .init
      = ((refused programName l.2).1, ⟨flags, (refused programName l.2).2⟩, rest) := by
  obtain ⟨flags, rest, hs⟩ := setFlagsFrom_refused programName [] [] h
  refine ⟨flags, rest, ?_⟩
  have hinit : Globals.init = ⟨flagsOf [], []⟩ := rfl
  have hne := refused_ne programName l.2
  rw [setFlags, hinit, hs]
  generalize refused programName l.2 = r at hne
  rcases r with ⟨_ | _ | _, text⟩
  · exact absurd rfl hne
  · rfl
  · rfl

theorem printHelp_empty (programName : Arg) (flags : Flags) :
    printHelp programName ⟨flags, []⟩ = ⟨flags, help programName⟩ := by
  rw [printHelp, Globals.print, List.nil_append]

theorem printHelp_text (programName : Arg) (flags : Flags) (s : List Byte) :
    printHelp programName (Globals.print ⟨flags, []⟩ s) = ⟨flags, s ++ help programName⟩ := by
  rw [printHelp, Globals.print, Globals.print, List.nil_append]

/-- The file header is tested twice, which is as good as once. -/
theorem asked_eq (ls : List (Byte × Byte)) : asked ls = !noFlags (flagsOf ls) := by
  have hletters : chars "flSdsrm" = [ch 'f', ch 'l', ch 'S', ch 'd', ch 's', ch 'r', ch 'm'] := rfl
  simp [asked, hletters, noFlags, flagsOf, Bool.or_assoc]

theorem setFlags_accepted (programName : Arg) {argv : List Arg}
    (h : ∀ l ∈ letters argv, Known l.2) :
    let end_ := accepted programName (asked (letters argv)) (files argv)
    setFlags programName argv .init = (end_.1, ⟨flagsOf (letters argv), end_.2⟩, files argv) := by
  have hinit : Globals.init = ⟨flagsOf [], []⟩ := rfl
  rw [setFlags, hinit, setFlagsFrom_known h, List.nil_append]
  dsimp only
  rw [printHelp_empty, printHelp_text, printHelp_text, asked_eq]
  generalize noFlags (flagsOf (letters argv)) = none
  cases none <;> rcases files argv with _ | ⟨file, files⟩ <;> simp [accepted]

/-- What the command line makes of the program. -/
theorem setFlags_spec (programName : Arg) (argv : List Arg) :
    let r := setFlags programName argv .init
    (r.1, r.2.1.stdout) = outcome programName argv
      ∧ (r.1 = .sfContinue → r.2.1.flags = flagsOf (letters argv) ∧ r.2.2 = files argv) := by
  dsimp only
  rcases hf : (letters argv).find? fun l => ¬ Known l.2 with _ | l
  · have hk : ∀ l ∈ letters argv, Known l.2 := fun l hl => by
      simpa using List.find?_eq_none.1 hf l hl
    rw [setFlags_accepted programName hk, outcome, hf]
    exact ⟨rfl, fun _ => ⟨rfl, rfl⟩⟩
  · obtain ⟨flags, rest, hr⟩ := setFlags_refused programName hf
    rw [hr, outcome, hf]
    exact ⟨rfl, fun h => absurd h (refused_ne _ l.2)⟩

/-! ## The files -/

/-- The file can be opened, and all that reading it takes succeeds. -/
def Readable (file : Option Env) : Prop := ∃ env, file = some env ∧ env.Reaches env.allSteps

instance : DecidablePred Readable
  | none => .isFalse fun ⟨_, h, _⟩ => nomatch h
  | some env => decidable_of_iff (env.Reaches env.allSteps)
      ⟨fun h => ⟨env, rfl, h⟩, fun ⟨_, h, hr⟩ => Option.some.inj h ▸ hr⟩

/-- What is printed of a file. -/
def Shows (flags : Flags) (fname : Arg) (file : Option Env) (out : List Output) : Prop :=
  (∃ env elf, file = some env ∧ env.Reaches env.allSteps ∧ Parsed env elf
    ∧ out = heading fname ++ [Output.elfFile flags elf])
  ∨ ¬ Readable file ∧ out = heading fname

/-- Neither defect of `readelf` is met. -/
def Harmless (file : Option Env) : Prop := ∀ env, file = some env → DynsymOk env ∧ EntsizeOk env

theorem freeRead_of {w w' : World} (h : freeElfFile.run w = .ok () w') : freeRead w = .ok w' := by
  rw [freeRead, h]

theorem readOpened_spec {file : Option Env} (h : Harmless file) : ∃ w w',
    readOpened file = .ok (!decide (Readable file), w) ∧ freeRead w = .ok w' ∧ w'.FreedOnce
      ∧ (Readable file → ∃ env, file = some env ∧ Parsed env w.elf) := by
  rcases file with _ | env
  · have hn : ¬ Readable none := fun ⟨_, h, _⟩ => nomatch h
    refine ⟨World.init, World.init, ?_, rfl, fun _ h => absurd h List.not_mem_nil,
      fun h => absurd h hn⟩
    rw [decide_eq_false hn]
    rfl
  obtain ⟨hdynsym, hentsize⟩ := h env rfl
  have hread : Readable (some env) ↔ env.Reaches env.allSteps :=
    ⟨fun ⟨_, h, hr⟩ => Option.some.inj h ▸ hr, fun h => ⟨env, rfl, h⟩⟩
  obtain ⟨r, he, hr⟩ := readelf_ends env
  rw [readOpened, hr]
  cases he with
  | @read w sound parsed steps =>
    refine ⟨w, _, ?_, freeRead_of sound.freedOnce.1, sound.freedOnce.2, fun _ => ⟨env, rfl, parsed⟩⟩
    rw [decide_eq_true (hread.2 steps)]
    rfl
  | @failed w sound steps =>
    refine ⟨w.giveUp, _, ?_, freeRead_of (freeElfFile_giveUp w), sound.giveUp,
      fun h => absurd (hread.1 h) steps⟩
    rw [decide_eq_false (mt hread.1 steps)]
    rfl
  | freed _ _ _ _ dynsym => exact absurd hdynsym dynsym
  | divided entsize => exact absurd hentsize entsize

theorem mainFile_spec (flags : Flags) {file : Option Env} (h : Harmless file) (fname : Arg)
    (t : Tool) : ∃ outs w, mainFile flags file fname t = .ok {
      returncode := t.returncode + if Readable file then 0 else 1
      stdout := t.stdout ++ outs
      fds := t.fds
      memories := t.memories ++ [w] } ∧ Shows flags fname file outs ∧ w.FreedOnce := by
  obtain ⟨w, w', hread, hfree, honce, hparsed⟩ := readOpened_spec h
  by_cases hr : Readable file
  · obtain ⟨env, rfl, parsed⟩ := hparsed hr
    have hsteps : env.Reaches env.allSteps := by
      obtain ⟨_, h, hr⟩ := hr
      exact Option.some.inj h ▸ hr
    refine ⟨_, w', ?_, .inl ⟨env, _, rfl, hsteps, parsed, rfl⟩, honce⟩
    rw [decide_eq_true hr] at hread
    rw [mainFile, hread, if_pos hr]
    simp only [bind, Except.bind, hfree]
    simp [pure, Except.pure]
  · refine ⟨_, w', ?_, .inr ⟨hr, rfl⟩, honce⟩
    rw [decide_eq_false hr] at hread
    rw [mainFile, hread, if_neg hr]
    simp only [bind, Except.bind, hfree]
    cases file <;> simp [pure, Except.pure]

theorem ok_of_bind {ε α β : Type} {x : Except ε α} {f : α → Except ε β} {b : β}
    (h : x >>= f = .ok b) : ∃ a, x = .ok a ∧ f a = .ok b := by
  cases x with
  | error e => cases h
  | ok a => exact ⟨a, rfl, h⟩

/-- A file for which the program neither stops nor frees anything twice is harmless. -/
theorem mainFile_harmless {flags : Flags} {file : Option Env} {fname : Arg} {t t' : Tool}
    (h : mainFile flags file fname t = .ok t') :
    ∃ w : World, t'.memories = t.memories ++ [w] ∧ (w.FreedOnce → Harmless file) := by
  obtain ⟨bad, w, w', hread, hfree, hmem⟩ : ∃ bad w w', readOpened file = .ok (bad, w)
      ∧ freeRead w = .ok w' ∧ t'.memories = t.memories ++ [w'] := by
    obtain ⟨⟨bad, w⟩, hread, h⟩ := ok_of_bind h
    obtain ⟨w', hfree, h⟩ := ok_of_bind h
    refine ⟨bad, w, w', hread, hfree, ?_⟩
    rw [← Except.ok.inj h]
    cases file <;> cases bad <;> rfl
  refine ⟨w', hmem, ?_⟩
  rintro honce env rfl
  obtain ⟨r, he, hr⟩ := readelf_ends env
  rw [readOpened, hr] at hread
  cases he with
  | read _ _ _ dynsym entsize => exact ⟨dynsym, entsize⟩
  | failed _ _ dynsym entsize => exact ⟨dynsym, entsize⟩
  | @freed w₁ p fits dynamic mem alloc dynsym =>
    cases hread
    rw [freeRead, freeElfFile_giveUp] at hfree
    cases hfree
    exact absurd honce (not_freedOnce (dynamic_owned dynamic) mem alloc)
  | divided => cases hread

theorem mainFiles_spec {system : System} (flags : Flags) : ∀ {i : ℕ} {argv : List Arg},
    (∀ x ∈ argv.zipIdx i, Harmless (system x.2 x.1)) → ∀ t : Tool,
      ∃ outs ws, mainFiles system flags i argv t = .ok {
        returncode := t.returncode + (argv.zipIdx i).countP fun x => ¬ Readable (system x.2 x.1)
        stdout := t.stdout ++ outs.flatten
        fds := t.fds
        memories := t.memories ++ ws }
        ∧ List.Forall₂ (fun x out => Shows flags x.1 (system x.2 x.1) out) (argv.zipIdx i) outs
        ∧ ∀ w ∈ ws, w.FreedOnce
  | i, [], _, t => ⟨[], [], by simp [mainFiles, pure, Except.pure], .nil,
      fun _ hw => absurd hw List.not_mem_nil⟩
  | i, fname :: argv, h, t => by
    rw [List.zipIdx_cons] at h ⊢
    obtain ⟨hfile, hrest⟩ := List.forall_mem_cons.1 h
    obtain ⟨out, w, hrun, hshows, honce⟩ := mainFile_spec flags hfile fname t
    obtain ⟨outs, ws, hruns, hall, honces⟩ := mainFiles_spec flags hrest {
      returncode := t.returncode + if Readable (system i fname) then 0 else 1
      stdout := t.stdout ++ out
      fds := t.fds
      memories := t.memories ++ [w] }
    refine ⟨out :: outs, w :: ws, ?_, .cons hshows hall, List.forall_mem_cons.2 ⟨honce, honces⟩⟩
    rw [mainFiles, hrun]
    simp only [bind, Except.bind]
    rw [hruns, List.countP_cons]
    by_cases hr : Readable (system i fname)
    · simp [hr]
    · simp [hr]
      omega

theorem mainFiles_harmless {system : System} {flags : Flags} : ∀ {i : ℕ} {argv : List Arg}
    {t t' : Tool}, mainFiles system flags i argv t = .ok t' →
      ∃ ws : List World, t'.memories = t.memories ++ ws
        ∧ ((∀ w ∈ ws, w.FreedOnce) → ∀ x ∈ argv.zipIdx i, Harmless (system x.2 x.1))
  | _, [], t, t', h => ⟨[], by rw [← Except.ok.inj h, List.append_nil], fun _ => nofun⟩
  | i, fname :: argv, t, t', h => by
    obtain ⟨t₁, hfile, hrest⟩ := ok_of_bind h
    obtain ⟨w, hmem, hw⟩ := mainFile_harmless hfile
    obtain ⟨ws, hmems, hws⟩ := mainFiles_harmless hrest
    refine ⟨w :: ws, by rw [hmems, hmem, List.append_assoc, List.singleton_append], fun honce => ?_⟩
    obtain ⟨honce, honces⟩ := List.forall_mem_cons.1 honce
    rw [List.zipIdx_cons]
    exact List.forall_mem_cons.2 ⟨hw honce, hws honces⟩

/-- The program goes on without a word. -/
theorem outcome_continue {argv : List Arg} {text : List Byte}
    (h : outcome programName argv = (.sfContinue, text)) : text = [] := by
  unfold outcome at h
  split at h
  · rename_i l _
    exact absurd (congrArg Prod.fst h) (refused_ne _ l.2)
  · unfold accepted at h
    split at h <;> split_ifs at h
    · cases h
    · cases h
    · exact (congrArg Prod.snd h).symm
    · cases h

/-- What `main` has done once it is done. -/
def Done (system : System) (programName : Arg) (argv : List Arg) (t : Tool) : Prop :=
  match outcome programName argv with
  | (.sfExit0, text) => t.returncode = 0 ∧ t.stdout = text.map .char
  | (.sfExit1, text) => t.returncode = 1 ∧ t.stdout = text.map .char
  | (.sfContinue, _) =>
    t.returncode = (files argv).zipIdx.countP (fun x => ¬ Readable (system x.2 x.1))
      ∧ ∃ outs, t.stdout = outs.flatten ∧ List.Forall₂
        (fun x out => Shows (flagsOf (letters argv)) x.1 (system x.2 x.1) out) (files argv).zipIdx
        outs

end ReadelfMain

end SctOs
