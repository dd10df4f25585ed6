import SctOs.CStrings
import SctOs.PrintElf
import SctOs.Printf
import SctOs.ReadelfSteps

/-!
# The `readelf` program

`main`, `set_flags` and `set_flag` of `test/readelf.c`. The flags are a state, and so is what is
printed; the standard error is left out. Beside it, what the command line asks for.
-/

namespace SctOs

namespace ReadelfMain

open PrintElf Readelf
open Printf (Byte ch chars)

abbrev Arg := CString 8

/-- `arg[i]`, up to the terminator. -/
def charAt (arg : Arg) (i : ℕ) : Byte := arg.object.getD i 0

/-! ## Flags -/

inductive SetFlagsExit
  | sfContinue
  | sfExit0
  | sfExit1
  deriving DecidableEq, Repr

/-- The flags, and what has been printed. -/
structure Globals where
  flags : Flags
  stdout : List Byte

def Globals.init : Globals := ⟨⟨false, false, false, false, false, false, false⟩, []⟩

def Globals.print (g : Globals) (s : List Byte) : Globals := { g with stdout := g.stdout ++ s }

def usage : List Byte := chars ("(-|+)[flSdsrma]... [--] file...\n"
  ++ "\n"
  ++ "\t-f file header\n"
  ++ "\t-l program headers\n"
  ++ "\t-S section headers\n"
  ++ "\t-d dynamic segment\n"
  ++ "\t-s symbol tables\n"
  ++ "\t-r relocations\n"
  ++ "\t-m memory map\n"
  ++ "\t-a all the above\n")

/-- What `print_help` prints. -/
@[irreducible] def help (programName : Arg) : List Byte :=
  chars "Usage: " ++ programName.chars ++ chars " " ++ usage

def unknownFlag (flag : Byte) : List Byte := chars "unknown flag: " ++ [flag] ++ chars "\n"

def noOutput : List Byte := chars "no output flags specified\n"

def noInput : List Byte := chars "no input files specified\n"

section Program

variable (programName : Arg)

def printHelp (g : Globals) : Globals := g.print (help programName)

/-- Set the flag of a letter, by the direction. -/
def setFlag (direction flag : Byte) (g : Globals) : SetFlagsExit × Globals :=
  let setting : Bool := direction = ch '-'
  if flag = ch 'f' then (.sfContinue, { g with flags.fileHeader := setting })
  else if flag = ch 'l' then (.sfContinue, { g with flags.programHeaders := setting })
  else if flag = ch 'S' then (.sfContinue, { g with flags.sectionHeaders := setting })
  else if flag = ch 'd' then (.sfContinue, { g with flags.dynamic := setting })
  else if flag = ch 's' then (.sfContinue, { g with flags.symbols := setting })
  else if flag = ch 'r' then (.sfContinue, { g with flags.relocs := setting })
  else if flag = ch 'm' then (.sfContinue, { g with flags.mmap := setting })
  else if flag = ch 'a' then
    (.sfContinue, { g with
      flags := ⟨setting, setting, setting, setting, setting, setting, setting⟩ })
  else if flag = ch 'h' then (.sfExit0, printHelp programName g)
  else (.sfExit1, printHelp programName (g.print (unknownFlag flag)))

/-- The letters of one argument. -/
def setFlagsIn (direction : Byte) : List Byte → Globals → SetFlagsExit × Globals
  | [], g => (.sfContinue, g)
  | flag :: arg, g =>
    match setFlag programName direction flag g with
    | (.sfContinue, g) => setFlagsIn direction arg g
    | stop => stop

/-- The arguments up to the first that is no option, and what `argv` is then. -/
def setFlagsFrom : List Arg → Globals → SetFlagsExit × Globals × List Arg
  | [], g => (.sfContinue, g, [])
  | arg :: argv, g =>
    let direction := charAt arg 0
    if direction = ch '-' ∧ charAt arg 1 = ch '-' ∧ charAt arg 2 = 0 then (.sfContinue, g, argv)
    else if direction ≠ ch '-' ∧ direction ≠ ch '+' then (.sfContinue, g, arg :: argv)
    else if charAt arg 1 = 0 then (.sfContinue, g, arg :: argv)
    else
      match setFlagsIn programName direction arg.chars.tail g with
      | (.sfContinue, g) => setFlagsFrom argv g
      | (stop, g) => (stop, g, arg :: argv)

/-- The file header is tested twice. -/
def noFlags (flags : Flags) : Bool := !flags.fileHeader && !flags.fileHeader
  && !flags.programHeaders && !flags.sectionHeaders && !flags.dynamic
  && !flags.symbols && !flags.relocs && !flags.mmap

/-- Set the flags by the arguments, and move `argv` to the first input file. -/
def setFlags (argv : List Arg) (g : Globals) : SetFlagsExit × Globals × List Arg :=
  match setFlagsFrom programName argv g with
  | (.sfContinue, g, argv) =>
    let noFlags := noFlags g.flags
    let noFiles := argv.isEmpty
    if noFlags && noFiles then (.sfExit0, printHelp programName g, argv)
    else if noFlags && !noFiles then
      (.sfExit1, printHelp programName (g.print noOutput), argv)
    else if !noFlags && noFiles then
      (.sfExit1, printHelp programName (g.print noInput), argv)
    else (.sfContinue, g, argv)
  | stop => stop

end Program

/-! ## Files -/

inductive Output
  | char (c : Byte)
  /-- The parts of a file that the flags ask for. -/
  | elfFile (flags : Flags) (elf : ElfFile)

/-- What `main` has done. -/
structure Tool where
  returncode : ℕ
  stdout : List Output
  /-- The files that are open. -/
  fds : List Arg
  /-- What became of the memory, file by file. -/
  memories : List World

def Tool.start (stdout : List Byte) : Tool := ⟨0, stdout.map .char, [], []⟩

@[irreducible] def heading (fname : Arg) : List Output :=
  (chars "\n" ++ chars "file:\t\t\t" ++ fname.chars ++ chars "\n").map .char

/-- Read a file that has been opened. -/
def readOpened : Option Env → Except Exit (Bool × World)
  | none => .ok (true, World.init)
  | some env =>
    match (readelf env).run World.init with
    | .ok bad w => .ok (bad, w)
    | .error stop _ => .error stop

def freeRead (w : World) : Except Exit World :=
  match freeElfFile.run w with
  | .ok _ w => .ok w
  | .error stop _ => .error stop

/-- One round of the loop; a file may be missing. -/
def mainFile (flags : Flags) (file : Option Env) (fname : Arg) (t : Tool) : Except Exit Tool := do
  let t := { t with stdout := t.stdout ++ heading fname }
  let t := if file.isSome then { t with fds := fname :: t.fds } else t
  let (bad, w) ← readOpened file
  let t := if file.isSome then { t with fds := t.fds.tail } else t
  let t := if bad then { t with returncode := t.returncode + 1 }
    else { t with stdout := t.stdout ++ [Output.elfFile flags w.elf] }
  let w ← freeRead w
  return { t with memories := t.memories ++ [w] }

/-- What the `i`-th call of `open` finds under a name: what reading the file will meet. -/
abbrev System := ℕ → Arg → Option Env

def mainFiles (system : System) (flags : Flags) : ℕ → List Arg → Tool → Except Exit Tool
  | _, [], t => pure t
  | i, fname :: argv, t => do
    let t ← mainFile flags (system i fname) fname t
    mainFiles system flags (i + 1) argv t

def main (system : System) (programName : Arg) (argv : List Arg) : Except Exit Tool :=
  match setFlags programName argv .init with
  | (.sfContinue, g, argv) => mainFiles system g.flags 0 argv (.start g.stdout)
  | (.sfExit0, g, _) => pure (.start g.stdout)
  | (.sfExit1, g, _) => pure { Tool.start g.stdout with returncode := 1 }

/-! ## What is asked for -/

/-- A direction and letters, but not the `--` after the options. -/
def IsOption (arg : Arg) : Prop :=
  (arg.chars.head? = some (ch '-') ∨ arg.chars.head? = some (ch '+')) ∧ 2 ≤ arg.chars.length
    ∧ arg.chars ≠ chars "--"

instance : DecidablePred IsOption := fun _ => inferInstanceAs (Decidable (_ ∧ _))

/-- The arguments after the options and the `--`. -/
def files (argv : List Arg) : List Arg :=
  match argv.dropWhile fun arg => IsOption arg with
  | [] => []
  | arg :: argv => if arg.chars = chars "--" then argv else arg :: argv

/-- The letters of an option, each with the direction. -/
def lettersOf (arg : Arg) : List (Byte × Byte) := arg.chars.tail.map (charAt arg 0, ·)

def letters (argv : List Arg) : List (Byte × Byte) :=
  (argv.takeWhile fun arg => IsOption arg).flatMap lettersOf

def Known (letter : Byte) : Prop := letter ∈ chars "flSdsrma"

instance : DecidablePred Known := fun _ => inferInstanceAs (Decidable (_ ∈ _))

/-- The last of the letters about this flag sets or clears it. -/
def isSet (letter : Byte) (ls : List (Byte × Byte)) : Bool :=
  (ls.reverse.find? fun l => l.2 = letter ∨ l.2 = ch 'a').any (·.1 = ch '-')

def flagsOf (ls : List (Byte × Byte)) : Flags where
  fileHeader := isSet (ch 'f') ls
  programHeaders := isSet (ch 'l') ls
  sectionHeaders := isSet (ch 'S') ls
  dynamic := isSet (ch 'd') ls
  symbols := isSet (ch 's') ls
  relocs := isSet (ch 'r') ls
  mmap := isSet (ch 'm') ls

/-- Some part of a file is asked for. -/
def asked (ls : List (Byte × Byte)) : Bool := (chars "flSdsrm").any fun letter => isSet letter ls

/-- How the first letter that is no flag ends the program. -/
def refused (programName : Arg) (letter : Byte) : SetFlagsExit × List Byte :=
  if letter = ch 'h' then (.sfExit0, help programName)
  else (.sfExit1, unknownFlag letter ++ help programName)

/-- How the options end when all their letters are flags, of which one is set or none. -/
def accepted (programName : Arg) (asked : Bool) : List Arg → SetFlagsExit × List Byte
  | [] => if asked then (.sfExit1, noInput ++ help programName) else (.sfExit0, help programName)
  | _ :: _ => if asked then (.sfContinue, []) else (.sfExit1, noOutput ++ help programName)

/-- Whether the program goes on to the files, and what it has printed. -/
def outcome (programName : Arg) (argv : List Arg) : SetFlagsExit × List Byte :=
  match (letters argv).find? fun l => ¬ Known l.2 with
  | some l => refused programName l.2
  | none => accepted programName (asked (letters argv)) (files argv)

end ReadelfMain

end SctOs
