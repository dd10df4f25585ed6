import SctOs.Loader

/-!
# Loading the kernel

`load_kernel` and `load_elf_pages` of `efi/opsys-loader.c`, with the loader's `elf_read` and the
part of `readelf` that they call. The pages that `AllocatePages` will answer come from the pool; an
answer does not depend on how many pages are asked for, and what the firmware promises of them is
`Placement`.
-/

namespace SctOs

open Bytes

/-! ## Files -/

/-- The contents of a file. -/
abbrev File := List (BitVec 8)

namespace File

def byte (file : File) (i : ℕ) : BitVec 8 := file.getD i 0

/-- Where `SetPosition` leaves the file: the last position stands for the end of the file. -/
def position (file : File) (offset : U64) : ℕ := if offset = -1 then file.length else offset.toNat

/-- What a read finds, when the file has all of it. -/
def read (file : File) (offset : U64) (size : ℕ) : Except Stop (ℕ → BitVec 8) :=
  if file.length < file.position offset + size then .error .elfRead
  else .ok fun i => file.byte (file.position offset + i)

def ehdr (file : File) : Elf64Ehdr := Elf64Ehdr.ofBytes file.byte

def phdrs (file : File) : List Elf64Phdr :=
  phdrsOfBytes file.byte file.ehdr.ePhoff.toNat file.ehdr.ePhnum.toNat

end File

/-- The program header's part of the file, where it is loaded. -/
def Elf64Phdr.image (file : File) (phdr : Elf64Phdr) : Patch 64 :=
  ⟨phdr.pPaddr, phdr.pFilesz.toNat, fun i => file.byte (phdr.pOffset.toNat + i)⟩

/-- Read only the ELF header and the program headers. Without program headers, their array is not
set. -/
def readProgramHeaders (file : File) : Except Stop (Elf64Ehdr × List Elf64Phdr) := do
  let ehdr := Elf64Ehdr.ofBytes (← file.read 0 sizeofEhdr)
  if ¬ ehdr.VerifyMagic then throw .notElf
  if ehdr.ePhnum = 0 then return (ehdr, [])
  let n := ehdr.ePhnum.toNat
  return (ehdr, phdrsOfBytes (← file.read ehdr.ePhoff (sizeofPhdr * n)) 0 n)

/-! ## Loading the segments -/

namespace Loader

def elfRead (file : File) (buffer offset size : U64) : Run (List U64) Unit := do
  let bytes ← file.read offset size.toNat
  modify fun s => { s with mem := blit s.mem buffer size.toNat bytes }

/-- The firmware's `AllocatePages`, which leaves the pages as they are. -/
def bsAllocatePages (_nPages : U64) : Run (List U64) U64 := do
  match (← get).pool with
  | [] => throw .allocatePages
  | page :: pool =>
    modify fun s => { s with pool := pool }
    return page

/-- Allocate Loader pages for a segment and read the file into them. -/
def loadSegment (file : File) (phdr : Elf64Phdr) : Run (List U64) Elf64Phdr := do
  let phdr := if phdr.pType ≠ ptGnuStack then { phdr with pVaddr := phdr.pVaddr + kernelBase }
    else phdr
  if phdr.pType ≠ ptLoad then return phdr
  let page ← bsAllocatePages (numPages phdr.pVaddr phdr.pMemsz)
  let phdr := { phdr with pPaddr := page + pageOffset phdr.pVaddr }
  elfRead file phdr.pPaddr phdr.pOffset phdr.pFilesz
  return phdr

def InRange (base size x : U64) : Prop := base ≤ x ∧ x < base + size

instance (base size x : U64) : Decidable (InRange base size x) := inferInstanceAs (Decidable (_ ∧ _))

/-- The first segment with a header's first and last byte. -/
def segmentOf (phdrs : List Elf64Phdr) (phdr : Elf64Phdr) : Option Elf64Phdr :=
  phdrs.find? fun tmp => tmp.pType = ptLoad ∧ InRange tmp.pVaddr tmp.pMemsz phdr.pVaddr
    ∧ InRange tmp.pVaddr tmp.pMemsz (phdr.pVaddr + phdr.pMemsz - 1)

/-- Set `p_paddr` for non-LOAD segments. -/
def setPaddr (phdrs : List Elf64Phdr) (phdr : Elf64Phdr) : Elf64Phdr :=
  if phdr.pType = ptLoad then phdr else
    { phdr with pPaddr :=
        match segmentOf phdrs phdr with
        | some segment => pageOffset phdr.pVaddr + pageBase segment.pPaddr
        | none => 0 }

/-- Allocate pages, read the file into them, then set `p_paddr` and `p_vaddr` for each header. The
second loop reads only what it does not write. -/
def loadElfPages (file : File) (phdrs : List Elf64Phdr) : Run (List U64) (List Elf64Phdr) := do
  let phdrs ← phdrs.mapM (loadSegment file)
  return phdrs.map (setPaddr phdrs)

/-- `offsetof(Elf64_Ehdr, e_entry)`. -/
def eEntryOffset : U64 := 24

/-- `offsetof(Elf64_Phdr, p_vaddr)`. -/
def pVaddrOffset : U64 := 16

/-- `offsetof(Elf64_Phdr, p_paddr)`. -/
def pPaddrOffset : U64 := 24

/-- The `i`-th of the program headers from an address on. -/
def phdrPtr (phdrs : U64) (i : ℕ) : U64 := phdrs + BitVec.ofNat 64 (sizeofPhdr * i)

/-- Copy the kernel into memory. The results point to the fixed-up structures in the loaded
image. -/
def loadKernel (file : File) : Run (List U64) (U64 × U64) := do
  let (_, phdrs) ← readProgramHeaders file
  let phdrs ← loadElfPages file phdrs
  match phdrs with
  | [] => throw .noPhdrs
  | first :: _ =>
    if ¬ (first.pType = ptLoad ∧ first.pOffset = 0) then throw .firstPhdr
    let ehdrOut := first.pPaddr
    let phdrsOut := first.pPaddr + (ehdrAt (← get).mem ehdrOut).ePhoff
    writeWord (ehdrOut + eEntryOffset) ((← readWord (ehdrOut + eEntryOffset)) + kernelBase)
    phdrs.zipIdx.forM fun (phdr, i) => do
      let phdrOut := phdrPtr phdrsOut i
      writeWord (phdrOut + pPaddrOffset) phdr.pPaddr
      writeWord (phdrOut + pVaddrOffset) phdr.pVaddr
    return (ehdrOut, phdrsOut)

/-! ## Placement -/

def loadsOf (phdrs : List Elf64Phdr) : List Elf64Phdr := phdrs.filter fun phdr => phdr.pType = ptLoad

/-- The header with its address in the high half. -/
def shift (phdr : Elf64Phdr) : Elf64Phdr :=
  if phdr.pType ≠ ptGnuStack then { phdr with pVaddr := phdr.pVaddr + kernelBase } else phdr

/-- A segment's header when it is loaded at a page. -/
def placed (phdr : Elf64Phdr) (page : U64) : Elf64Phdr :=
  { shift phdr with pPaddr := page + pageOffset (shift phdr).pVaddr }

/-- The headers with the segments at some pages, in order. -/
def place : List Elf64Phdr → List U64 → List Elf64Phdr
  | [], _ => []
  | phdr :: phdrs, pages =>
    if phdr.pType ≠ ptLoad then shift phdr :: place phdrs pages else
      match pages with
      | [] => []
      | page :: pages => placed phdr page :: place phdrs pages

/-- Pages that the firmware hands out together. -/
structure PageRun where
  first : Frame
  pages : ℕ
  fits : first.toNat + pages ≤ 2 ^ 36

namespace PageRun

def base (run : PageRun) : U64 := frameAddr run.first

def frames (run : PageRun) : List Frame := framesFrom run.first run.pages

end PageRun

/-- The address is in one of the pages. -/
def InPages (fs : List Frame) (x : U64) : Prop := ∃ f ∈ fs, pageBase x = frameAddr f

instance (fs : List Frame) (x : U64) : Decidable (InPages fs x) :=
  decidable_of_iff (fs.any fun f => pageBase x = frameAddr f) (by simp [InPages])

/-- Each segment of the file with the pages allocated for it. -/
def segments (file : File) (runs : List PageRun) : List (Elf64Phdr × PageRun) :=
  (loadsOf file.phdrs).zip runs

/-- The firmware will hand out pages for the segments, as many as each asks for, and then single
pages, all of them different. -/
structure Placement (file : File) (runs : List PageRun) (free : List Frame) (pool : List U64) :
    Prop where
  pool : pool = runs.map PageRun.base ++ free.map frameAddr
  length : runs.length = (loadsOf file.phdrs).length
  pages : ∀ p ∈ segments file runs, p.2.pages = (numPages (shift p.1).pVaddr p.1.pMemsz).toNat
  nodup : (runs.flatMap PageRun.frames ++ free).Nodup

/-- A segment's header, loaded at its pages. -/
abbrev loadedAt (q : Elf64Phdr × PageRun) : Elf64Phdr := placed q.1 q.2.base

/-- The offset in its first page at which a segment is loaded. -/
def startOf (q : Elf64Phdr × PageRun) : ℕ := (pageOffset (shift q.1).pVaddr).toNat

/-- The words that `load_kernel` writes to the loaded image, with their addresses. -/
def fixups (ehdrOut phdrsOut eEntry : U64) (phdrs : List Elf64Phdr) : List (U64 × ℕ) :=
  (ehdrOut + 24, eEntry.toNat) :: phdrs.zipIdx.flatMap fun (phdr, i) =>
    [(phdrsOut + BitVec.ofNat 64 (56 * i) + 24, phdr.pPaddr.toNat),
      (phdrsOut + BitVec.ofNat 64 (56 * i) + 16, phdr.pVaddr.toNat)]

/-- Each segment's part of the file fits in its memory, and its last page is in the address space. -/
structure Bounded (phdrs : List Elf64Phdr) : Prop where
  filesz : ∀ ph ∈ loadsOf phdrs, ph.pFilesz.toNat ≤ ph.pMemsz.toNat
  memsz : ∀ ph ∈ loadsOf phdrs, (pageOffset ph.pVaddr).toNat + ph.pMemsz.toNat + 4095 < 2 ^ 64

/-- The ELF header and the program headers are in the first header's part of the file. -/
structure HeadersLoaded (file : File) : Prop where
  ehdr : ∀ first ∈ file.phdrs.head?, sizeofEhdr ≤ first.pFilesz.toNat
  phdrs : ∀ first ∈ file.phdrs.head?,
    file.ehdr.ePhoff.toNat + sizeofPhdr * file.ehdr.ePhnum.toNat ≤ first.pFilesz.toNat

/-! ## What a segment holds -/

/-- The virtual range of the segment holds that of the header. -/
def Covers (segment phdr : Elf64Phdr) : Prop :=
  segment.pType = ptLoad ∧ segment.pVaddr.toNat ≤ phdr.pVaddr.toNat
    ∧ phdr.pVaddr.toNat + phdr.pMemsz.toNat ≤ segment.pVaddr.toNat + segment.pMemsz.toNat

instance (segment phdr : Elf64Phdr) : Decidable (Covers segment phdr) :=
  inferInstanceAs (Decidable (_ ∧ _ ∧ _))

/-- The first segment, of those that end below `2 ^ 64`, that holds the header's range. -/
def host (phdrs : List Elf64Phdr) (phdr : Elf64Phdr) : Option Elf64Phdr :=
  phdrs.find? fun segment => Covers segment phdr
    ∧ segment.pVaddr.toNat + segment.pMemsz.toNat < 2 ^ 64

/-- The header's range goes from the segment past the end of the address space and back into the
segment. -/
def Wraps (segment phdr : Elf64Phdr) : Prop :=
  segment.pType = ptLoad ∧ segment.pVaddr.toNat + segment.pMemsz.toNat < 2 ^ 64
    ∧ segment.pVaddr.toNat ≤ phdr.pVaddr.toNat
    ∧ phdr.pVaddr.toNat < segment.pVaddr.toNat + segment.pMemsz.toNat
    ∧ 2 ^ 64 + segment.pVaddr.toNat < phdr.pVaddr.toNat + phdr.pMemsz.toNat

instance (segment phdr : Elf64Phdr) : Decidable (Wraps segment phdr) :=
  inferInstanceAs (Decidable (_ ∧ _ ∧ _ ∧ _ ∧ _))

/-- The physical address of a header that is not a segment is that of its first byte in the segment
that holds it, and zero when none does. -/
structure PaddrOk (phdrs : List Elf64Phdr) (phdr : Elf64Phdr) (paddr : U64) : Prop where
  inside : phdr.pMemsz ≠ 0 → ∀ segment ∈ host phdrs phdr,
    paddr = segment.pPaddr + (phdr.pVaddr - segment.pVaddr)
  outside : (∀ segment ∈ phdrs, ¬ Covers segment phdr) → paddr = 0

/-- The header starts in the first page of the segment that holds it. When none does, its range does
not wrap, unless the segment is at the first page of memory. -/
structure SamePageOk (phdrs : List Elf64Phdr) (phdr : Elf64Phdr) : Prop where
  inside : phdr.pMemsz ≠ 0 → ∀ segment ∈ host phdrs phdr,
    pageBase phdr.pVaddr = pageBase segment.pVaddr
  outside : (∀ segment ∈ phdrs, ¬ Covers segment phdr) →
    ∀ segment ∈ phdrs.find? (fun segment => Wraps segment phdr),
      pageOffset phdr.pVaddr = 0 ∧ pageBase segment.pPaddr = 0

end Loader

end SctOs
