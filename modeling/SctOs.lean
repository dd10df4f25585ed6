import SctOs.Proofs.KernelPaging
import SctOs.Proofs.AddressSpace
import SctOs.Proofs.InPlace
import SctOs.Proofs.Mmap
import SctOs.Proofs.Relocations
import SctOs.Proofs.Printf
import SctOs.Proofs.ElfContents
import SctOs.Proofs.Window
import SctOs.Proofs.VirtualLayout
import SctOs.Proofs.MapVisible
import SctOs.Proofs.Relro
import SctOs.Proofs.KernelImage
import SctOs.Proofs.ElfMmap
import SctOs.Proofs.HashTable
import SctOs.Proofs.PrintfFormats
import SctOs.Proofs.Interrupts
import SctOs.Proofs.PageCount
import SctOs.Proofs.Descriptors
import SctOs.Proofs.Strings
import SctOs.Proofs.EfiVars
import SctOs.Proofs.EfiWrapper
import SctOs.Proofs.LoadOption
import SctOs.Proofs.PrintElf
import SctOs.Proofs.MemString
import SctOs.Proofs.Cpu
import SctOs.Proofs.EfiMain2
import SctOs.Proofs.Entry
import SctOs.Proofs.KernelStart
import SctOs.Proofs.ReadelfMain
import SctOs.Proofs.BootOption
