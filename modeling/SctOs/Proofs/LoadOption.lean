import SctOs.LoadOption
import SctOs.Proofs.CStrings
import SctOs.Proofs.EfiWrapper

/-!
# Load options

The writer lays the header, the description and the path one after the other
(`makeLoadOption_lays`), and the reader finds each where it was laid (`parseLoadOption_holds`).
-/

namespace SctOs

namespace LoadOption

open Bytes EfiWrapper

theorem bytesLE_length (k v : ℕ) : (bytesLE k v).length = k := by
  simp [bytesLE]

theorem header_length (h : Header) : h.bytes.length = 6 := by
  simp [Header.bytes, bytesLE_length]

theorem stringBytes_length (s : CString 16) :
    (stringBytes s).length = 2 * (s.chars.length + 1) := by
  simp [stringBytes, CString.object, List.length_flatMap, bytesLE_length]
  omega

theorem stringBytes_lt (s : CString 16) : 2 * (s.chars.length + 1) < 2 ^ 63 := by
  have := s.fits
  omega

theorem headerSize_toNat : headerSize.toNat = 6 := rfl

theorem ofNat_readLE {m : Memory} {a : U64} {n k : ℕ} {x : BitVec n} (hn : n = 8 * k)
    (h : BytesAt m a (bytesLE k x.toNat)) : BitVec.ofNat n (readLE m a k) = x := by
  have hx : x.toNat < 256 ^ k := by
    have hpow : 2 ^ n = 256 ^ k := by rw [hn, Nat.pow_mul]
    exact hpow ▸ x.isLt
  rw [bytesAt_readLE h, Nat.mod_eq_of_lt hx, BitVec.ofNat_toNat, BitVec.setWidth_eq]

section Firmware

variable {strSize : Memory → U64 → U64} {allocatePool : U64 → U64} {m : Memory}
  {header description devp : U64} {h : Header} {s : CString 16} {path : List (BitVec 8)}

/-- A load option's bytes taken apart. -/
theorem parseLoadOption_holds (hstr : IsStrSize strSize) {data dataSize : U64}
    (hlen : h.filePathListLength = BitVec.ofNat 16 path.length) (hpath : path.length < 2 ^ 16)
    (hholds : BytesAt m data (h.bytes ++ (stringBytes s ++ path)))
    (hsize : dataSize = headerSize + BitVec.ofNat 64 (2 * (s.chars.length + 1))
      + BitVec.ofNat 64 path.length) :
    let parsed := parseLoadOption strSize m data dataSize
    parsed.attributes = h.attributes ∧ BytesAt m parsed.description (stringBytes s) ∧
      BytesAt m parsed.filePathList path ∧
      parsed.optionalData = parsed.filePathList + BitVec.ofNat 64 path.length ∧
      parsed.optionalDataSize = 0 := by
  have hparts := bytesAt_append.1 hholds
  have hrest := bytesAt_append.1 hparts.2
  have hheader := bytesAt_append.1 hparts.1
  rw [header_length] at hparts hrest
  rw [stringBytes_length] at hrest
  have hdesc : strSize m (data + headerSize) = BitVec.ofNat 64 (2 * (s.chars.length + 1)) :=
    hstr m (data + headerSize) s hrest.1
  have hattr : BitVec.ofNat 32 (readLE m data 4) = h.attributes := ofNat_readLE rfl hheader.1
  have h4 : BytesAt m (data + 4) (bytesLE 2 h.filePathListLength.toNat) := by
    simpa [bytesLE_length] using hheader.2
  have hfile : BitVec.ofNat 16 (readLE m (data + 4) 2) = h.filePathListLength :=
    ofNat_readLE rfl h4
  have hext : h.filePathListLength.setWidth 64 = BitVec.ofNat 64 path.length := by
    rw [hlen, zeroExtend_ofNat hpath]
  simp only [parseLoadOption, hdesc, hattr, hfile, hext, hsize]
  exact ⟨trivial, hrest.1, hrest.2, trivial, by grind⟩

/-- The buffer is laid with the three objects. -/
theorem makeLoadOption_lays (hstr : IsStrSize strSize) (hheader : BytesAt m header h.bytes)
    (hdesc : BytesAt m description (stringBytes s)) (hdevp : BytesAt m devp path)
    (hpath : path.length < 2 ^ 16)
    (hpool : PoolGives allocatePool
      (BitVec.ofNat 64 (6 + 2 * (s.chars.length + 1) + path.length))
      [(header, 6), (description, 2 * (s.chars.length + 1)), (devp, path.length)]) :
    ∃ made, makeLoadOption strSize allocatePool m header description devp
        (BitVec.ofNat 16 path.length) = some made ∧
      made.loadOptionSize = BitVec.ofNat 64 (6 + 2 * (s.chars.length + 1) + path.length) ∧
      Lays made.buf made.writes (h.bytes ++ (stringBytes s ++ (path ++ []))) := by
  have hlt := stringBytes_lt s
  have hsize : headerSize + BitVec.ofNat 64 (2 * (s.chars.length + 1)) + BitVec.ofNat 64 path.length
      = BitVec.ofNat 64 (6 + 2 * (s.chars.length + 1) + path.length) := by
    rw [BitVec.ofNat_add, BitVec.ofNat_add]
    rfl
  have e1 : (BitVec.ofNat 64 (2 * (s.chars.length + 1))).toNat = 2 * (s.chars.length + 1) := by
    rw [BitVec.toNat_ofNat]
    omega
  have e2 : (BitVec.ofNat 64 path.length).toNat = path.length := by
    rw [BitVec.toNat_ofNat]
    omega
  unfold makeLoadOption
  simp only [hstr m description s hdesc, zeroExtend_ofNat hpath, hsize, hpool.1, if_false, e1, e2,
    headerSize_toNat]
  refine ⟨_, rfl, rfl, ?_⟩
  have hn : (BitVec.ofNat 64 (6 + 2 * (s.chars.length + 1) + path.length)).toNat
      = 6 + 2 * (s.chars.length + 1) + path.length := by
    rw [BitVec.toNat_ofNat]
    omega
  have hapart := hpool.2
  rw [hn] at hapart
  have hd := hapart (description, 2 * (s.chars.length + 1)) (by simp)
  have hp := hapart (devp, path.length) (by simp)
  -- what is copied before an object does not reach it
  have hkept1 := hdesc.lays (stringBytes_length s) hd
    (.copy hheader (header_length h) (.nil _)) (by simp [header_length]; omega) (by omega)
  have hkept2 := hdevp.lays rfl hp
    (.copy hheader (header_length h) (.copy hkept1 (stringBytes_length s) (.nil _)))
    (by simp [header_length, stringBytes_length]) (by omega)
  exact .copy hheader (header_length h)
    (.copy hkept1 (stringBytes_length s) (.copy hkept2 rfl (.nil _)))

/-- What the one file writes, the other reads. -/
theorem load_option_round_trip (hstr : IsStrSize strSize) (hheader : BytesAt m header h.bytes)
    (hdesc : BytesAt m description (stringBytes s)) (hdevp : BytesAt m devp path)
    (hpath : path.length < 2 ^ 16) (hlen : h.filePathListLength = BitVec.ofNat 16 path.length)
    (hpool : PoolGives allocatePool
      (BitVec.ofNat 64 (6 + 2 * (s.chars.length + 1) + path.length))
      [(header, 6), (description, 2 * (s.chars.length + 1)), (devp, path.length)]) :
    ∃ made, makeLoadOption strSize allocatePool m header description devp
        (BitVec.ofNat 16 path.length) = some made ∧
      made.Written ∧ ReadsBack strSize m made h s path := by
  have hlt := stringBytes_lt s
  obtain ⟨made, hmade, hsize, hlays⟩ :=
    makeLoadOption_lays hstr hheader hdesc hdevp hpath hpool
  have hn : made.loadOptionSize.toNat = 6 + 2 * (s.chars.length + 1) + path.length := by
    rw [hsize, BitVec.toNat_ofNat]
    omega
  have hbytes : (h.bytes ++ (stringBytes s ++ (path ++ []))).length = made.loadOptionSize.toNat := by
    simp [header_length, stringBytes_length, hn, Nat.add_assoc]
  have hw : made.loadOptionSize.toNat ≤ 2 ^ 64 := made.loadOptionSize.isLt.le
  refine ⟨made, hmade, ⟨?_, fun x => ?_⟩, fun m' data hsame => ?_⟩
  · rw [hlays.sum_length, hbytes]
  · rw [hlays.mem_iff (by omega), hbytes]
  · have hholds := hlays.holds (m := m) (by omega)
    refine parseLoadOption_holds hstr hlen hpath (fun i hi => ?_) ?_
    · rw [List.append_nil] at hbytes
      rw [hsame i (by omega)]
      simpa using hholds i (by simpa using hi)
    · rw [hsize, BitVec.ofNat_add, BitVec.ofNat_add]
      rfl

end Firmware

/-! ## The loader's boot option -/

/-- The size of the string at `a`, if it ends within `n` characters. -/
def scanSize (m : Memory) : ℕ → U64 → U64
  | 0, _ => 0
  | n + 1, a => if readLE m a 2 = 0 then 2 else 2 + scanSize m n (a + 2)

theorem scanSize_string : ∀ (cs : List (BitVec 16)) {m : Memory} {n : ℕ} {a : U64},
    (∀ c ∈ cs, c ≠ 0#16) → cs.length < n →
    BytesAt m a ((cs ++ [0#16]).flatMap fun c => bytesLE 2 c.toNat) →
    scanSize m n a = BitVec.ofNat 64 (2 * (cs.length + 1))
  | _, _, 0, _, _, hn, _ => by simp at hn
  | [], m, n + 1, a, _, _, h => by
    have h0 : BytesAt m a (bytesLE 2 (0#16).toNat) := by simpa using h
    have hread : readLE m a 2 = 0 := bytesAt_readLE h0
    rw [scanSize, if_pos hread]
    rfl
  | c :: cs, m, n + 1, a, hc, hn, h => by
    rw [List.cons_append, List.flatMap_cons, bytesAt_append, bytesLE_length] at h
    have hread : readLE m a 2 ≠ 0 := by
      intro h0
      have := ofNat_readLE rfl h.1
      rw [h0] at this
      exact hc c List.mem_cons_self this.symm
    have ih := scanSize_string cs (fun d hd => hc d (List.mem_cons_of_mem c hd)) (by simpa using hn)
      h.2
    rw [scanSize, if_neg hread]
    change 2 + scanSize m n (a + BitVec.ofNat 64 2) = _
    rw [ih, List.length_cons, Nat.mul_add 2 (cs.length + 1), Nat.add_comm (2 * (cs.length + 1)),
      BitVec.ofNat_add]
    rfl

theorem isStrSize_scanSize : IsStrSize fun m a => scanSize m (2 ^ 63) a := by
  intro m a s h
  have := stringBytes_lt s
  exact scanSize_string s.chars s.nonzero (by omega) h

/-- `opsys`. -/
def opsys : CString 16 := ⟨[0x6f, 0x70, 0x73, 0x79, 0x73], by simp, by simp⟩

def bootMemory : Memory :=
  place (place (place (fun _ => 0) 0x1000 (bootHeader 4).bytes) 0x2000 (stringBytes opsys)) 0x3000
    endOfDevicePath

theorem bootMemory_holds : BytesAt bootMemory 0x1000 (bootHeader 4).bytes ∧
    BytesAt bootMemory 0x2000 (stringBytes opsys) ∧ BytesAt bootMemory 0x3000 endOfDevicePath := by
  unfold bootMemory
  refine ⟨?_, ?_, bytesAt_place (by decide)⟩
  · have h : BytesAt (place (fun _ => 0) (0x1000 : U64) (bootHeader 4).bytes) 0x1000
        (bootHeader 4).bytes := bytesAt_place (by decide)
    exact (h.congr (sameAt_place (by decide)).symm).congr (sameAt_place (by decide)).symm
  · have h : BytesAt (place (place (fun _ => 0) (0x1000 : U64) (bootHeader 4).bytes) 0x2000
        (stringBytes opsys)) 0x2000 (stringBytes opsys) := bytesAt_place (by decide)
    exact h.congr (sameAt_place (by decide)).symm

theorem load_option_opsys : ∃ made,
    makeLoadOption (fun m a => scanSize m (2 ^ 63) a) (fun _ => 0x4000) bootMemory 0x1000 0x2000
        0x3000 (BitVec.ofNat 16 endOfDevicePath.length) = some made ∧
      made.Written ∧
      ReadsBack (fun m a => scanSize m (2 ^ 63) a) bootMemory made (bootHeader 4) opsys
        endOfDevicePath :=
  load_option_round_trip isStrSize_scanSize bootMemory_holds.1 bootMemory_holds.2.1
    bootMemory_holds.2.2 (by decide) rfl (by decide)

end LoadOption

end SctOs
