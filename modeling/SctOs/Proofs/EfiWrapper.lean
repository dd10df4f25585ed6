import SctOs.EfiWrapper
import SctOs.Proofs.Objects

/-!
# Device paths

The sizes of the paths are summed in 16 bits, so the path that `AppendPath` returns is the whole one
just when its size fits in them (`appendsPaths_iff`).
-/

namespace SctOs

namespace EfiWrapper

open Bytes

/-! ## Nodes -/

theorem bytes_length (node : DevpNode) : node.bytes.length = node.length := by
  simp [DevpNode.bytes, DevpNode.length]
  omega

theorem pathBytes_length : ∀ nodes : List DevpNode, (pathBytes nodes).length = pathLength nodes
  | [] => rfl
  | node :: nodes => by
    have ih := pathBytes_length nodes
    unfold pathBytes pathLength at ih ⊢
    rw [List.flatMap_cons, List.length_append, List.map_cons, List.sum_cons, ih, bytes_length]

theorem PathAt.head {m : Memory} {devp : U64} {node : DevpNode} {nodes : List DevpNode}
    (h : PathAt m devp (node :: nodes)) : BytesAt m devp node.bytes := by
  have hholds := h.holds
  rw [pathBytes, List.flatMap_cons] at hholds
  exact (bytesAt_append.1 hholds).1

theorem PathAt.tail {m : Memory} {devp : U64} {node : DevpNode} {nodes : List DevpNode}
    (h : PathAt m devp (node :: nodes)) :
    PathAt m (devp + BitVec.ofNat 64 node.length) nodes := by
  have hholds := h.holds
  have hlast := h.last
  rw [pathBytes, List.flatMap_cons] at hholds
  rw [pathLength, List.map_cons, List.sum_cons, BitVec.ofNat_add, ← BitVec.add_assoc] at hlast
  rw [← bytes_length]
  exact ⟨(bytesAt_append.1 hholds).2, by rwa [bytes_length]⟩

/-- Two bytes of a length make it up. -/
theorem or_bytes {n : ℕ} :
    (((byteOf n 1).setWidth 32 <<< 8) ||| (byteOf n 0).setWidth 32).setWidth 16 =
      BitVec.ofNat 16 n := by
  apply BitVec.eq_of_getLsbD_eq
  intro i hi
  have h256 : n / 256 ^ 1 = n / 2 ^ 8 := rfl
  simp only [byteOf, BitVec.getLsbD_setWidth, BitVec.getLsbD_or, BitVec.getLsbD_shiftLeft,
    BitVec.getLsbD_ofNat, h256, Nat.testBit_div_two_pow, pow_zero, Nat.div_one]
  grind

theorem efiDevicePathLength_holds {m : Memory} {devp : U64} {node : DevpNode}
    (h : BytesAt m devp node.bytes) :
    efiDevicePathLength m devp = BitVec.ofNat 16 node.length := by
  have h2 : m (devp + 2) = byteOf node.length 0 := h 2 (by simp [DevpNode.bytes])
  have h3 : m (devp + 3) = byteOf node.length 1 := h 3 (by simp [DevpNode.bytes])
  rw [efiDevicePathLength, h2, h3, or_bytes]

theorem zeroExtend_ofNat {n : ℕ} (h : n < 2 ^ 16) :
    (BitVec.ofNat 16 n).setWidth 64 = BitVec.ofNat 64 n := by
  apply BitVec.eq_of_toNat_eq
  simp only [BitVec.toNat_setWidth, BitVec.toNat_ofNat]
  omega

theorem getDevpSizeFrom_path : ∀ {nodes : List DevpNode} {m : Memory} {devp : U64}
    {size : BitVec 16} {rounds : ℕ}, PathAt m devp nodes →
    getDevpSizeFrom m rounds devp size =
      if nodes.length < rounds then some (size + BitVec.ofNat 16 (pathLength nodes)) else none
  | _, _, _, _, 0, _ => rfl
  | [], m, devp, size, rounds + 1, h => by
    have hlast : m devp = 0x7f := by simpa [pathLength] using h.last
    simp [getDevpSizeFrom, hlast, pathLength]
  | node :: nodes, m, devp, size, rounds + 1, h => by
    have hhead := h.head
    have htype : m devp = node.type := by
      simpa [DevpNode.bytes] using hhead 0 (by simp [DevpNode.bytes])
    rw [getDevpSizeFrom, if_pos (by rw [htype]; exact node.not_end),
      efiDevicePathLength_holds hhead]
    have hfits : node.length < 2 ^ 16 := node.fits
    simp only [zeroExtend_ofNat hfits]
    rw [getDevpSizeFrom_path h.tail, pathLength, pathLength,
      List.map_cons, List.sum_cons, BitVec.ofNat_add, BitVec.add_assoc, List.length_cons]
    simp only [Nat.add_lt_add_iff_right]

theorem getDevpSize_path {nodes : List DevpNode} {m : Memory} {devp : U64} (rounds : ℕ)
    (h : PathAt m devp nodes) : getDevpSize m rounds devp =
      if nodes.length < rounds then some (BitVec.ofNat 16 (pathLength nodes)) else none := by
  rw [getDevpSize, getDevpSizeFrom_path h]
  simp

/-! ## The appended path -/

theorem newSize_eq (n1 n2 : ℕ) :
    ((BitVec.ofNat 16 n1).setWidth 64 + (BitVec.ofNat 16 n2).setWidth 64 + 4 : U64).setWidth 16 =
      BitVec.ofNat 16 (n1 + n2 + 4) := by
  apply BitVec.eq_of_toNat_eq
  simp only [BitVec.toNat_setWidth, BitVec.toNat_add, BitVec.toNat_ofNat, BitVec.reduceToNat]
  omega

section AppendPath

variable {allocatePool : U64 → U64} {m : Memory} {devp1 devp2 : U64} {nodes1 nodes2 : List DevpNode}

theorem appendPath_newSize (hp1 : PathAt m devp1 nodes1) (hp2 : PathAt m devp2 nodes2) {rounds : ℕ}
    {out : Appended} (h : appendPath allocatePool m rounds devp1 devp2 = some out) :
    out.newSize = BitVec.ofNat 16 (pathLength nodes1 + pathLength nodes2 + 4) := by
  unfold appendPath at h
  rw [getDevpSize_path rounds hp1, getDevpSize_path rounds hp2] at h
  split_ifs at h with h0 hr1 hr2 <;> simp at h
  obtain ⟨-, rfl⟩ := h
  exact newSize_eq ..

theorem appendPath_run (h1 : devp1 ≠ 0) (h2 : devp2 ≠ 0) {rounds : ℕ} {n1 n2 : ℕ}
    (hs1 : getDevpSize m rounds devp1 = some (BitVec.ofNat 16 n1))
    (hs2 : getDevpSize m rounds devp2 = some (BitVec.ofNat 16 n2)) (hfit : n1 + n2 + 4 < 2 ^ 16)
    (hpool : allocatePool (BitVec.ofNat 64 (n1 + n2 + 4)) ≠ 0) :
    let newPath := allocatePool (BitVec.ofNat 64 (n1 + n2 + 4))
    let copy1 := copy m newPath devp1 n1
    appendPath allocatePool m rounds devp1 devp2 =
      some ⟨newPath, BitVec.ofNat 16 (n1 + n2 + 4), [copy1,
        copy (patchAll m [copy1]) (newPath + BitVec.ofNat 64 n1) devp2 n2,
        ⟨newPath + BitVec.ofNat 64 n1 + BitVec.ofNat 64 n2, 4,
          fun i => endOfDevicePath.getD i 0⟩]⟩ := by
  have hnil : ¬ (devp1 = 0 ∨ devp2 = 0) := not_or.2 ⟨h1, h2⟩
  have e1 : (BitVec.ofNat 64 n1).toNat = n1 := by rw [BitVec.toNat_ofNat]; omega
  have e2 : (BitVec.ofNat 64 n2).toNat = n2 := by rw [BitVec.toNat_ofNat]; omega
  have esize := newSize_eq n1 n2
  rw [zeroExtend_ofNat (by omega), zeroExtend_ofNat (by omega)] at esize
  unfold appendPath
  rw [hs1, hs2, if_neg hnil]
  simp only [zeroExtend_ofNat (show n1 < 2 ^ 16 by omega),
    zeroExtend_ofNat (show n2 < 2 ^ 16 by omega), Option.bind_eq_bind, Option.bind_some,
    Option.pure_def, esize, zeroExtend_ofNat hfit, e1, e2, hpool, if_false]

theorem appendPath_lays (h1 : devp1 ≠ 0) (h2 : devp2 ≠ 0) (hp1 : PathAt m devp1 nodes1)
    (hp2 : PathAt m devp2 nodes2) (hfit : pathLength nodes1 + pathLength nodes2 + 4 < 2 ^ 16)
    (hpool : PoolGives allocatePool
      (BitVec.ofNat 64 (pathLength nodes1 + pathLength nodes2 + 4))
      [(devp1, pathLength nodes1), (devp2, pathLength nodes2)]) :
    ∃ rounds out, appendPath allocatePool m rounds devp1 devp2 = some out ∧
      out.newSize = BitVec.ofNat 16 (pathLength nodes1 + pathLength nodes2 + 4) ∧
      Lays out.newPath out.writes
        (pathBytes nodes1 ++ (pathBytes nodes2 ++ (endOfDevicePath ++ []))) := by
  have hs1 := getDevpSize_path (nodes1.length + nodes2.length + 1) hp1
  have hs2 := getDevpSize_path (nodes1.length + nodes2.length + 1) hp2
  rw [if_pos (by omega)] at hs1 hs2
  have hapart := hpool.2 (devp2, pathLength nodes2) (by simp)
  rw [BitVec.toNat_ofNat, Nat.mod_eq_of_lt (by omega)] at hapart
  refine ⟨_, _, appendPath_run h1 h2 hs1 hs2 hfit hpool.1, rfl, ?_⟩
  -- the first path's copy does not reach the second path
  have hcopy := Lays.copy (a := allocatePool (BitVec.ofNat 64 (pathLength nodes1 +
    pathLength nodes2 + 4))) hp1.holds (pathBytes_length nodes1) (.nil _)
  have hkept := hp2.holds.lays (pathBytes_length nodes2) hapart hcopy
    (by simp [pathBytes_length]; omega) (by omega)
  exact .copy hp1.holds (pathBytes_length nodes1)
    (.copy hkept (pathBytes_length nodes2) (.list rfl (.nil _)))

theorem appendsPaths_fits (hp1 : PathAt m devp1 nodes1) (hp2 : PathAt m devp2 nodes2)
    (h : AppendsPaths allocatePool m devp1 devp2 nodes1 nodes2) :
    pathLength nodes1 + pathLength nodes2 + 4 < 2 ^ 16 := by
  obtain ⟨rounds, out, hrun, -, hsize, -⟩ := h
  rw [appendPath_newSize hp1 hp2 hrun, BitVec.toNat_ofNat] at hsize
  omega

/-- The path that is returned is the two paths' when its size fits in 16 bits. -/
theorem appendsPaths_iff (h1 : devp1 ≠ 0) (h2 : devp2 ≠ 0) (hp1 : PathAt m devp1 nodes1)
    (hp2 : PathAt m devp2 nodes2)
    (hpool : PoolGives allocatePool
      ((BitVec.ofNat 16 (pathLength nodes1 + pathLength nodes2 + 4)).setWidth 64)
      [(devp1, pathLength nodes1), (devp2, pathLength nodes2)]) :
    AppendsPaths allocatePool m devp1 devp2 nodes1 nodes2 ↔
      pathLength nodes1 + pathLength nodes2 + 4 < 2 ^ 16 := by
  constructor
  · exact appendsPaths_fits hp1 hp2
  · intro hfit
    rw [zeroExtend_ofNat hfit] at hpool
    obtain ⟨rounds, out, hrun, hsize, hlays⟩ := appendPath_lays h1 h2 hp1 hp2 hfit hpool
    have hn : out.newSize.toNat = pathLength nodes1 + pathLength nodes2 + 4 := by
      rw [hsize, BitVec.toNat_ofNat]
      omega
    have hlen : (pathBytes nodes1 ++ (pathBytes nodes2 ++ (endOfDevicePath ++ []))).length =
        pathLength nodes1 + pathLength nodes2 + 4 := by
      simp [pathBytes_length, endOfDevicePath, Nat.add_assoc]
    refine ⟨rounds, out, hrun, ?_, hn, fun p hp x hx => ?_⟩
    · simpa [endOfDevicePath] using hlays.holds (by omega)
    · rw [hn, ← hlen]
      exact (hlays.mem_iff (by omega)).1 ⟨p, hp, hx⟩

end AppendPath

/-! ## Paths in memory -/

theorem pathAt_place {m : Memory} {devp : U64} {nodes : List DevpNode}
    (h : pathLength nodes < 2 ^ 64) (hlast : m (devp + BitVec.ofNat 64 (pathLength nodes)) = 0x7f) :
    PathAt (place m devp (pathBytes nodes)) devp nodes := by
  refine ⟨bytesAt_place (by rw [pathBytes_length]; omega), (place_of_le ?_).trans hlast⟩
  rw [pathBytes_length, BitVec.add_comm, BitVec.add_sub_cancel, BitVec.toNat_ofNat]
  omega

theorem PathAt.place {m : Memory} {devp a : U64} {nodes : List DevpNode} {bs : List (BitVec 8)}
    (hp : PathAt m devp nodes) (h : Apart a bs.length devp (pathLength nodes + 1)) :
    PathAt (Bytes.place m a bs) devp nodes := by
  have hsame := sameAt_place h (m := m)
  refine ⟨hp.holds.congr fun i hi => ?_, (hsame _ (Nat.lt_succ_self _)).trans hp.last⟩
  rw [pathBytes_length] at hi
  exact (hsame i (by omega)).symm

theorem pathAt_nil {m : Memory} {devp : U64} (h : m devp = 0x7f) : PathAt m devp [] :=
  ⟨bytesAt_nil, (congrArg m (BitVec.add_zero devp)).trans h⟩

/-- The nodes of a PCI device. -/
def deviceNodes : List DevpNode :=
  [⟨2, 1, [0xd0, 0x41, 0x03, 0x0a, 0, 0, 0, 0], by decide, by simp⟩,
    ⟨1, 1, [0, 2], by decide, by simp⟩]

/-- A node of a media file path. -/
def fileNode : DevpNode := ⟨4, 4, [0x61, 0, 0, 0], by decide, by simp⟩

/-- The device's path, and the path of the file after it. -/
def twoPaths : Memory :=
  place (place (fun _ => 0x7f) 0x1000 (pathBytes deviceNodes)) 0x2000 (pathBytes [fileNode])

theorem appendsPaths_file :
    AppendsPaths (fun _ => 0x3000) twoPaths 0x1000 0x2000 deviceNodes [fileNode] :=
  (appendsPaths_iff (by decide) (by decide) ((pathAt_place (by decide) rfl).place (by decide))
    (pathAt_place (by decide) (by decide)) (by decide)).2 (by decide)

/-- A node of `n` zeros. -/
def zeroNode (n : ℕ) (h : 4 + n < 2 ^ 16) : DevpNode :=
  ⟨4, 4, List.replicate n 0, by decide, by rwa [List.length_replicate]⟩

theorem pathLength_zeroNode (n : ℕ) (h : 4 + n < 2 ^ 16) : pathLength [zeroNode n h] = 4 + n := by
  simp [pathLength, DevpNode.length, zeroNode]

/-- With its end, a path of this node is 64 KiB. -/
def longNode : DevpNode := zeroNode 65528 (by omega)

theorem pathLength_longNode : pathLength [longNode] = 65532 := pathLength_zeroNode _ _

theorem appendsPaths_false :
    ¬ ∀ (allocatePool : U64 → U64) (m : Memory) (devp1 devp2 : U64) (nodes1 nodes2 : List DevpNode),
      devp1 ≠ 0 → devp2 ≠ 0 → PathAt m devp1 nodes1 → PathAt m devp2 nodes2 →
      PoolGives allocatePool
        ((BitVec.ofNat 16 (pathLength nodes1 + pathLength nodes2 + 4)).setWidth 64)
        [(devp1, pathLength nodes1), (devp2, pathLength nodes2)] →
      AppendsPaths allocatePool m devp1 devp2 nodes1 nodes2 := by
  intro h
  have hp1 := @pathAt_place (fun _ => 0x7f) 0x10000 [longNode] (by simp [pathLength_longNode]) rfl
  have hp2 : PathAt (place (fun _ => 0x7f) 0x10000 (pathBytes [longNode])) 0x40000 [] :=
    pathAt_nil (place_of_le (by simp [pathBytes_length, pathLength_longNode]))
  have hpool : PoolGives (fun _ => 0x80000)
      ((BitVec.ofNat 16 (pathLength [longNode] + pathLength [] + 4)).setWidth 64)
      [(0x10000, pathLength [longNode]), (0x40000, pathLength [])] := by
    refine ⟨by decide, fun o ho i hi => ?_⟩
    rw [pathLength_longNode]
    exact Nat.zero_le _
  have hfits := appendsPaths_fits hp1 hp2
    (h _ _ _ _ _ _ (by decide) (by decide) hp1 hp2 hpool)
  rw [pathLength_longNode] at hfits
  exact absurd hfits (by decide)

end EfiWrapper

end SctOs
