/-
QemuFormal.Net.ChecksumTheorems — what the checksum functions of
`net/checksum.c` compute, and where `net_checksum_calculate` reaches.

  §1 Sums      — `csumValue`, the sum of 16-bit big-endian words a byte
                 string stands for at an offset (`csumWeight`);
                 `netChecksumAddCont_eq`: `net_checksum_add_cont` is that
                 sum modulo `2^32`, so it splits at any byte
                 (`netChecksumAddCont_append`) and only the parity of `seq`
                 matters; `netChecksumFinish_eq`: `net_checksum_finish`
                 complements the end-around-carry fold (`endAroundFold`).
  §2 Vectors   — `netChecksumAddIov_eq`: over an I/O vector, the sum of the
                 selected bytes as one contiguous buffer.
  §3 Loads and stores — the checked accesses in bounds, two-byte stores
                 and the bytes they leave alone, and the sum after a
                 big-endian word is stored at an even offset
                 (`csumValue_storeWord`, `endAroundFold_add_complement`).
  §4 `net_checksum_calculate` — one spec per block (`CSUM_IP`, the
                 TCP/UDP case, what follows the IP checksum), assembled in
                 `netChecksumCalculate_spec`: on a frame whose headers lie
                 in it (`Ipv4Frame`) the function stays in the frame, and on
                 a header without options the checksums it stores sum to
                 `0xFFFF`; frames outside those hypotheses that it leaves,
                 and a header with options whose segment it misses, follow.
-/
import QemuFormal.Net.Checksum
import QemuFormal.Util.IovTheorems

namespace QemuFormal

/-! ## §1 Sums -/

/-- The weight of the byte at offset `seq`: the high byte of a big-endian
16-bit word at an even offset, its low byte at an odd one. -/
def csumWeight (seq : Int) : Nat := if seq % 2 = 1 then 1 else 256

/-- What an Internet checksum adds up: the bytes of `buf`, standing at
offsets `seq`, `seq + 1`, …, each with its weight. -/
def csumValue : List UInt8 → Int → Nat
  | [], _ => 0
  | a :: rest, seq => a.toNat * csumWeight seq + csumValue rest (seq + 1)

@[simp] theorem csumValue_nil (seq : Int) : csumValue [] seq = 0 := rfl

theorem csumValue_append (b1 b2 : List UInt8) (seq : Int) :
    csumValue (b1 ++ b2) seq = csumValue b1 seq + csumValue b2 (seq + b1.length) := by
  induction b1 generalizing seq with
  | nil => simp
  | cons a rest ih =>
    have hseq : seq + ((rest.length + 1 : Nat) : Int) = seq + 1 + rest.length := by omega
    rw [List.cons_append, csumValue, csumValue, ih, List.length_cons, hseq]
    omega

/-- The bytes at even offsets of `buf`, paired as the loop takes them. -/
def evenSum : List UInt8 → Nat
  | a :: _ :: rest => a.toNat + evenSum rest
  | [a] => a.toNat
  | [] => 0

/-- The bytes at odd offsets of `buf`. -/
def oddSum : List UInt8 → Nat
  | _ :: b :: rest => b.toNat + oddSum rest
  | _ => 0

theorem csumValue_eq (buf : List UInt8) (seq : Int) :
    csumValue buf seq =
      if seq % 2 = 1 then evenSum buf + 256 * oddSum buf else 256 * evenSum buf + oddSum buf := by
  -- pairs of bytes, as `evenSum` and the loop of `net_checksum_add_cont` take them
  induction buf using evenSum.induct generalizing seq with
  | case1 a b rest ih =>
    have hpar : (seq + 1 + 1) % 2 = seq % 2 := by omega
    rw [csumValue, csumValue, ih, hpar, evenSum, oddSum]
    by_cases h : seq % 2 = 1
    · have h1 : ¬(seq + 1) % 2 = 1 := by omega
      simp only [csumWeight, if_pos h, if_neg h1]
      omega
    · have h1 : (seq + 1) % 2 = 1 := by omega
      simp only [csumWeight, if_neg h, if_pos h1]
      omega
  | case2 a =>
    simp only [csumValue, evenSum, oddSum, csumWeight]
    split <;> omega
  | case3 => simp [evenSum, oddSum]

theorem netChecksumAddContLoop_eq (buf : List UInt8) (sum1 sum2 : UInt32) :
    netChecksumAddContLoop buf sum1 sum2 =
      (sum1 + UInt32.ofNat (evenSum buf), sum2 + UInt32.ofNat (oddSum buf)) := by
  fun_induction netChecksumAddContLoop with
  | case1 a b rest sum1 sum2 ih =>
    rw [ih, evenSum, oddSum, UInt32.ofNat_add, UInt32.ofNat_add, UInt32.ofNat_uInt8ToNat,
      UInt32.ofNat_uInt8ToNat, UInt32.add_assoc, UInt32.add_assoc]
  | case2 a sum1 sum2 => simp [evenSum, oddSum]
  | case3 sum1 sum2 => simp [evenSum, oddSum]

theorem ofNat_shiftLeft_8 (x : Nat) : UInt32.ofNat x <<< 8 = UInt32.ofNat (256 * x) := by
  apply UInt32.toNat_inj.mp
  rw [UInt32.toNat_shiftLeft, UInt32.toNat_ofNat', UInt32.toNat_ofNat', Nat.shiftLeft_eq]
  rw [show (8 : UInt32).toNat % 32 = 8 from rfl, Nat.mod_mul_mod, Nat.mul_comm]

/-- `net_checksum_add_cont` is the weighted sum modulo `2^32`. -/
theorem netChecksumAddCont_eq (buf : List UInt8) (seq : Int) :
    netChecksumAddCont buf seq = UInt32.ofNat (csumValue buf seq) := by
  rw [netChecksumAddCont, netChecksumAddContLoop_eq, csumValue_eq]
  dsimp only
  rw [UInt32.zero_add, UInt32.zero_add]
  split
  · rw [ofNat_shiftLeft_8, UInt32.ofNat_add]
  · rw [ofNat_shiftLeft_8, UInt32.ofNat_add, UInt32.add_comm]

theorem netChecksumAddCont_append (b1 b2 : List UInt8) (seq : Int) :
    netChecksumAddCont (b1 ++ b2) seq = netChecksumAddCont b1 seq + netChecksumAddCont b2 (seq + b1.length) := by
  rw [netChecksumAddCont_eq, netChecksumAddCont_eq, netChecksumAddCont_eq, csumValue_append, UInt32.ofNat_add]

@[simp] theorem netChecksumAddCont_nil (seq : Int) : netChecksumAddCont [] seq = 0 := by
  rw [netChecksumAddCont_eq, csumValue_nil]
  rfl

/-- Only the parity of `seq` matters. -/
theorem netChecksumAddCont_congr (buf : List UInt8) {seq seq' : Int} (h : seq % 2 = seq' % 2) :
    netChecksumAddCont buf seq = netChecksumAddCont buf seq' := by
  simp only [netChecksumAddCont, h]

/-- A caller's running sum over consecutive chunks, each passed to
`net_checksum_add_cont` with its byte offset as `seq`. -/
def netChecksumAddChunks : List (List UInt8) → Int → UInt32
  | [], _ => 0
  | c :: cs, seq => netChecksumAddCont c seq + netChecksumAddChunks cs (seq + c.length)

theorem netChecksumAddChunks_eq (chunks : List (List UInt8)) (seq : Int) :
    netChecksumAddChunks chunks seq = netChecksumAddCont chunks.flatten seq := by
  induction chunks generalizing seq with
  | nil => simp [netChecksumAddChunks]
  | cons c cs ih => rw [netChecksumAddChunks, ih, List.flatten_cons, netChecksumAddCont_append]

/-- The end-around-carry fold of a sum into 16 bits: the one of
`1 … 0xFFFF` congruent to it modulo `0xFFFF`, and `0` for `0`. -/
def endAroundFold (n : Nat) : Nat := if n = 0 then 0 else (n - 1) % 0xFFFF + 1

theorem endAroundFold_of_lt {n : Nat} (h : n < 65536) : endAroundFold n = n := by
  unfold endAroundFold
  split <;> omega

/-- Adding the carries back into the low 16 bits keeps the fold. -/
theorem endAroundFold_carry (n : Nat) : endAroundFold (n % 65536 + n / 65536) = endAroundFold n := by
  unfold endAroundFold
  split <;> split <;> omega

/-- `net_checksum_finish` terminates (it is a total function) and returns
the complement of the end-around-carry fold. -/
theorem netChecksumFinish_eq (sum : UInt32) : (netChecksumFinish sum).toNat = 0xFFFF - endAroundFold sum.toNat := by
  -- induction on the loop of `net_checksum_finish`
  induction sum using netChecksumFinish.induct with
  | case1 sum h ih =>
    have hlt := sum.toNat_lt
    have hfit : sum.toNat % 65536 + sum.toNat / 65536 < 2 ^ 32 := by omega
    rw [netChecksumFinish, dif_pos h, ih, UInt32.toNat_add, toNat_and_0xFFFF, toNat_shiftRight_16,
      Nat.mod_eq_of_lt hfit, endAroundFold_carry]
  | case2 sum h =>
    have hsmall : sum.toNat < 65536 := by
      have h0 : sum.toNat / 65536 = 0 := by
        rw [← toNat_shiftRight_16, not_not.mp h]
        rfl
      omega
    rw [netChecksumFinish, dif_neg h, UInt32.toNat_toUInt16, UInt32.toNat_not, endAroundFold_of_lt hsmall]
    change (2 ^ 32 - 1 - sum.toNat) % 2 ^ 16 = 65535 - sum.toNat
    omega

/-! ## §2 Vectors -/

theorem toCInt_emod_two (n : Nat) : toCInt n % 2 = (n : Int) % 2 := by
  have h2 : (2 : Int) ∣ ((Int32.size : Nat) : Int) := ⟨2 ^ 31, rfl⟩
  rw [toCInt, Int32.toInt_ofNat', ← Int.emod_emod_of_dvd _ h2, Int.bmod_emod, Int.emod_emod_of_dvd _ h2]

theorem toNat_toCInt {n : Nat} (h : n < 2 ^ 31) : (toCInt n).toNat = n := by
  rw [toCInt, Int32.toInt_ofNat_of_lt h, Int.toNat_natCast]

theorem iovFlat_cons (mem : Mem) (e : IoVec) (rest : List IoVec) :
    iovFlat mem (e :: rest) = memRead mem e.base e.len ++ iovFlat mem rest := by
  rw [iovFlat, iovAddrs_cons, List.map_append]
  rfl

theorem memRead_drop_take (mem : Mem) (base len k s : Nat) :
    ((memRead mem base len).drop k).take s = memRead mem (base + k) (min (len - k) s) := by
  rw [memRead, memRead, ← List.map_drop, ← List.map_take, List.drop_range', Scatter.take_range', Nat.mul_one,
    Nat.min_comm]

/-- The loop of `net_checksum_add_iov`, from an element at or before
`iov_off` (or once `size` is spent): what is left to add is the
`size` bytes at `iov_off` of the elements still to come. -/
theorem netChecksumAddIovLoop_eq (mem : Mem) (iov : List IoVec) (iovecOff : Nat) (iovOff size csumOffset res : UInt32)
    (hoff : iovecOff ≤ iovOff.toNat ∨ size = 0) (hbound : iovecOff + iovSize iov < 2 ^ 31) :
    netChecksumAddIovLoop mem iov iovecOff iovOff size csumOffset res =
      res + netChecksumAddCont (((iovFlat mem iov).drop (iovOff.toNat - iovecOff)).take size.toNat) csumOffset.toNat := by
  induction iov generalizing iovecOff iovOff size csumOffset res with
  | nil => simp [netChecksumAddIovLoop, iovFlat]
  | cons e rest ih =>
    have hsize : iovSize (e :: rest) = e.len + iovSize rest := rfl
    rw [netChecksumAddIovLoop]
    by_cases h0 : size = 0
    · rw [if_pos h0, h0]
      simp
    rw [if_neg h0]
    have hle : iovecOff ≤ iovOff.toNat := hoff.resolve_right h0
    rw [iovFlat_cons]
    by_cases hin : iovOff.toNat < iovecOff + e.len
    · -- the element holds bytes from `iov_off` on: add them, then go on at its end
      rw [if_pos hin]
      dsimp only
      set k := iovOff.toNat - iovecOff with hk
      set len := min (iovecOff + e.len - iovOff.toNat) size.toNat with hlen
      have hlen' : len = min (e.len - k) size.toNat := by omega
      have hlen31 : len < 2 ^ 31 := by omega
      have hlenU : len.toUInt32.toNat = len := by
        rw [Nat.toUInt32_eq, UInt32.toNat_ofNat', Nat.mod_eq_of_lt (by omega)]
      have hoff' : (iovOff + len.toUInt32).toNat = iovOff.toNat + len := by
        rw [UInt32.toNat_add, hlenU, Nat.mod_eq_of_lt (by omega)]
      have hsz' : (size - len.toUInt32).toNat = size.toNat - len := by
        rw [UInt32.toNat_sub_of_le _ _ (UInt32.le_iff_toNat_le.mpr (by omega)), hlenU]
      have hnext : iovecOff + e.len ≤ (iovOff + len.toUInt32).toNat ∨ size - len.toUInt32 = 0 := by
        rw [hoff']
        by_cases hfull : iovecOff + e.len ≤ iovOff.toNat + len
        · exact .inl hfull
        · right
          apply UInt32.toNat_inj.mp
          rw [hsz']
          show size.toNat - len = 0
          omega
      rw [ih (iovecOff + e.len) _ _ _ _ hnext (by omega), hoff', hsz',
        List.drop_append_of_le_length (by simp only [memRead, List.length_map, List.length_range']; omega),
        List.take_append, netChecksumAddCont_append,
        memRead_drop_take, ← hlen', toNat_toCInt hlen31, UInt32.add_assoc]
      have hrest : iovOff.toNat + len - (iovecOff + e.len) = 0 := by omega
      have htake : size.toNat - len = size.toNat - ((memRead mem e.base e.len).drop k).length := by
        simp only [memRead, List.length_drop, List.length_map, List.length_range']
        omega
      rw [hrest, List.drop_zero, htake, netChecksumAddCont_congr _ (toCInt_emod_two _)]
      congr 2
      apply netChecksumAddCont_congr
      simp only [memRead, List.length_map, List.length_range']
      rw [UInt32.toNat_add, hlenU]
      omega
    · -- the element ends at or before `iov_off`: skip it
      have hskip : (memRead mem e.base e.len).drop (iovOff.toNat - iovecOff) = [] :=
        List.drop_eq_nil_of_le (by simp only [memRead, List.length_map, List.length_range']; omega)
      rw [if_neg hin, ih (iovecOff + e.len) _ _ _ _ (.inl (by omega)) (by omega), List.drop_append, hskip,
        List.nil_append]
      simp only [memRead, List.length_map, List.length_range']
      congr 4
      omega

/-- `net_checksum_add_iov` adds the `size` bytes at `iov_off` of the
vector as one buffer at offset `csum_offset`. -/
theorem netChecksumAddIov_eq (mem : Mem) (iov : List IoVec) (iovOff size csumOffset : UInt32)
    (h : iovSize iov < 2 ^ 31) :
    netChecksumAddIov mem iov iovOff size csumOffset =
      netChecksumAddCont (((iovFlat mem iov).drop iovOff.toNat).take size.toNat) csumOffset.toNat := by
  rw [netChecksumAddIov, netChecksumAddIovLoop_eq mem iov 0 iovOff size csumOffset 0 (.inl (Nat.zero_le _))
    (by omega), Nat.sub_zero, UInt32.zero_add]

/-- Internet checksums split at any byte: chunks summed with their
offsets as `seq` give the sum of the whole string, an I/O vector gives the
sum of its selected bytes at `csum_offset`, and `net_checksum_finish`
complements the end-around-carry fold. -/
theorem netChecksum_split_invariant :
    (∀ chunks : List (List UInt8),
      netChecksumFinish (netChecksumAddChunks chunks 0) = netChecksumFinish (netChecksumAdd chunks.flatten)) ∧
    (∀ (mem : Mem) (iov : List IoVec) (iovOff size csumOffset : UInt32), iovSize iov ≤ 65535 →
      netChecksumAddIov mem iov iovOff size csumOffset =
        netChecksumAddCont (((iovFlat mem iov).drop iovOff.toNat).take size.toNat) csumOffset.toNat) ∧
    (∀ sum : UInt32, (netChecksumFinish sum).toNat = 0xFFFF - endAroundFold sum.toNat) := by
  refine ⟨fun chunks => ?_, fun mem iov iovOff size csumOffset h => netChecksumAddIov_eq mem iov iovOff size csumOffset
    (by omega), netChecksumFinish_eq⟩
  rw [netChecksumAddChunks_eq]
  rfl

theorem netChecksum_split_invariant_two_elements :
    iovSize [⟨0, 3⟩, ⟨10, 2⟩] ≤ 65535 ∧
      netChecksumAddIov (fun a => UInt8.ofNat a) [⟨0, 3⟩, ⟨10, 2⟩] 1 3 1 =
        netChecksumAddCont (((iovFlat (fun a => UInt8.ofNat a) [⟨0, 3⟩, ⟨10, 2⟩]).drop 1).take 3) 1 :=
  ⟨by decide, netChecksum_split_invariant.2.1 _ _ _ _ _ (by decide)⟩

/-! ## §3 Loads and stores -/

theorem ldubP_of_lt {data : List UInt8} {i : Nat} (h : i < data.length) : ldubP data i = some data[i] :=
  List.getElem?_eq_getElem h

theorem lduwBeP_of_lt {data : List UInt8} {i : Nat} (h : i + 1 < data.length) :
    lduwBeP data i = some ((data[i].toUInt16 <<< 8) ||| data[i + 1].toUInt16) := by
  simp only [lduwBeP, List.getElem?_eq_getElem (show i < data.length by omega), List.getElem?_eq_getElem h]
  rfl

theorem stwBeP_of_lt {data : List UInt8} {i : Nat} (h : i + 1 < data.length) (v : UInt16) :
    stwBeP data i v = some ((data.set i (v >>> 8).toUInt8).set (i + 1) v.toUInt8) := if_pos h

theorem stwHeP_zero_of_lt {data : List UInt8} {i : Nat} (h : i + 1 < data.length) :
    stwHeP data i 0 = some ((data.set i 0).set (i + 1) 0) := if_pos h

theorem loadBytes_of_le {data : List UInt8} {i n : Nat} (h : i + n ≤ data.length) :
    loadBytes data i n = some ((data.drop i).take n) := if_pos h

/-- A two-byte store at `i` leaves every other byte as it was. -/
theorem getElem?_set_set_of_ne (data : List UInt8) {i j : Nat} (a b : UInt8) (h1 : j ≠ i) (h2 : j ≠ i + 1) :
    ((data.set i a).set (i + 1) b)[j]? = data[j]? := by
  rw [List.getElem?_set_ne (Ne.symm h2), List.getElem?_set_ne (Ne.symm h1)]

theorem ipHdrGetLen_congr {data data' : List UInt8} {ip : Nat} (h : data'[ip]? = data[ip]?) :
    ipHdrGetLen data' ip = ipHdrGetLen data ip := by
  simp only [ipHdrGetLen, ldubP, h]

theorem ipHdrGetLen_le {data : List UInt8} {ip hl : Nat} (h : ipHdrGetLen data ip = some hl) : hl ≤ 60 := by
  simp only [ipHdrGetLen, ldubP, bind, Option.bind] at h
  split at h
  · cases h
  · rename_i v _
    simp only [pure, Option.some.injEq] at h
    subst h
    have hv : (v &&& 0x0F).toNat ≤ 15 := by
      rw [UInt8.toNat_and]
      exact Nat.and_le_right.trans (by decide)
    rw [Nat.shiftLeft_eq]
    omega

/-- The bytes `n` bytes at `i` after a store at `j` inside them. -/
theorem take_drop_set {data : List UInt8} {i j n : Nat} (a : UInt8) (hij : i ≤ j) :
    ((data.set j a).drop i).take n = ((data.drop i).take n).set (j - i) a := by
  rw [List.drop_set, if_neg (by omega), List.take_set]

/-- … and after a store outside them. -/
theorem take_drop_set_of_out {data : List UInt8} {i j n : Nat} (a : UInt8) (h : j < i ∨ i + n ≤ j) :
    ((data.set j a).drop i).take n = (data.drop i).take n := by
  rcases h with h | h
  · rw [List.drop_set, if_pos h]
  · rw [List.drop_set, if_neg (by omega), List.take_set, List.set_eq_of_length_le]
    simp only [List.length_take, List.length_drop]
    omega

theorem csumValue_set (l : List UInt8) {j : Nat} (b : UInt8) (seq : Int) (h : j < l.length) :
    csumValue (l.set j b) seq + l[j].toNat * csumWeight (seq + j) = csumValue l seq + b.toNat * csumWeight (seq + j) := by
  induction l generalizing j seq with
  | nil => simp at h
  | cons a rest ih =>
    cases j with
    | zero =>
      have h0 : seq + ((0 : Nat) : Int) = seq := by omega
      simp only [List.set_cons_zero, csumValue, List.getElem_cons_zero, h0]
      omega
    | succ k =>
      have hk : k < rest.length := by simpa using h
      have hseq : seq + ((k + 1 : Nat) : Int) = seq + 1 + k := by omega
      simp only [List.set_cons_succ, csumValue, List.getElem_cons_succ, hseq]
      have := ih (seq + 1) hk
      omega

/-- The two bytes `stw_be_p` stores, high byte first. -/
theorem toNat_bytes_be (v : UInt16) : (v >>> 8).toUInt8.toNat * 256 + v.toUInt8.toNat = v.toNat := by
  have hlt := v.toNat_lt
  have hsh : (v >>> 8).toNat = v.toNat / 256 := by
    rw [UInt16.toNat_shiftRight, Nat.shiftRight_eq_div_pow]
    rfl
  rw [UInt16.toNat_toUInt8, UInt16.toNat_toUInt8, hsh]
  omega

/-- Storing a big-endian word over two zero bytes at an even offset adds the
word to the sum. -/
theorem csumValue_storeWord (l : List UInt8) {o : Nat} (v : UInt16) (ho : o % 2 = 0)
    (h0 : l[o]? = some 0) (h1 : l[o + 1]? = some 0) :
    csumValue ((l.set o (v >>> 8).toUInt8).set (o + 1) v.toUInt8) 0 = csumValue l 0 + v.toNat := by
  have h : o + 1 < l.length := by
    by_contra hc
    rw [List.getElem?_eq_none (by omega)] at h1
    cases h1
  have hw0 : csumWeight (0 + (o : Int)) = 256 := by simp only [csumWeight]; split <;> omega
  have hw1 : csumWeight (0 + ((o + 1 : Nat) : Int)) = 1 := by simp only [csumWeight]; split <;> omega
  have ho : o < l.length := by omega
  have ho1 : o + 1 < (l.set o (v >>> 8).toUInt8).length := by simpa using h
  have hset0 := csumValue_set l (v >>> 8).toUInt8 0 ho
  have hset1 := csumValue_set (l.set o (v >>> 8).toUInt8) v.toUInt8 0 ho1
  have hl0 : l[o] = 0 := by
    rw [List.getElem?_eq_getElem ho] at h0
    exact Option.some.inj h0
  have hl1 : (l.set o (v >>> 8).toUInt8)[o + 1] = 0 := by
    rw [List.getElem?_eq_getElem h] at h1
    rw [List.getElem_set, if_neg (by omega), Option.some.inj h1]
  rw [hl1, hw1] at hset1
  rw [hl0, hw0] at hset0
  have hv := toNat_bytes_be v
  have hz : (0 : UInt8).toNat = 0 := rfl
  rw [hz, Nat.zero_mul, Nat.add_zero] at hset0 hset1
  omega

/-- Storing the complement of the fold makes the sum fold to `0xFFFF`. -/
theorem endAroundFold_add_complement (n : Nat) : endAroundFold (n + (0xFFFF - endAroundFold n)) = 0xFFFF := by
  unfold endAroundFold
  split <;> split <;> omega

/-- A sum of `n` bytes is below `65280 * n`. -/
theorem csumValue_le (buf : List UInt8) (seq : Int) : csumValue buf seq ≤ 65280 * buf.length := by
  induction buf generalizing seq with
  | nil => simp
  | cons a rest ih =>
    have ha := a.toNat_lt
    have hw : csumWeight seq ≤ 256 := by simp only [csumWeight]; split <;> omega
    have := ih (seq + 1)
    have : a.toNat * csumWeight seq ≤ 255 * 256 := Nat.mul_le_mul (by omega) hw
    simp only [csumValue, List.length_cons]
    omega

theorem toNat_netChecksumAdd {buf : List UInt8} (h : buf.length ≤ 65535) :
    (netChecksumAdd buf).toNat = csumValue buf 0 := by
  have := csumValue_le buf 0
  rw [netChecksumAdd, netChecksumAddCont_eq, UInt32.toNat_ofNat', Nat.mod_eq_of_lt (by omega)]

/-- `net_checksum_tcpudp` sums below `2^32` for a segment of at most
`65535` bytes. -/
theorem toNat_netChecksumTcpudp (length proto : UInt16) (addrs seg : List UInt8) (hseg : seg.length ≤ 65535)
    (haddrs : addrs.length = 8) :
    (netChecksumTcpudp length proto addrs seg).toNat =
      0xFFFF - endAroundFold (csumValue seg 0 + csumValue addrs 0 + (proto.toNat + length.toNat)) := by
  have hs := csumValue_le seg 0
  have ha := csumValue_le addrs 0
  have hp := proto.toNat_lt
  have hl := length.toNat_lt
  have hpl : (proto.toUInt32 + length.toUInt32).toNat = proto.toNat + length.toNat := by
    rw [UInt32.toNat_add, UInt16.toNat_toUInt32, UInt16.toNat_toUInt32, Nat.mod_eq_of_lt (by omega)]
  rw [netChecksumTcpudp, netChecksumFinish_eq, UInt32.toNat_add, UInt32.toNat_add, toNat_netChecksumAdd hseg,
    toNat_netChecksumAdd (by omega), hpl, Nat.mod_eq_of_lt (by omega), Nat.mod_eq_of_lt (by omega)]

/-! ## §4 `net_checksum_calculate` -/

/-- The `CSUM_IP` block: in bounds when the header is, and the header then
sums to `0xFFFF` with the `ip_sum` it stored; it writes `ip_sum` only. -/
theorem netChecksumCalculateIpSum_spec {data : List UInt8} {ip hl : Nat} (hhl : ipHdrGetLen data ip = some hl)
    (h12 : 12 ≤ hl) (hfit : ip + hl ≤ data.length) :
    ∃ data', netChecksumCalculateIpSum data ip = some data' ∧ data'.length = data.length ∧
      (∀ j, j ≠ ip + 10 → j ≠ ip + 10 + 1 → data'[j]? = data[j]?) ∧
      endAroundFold (csumValue ((data'.drop ip).take hl) 0) = 0xFFFF := by
  have hhl60 := ipHdrGetLen_le hhl
  -- `ip_sum` cleared
  set data1 := (data.set (ip + 10) 0).set (ip + 10 + 1) 0 with hdata1
  have hlen1 : data1.length = data.length := by simp [data1]
  have hhl1 : ipHdrGetLen data1 ip = some hl := by
    rw [ipHdrGetLen_congr (getElem?_set_set_of_ne data 0 0 (by omega) (by omega)), hhl]
  set hdr := (data1.drop ip).take hl with hhdr
  set c := netRawChecksum hdr with hc
  refine ⟨(data1.set (ip + 10) (c >>> 8).toUInt8).set (ip + 10 + 1) c.toUInt8, ?_, by simp [hlen1], ?_, ?_⟩
  · have hstw : stwHeP data (ip + 10) 0 = some data1 := stwHeP_zero_of_lt (by omega)
    simp only [netChecksumCalculateIpSum, hstw, hhl1, loadBytes_of_le (show ip + hl ≤ data1.length by omega), bind,
      Option.bind]
    exact stwBeP_of_lt (show ip + 10 + 1 < data1.length by omega) c
  · intro j h1 h2
    rw [getElem?_set_set_of_ne _ _ _ h1 h2, getElem?_set_set_of_ne _ _ _ h1 h2]
  · -- the header as summed holds `c` in `ip_sum`, over the zeros it was summed with
    have hwin : (((data1.set (ip + 10) (c >>> 8).toUInt8).set (ip + 10 + 1) c.toUInt8).drop ip).take hl =
        (hdr.set 10 (c >>> 8).toUInt8).set (10 + 1) c.toUInt8 := by
      rw [take_drop_set _ (by omega), take_drop_set _ (by omega), show ip + 10 + 1 - ip = 10 + 1 by omega,
        show ip + 10 - ip = 10 by omega]
    have hz0 : hdr[10]? = some 0 := by
      rw [hhdr, List.getElem?_take, if_pos (by omega), List.getElem?_drop, hdata1, List.getElem?_set_ne (by omega),
        List.getElem?_set, if_pos rfl, if_pos (by omega)]
    have hz1 : hdr[10 + 1]? = some 0 := by
      rw [hhdr, List.getElem?_take, if_pos (by omega), List.getElem?_drop, hdata1, List.getElem?_set,
        if_pos (by omega), if_pos (by simp; omega)]
    have hlen : hdr.length = hl := by simp only [hhdr, List.length_take, List.length_drop]; omega
    rw [hwin, csumValue_storeWord hdr c (by decide) hz0 hz1, hc, netRawChecksum, netChecksumFinish_eq,
      toNat_netChecksumAdd (by omega), endAroundFold_add_complement]

/-- The one's-complement sum over the IPv4 pseudo-header (addresses,
protocol, length) and the `len` bytes of the segment at `l4`. -/
def pseudoSum (data : List UInt8) (ip l4 len : Nat) (proto : UInt8) : Nat :=
  csumValue ((data.drop l4).take len) 0 + csumValue ((data.drop (ip + 12)).take 8) 0 + (proto.toNat + len)

/-- The `IP_PROTO_TCP` and `IP_PROTO_UDP` case: in bounds when the
`ip_len` bytes at `ip + 1` are, it writes the checksum field only, and once
it stores it the pseudo-header and the segment sum to `0xFFFF`. -/
theorem netChecksumCalculateL4_spec {data : List UInt8} {ip : Nat} {ipLen : Int} (ipP : UInt8)
    (csumFlag csum hdrSize sumOff : Nat) (hnn : 0 ≤ ipLen) (hlen16 : ipLen < 2 ^ 16)
    (hfit : ip + sizeofIpHeader + ipLen.toNat ≤ data.length) (hoff : sumOff + 2 ≤ hdrSize) (heven : sumOff % 2 = 0) :
    ∃ data', netChecksumCalculateL4 data ip ipLen ipP csumFlag csum hdrSize sumOff = some data' ∧
      data'.length = data.length ∧
      (∀ j, j ≠ ip + sizeofIpHeader + sumOff → j ≠ ip + sizeofIpHeader + sumOff + 1 → data'[j]? = data[j]?) ∧
      (csumFlag &&& csum ≠ 0 → hdrSize ≤ ipLen.toNat →
        endAroundFold (pseudoSum data' ip (ip + sizeofIpHeader) ipLen.toNat ipP) = 0xFFFF) := by
  have hsz : toSizeT ipLen = ipLen.toNat := by
    unfold toSizeT
    rw [Int.emod_eq_of_lt hnn (by omega)]
  by_cases hf : csumFlag &&& csum = 0
  · exact ⟨data, by rw [netChecksumCalculateL4, if_pos hf], rfl, fun _ _ _ => rfl, fun h => absurd hf h⟩
  by_cases hs : toSizeT ipLen < hdrSize
  · exact ⟨data, by rw [netChecksumCalculateL4, if_neg hf, if_pos hs], rfl, fun _ _ _ => rfl,
      fun _ h => absurd hs (by omega)⟩
  have hs20 : sizeofIpHeader = 20 := rfl
  rw [netChecksumCalculateL4, if_neg hf, if_neg hs]
  dsimp only
  set l4 := ip + sizeofIpHeader with hl4
  set n := ipLen.toNat with hn
  have hlen : (UInt16.ofNat (ipLen % 2 ^ 16).toNat).toNat = n := by
    rw [UInt16.toNat_ofNat', Int.emod_eq_of_lt hnn (by omega), Nat.mod_eq_of_lt (by omega)]
  -- the checksum field cleared
  set data1 := (data.set (l4 + sumOff) 0).set (l4 + sumOff + 1) 0 with hdata1
  have hlen1 : data1.length = data.length := by simp [data1]
  set seg := (data1.drop l4).take n with hseg
  set addrs := (data1.drop (ip + 12)).take 8 with haddrs
  set c := netChecksumTcpudp (UInt16.ofNat (ipLen % 2 ^ 16).toNat) ipP.toUInt16 addrs seg with hc
  refine ⟨(data1.set (l4 + sumOff) (c >>> 8).toUInt8).set (l4 + sumOff + 1) c.toUInt8, ?_, by simp [hlen1], ?_, ?_⟩
  · have hstw : stwHeP data (l4 + sumOff) 0 = some data1 := stwHeP_zero_of_lt (by omega)
    simp only [hstw, hlen, loadBytes_of_le (show l4 + n ≤ data1.length by omega),
      loadBytes_of_le (show ip + 12 + 8 ≤ data1.length by omega), bind, Option.bind]
    exact stwBeP_of_lt (show l4 + sumOff + 1 < data1.length by omega) c
  · intro j h1 h2
    rw [getElem?_set_set_of_ne _ _ _ h1 h2, getElem?_set_set_of_ne _ _ _ h1 h2]
  · intro _ hle
    -- the segment as summed holds `c` in its checksum field; the addresses are untouched
    have hwin : (((data1.set (l4 + sumOff) (c >>> 8).toUInt8).set (l4 + sumOff + 1) c.toUInt8).drop l4).take n =
        (seg.set sumOff (c >>> 8).toUInt8).set (sumOff + 1) c.toUInt8 := by
      rw [take_drop_set _ (by omega), take_drop_set _ (by omega), show l4 + sumOff + 1 - l4 = sumOff + 1 by omega,
        show l4 + sumOff - l4 = sumOff by omega]
    have hwin' : (((data1.set (l4 + sumOff) (c >>> 8).toUInt8).set (l4 + sumOff + 1) c.toUInt8).drop (ip + 12)).take 8 =
        addrs := by
      rw [take_drop_set_of_out _ (.inr (by omega)), take_drop_set_of_out _ (.inr (by omega))]
    have hz0 : seg[sumOff]? = some 0 := by
      rw [hseg, List.getElem?_take, if_pos (by omega), List.getElem?_drop, hdata1, List.getElem?_set_ne (by omega),
        List.getElem?_set, if_pos rfl, if_pos (by omega)]
    have hz1 : seg[sumOff + 1]? = some 0 := by
      rw [hseg, List.getElem?_take, if_pos (by omega), List.getElem?_drop, hdata1, List.getElem?_set,
        if_pos (by omega), if_pos (by simp; omega)]
    have hsegLen : seg.length = n := by simp only [hseg, List.length_take, List.length_drop]; omega
    have haddrsLen : addrs.length = 8 := by simp only [haddrs, List.length_take, List.length_drop]; omega
    have hcNat := toNat_netChecksumTcpudp (UInt16.ofNat (ipLen % 2 ^ 16).toNat) ipP.toUInt16 addrs seg
      (by omega) haddrsLen
    rw [← hc, hlen, UInt8.toNat_toUInt16] at hcNat
    rw [pseudoSum, hwin, hwin', csumValue_storeWord seg c heven hz0 hz1, hcNat]
    have := endAroundFold_add_complement (csumValue seg 0 + csumValue addrs 0 + (ipP.toNat + n))
    rw [← this]
    congr 1
    omega

theorem lduwBeP_congr {data data' : List UInt8} {i : Nat} (h0 : data'[i]? = data[i]?)
    (h1 : data'[i + 1]? = data[i + 1]?) : lduwBeP data' i = lduwBeP data i := by
  simp only [lduwBeP, h0, h1]

/-- A window of bytes none of which changed. -/
theorem take_drop_congr {data data' : List UInt8} {i n : Nat}
    (h : ∀ j, i ≤ j → j < i + n → data'[j]? = data[j]?) : (data'.drop i).take n = (data.drop i).take n := by
  apply List.ext_getElem?
  intro k
  rw [List.getElem?_take, List.getElem?_take, List.getElem?_drop, List.getElem?_drop]
  split
  · exact h _ (by omega) (by omega)
  · rfl

theorem toSizeT_of_nonneg {x : Int} (h0 : 0 ≤ x) (h : x < 2 ^ 64) : toSizeT x = x.toNat := by
  rw [toSizeT, Int.emod_eq_of_lt h0 h]

theorem netChecksumMacHdrLen_ge {data : List UInt8} {mac : Nat} (h : netChecksumMacHdrLen data = some mac) :
    sizeofEthHeader ≤ mac := by
  unfold netChecksumMacHdrLen at h
  cases h12 : lduwBeP data 12 with
  | none => simp [h12, bind, Option.bind] at h
  | some proto =>
    simp only [h12, bind, Option.bind] at h
    split at h
    · cases h
      decide
    · split at h
      · cases h16 : lduwBeP data (sizeofEthHeader + 2) with
        | none => simp [h16] at h
        | some inner =>
          simp only [h16] at h
          split at h <;> cases h <;> decide
      · cases h
        decide

/-- `net_checksum_calculate` after the `CSUM_IP` block, for an IPv4
header of at least 20 bytes whose total length covers it: in bounds, it
writes past the fixed header only, and a TCP or UDP checksum it stores makes
the pseudo-header and segment sum to `0xFFFF`. -/
theorem netChecksumCalculateL3_spec {data : List UInt8} {ip hdrLen totLen : Nat} (length : Int) (csumFlag : Nat)
    (hhl : ipHdrGetLen data ip = some hdrLen) (hge : sizeofIpHeader ≤ hdrLen)
    (htot : (lduwBeP data (ip + 2)).map UInt16.toNat = some totLen) (hle : hdrLen ≤ totLen)
    (hfit : ip + length.toNat ≤ data.length) (hlen : 20 ≤ length) :
    ∃ data', netChecksumCalculateL3 data ip length csumFlag = some data' ∧ data'.length = data.length ∧
      (∀ j, j < ip + sizeofIpHeader → data'[j]? = data[j]?) ∧
      ((lduwBeP data (ip + 6)).map (fun w : UInt16 => w &&& 0x3fff) = some 0 → totLen ≤ length →
        (ldubP data (ip + 9) = some IP_PROTO_TCP → csumFlag &&& CSUM_TCP ≠ 0 → sizeofTcpHeader ≤ totLen - hdrLen →
          endAroundFold (pseudoSum data' ip (ip + sizeofIpHeader) (totLen - hdrLen) IP_PROTO_TCP) = 0xFFFF) ∧
        (ldubP data (ip + 9) = some IP_PROTO_UDP → csumFlag &&& CSUM_UDP ≠ 0 → sizeofUdpHeader ≤ totLen - hdrLen →
          endAroundFold (pseudoSum data' ip (ip + sizeofIpHeader) (totLen - hdrLen) IP_PROTO_UDP) = 0xFFFF)) := by
  have hs20 : sizeofIpHeader = 20 := rfl
  have h20 : ip + 20 ≤ data.length := by omega
  obtain ⟨v6, hv6⟩ : ∃ v6, lduwBeP data (ip + 6) = some v6 := ⟨_, lduwBeP_of_lt (by omega)⟩
  obtain ⟨v2, hv2, rfl⟩ : ∃ v2, lduwBeP data (ip + 2) = some v2 ∧ v2.toNat = totLen := by
    cases h : lduwBeP data (ip + 2) with
    | none => simp [h] at htot
    | some v2 => exact ⟨v2, rfl, by simpa [h] using htot⟩
  have hp : ldubP data (ip + 9) = some data[ip + 9] := ldubP_of_lt (by omega)
  have hv2lt := v2.toNat_lt
  rw [netChecksumCalculateL3]
  simp only [hv6, bind, Option.bind]
  -- a fragment is left alone
  by_cases hfrag : v6 &&& 0x3fff ≠ 0
  · rw [if_pos hfrag]
    exact ⟨data, rfl, rfl, fun _ _ => rfl, fun h => absurd (Option.some.inj h) hfrag⟩
  rw [if_neg hfrag]
  simp only [hv2]
  -- so is a frame shorter than `ip_len`
  by_cases hshort : length < v2.toNat
  · rw [if_pos hshort]
    exact ⟨data, rfl, rfl, fun _ _ => rfl, fun _ h => absurd h (by omega)⟩
  rw [if_neg hshort]
  simp only [hhl, hp]
  -- the segment `net_checksum_tcpudp` covers, at `ip + 1`
  have hnn : (0 : Int) ≤ (v2.toNat : Int) - hdrLen := by omega
  have hfitL4 : ip + sizeofIpHeader + ((v2.toNat : Int) - hdrLen).toNat ≤ data.length := by omega
  have hsegLen : ((v2.toNat : Int) - hdrLen).toNat = v2.toNat - hdrLen := by omega
  by_cases htcp : data[ip + 9] = IP_PROTO_TCP
  · rw [if_pos htcp]
    obtain ⟨d, hd, hdl, hfr, hfo⟩ := netChecksumCalculateL4_spec data[ip + 9] csumFlag CSUM_TCP sizeofTcpHeader 16
      hnn (by omega) hfitL4 (by decide) (by decide)
    refine ⟨d, hd, hdl, fun j hj => hfr j (by omega) (by omega), fun _ _ => ⟨fun _ hflag hseg => ?_, fun hudp => ?_⟩⟩
    · rw [hsegLen, htcp] at hfo
      exact hfo hflag hseg
    · rw [htcp] at hudp
      cases hudp
  by_cases hudp : data[ip + 9] = IP_PROTO_UDP
  · rw [if_neg htcp, if_pos hudp]
    obtain ⟨d, hd, hdl, hfr, hfo⟩ := netChecksumCalculateL4_spec data[ip + 9] csumFlag CSUM_UDP sizeofUdpHeader 6
      hnn (by omega) hfitL4 (by decide) (by decide)
    refine ⟨d, hd, hdl, fun j hj => hfr j (by omega) (by omega), fun _ _ => ⟨fun h => ?_, fun _ hflag hseg => ?_⟩⟩
    · rw [hudp] at h
      cases h
    · rw [hsegLen, hudp] at hfo
      exact hfo hflag hseg
  rw [if_neg htcp, if_neg hudp]
  refine ⟨data, rfl, rfl, fun _ _ => rfl, fun _ _ => ⟨fun h => ?_, fun h => ?_⟩⟩
  · exact absurd (Option.some.inj h) htcp
  · exact absurd (Option.some.inj h) hudp

/-- A frame whose headers lie inside it: the MAC header the `switch` of
`net_checksum_calculate` finds (`mac` bytes), an IPv4 header of at least
`sizeof(struct ip_header)` bytes (`IP_HDR_GET_LEN`, `hdrLen`), and a total
length `ip_len` (`totLen`) that covers the header and fits in the frame. -/
structure Ipv4Frame (data : List UInt8) (mac hdrLen totLen : Nat) : Prop where
  macHdrLen : netChecksumMacHdrLen data = some mac
  ipHdrLen : ipHdrGetLen data mac = some hdrLen
  ipLen : (lduwBeP data (mac + 2)).map UInt16.toNat = some totLen
  hdrLen_ge : sizeofIpHeader ≤ hdrLen
  hdrLen_le : hdrLen ≤ totLen
  fits : mac + totLen ≤ data.length

/-- On a frame whose headers lie inside it, `net_checksum_calculate`
stays inside the frame for every `csum_flag`. On an IPv4 header without
options, the header it stores a checksum in sums to `0xFFFF`, and so do
the pseudo-header and the segment of an unfragmented TCP or UDP packet.
With options the code takes the TCP or UDP header at `ip + 1`, inside
them (`netChecksumCalculate_escapes_frame`). -/
theorem netChecksumCalculate_spec {data : List UInt8} {mac hdrLen totLen : Nat} (hint : data.length < 2 ^ 31)
    (hf : Ipv4Frame data mac hdrLen totLen) (csumFlag : Nat) :
    ∃ data', netChecksumCalculate data csumFlag = some data' ∧ data'.length = data.length ∧
      ((ldubP data mac).map (fun v : UInt8 => (v >>> 4) &&& 0xf) = some 4 →
        (csumFlag &&& CSUM_IP ≠ 0 → hdrLen = sizeofIpHeader →
          endAroundFold (csumValue ((data'.drop mac).take hdrLen) 0) = 0xFFFF) ∧
        ((lduwBeP data (mac + 6)).map (fun w : UInt16 => w &&& 0x3fff) = some 0 →
          (ldubP data (mac + 9) = some IP_PROTO_TCP → csumFlag &&& CSUM_TCP ≠ 0 → hdrLen = sizeofIpHeader →
              sizeofTcpHeader ≤ totLen - hdrLen →
            endAroundFold (pseudoSum data' mac (mac + hdrLen) (totLen - hdrLen) IP_PROTO_TCP) = 0xFFFF) ∧
          (ldubP data (mac + 9) = some IP_PROTO_UDP → csumFlag &&& CSUM_UDP ≠ 0 → hdrLen = sizeofIpHeader →
              sizeofUdpHeader ≤ totLen - hdrLen →
            endAroundFold (pseudoSum data' mac (mac + hdrLen) (totLen - hdrLen) IP_PROTO_UDP) = 0xFFFF))) := by
  obtain ⟨hmac, hhl, htot, hge, hle, hfit⟩ := hf
  have hs20 : sizeofIpHeader = 20 := rfl
  have h14 := netChecksumMacHdrLen_ge hmac
  have hs14 : sizeofEthHeader = 14 := rfl
  -- the frame holds an Ethernet header and the IP header
  have hA : ¬toSizeT (data.length : Int) < sizeofEthHeader := by
    rw [toSizeT_of_nonneg (by omega) (by omega)]
    omega
  have hB : ¬toSizeT ((data.length : Int) - mac) < sizeofIpHeader := by
    rw [toSizeT_of_nonneg (by omega) (by omega)]
    omega
  have hv : ldubP data mac = some data[mac] := ldubP_of_lt (by omega)
  -- the `CSUM_IP` block writes `ip_sum` only
  obtain ⟨data1, h1, hlen1, hframe1, hfold1⟩ : ∃ data1,
      (if csumFlag &&& CSUM_IP ≠ 0 then netChecksumCalculateIpSum data mac else some data) = some data1 ∧
      data1.length = data.length ∧ (∀ j, j ≠ mac + 10 → j ≠ mac + 10 + 1 → data1[j]? = data[j]?) ∧
      (csumFlag &&& CSUM_IP ≠ 0 → endAroundFold (csumValue ((data1.drop mac).take hdrLen) 0) = 0xFFFF) := by
    by_cases hfl : csumFlag &&& CSUM_IP ≠ 0
    · obtain ⟨d, hd, hdl, hfr, hfo⟩ := netChecksumCalculateIpSum_spec hhl (by omega) (by omega)
      exact ⟨d, by rw [if_pos hfl, hd], hdl, hfr, fun _ => hfo⟩
    · exact ⟨data, by rw [if_neg hfl], rfl, fun _ _ _ => rfl, fun h => absurd h hfl⟩
  rw [netChecksumCalculate]
  dsimp only
  rw [if_neg hA, hmac]
  dsimp only [bind, Option.bind]
  rw [if_neg hB, hv]
  dsimp only
  by_cases hver : (data[mac] >>> 4) &&& 0xf ≠ 4
  · rw [if_pos hver]
    exact ⟨data, rfl, rfl, fun h => absurd (Option.some.inj h) hver⟩
  rw [if_neg hver]
  -- what the rest reads is not `ip_sum`
  have hhl1 : ipHdrGetLen data1 mac = some hdrLen := by rw [ipHdrGetLen_congr (hframe1 _ (by omega) (by omega)), hhl]
  have hw2 : lduwBeP data1 (mac + 2) = lduwBeP data (mac + 2) :=
    lduwBeP_congr (hframe1 _ (by omega) (by omega)) (hframe1 _ (by omega) (by omega))
  have hw6 : lduwBeP data1 (mac + 6) = lduwBeP data (mac + 6) :=
    lduwBeP_congr (hframe1 _ (by omega) (by omega)) (hframe1 _ (by omega) (by omega))
  have hp : ldubP data1 (mac + 9) = ldubP data (mac + 9) := hframe1 _ (by omega) (by omega)
  obtain ⟨d, hd, hdl, hfr, hfo⟩ := netChecksumCalculateL3_spec ((data.length : Int) - mac) csumFlag hhl1
    hge (by rw [hw2]; exact htot) hle (by omega) (by omega)
  refine ⟨d, ?_, by rw [hdl, hlen1], fun _ => ⟨fun hfl h20 => ?_, fun hfrag => ?_⟩⟩
  · by_cases hfl : csumFlag &&& CSUM_IP ≠ 0
    · rw [if_pos hfl] at h1 ⊢
      rw [h1]
      exact hd
    · rw [if_neg hfl] at h1 ⊢
      cases h1
      exact hd
  · -- the header window is the one the `CSUM_IP` block left
    rw [take_drop_congr (fun j _ hj => hfr j (by omega))]
    exact hfold1 hfl
  · rw [← hw6, ← hp] at *
    -- the code sums the segment from `ip + 1`, which is where it starts when the header has no options
    obtain ⟨htcp, hudp⟩ := hfo hfrag (by omega)
    refine ⟨fun hpr hfl h20 hseg => ?_, fun hpr hfl h20 hseg => ?_⟩
    · have hsum := htcp hpr hfl hseg
      rwa [← h20] at hsum
    · have hsum := hudp hpr hfl hseg
      rwa [← h20] at hsum

/-- A 54-byte frame: an Ethernet header, an IPv4 header without options
and a TCP header, with `ip_len = 40`. -/
theorem netChecksumCalculate_spec_tcp :
    (List.replicate 12 0 ++ [0x08, 0x00] ++ [0x45, 0, 0, 40, 0, 0, 0, 0, 64, 6, 0, 0, 10, 0, 0, 1, 10, 0, 0, 2] ++
      [0, 80, 0, 80] ++ List.replicate 16 (0 : UInt8)).length < 2 ^ 31 ∧
    Ipv4Frame (List.replicate 12 0 ++ [0x08, 0x00] ++ [0x45, 0, 0, 40, 0, 0, 0, 0, 64, 6, 0, 0, 10, 0, 0, 1, 10, 0, 0, 2] ++
      [0, 80, 0, 80] ++ List.replicate 16 0) 14 20 40 ∧
    ∃ data', netChecksumCalculate (List.replicate 12 0 ++ [0x08, 0x00] ++
          [0x45, 0, 0, 40, 0, 0, 0, 0, 64, 6, 0, 0, 10, 0, 0, 1, 10, 0, 0, 2] ++ [0, 80, 0, 80] ++ List.replicate 16 0)
          (CSUM_IP ||| CSUM_TCP) = some data' ∧
        data'.length = 54 ∧ endAroundFold (csumValue ((data'.drop 14).take 20) 0) = 0xFFFF ∧
        endAroundFold (pseudoSum data' 14 (14 + 20) 20 IP_PROTO_TCP) = 0xFFFF := by
  have hf : Ipv4Frame (List.replicate 12 0 ++ [0x08, 0x00] ++
      [0x45, 0, 0, 40, 0, 0, 0, 0, 64, 6, 0, 0, 10, 0, 0, 1, 10, 0, 0, 2] ++ [0, 80, 0, 80] ++ List.replicate 16 0)
      14 20 40 := ⟨by decide, by decide, by decide, by decide, by decide, by decide⟩
  obtain ⟨data', hcalc, hlen, hsums⟩ := netChecksumCalculate_spec (by decide) hf (CSUM_IP ||| CSUM_TCP)
  obtain ⟨hip, hl4⟩ := hsums (by decide)
  exact ⟨by decide, hf, data', hcalc, hlen, hip (by decide) rfl,
    (hl4 (by decide)).1 (by decide) (by decide) rfl (by decide)⟩

/-- Outside the hypotheses of `netChecksumCalculate_spec` the function
leaves the frame: a 14-byte frame tagged `ETH_P_VLAN` (the negative
`length - mac_hdr_len` passes the `size_t` comparison and the IP header is
read past the end); an IPv4 header with IHL 15 in a 34-byte frame (the
header checksum reads 60 bytes); an `ip_len` of 20 below an IHL of 6 (the
negative TCP length passes its `size_t` comparison and `th_sum` is
written past the end). And with IP options the TCP header is taken at
`ip + 1`, inside the options: on a 74-byte frame with a 40-byte header,
`CSUM_IP` alone leaves a header summing to `0xFFFF`, but `CSUM_IP | CSUM_TCP`
then writes the TCP checksum at offset 36 of the header, which no longer
sums to `0xFFFF`, and leaves the real `th_sum` at offset 56 as it was. -/
theorem netChecksumCalculate_escapes_frame :
    netChecksumCalculate (List.replicate 12 0 ++ [0x81, 0x00]) CSUM_IP = none ∧
    netChecksumCalculate (List.replicate 12 0 ++ [0x08, 0x00] ++
      [0x4F, 0, 0, 20, 0, 0, 0, 0, 64, 6, 0, 0, 10, 0, 0, 1, 10, 0, 0, 2]) CSUM_IP = none ∧
    netChecksumCalculate (List.replicate 12 0 ++ [0x08, 0x00] ++
      [0x46, 0, 0, 20, 0, 0, 0, 0, 64, 6, 0, 0, 10, 0, 0, 1, 10, 0, 0, 2, 0, 0, 0, 0]) CSUM_TCP = none ∧
    (netChecksumCalculate (List.replicate 12 0 ++ [0x08, 0x00] ++
      [0x4A, 0, 0, 60, 0, 0, 0, 0, 64, 6, 0, 0, 10, 0, 0, 1, 10, 0, 0, 2] ++ List.replicate 20 1 ++
      [0, 80, 0, 80] ++ List.replicate 16 0) CSUM_IP).map
      (fun d => endAroundFold (csumValue ((d.drop 14).take 40) 0)) = some 0xFFFF ∧
    (netChecksumCalculate (List.replicate 12 0 ++ [0x08, 0x00] ++
      [0x4A, 0, 0, 60, 0, 0, 0, 0, 64, 6, 0, 0, 10, 0, 0, 1, 10, 0, 0, 2] ++ List.replicate 20 1 ++
      [0, 80, 0, 80] ++ List.replicate 16 0) (CSUM_IP ||| CSUM_TCP)).map
      (fun d => (endAroundFold (csumValue ((d.drop 14).take 40) 0), (d.drop 50).take 2, (d.drop 70).take 2)) =
      some (57816, [226, 217], [0, 0]) :=
  ⟨by decide +kernel, by decide +kernel, by decide +kernel, by decide +kernel, by decide +kernel⟩

end QemuFormal
