import Horus.Lib.EndAround
import Horus.Net.Send

/-!
# `chksum_internet`

The assembly adds the buffer up in 64-bit words, with the carry of one addition going into the next,
and folds the sum to 32 and then 16 bits. No carry is lost on the way: a sum of all ones never comes
with a carry. The checksum is that of RFC 1071, the complement of the one's complement sum of the
16-bit words.
-/

namespace Horus.Net

open Horus.Lib

/-- The 16-bit words of `len` bytes at `buf`, with a zero byte behind an odd last one. -/
def words (pkt : Mbuf) (buf : Nat) : Nat → List Nat
  | 0 => []
  | 1 => [(pkt.data buf).toNat]
  | len + 2 => word16 pkt buf :: words pkt (buf + 2) len

section Words

variable {pkt pkt' : Mbuf}

theorem word16_lt (pkt : Mbuf) (off : Nat) : word16 pkt off < 65536 := by
  have h0 := (pkt.data off).toNat_lt
  have h1 := (pkt.data (off + 1)).toNat_lt
  rw [word16]
  omega

theorem word32_lt (pkt : Mbuf) (off : Nat) : word32 pkt off < 2 ^ 32 := by
  have h0 := word16_lt pkt off
  have h1 := word16_lt pkt (off + 2)
  rw [word32]
  omega

theorem word64_lt (pkt : Mbuf) (off : Nat) : word64 pkt off < 2 ^ 64 := by
  have h0 := word32_lt pkt off
  have h1 := word32_lt pkt (off + 4)
  rw [word64]
  omega

theorem words_le (buf len : Nat) : ∀ w ∈ words pkt buf len, w ≤ 65535 := by
  fun_induction words pkt buf len with
  | case1 => simp
  | case2 buf =>
    have := (pkt.data buf).toNat_lt
    simp
    omega
  | case3 buf len ih =>
    have := word16_lt pkt buf
    simp only [List.mem_cons, forall_eq_or_imp]
    exact ⟨by omega, ih⟩

/-- The checksum looks at the buffer only. -/
theorem words_congr {buf len : Nat} (h : ∀ i, buf ≤ i → i < buf + len → pkt'.data i = pkt.data i) :
    words pkt' buf len = words pkt buf len := by
  fun_induction words pkt buf len with
  | case1 => rfl
  | case2 buf => rw [words, h buf (by omega) (by omega)]
  | case3 buf len ih =>
    rw [words, ih fun i hi hlt => h i (by omega) (by omega),
      word16_congr (h buf (by omega) (by omega)) (h (buf + 1) (by omega) (by omega))]

end Words

/-! ## Additions -/

/-- Adding the carry back does not overflow. -/
theorem addAdc_eq {M a b : Nat} (ha : a ≤ M) (hb : b ≤ M) : addAdc (M + 1) a b = residue M (a + b) := by
  have hsum := mod_add_div_eq (M := M) (n := a + b) (by omega)
  have hle : residue M (a + b) < M + 1 := by
    rcases Nat.eq_zero_or_pos M with rfl | hM
    · have hzero : a + b = 0 := by omega
      rw [hzero]
      exact Nat.zero_lt_one
    · exact Nat.lt_succ_of_le (residue_le hM)
  rw [addAdc, adc, adc, Nat.add_zero, Nat.add_zero, hsum, Nat.mod_eq_of_lt hle]

/-- A fold: the upper half is added to the lower half. -/
theorem addAdc_div_mod {m n : Nat} (hm : 1 < m) (hn : n < m * m) :
    addAdc m (n / m) (n % m) = residue (m - 1) n := by
  obtain ⟨M, rfl⟩ : ∃ M, m = M + 1 := ⟨m - 1, by omega⟩
  have hq : n / (M + 1) ≤ M := Nat.lt_succ_iff.1 (Nat.div_lt_of_lt_mul hn)
  have hr : n % (M + 1) ≤ M := Nat.lt_succ_iff.1 (Nat.mod_lt n (Nat.succ_pos M))
  have hmod : n / (M + 1) + n % (M + 1) ≡ n [MOD M] := by
    rw [Nat.add_comm]
    exact mod_add_div_modEq
  rw [addAdc_eq hq hr, Nat.add_sub_cancel]
  refine residue_congr (by omega) hmod ⟨fun hzero => ?_, ?_⟩
  · obtain ⟨hq0, hr0⟩ := Nat.add_eq_zero_iff.1 hzero
    rw [← Nat.mod_add_div n (M + 1), hq0, hr0, Nat.mul_zero]
  · rintro rfl
    simp

/-- The sum of `n` 64-bit words. -/
def sum64 (pkt : Mbuf) (buf : Nat) : Nat → Nat
  | 0 => 0
  | n + 1 => word64 pkt buf + sum64 pkt (buf + 8) n

/-- **No carry is lost in the loop.** The sum and the carry flag together are not more than 64 ones. -/
theorem chksumChunks_eq {pkt : Mbuf} {n buf sum carry : Nat} (h : sum + carry ≤ 2 ^ 64 - 1) :
    chksumChunks pkt n buf sum carry = residue (2 ^ 64 - 1) (sum + carry + sum64 pkt buf n) := by
  induction n generalizing buf sum carry with
  | zero =>
    rw [chksumChunks, adc, sum64, Nat.add_zero, Nat.add_zero, residue_of_le h]
    exact Nat.mod_eq_of_lt (by omega)
  | succ n ih =>
    have hword := word64_lt pkt buf
    have hadc : (adc (2 ^ 64) sum (word64 pkt buf) carry).1 +
        (adc (2 ^ 64) sum (word64 pkt buf) carry).2 =
          residue (2 ^ 64 - 1) (sum + carry + word64 pkt buf) := by
      have hcomm : sum + word64 pkt buf + carry = sum + carry + word64 pkt buf := by omega
      have hback := mod_add_div_eq (M := 2 ^ 64 - 1) (n := sum + carry + word64 pkt buf) (by omega)
      rw [adc, hcomm]
      exact hback
    have hle : (adc (2 ^ 64) sum (word64 pkt buf) carry).1 +
        (adc (2 ^ 64) sum (word64 pkt buf) carry).2 ≤ 2 ^ 64 - 1 := by
      rw [hadc]
      exact residue_le (by decide)
    rw [chksumChunks, ih hle, hadc, residue_residue_add (by decide), sum64, Nat.add_assoc]

/-! ## The value -/

section Value

variable {pkt : Mbuf} {buf len : Nat}

theorem one_modEq (k : Nat) : 65536 ^ k ≡ 1 [MOD 65535] := by
  have h : 65536 ≡ 1 [MOD 65535] := rfl
  simpa using h.pow k

theorem residue_word32 (off : Nat) :
    residue 65535 (word32 pkt off) = residue 65535 (word16 pkt off + word16 pkt (off + 2)) :=
  residue_add_mul (by decide) (one_modEq 1) (by decide)

theorem residue_word64 (off : Nat) : residue 65535 (word64 pkt off) =
    residue 65535 (word16 pkt off + word16 pkt (off + 2) +
      (word16 pkt (off + 4) + word16 pkt (off + 6))) := by
  have hfold : residue 65535 (word64 pkt off) =
      residue 65535 (word32 pkt off + word32 pkt (off + 4)) :=
    residue_add_mul (by decide) (one_modEq 2) (by decide)
  rw [hfold]
  exact residue_add_congr (by decide) (residue_word32 off) (residue_word32 (off + 4))

/-- What is left behind `n` 64-bit words. -/
theorem residue_sum_words (n : Nat) :
    residue 65535 (words pkt buf (8 * n + len)).sum =
      residue 65535 (sum64 pkt buf n + (words pkt (buf + 8 * n) len).sum) := by
  induction n generalizing buf with
  | zero => simp [sum64]
  | succ n ih =>
    have hsplit : (words pkt buf (8 * (n + 1) + len)).sum =
        word16 pkt buf + word16 pkt (buf + 2) + (word16 pkt (buf + 4) + word16 pkt (buf + 6)) +
          (words pkt (buf + 8) (8 * n + len)).sum := by
      rw [show 8 * (n + 1) + len = 8 * n + len + 2 + 2 + 2 + 2 by omega, words, words, words, words]
      simp only [List.sum_cons, Nat.add_assoc]
    rw [hsplit, sum64, Nat.add_assoc (word64 pkt buf), show buf + 8 * (n + 1) = buf + 8 + 8 * n by omega]
    exact residue_add_congr (by decide) (residue_word64 buf).symm ih

/-- The four bytes behind the 64-bit words, if there are that many. -/
theorem residue_words_four {a : Nat} (ha : a < 2) :
    residue 65535 (words pkt buf (4 * a + len)).sum =
      residue 65535 ((if a = 1 then word32 pkt buf else 0) + (words pkt (buf + a * 4) len).sum) := by
  obtain rfl | rfl : a = 0 ∨ a = 1 := by omega
  · simp
  · have hsplit : (words pkt buf (4 * 1 + len)).sum =
        word16 pkt buf + word16 pkt (buf + 2) + (words pkt (buf + 1 * 4) len).sum := by
      rw [show 4 * 1 + len = len + 2 + 2 by omega, words, words]
      simp only [List.sum_cons, Nat.add_assoc, Nat.one_mul]
    rw [hsplit, if_pos rfl]
    exact residue_add_congr (by decide) (residue_word32 buf).symm rfl

/-- The two bytes behind them, and the last one. -/
theorem sum_words_rest {b c : Nat} (hb : b < 2) (hc : c < 2) :
    (words pkt buf (2 * b + c)).sum = (if b = 1 then word16 pkt buf else 0) +
      if c = 1 then (pkt.data (buf + b * 2)).toNat else 0 := by
  obtain rfl | rfl : b = 0 ∨ b = 1 := by omega
  · obtain rfl | rfl : c = 0 ∨ c = 1 := by omega
    · simp [words]
    · simp [words]
  · obtain rfl | rfl : c = 0 ∨ c = 1 := by omega
    · simp [words]
    · simp [words]

/-- One addition of a tail. -/
theorem addAdc_if {p : Prop} [Decidable p] {sum x : Nat} (hsum : sum < 2 ^ 64) (hx : x < 2 ^ 64) :
    (if p then addAdc (2 ^ 64) sum x else sum) =
      residue (2 ^ 64 - 1) (sum + if p then x else 0) := by
  split
  · exact addAdc_eq (by omega) (by omega)
  · exact (residue_of_le (by omega)).symm

/-- The fold of 64 bits into 16. -/
theorem fold_eq {sum : Nat} (h : sum < 2 ^ 64) :
    addAdc 65536 (addAdc (2 ^ 32) (sum / 2 ^ 32) (sum % 2 ^ 32) / 65536)
      (addAdc (2 ^ 32) (sum / 2 ^ 32) (sum % 2 ^ 32) % 65536) = residue 65535 sum := by
  have h32 : addAdc (2 ^ 32) (sum / 2 ^ 32) (sum % 2 ^ 32) = residue (2 ^ 32 - 1) sum :=
    addAdc_div_mod (by decide) (by omega)
  have hle : residue (2 ^ 32 - 1) sum ≤ 2 ^ 32 - 1 := residue_le (by decide)
  have h16 : addAdc 65536 (residue (2 ^ 32 - 1) sum / 65536) (residue (2 ^ 32 - 1) sum % 65536) =
      residue 65535 (residue (2 ^ 32 - 1) sum) :=
    addAdc_div_mod (by decide) (by omega)
  rw [h32, h16, residue_residue_of_dvd (by decide) (by decide)]

/-- **The checksum is the complement of the one's complement sum of the words.** -/
theorem chksumInternet_eq (pkt : Mbuf) (buf len : Nat) :
    chksumInternet pkt buf len = 65535 - (words pkt buf len).foldl (endAround 65536) 0 := by
  have hlt {n : Nat} : residue (2 ^ 64 - 1) n < 2 ^ 64 := by
    have := residue_le (M := 2 ^ 64 - 1) (n := n) (by decide)
    omega
  have h32 (off : Nat) : word32 pkt off < 2 ^ 64 := Nat.lt_trans (word32_lt pkt off) (by decide)
  have h16 (off : Nat) : word16 pkt off < 2 ^ 64 := Nat.lt_trans (word16_lt pkt off) (by decide)
  have h8 (off : Nat) : (pkt.data off).toNat < 2 ^ 64 :=
    Nat.lt_trans (pkt.data off).toNat_lt (by decide)
  have hchain (a b c d : Nat) : residue (2 ^ 64 - 1) (residue (2 ^ 64 - 1) (residue (2 ^ 64 - 1)
      (residue (2 ^ 64 - 1) a + b) + c) + d) = residue (2 ^ 64 - 1) (a + (b + (c + d))) := by
    rw [residue_residue_add (by decide), Nat.add_assoc, residue_residue_add (by decide),
      Nat.add_assoc, residue_residue_add (by decide)]
  have hlen : len = 8 * (len / 8) + (4 * (len / 4 % 2) + (2 * (len / 2 % 2) + len % 2)) := by omega
  have hwords : residue 65535 (words pkt buf len).sum = residue 65535
      (sum64 pkt buf (len / 8) +
        ((if len / 4 % 2 = 1 then word32 pkt (buf + len / 8 * 8) else 0) +
          ((if len / 2 % 2 = 1 then word16 pkt (buf + len / 8 * 8 + len / 4 % 2 * 4) else 0) +
            if len % 2 = 1 then
              (pkt.data (buf + len / 8 * 8 + len / 4 % 2 * 4 + len / 2 % 2 * 2)).toNat
            else 0))) := by
    conv_lhs => rw [hlen]
    rw [residue_sum_words, Nat.mul_comm 8 (len / 8)]
    refine residue_add_congr (by decide) rfl ?_
    rw [residue_words_four (Nat.mod_lt _ (by decide)),
      sum_words_rest (Nat.mod_lt _ (by decide)) (Nat.mod_lt _ (by decide))]
  rw [foldl_endAround (M := 65535) (by decide) (words_le buf len) (Nat.zero_le _), Nat.zero_add, hwords]
  simp only [chksumInternet]
  rw [chksumChunks_eq (by decide), addAdc_if hlt (h32 _), addAdc_if hlt (h16 _), addAdc_if hlt (h8 _),
    hchain, fold_eq hlt, residue_residue_of_dvd (by decide) (by decide), Nat.add_zero, Nat.zero_add]

end Value

/-! ## Verification -/

section Verify

variable {pkt : Mbuf} {buf len : Nat}

theorem chksumInternet_eq_residue :
    chksumInternet pkt buf len = 65535 - residue 65535 (words pkt buf len).sum := by
  rw [chksumInternet_eq, foldl_endAround (M := 65535) (by decide) (words_le buf len) (Nat.zero_le _),
    Nat.zero_add]

/-- A word that is stored replaces one. -/
theorem sum_words_store16 (pkt : Mbuf) {k v : Nat} (hk : 2 * k + 2 ≤ len) (hv : v < 65536) :
    (words (store16 pkt (buf + 2 * k) v) buf len).sum + word16 pkt (buf + 2 * k) =
      (words pkt buf len).sum + v := by
  induction k generalizing buf len with
  | zero =>
    obtain ⟨n, rfl⟩ : ∃ n, len = n + 2 := ⟨len - 2, by omega⟩
    have hrest : words (store16 pkt buf v) (buf + 2) n = words pkt (buf + 2) n :=
      words_congr fun i hi _ => store16_data_of_outside _ _ (by omega)
    rw [Nat.mul_zero, Nat.add_zero, words, words, hrest, word16_store16, Nat.mod_eq_of_lt hv]
    simp only [List.sum_cons]
    omega
  | succ k ih =>
    obtain ⟨n, rfl⟩ : ∃ n, len = n + 2 := ⟨len - 2, by omega⟩
    have hrest : (words (store16 pkt (buf + 2 + 2 * k) v) (buf + 2) n).sum +
        word16 pkt (buf + 2 + 2 * k) = (words pkt (buf + 2) n).sum + v := ih (by omega)
    rw [show buf + 2 * (k + 1) = buf + 2 + 2 * k by omega, words, words,
      word16_store16_of_outside _ (by omega)]
    simp only [List.sum_cons]
    omega

/-- **A header that holds the checksum which was computed with a zero in its place verifies.** -/
theorem chksumInternet_store {k : Nat} (hk : 2 * k + 2 ≤ len) (hzero : word16 pkt (buf + 2 * k) = 0) :
    chksumInternet (store16 pkt (buf + 2 * k) (chksumInternet pkt buf len)) buf len = 0 := by
  have hle : residue 65535 (words pkt buf len).sum ≤ 65535 := residue_le (by decide)
  have hlt : chksumInternet pkt buf len < 65536 := by
    rw [chksumInternet_eq_residue]
    omega
  have hsum : (words (store16 pkt (buf + 2 * k) (chksumInternet pkt buf len)) buf len).sum +
      word16 pkt (buf + 2 * k) = (words pkt buf len).sum + chksumInternet pkt buf len :=
    sum_words_store16 pkt hk hlt
  rw [hzero, Nat.add_zero] at hsum
  rw [chksumInternet_eq_residue, hsum, ← residue_residue_add (by decide), chksumInternet_eq_residue,
    Nat.add_sub_cancel' hle, residue_of_le (Nat.le_refl _)]

/-- Bytes outside of the buffer do not matter. -/
theorem chksumInternet_congr {pkt' : Mbuf}
    (h : ∀ i, buf ≤ i → i < buf + len → pkt'.data i = pkt.data i) :
    chksumInternet pkt' buf len = chksumInternet pkt buf len := by
  rw [chksumInternet_eq_residue, chksumInternet_eq_residue, words_congr h]

theorem ipSetupHeader_chksum (pkt : Mbuf) (hdr proto saddr daddr l4len : Nat) :
    word16 (ipSetupHeader pkt hdr proto saddr daddr l4len) (hdr + 10) = 0 := by
  unfold ipSetupHeader
  simp (disch := omega) only [word16_store32_of_outside, word16_store16]

end Verify

/-- **`chksum_internet` is the checksum of RFC 1071**, for every buffer and every length; a field in
which it is stored makes the buffer verify, and so does the header that `udp_send_one` builds. -/
theorem chksum_internet_rfc1071 :
    (∀ (pkt : Mbuf) (buf len : Nat),
      chksumInternet pkt buf len = 65535 - (words pkt buf len).foldl (endAround 65536) 0) ∧
    (∀ (pkt : Mbuf) (buf len k : Nat), 2 * k + 2 ≤ len →
      let zeroed := store16 pkt (buf + 2 * k) 0
      chksumInternet (store16 zeroed (buf + 2 * k) (chksumInternet zeroed buf len)) buf len = 0) ∧
    ∀ (cfg : HostCfg) (pkt : Mbuf) (dhost data : Nat → UInt8) (len : Nat) (id : IpTuple.Sized),
      chksumInternet (udpFrame cfg pkt dhost data len id) sizeofEthHdr sizeofIpHdr = 0 := by
  refine ⟨chksumInternet_eq, fun pkt buf len k hk => ?_, fun cfg pkt dhost data len id => ?_⟩
  · exact chksumInternet_store hk (word16_store16 _)
  · set hdr := ipSetupHeader (ethSetup pkt dhost cfg.mac) 14 ipprotoUdp cfg.hostAddr id.dstIp
      ((len + sizeofUdpHdr) % 65536) with hhdr
    have hbody : chksumInternet (udpFrame cfg pkt dhost data len id) 14 20 =
        chksumInternet (store16 hdr 24 (chksumInternet hdr 14 20)) 14 20 := by
      refine chksumInternet_congr fun i hi hlt => ?_
      unfold udpFrame
      simp (disch := omega) only [setLen_data, sizeofEthHdr, sizeofIpHdr, sizeofUdpHdr,
        store16_data_of_outside, storeBytes_data_of_outside]
      rfl
    rw [sizeofEthHdr, sizeofIpHdr, hbody]
    exact chksumInternet_store (k := 5) (by decide) (ipSetupHeader_chksum _ 14 _ _ _ _)

theorem chksum_internet_rfc1071_arpRequest :
    10 + 2 ≤ 20 ∧
    chksumInternet (store16 (store16 arpRequestMbuf 24 0) 24
      (chksumInternet (store16 arpRequestMbuf 24 0) 14 20)) 14 20 = 0 :=
  ⟨by decide, chksum_internet_rfc1071.2.1 arpRequestMbuf 14 20 5 (by decide)⟩

/-- Five bytes: a word, a second one and half of a third. -/
example : chksumInternet ⟨0, 5, fun i => UInt8.ofNat (i + 1)⟩ 0 5 = 65535 - (0x0201 + 0x0403 + 0x05) := by
  decide +kernel

end Horus.Net
