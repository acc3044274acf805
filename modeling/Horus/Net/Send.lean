import Mathlib.Logic.Function.Basic
import Horus.Net.Parse

/-!
# `udp_send_one`

The transmit path writes its headers over whatever the recycled mbuf held before. `ip_setup_header`
writes every field of the IP header except `off`, so that the fragment bits are those of the packet
the mbuf held last, and the receiver takes the datagram exactly if they are clear
(`datagram_arrives_iff`).
-/

namespace Horus.Net

/-! ## Stores -/

/-- A byte store. -/
def store8 (pkt : Mbuf) (off v : Nat) : Mbuf :=
  { pkt with data := Function.update pkt.data off (UInt8.ofNat v) }

/-- A two-byte store of the little-endian host. -/
def store16 (pkt : Mbuf) (off v : Nat) : Mbuf := store8 (store8 pkt off v) (off + 1) (v / 256)

/-- A four-byte store of the little-endian host. -/
def store32 (pkt : Mbuf) (off v : Nat) : Mbuf := store16 (store16 pkt off v) (off + 2) (v / 65536)

/-- `memcpy` of `n` bytes, or the assignment of a structure of that size. -/
def storeBytes (pkt : Mbuf) (off n : Nat) (src : Nat → UInt8) : Mbuf :=
  { pkt with data := fun i => if off ≤ i ∧ i < off + n then src (i - off) else pkt.data i }

/-- The assignment to `pkt->len`. -/
def setLen (pkt : Mbuf) (len : Nat) : Mbuf := { pkt with len }

section Stores

variable (pkt : Mbuf) (off v n : Nat) (src : Nat → UInt8)

@[simp] theorem store8_len : (store8 pkt off v).len = pkt.len := rfl
@[simp] theorem store16_len : (store16 pkt off v).len = pkt.len := rfl
@[simp] theorem store32_len : (store32 pkt off v).len = pkt.len := rfl
@[simp] theorem setLen_len : (setLen pkt n).len = n := rfl
@[simp] theorem setLen_data : (setLen pkt n).data = pkt.data := rfl
@[simp] theorem setLen_word16 : word16 (setLen pkt n) off = word16 pkt off := rfl
@[simp] theorem setLen_word32 : word32 (setLen pkt n) off = word32 pkt off := rfl
@[simp] theorem storeBytes_len : (storeBytes pkt off n src).len = pkt.len := rfl

@[simp] theorem store8_data_self : (store8 pkt off v).data off = UInt8.ofNat v :=
  Function.update_self ..

variable {off n} {i : Nat}

theorem store8_data_of_ne (h : i ≠ off) : (store8 pkt off v).data i = pkt.data i :=
  Function.update_of_ne h ..

theorem store16_data_of_outside (h : i < off ∨ off + 2 ≤ i) :
    (store16 pkt off v).data i = pkt.data i := by
  rw [store16, store8_data_of_ne _ _ (by omega), store8_data_of_ne _ _ (by omega)]

theorem store32_data_of_outside (h : i < off ∨ off + 4 ≤ i) :
    (store32 pkt off v).data i = pkt.data i := by
  rw [store32, store16_data_of_outside _ _ (by omega), store16_data_of_outside _ _ (by omega)]

theorem storeBytes_data_of_outside (h : i < off ∨ off + n ≤ i) :
    (storeBytes pkt off n src).data i = pkt.data i := if_neg (by omega)

theorem storeBytes_data (h : i < n) : (storeBytes pkt off n src).data (off + i) = src i := by
  simp [storeBytes, h]

end Stores

/-! ### Loads after stores -/

section Loads

variable {pkt pkt' : Mbuf} {off : Nat}

theorem word16_congr (h0 : pkt'.data off = pkt.data off)
    (h1 : pkt'.data (off + 1) = pkt.data (off + 1)) : word16 pkt' off = word16 pkt off := by
  rw [word16, word16, h0, h1]

theorem word16_store8_of_outside (v : Nat) {i : Nat} (h : i + 2 ≤ off ∨ off + 1 ≤ i) :
    word16 (store8 pkt off v) i = word16 pkt i :=
  word16_congr (store8_data_of_ne _ _ (by omega)) (store8_data_of_ne _ _ (by omega))

theorem word16_store16_of_outside (v : Nat) {i : Nat} (h : i + 2 ≤ off ∨ off + 2 ≤ i) :
    word16 (store16 pkt off v) i = word16 pkt i :=
  word16_congr (store16_data_of_outside _ _ (by omega)) (store16_data_of_outside _ _ (by omega))

theorem word16_store32_of_outside (v : Nat) {i : Nat} (h : i + 2 ≤ off ∨ off + 4 ≤ i) :
    word16 (store32 pkt off v) i = word16 pkt i :=
  word16_congr (store32_data_of_outside _ _ (by omega)) (store32_data_of_outside _ _ (by omega))

theorem word16_storeBytes_of_outside {n : Nat} (src : Nat → UInt8) {i : Nat}
    (h : i + 2 ≤ off ∨ off + n ≤ i) : word16 (storeBytes pkt off n src) i = word16 pkt i :=
  word16_congr (storeBytes_data_of_outside _ _ (by omega))
    (storeBytes_data_of_outside _ _ (by omega))

theorem word16_store16 (v : Nat) : word16 (store16 pkt off v) off = v % 65536 := by
  rw [word16, store16, store8_data_self, store8_data_of_ne _ _ (by omega), store8_data_self]
  simp only [UInt8.toNat_ofNat']
  omega

theorem word32_store32_of_outside (v : Nat) {i : Nat} (h : i + 4 ≤ off ∨ off + 4 ≤ i) :
    word32 (store32 pkt off v) i = word32 pkt i := by
  rw [word32, word32, word16_store32_of_outside _ (by omega),
    word16_store32_of_outside _ (by omega)]

theorem word32_store32 (v : Nat) : word32 (store32 pkt off v) off = v % 2 ^ 32 := by
  have hlow : word16 (store32 pkt off v) off = v % 65536 := by
    have hword : word16 (store16 pkt off v) off = v % 65536 := word16_store16 v
    rw [← hword]
    exact word16_congr (store16_data_of_outside _ _ (by omega))
      (store16_data_of_outside _ _ (by omega))
  have hhigh : word16 (store32 pkt off v) (off + 2) = v / 65536 % 65536 := word16_store16 _
  rw [word32, hlow, hhigh]
  omega

end Loads

/-! ### Byte order -/

section Bytes

variable {v a b k m : Nat} (hm : m = 2 ^ k)

include hm

/-- The byte of `v` that starts at bit `k`, where it is. -/
theorem and_byte : v &&& 255 * m = v / m % 256 * m := by
  rw [hm, ← Nat.shiftLeft_eq, ← Nat.shiftLeft_eq, ← Nat.shiftRight_eq_div_pow]
  refine Nat.eq_of_testBit_eq fun i => ?_
  have hmask (j : Nat) : Nat.testBit 255 j = decide (j < 8) := Nat.testBit_two_pow_sub_one 8 j
  have hmod (x j : Nat) : (x % 256).testBit j = (decide (j < 8) && x.testBit j) :=
    Nat.testBit_mod_two_pow x 8 j
  simp only [Nat.testBit_and, Nat.testBit_shiftLeft, hmask, hmod, Nat.testBit_shiftRight]
  by_cases hk : k ≤ i
  · simp only [hk, decide_true, Bool.true_and, Nat.add_sub_of_le]
    exact Bool.and_comm ..
  · simp only [ge_iff_le, hk, decide_false, Bool.false_and, Bool.and_false]

/-- What lies below a multiple of a power of two is added to it. -/
theorem or_low (hb : b < m) : a * m ||| b = a * m + b := by
  subst hm
  rw [Nat.mul_comm, Nat.two_pow_add_eq_or_of_lt hb]

theorem shift_left : v <<< k = v * m := by rw [Nat.shiftLeft_eq, hm]

theorem shift_right : v >>> k = v / m := by rw [Nat.shiftRight_eq_div_pow, hm]

end Bytes

theorem bswap16_bytes {b0 b1 : Nat} (h0 : b0 < 256) (h1 : b1 < 256) :
    bswap16 (b0 + 256 * b1) = b1 + 256 * b0 := by
  have hlow : (b0 + 256 * b1) &&& 0x00ff = b0 := by
    rw [show 0x00ff = 255 * 1 from rfl, and_byte (k := 0) (m := 1) rfl]
    omega
  have hhigh : (b0 + 256 * b1) &&& 0xff00 = b1 * 256 := by
    rw [show 0xff00 = 255 * 256 from rfl, and_byte (k := 8) (m := 256) rfl]
    omega
  rw [bswap16, hlow, hhigh, shift_left (k := 8) (m := 256) rfl, shift_right (k := 8) (m := 256) rfl,
    Nat.mul_div_cancel _ (by decide), or_low (k := 8) (m := 256) rfl h1]
  omega

theorem byte_up (b : Nat) : b * 256 * 256 = b * 65536 := by omega

theorem byte_down (b : Nat) : b * 65536 / 256 = b * 256 := by omega

theorem or_bytes {b0 b1 b2 b3 : Nat} (h1 : b1 < 256) (h2 : b2 < 256) (h3 : b3 < 256) :
    b0 * 16777216 ||| b1 * 65536 ||| b2 * 256 ||| b3 =
      b3 + 256 * b2 + 65536 * b1 + 16777216 * b0 := by
  rw [or_low (k := 24) (m := 16777216) rfl (by omega),
    show b0 * 16777216 + b1 * 65536 = (b0 * 256 + b1) * 65536 by omega,
    or_low (k := 16) (m := 65536) rfl (by omega),
    show (b0 * 256 + b1) * 65536 + b2 * 256 = ((b0 * 256 + b1) * 256 + b2) * 256 by omega,
    or_low (k := 8) (m := 256) rfl h3]
  omega

theorem bswap32_bytes {b0 b1 b2 b3 : Nat} (h0 : b0 < 256) (h1 : b1 < 256) (h2 : b2 < 256)
    (h3 : b3 < 256) : bswap32 (b0 + 256 * b1 + 65536 * b2 + 16777216 * b3) =
      b3 + 256 * b2 + 65536 * b1 + 16777216 * b0 := by
  set v := b0 + 256 * b1 + 65536 * b2 + 16777216 * b3 with hv
  have hb0 : v &&& 0x000000ff = b0 := by
    rw [show 0x000000ff = 255 * 1 from rfl, and_byte (k := 0) (m := 1) rfl]
    omega
  have hb1 : v &&& 0x0000ff00 = b1 * 256 := by
    rw [show 0x0000ff00 = 255 * 256 from rfl, and_byte (k := 8) (m := 256) rfl]
    omega
  have hb2 : v &&& 0x00ff0000 = b2 * 65536 := by
    rw [show 0x00ff0000 = 255 * 65536 from rfl, and_byte (k := 16) (m := 65536) rfl]
    omega
  have hb3 : v &&& 0xff000000 = b3 * 16777216 := by
    rw [show 0xff000000 = 255 * 16777216 from rfl, and_byte (k := 24) (m := 16777216) rfl]
    omega
  rw [bswap32, hb0, hb1, hb2, hb3, shift_left (k := 24) (m := 16777216) rfl,
    shift_left (k := 8) (m := 256) rfl, shift_right (k := 8) (m := 256) rfl,
    shift_right (k := 24) (m := 16777216) rfl, Nat.mul_div_cancel _ (by decide), byte_up, byte_down,
    or_bytes h1 h2 h3]

theorem bswap16_lt {v : Nat} (h : v < 65536) : bswap16 v < 65536 := by
  have hv : v = v % 256 + 256 * (v / 256) := by omega
  rw [hv, bswap16_bytes (by omega) (by omega)]
  omega

theorem bswap32_lt {v : Nat} (h : v < 4294967296) : bswap32 v < 2 ^ 32 := by
  have hv : v = v % 256 + 256 * (v / 256 % 256) + 65536 * (v / 65536 % 256) +
      16777216 * (v / 16777216) := by omega
  rw [hv, bswap32_bytes (by omega) (by omega) (by omega) (by omega)]
  omega

theorem ntoh16_hton16 {v : Nat} (h : v < 65536) : ntoh16 (hton16 v) = v := by
  have hv : v = v % 256 + 256 * (v / 256) := by omega
  change bswap16 (bswap16 v) = v
  rw [hv, bswap16_bytes (by omega) (by omega), bswap16_bytes (by omega) (by omega)]

theorem bswap32_bswap32 {v : Nat} (h : v < 4294967296) : bswap32 (bswap32 v) = v := by
  have hv : v = v % 256 + 256 * (v / 256 % 256) + 65536 * (v / 65536 % 256) +
      16777216 * (v / 16777216) := by omega
  rw [hv, bswap32_bytes (by omega) (by omega) (by omega) (by omega),
    bswap32_bytes (by omega) (by omega) (by omega) (by omega)]

/-! ## The headers -/

/-- The assignment to the bit field `header_len`. -/
def setHeaderLen (pkt : Mbuf) (hdr v : Nat) : Mbuf :=
  store8 pkt hdr ((pkt.data hdr).toNat / 16 * 16 + v % 16)

/-- The assignment to the bit field `version`. -/
def setVersion (pkt : Mbuf) (hdr v : Nat) : Mbuf :=
  store8 pkt hdr (v % 16 * 16 + (pkt.data hdr).toNat % 16)

/-- `hton32` and `ntoh32`, on a little-endian host. -/
abbrev hton32 (val : Nat) : Nat := bswap32 val

/-- `ip_setup_header`. It has no store to `off`. -/
def ipSetupHeader (pkt : Mbuf) (iphdr proto saddr daddr l4len : Nat) : Mbuf :=
  let pkt := setHeaderLen pkt iphdr (sizeofIpHdr / 4)
  let pkt := setVersion pkt iphdr 4
  let pkt := store8 pkt (iphdr + 1) 0
  let pkt := store16 pkt (iphdr + 2) (hton16 ((sizeofIpHdr + l4len) % 65536))
  let pkt := store16 pkt (iphdr + 4) 0
  let pkt := store8 pkt (iphdr + 8) 64
  let pkt := store8 pkt (iphdr + 9) proto
  let pkt := store16 pkt (iphdr + 10) 0
  let pkt := store32 pkt (iphdr + 12) (hton32 saddr)
  store32 pkt (iphdr + 16) (hton32 daddr)

/-! ### `chksum_internet` -/

/-- An addition to a register of `m` values: the sum and the carry flag. -/
def adc (m a b carry : Nat) : Nat × Nat := ((a + b + carry) % m, (a + b + carry) / m)

/-- `add` followed by `adc $0`. -/
def addAdc (m a b : Nat) : Nat := (adc m (adc m a b 0).1 0 (adc m a b 0).2).1

/-- The loop over 8 byte chunks, which keeps the carry flag from one round to the next. -/
def chksumChunks (pkt : Mbuf) : Nat → Nat → Nat → Nat → Nat
  | 0, _, sum, carry => (adc (2 ^ 64) sum 0 carry).1
  | edx + 1, buf, sum, carry =>
    chksumChunks pkt edx (buf + 8) (adc (2 ^ 64) sum (word64 pkt buf) carry).1
      (adc (2 ^ 64) sum (word64 pkt buf) carry).2

/-- `chksum_internet`. -/
def chksumInternet (pkt : Mbuf) (buf len : Nat) : Nat :=
  let sum := chksumChunks pkt (len / 8) buf 0 0
  let buf := buf + len / 8 * 8
  let sum := if len / 4 % 2 = 1 then addAdc (2 ^ 64) sum (word32 pkt buf) else sum
  let buf := buf + len / 4 % 2 * 4
  let sum := if len / 2 % 2 = 1 then addAdc (2 ^ 64) sum (word16 pkt buf) else sum
  let buf := buf + len / 2 % 2 * 2
  let sum := if len % 2 = 1 then addAdc (2 ^ 64) sum (pkt.data buf).toNat else sum
  -- fold into 16-bit answer
  let sum := addAdc (2 ^ 32) (sum / 2 ^ 32) (sum % 2 ^ 32)
  let sum := addAdc 65536 (sum / 65536) (sum % 65536)
  65535 - sum

/-! ## `udp_send_one` -/

def udpPktSize : Nat := sizeofEthHdr + sizeofIpHdr + sizeofUdpHdr

def ethMtu : Nat := 1500

/-- `UDP_MAX_LEN`. -/
def udpMaxLen : Nat := ethMtu - sizeofIpHdr - sizeofUdpHdr

def retNobufs : Int := 2
def retInval : Int := 3
def retAgain : Int := 4

/-- A tuple whose fields are in the ranges of their C types. -/
structure IpTuple.Sized extends IpTuple where
  srcIp_lt : srcIp < 4294967296
  dstIp_lt : dstIp < 4294967296
  srcPort_lt : srcPort < 65536
  dstPort_lt : dstPort < 65536

/-- The part of `CFG` the headers are built from. -/
structure HostCfg where
  mac : Nat → UInt8
  hostAddr : Nat
  hostAddr_lt : hostAddr < 4294967296

/-- The Ethernet header of an IP packet. -/
def ethSetup (pkt : Mbuf) (dhost shost : Nat → UInt8) : Mbuf :=
  let pkt := storeBytes pkt 0 6 dhost
  let pkt := storeBytes pkt 6 6 shost
  store16 pkt 12 (hton16 ethTypeIp)

/-- What `udp_send_one` stores in its mbuf once `arp_lookup_mac` has given `dhost`. -/
def udpFrame (cfg : HostCfg) (pkt : Mbuf) (dhost data : Nat → UInt8) (len : Nat)
    (id : IpTuple.Sized) : Mbuf :=
  let iphdr := sizeofEthHdr
  let udphdr := iphdr + sizeofIpHdr
  let payload := udphdr + sizeofUdpHdr
  let fullLen := len + sizeofUdpHdr
  let pkt := ethSetup pkt dhost cfg.mac
  let pkt := ipSetupHeader pkt iphdr ipprotoUdp cfg.hostAddr id.dstIp (fullLen % 65536)
  let pkt := store16 pkt (iphdr + 10) (chksumInternet pkt iphdr sizeofIpHdr)
  let pkt := storeBytes pkt payload len data
  let pkt := store16 pkt udphdr (hton16 id.srcPort)
  let pkt := store16 pkt (udphdr + 2) (hton16 id.dstPort)
  let pkt := store16 pkt (udphdr + 4) (hton16 (fullLen % 65536))
  let pkt := store16 pkt (udphdr + 6) 0
  setLen pkt (udpPktSize + len)

/-- `udp_send_one`: its error, or the mbuf it hands to `eth_send`. `arp` is `arp_lookup_mac`,
`alloc` what `mbuf_alloc_local` returns. -/
def udpSendOne (cfg : HostCfg) (arp : Nat → Option (Nat → UInt8)) (alloc : Option Mbuf)
    (data : Nat → UInt8) (len : Nat) (id : IpTuple.Sized) : Except Int Mbuf :=
  if len > udpMaxLen then .error (-retInval)
  else
    match alloc with
    | none => .error (-retNobufs)
    | some pkt =>
      match arp id.dstIp with
      | none => .error (-retAgain)
      | some dhost => .ok (udpFrame cfg pkt dhost data len id)

/-! ## What the receiver finds -/

section IpHeader

variable (pkt : Mbuf) (hdr proto saddr daddr l4len : Nat)

theorem ipSetupHeader_data_outside {i : Nat} (h : i < hdr ∨ hdr + 20 ≤ i) :
    (ipSetupHeader pkt hdr proto saddr daddr l4len).data i = pkt.data i := by
  unfold ipSetupHeader setHeaderLen setVersion
  simp (disch := omega) only [store32_data_of_outside, store16_data_of_outside, store8_data_of_ne]

/-- The bit fields of the first byte are both written, so nothing of its earlier value is left. -/
theorem ipSetupHeader_first :
    (ipSetupHeader pkt hdr proto saddr daddr l4len).data hdr = 0x45 := by
  have hnibbles (b : Nat) :
      4 % 16 * 16 + (b / 16 * 16 + sizeofIpHdr / 4 % 16) % 256 % 16 = 0x45 := by
    rw [sizeofIpHdr]
    omega
  unfold ipSetupHeader setHeaderLen setVersion
  simp (disch := omega) only [store32_data_of_outside, store16_data_of_outside, store8_data_of_ne,
    store8_data_self, UInt8.toNat_ofNat', hnibbles]
  rfl

theorem ipSetupHeader_len : word16 (ipSetupHeader pkt hdr proto saddr daddr l4len) (hdr + 2) =
    hton16 ((sizeofIpHdr + l4len) % 65536) % 65536 := by
  unfold ipSetupHeader setHeaderLen setVersion
  simp (disch := omega) only [word16_store32_of_outside, word16_store16_of_outside,
    word16_store8_of_outside, word16_store16]

/-- `off` is what the mbuf held before. -/
theorem ipSetupHeader_off : word16 (ipSetupHeader pkt hdr proto saddr daddr l4len) (hdr + 6) =
    word16 pkt (hdr + 6) := by
  unfold ipSetupHeader setHeaderLen setVersion
  simp (disch := omega) only [word16_store32_of_outside, word16_store16_of_outside,
    word16_store8_of_outside]

theorem ipSetupHeader_proto :
    (ipSetupHeader pkt hdr proto saddr daddr l4len).data (hdr + 9) = UInt8.ofNat proto := by
  unfold ipSetupHeader
  simp (disch := omega) only [store32_data_of_outside, store16_data_of_outside, store8_data_self]

theorem ipSetupHeader_saddr : word32 (ipSetupHeader pkt hdr proto saddr daddr l4len) (hdr + 12) =
    hton32 saddr % 2 ^ 32 := by
  unfold ipSetupHeader
  simp (disch := omega) only [word32_store32_of_outside, word32_store32]

theorem ipSetupHeader_daddr : word32 (ipSetupHeader pkt hdr proto saddr daddr l4len) (hdr + 16) =
    hton32 daddr % 2 ^ 32 := word32_store32 _

theorem ipSetupHeader_word16_outside {i : Nat} (h : i + 2 ≤ hdr ∨ hdr + 20 ≤ i) :
    word16 (ipSetupHeader pkt hdr proto saddr daddr l4len) i = word16 pkt i :=
  word16_congr (ipSetupHeader_data_outside _ _ _ _ _ _ (by omega))
    (ipSetupHeader_data_outside _ _ _ _ _ _ (by omega))

end IpHeader

section Frame

variable (cfg : HostCfg) (pkt : Mbuf) (dhost data : Nat → UInt8) (len : Nat) (id : IpTuple.Sized)

/-- What the mbuf held before shows in the fragment field of the frame and nowhere else that the
receiver looks. -/
structure Frame (f : Mbuf) : Prop where
  len_eq : f.len = 42 + len
  type : word16 f 12 = hton16 ethTypeIp
  first : f.data 14 = 0x45
  ipLen : word16 f 16 = hton16 (28 + len)
  off : word16 f 20 = word16 pkt 20
  proto : f.data 23 = UInt8.ofNat ipprotoUdp
  saddr : word32 f 26 = hton32 cfg.hostAddr
  daddr : word32 f 30 = hton32 id.dstIp
  srcPort : word16 f 34 = hton16 id.srcPort
  dstPort : word16 f 36 = hton16 id.dstPort
  udpLen : word16 f 38 = hton16 (len + 8)
  payload : ∀ i < len, f.data (42 + i) = data i

variable {cfg pkt dhost data len id}

/-- The IP header but for its checksum is as `ip_setup_header` left it. -/
theorem udpFrame_ipHeader {i : Nat} (h : 14 ≤ i) (hsum : i ≠ 24 ∧ i ≠ 25) (hend : i < 34) :
    (udpFrame cfg pkt dhost data len id).data i =
      (ipSetupHeader (ethSetup pkt dhost cfg.mac) 14 ipprotoUdp cfg.hostAddr id.dstIp
        ((len + sizeofUdpHdr) % 65536)).data i := by
  unfold udpFrame
  simp (disch := omega) only [setLen_data, sizeofEthHdr, sizeofIpHdr, sizeofUdpHdr,
    store16_data_of_outside, storeBytes_data_of_outside]

theorem udpFrame_word16 {i : Nat} (h : 14 ≤ i) (hsum : i + 2 ≤ 24 ∨ 26 ≤ i) (hend : i + 2 ≤ 34) :
    word16 (udpFrame cfg pkt dhost data len id) i =
      word16 (ipSetupHeader (ethSetup pkt dhost cfg.mac) 14 ipprotoUdp cfg.hostAddr id.dstIp
        ((len + sizeofUdpHdr) % 65536)) i :=
  word16_congr (udpFrame_ipHeader (by omega) (by omega) (by omega))
    (udpFrame_ipHeader (by omega) (by omega) (by omega))

theorem udpFrame_word32 {i : Nat} (h : 26 ≤ i) (hend : i + 4 ≤ 34) :
    word32 (udpFrame cfg pkt dhost data len id) i =
      word32 (ipSetupHeader (ethSetup pkt dhost cfg.mac) 14 ipprotoUdp cfg.hostAddr id.dstIp
        ((len + sizeofUdpHdr) % 65536)) i := by
  rw [word32, word32, udpFrame_word16 (by omega) (by omega) (by omega),
    udpFrame_word16 (by omega) (by omega) (by omega)]

theorem ethSetup_data_outside {shost : Nat → UInt8} {i : Nat} (h : 14 ≤ i) :
    (ethSetup pkt dhost shost).data i = pkt.data i := by
  rw [ethSetup, store16_data_of_outside _ _ (by omega), storeBytes_data_of_outside _ _ (by omega),
    storeBytes_data_of_outside _ _ (by omega)]

theorem udpFrame_spec (h : len ≤ udpMaxLen) :
    Frame cfg pkt data len id (udpFrame cfg pkt dhost data len id) := by
  have hmax : len ≤ 1472 := h
  have hip : (sizeofIpHdr + (len + sizeofUdpHdr) % 65536) % 65536 = 28 + len := by
    rw [sizeofIpHdr, sizeofUdpHdr]
    omega
  have hudp : (len + 8) % 65536 = len + 8 := by omega
  have hsize {v : Nat} (hv : v < 65536) : hton16 v % 65536 = hton16 v :=
    Nat.mod_eq_of_lt (bswap16_lt hv)
  constructor
  case len_eq => rfl
  case type =>
    unfold udpFrame
    simp (disch := omega) only [setLen_word16, sizeofEthHdr, sizeofIpHdr, sizeofUdpHdr,
      word16_store16_of_outside, word16_storeBytes_of_outside, ipSetupHeader_word16_outside]
    exact (word16_store16 _).trans (hsize (by decide))
  case first =>
    rw [udpFrame_ipHeader (by decide) (by decide) (by decide), ipSetupHeader_first]
  case ipLen =>
    rw [udpFrame_word16 (by decide) (by decide) (by decide), ipSetupHeader_len, hip,
      hsize (by omega)]
  case off =>
    rw [udpFrame_word16 (by decide) (by decide) (by decide), ipSetupHeader_off]
    exact word16_congr (ethSetup_data_outside (by decide)) (ethSetup_data_outside (by decide))
  case proto =>
    rw [udpFrame_ipHeader (by decide) (by decide) (by decide), ipSetupHeader_proto]
  case saddr =>
    rw [udpFrame_word32 (by decide) (by decide), ipSetupHeader_saddr]
    exact Nat.mod_eq_of_lt (bswap32_lt cfg.hostAddr_lt)
  case daddr =>
    rw [udpFrame_word32 (by decide) (by decide), ipSetupHeader_daddr]
    exact Nat.mod_eq_of_lt (bswap32_lt id.dstIp_lt)
  case srcPort =>
    unfold udpFrame
    simp (disch := omega) only [setLen_word16, sizeofEthHdr, sizeofIpHdr, sizeofUdpHdr,
      word16_store16_of_outside, word16_store16]
    exact hsize id.srcPort_lt
  case dstPort =>
    unfold udpFrame
    simp (disch := omega) only [setLen_word16, sizeofEthHdr, sizeofIpHdr, sizeofUdpHdr,
      word16_store16_of_outside, word16_store16]
    exact hsize id.dstPort_lt
  case udpLen =>
    unfold udpFrame
    simp (disch := omega) only [setLen_word16, sizeofEthHdr, sizeofIpHdr, sizeofUdpHdr,
      word16_store16_of_outside, word16_store16, hudp]
    exact hsize (by omega)
  case payload =>
    intro i hi
    unfold udpFrame
    simp (disch := omega) only [setLen_data, sizeofEthHdr, sizeofIpHdr, sizeofUdpHdr,
      store16_data_of_outside]
    exact storeBytes_data _ _ hi

/-- The receiver takes the frame `f` and finds in it the datagram that was sent. -/
structure Arrives (cfg : HostCfg) (data : Nat → UInt8) (len : Nat) (id : IpTuple.Sized)
    (f : Mbuf) : Prop where
  accepted : ∃ r, (ethInput f).val = some r ∧ 0 ≤ r
  parsed : (parsePacket f).val =
    some (some (42, ⟨cfg.hostAddr, id.dstIp, id.srcPort, id.dstPort⟩))
  udpLen : udpLen f = len + 8
  payload : ∀ i < len, f.data (42 + i) = data i

namespace Frame

variable {f : Mbuf} (h : Frame cfg pkt data len id f)

include h

theorem hdrlen_eq : hdrlen f = 20 := by
  rw [hdrlen, h.first]
  rfl

theorem udpOff_eq : udpOff f = 34 := by rw [udpOff, h.hdrlen_eq, sizeofEthHdr]

theorem ntoh_udpLen (hlen : len ≤ udpMaxLen) : Horus.Net.udpLen f = len + 8 := by
  have hmax : len ≤ 1472 := hlen
  rw [Horus.Net.udpLen, h.udpOff_eq, h.udpLen, ntoh16_hton16 (by omega)]

theorem udpFits (hlen : len ≤ udpMaxLen) : UdpFits f := by
  rw [UdpFits, h.udpOff_eq, h.ntoh_udpLen hlen, h.len_eq]
  omega

theorem udpDstPort_eq : udpDstPort f = id.dstPort := by
  rw [udpDstPort, h.udpOff_eq, h.dstPort, ntoh16_hton16 id.dstPort_lt]

theorem parsed_eq (hlen : len ≤ udpMaxLen) : (parsePacket f).val =
    some (some (42, ⟨cfg.hostAddr, id.dstIp, id.srcPort, id.dstPort⟩)) := by
  have hoff : 14 + headerLenOf (f.data 14).toNat * 4 = 34 := h.udpOff_eq
  have hfits : mbufEnoughSpace f 34 (ntoh16 (word16 f 38)) := by
    have := h.udpFits hlen
    rwa [UdpFits, Horus.Net.udpLen, h.udpOff_eq] at this
  simp only [parsePacket, sizeofEthHdr, sizeofUdpHdr, load8_bind, load16_bind, load32_bind, hoff,
    hfits, not_true_eq_false, if_false, Rx.pure_val, h.saddr, h.daddr, h.srcPort, h.dstPort,
    bswap32_bswap32 cfg.hostAddr_lt, bswap32_bswap32 id.dstIp_lt, ntoh16_hton16 id.srcPort_lt,
    ntoh16_hton16 id.dstPort_lt]

/-- Every check of `ip_input` but the one for fragments is on a field that the sender wrote. -/
theorem reachesUdp_iff (hlen : len ≤ udpMaxLen) :
    ReachesUdp f ↔ ntoh16 (word16 pkt 20) &&& ipFragMask = 0 := by
  have hmax : len ≤ 1472 := hlen
  have hiplen : Horus.Net.ipLen f = 28 + len := by
    rw [Horus.Net.ipLen, h.ipLen, ntoh16_hton16 (by omega)]
  have hversion : versionOf (f.data 14).toNat = 4 ∧ 5 ≤ headerLenOf (f.data 14).toNat := by
    rw [h.first]
    decide
  have hproto : (f.data 23).toNat = ipprotoUdp := by
    rw [h.proto]
    rfl
  constructor
  · intro hr
    rw [← h.off]
    exact hr.whole
  · intro hoff
    refine ⟨h.type, ?_, hversion.1, hversion.2, ?_, ?_, ?_, hproto⟩
    · rw [h.len_eq]
      omega
    · rwa [h.off]
    · rw [h.hdrlen_eq, hiplen]
      omega
    · rw [hiplen, h.len_eq, sizeofEthHdr]
      omega

theorem arrives_iff (hlen : len ≤ udpMaxLen) (hport : id.dstPort ≠ 6666) :
    Arrives cfg data len id f ↔ ntoh16 (word16 pkt 20) &&& ipFragMask = 0 := by
  rw [← h.reachesUdp_iff hlen]
  constructor
  · intro harr
    obtain ⟨r, hr, hpos⟩ := harr.accepted
    exact (ethInput_accepts hr hpos).1
  · intro hreach
    refine ⟨⟨0, ?_, by decide⟩, h.parsed_eq hlen, h.ntoh_udpLen hlen, h.payload⟩
    have hnot : udpDstPort f ≠ 6666 := by rwa [h.udpDstPort_eq]
    rw [ethInput_udp hreach, if_pos (h.udpFits hlen), if_neg hnot]

end Frame

/-- **A datagram arrives** as it was sent, exactly if the fragment bits that the mbuf still held
were clear. -/
theorem datagram_arrives_iff (cfg : HostCfg) {arp : Nat → Option (Nat → UInt8)} (pkt : Mbuf)
    (data : Nat → UInt8) {len : Nat} (id : IpTuple.Sized) {dhost : Nat → UInt8}
    (hlen : len ≤ udpMaxLen) (harp : arp id.dstIp = some dhost) (hport : id.dstPort ≠ 6666) :
    (∃ f, udpSendOne cfg arp (some pkt) data len id = .ok f ∧ Arrives cfg data len id f) ↔
      ntoh16 (word16 pkt 20) &&& ipFragMask = 0 := by
  have hsend : udpSendOne cfg arp (some pkt) data len id =
      .ok (udpFrame cfg pkt dhost data len id) := by
    simp only [udpSendOne, gt_iff_lt, Nat.not_lt.2 hlen, if_false, harp]
  have hframe : Frame cfg pkt data len id (udpFrame cfg pkt dhost data len id) :=
    udpFrame_spec hlen
  rw [hsend, ← hframe.arrives_iff hlen hport]
  constructor
  · rintro ⟨f, hf, harr⟩
    cases hf
    exact harr
  · exact fun harr => ⟨_, rfl, harr⟩

end Frame

/-! ### An mbuf that held an ARP request -/

/-- The fields of an ARP request; the operation is where the fragment bits of IP are. -/
def arpRequestMbuf : Mbuf where
  ptr := 0
  len := 42
  data i := match i with
    | 12 => 0x08
    | 13 => 0x06
    | 15 => 1
    | 16 => 0x08
    | 18 => 6
    | 19 => 4
    | 21 => 1
    | _ => 0

/-- A host and a peer. -/
def tenZeroZeroOne : HostCfg := ⟨fun _ => 2, 0x0a000001, by decide⟩

def toTenZeroZeroTwo : IpTuple.Sized :=
  ⟨⟨0x0a000001, 0x0a000002, 1234, 1234⟩, by decide, by decide, by decide, by decide⟩

theorem datagram_arrives_iff_clear :
    (∃ f, udpSendOne tenZeroZeroOne (fun _ => some fun _ => 4) (some ⟨0, 0, fun _ => 0⟩)
        (fun _ => 7) 165 toTenZeroZeroTwo = .ok f ∧
      Arrives tenZeroZeroOne (fun _ => 7) 165 toTenZeroZeroTwo f) ↔
      ntoh16 (word16 ⟨0, 0, fun _ => 0⟩ 20) &&& ipFragMask = 0 :=
  datagram_arrives_iff tenZeroZeroOne ⟨0, 0, fun _ => 0⟩ (fun _ => 7) toTenZeroZeroTwo (by decide)
    rfl (by decide)

/-- The mbuf was freed by `eth_input`, and the next datagram sent from it is taken for a fragment
and dropped. -/
theorem arpRequestMbuf_dropped :
    ¬ ∀ (cfg : HostCfg) (arp : Nat → Option (Nat → UInt8)) (pkt : Mbuf) (data : Nat → UInt8)
        (len : Nat) (id : IpTuple.Sized) (dhost : Nat → UInt8), len ≤ udpMaxLen →
      arp id.dstIp = some dhost → id.dstPort ≠ 6666 →
      ∃ f, udpSendOne cfg arp (some pkt) data len id = .ok f ∧ Arrives cfg data len id f := by
  intro hall
  obtain ⟨f, hf, harr⟩ := hall tenZeroZeroOne (fun _ => some fun _ => 4) arpRequestMbuf
    (fun _ => 7) 165 toTenZeroZeroTwo (fun _ => 4) (by decide) rfl (by decide)
  cases hf
  have hclear := ((udpFrame_spec (by decide)).arrives_iff (by decide) (by decide)).1 harr
  exact absurd hclear (by decide)

end Horus.Net
