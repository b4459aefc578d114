/-
  OscTap.Ip.EndpointName — names of endpoints, as socket addresses and as text
  (`osctap/ip/IpEndpointName.h`; `SockaddrFromIpEndpointName`, `SendTo` and `GetHostByName` of the
  posix backend).

  A name has an address of 64 bits and a port of 32, of which a socket address holds 32 and 16.
  Any address and any port have values of their own, `0xFFFFFFFF` and `-1`, and are 0 in a socket
  address, so the broadcast address is no name that `Connect` could go to. `SendTo` makes nothing of
  these values. The text of a name is cut down to the buffer that it is printed into.

  `getaddrinfo` is the system's; what is relied on is that it takes four numbers with dots between
  them for the address (`NumericNames`).

  Proved: `name_round_trips`: which names and which socket addresses come back unchanged.
-/
import OscTap.Lib.Decimal
import OscTap.Ip.Multiplexer

namespace OscTap.Ip

open OscTap.Lib OscTap.Lib.Ostream
open OscTap.Tcp (IpEndpointName SockaddrIn ipEndpointNameFromSockaddr)
open OscTap.Ip.Multiplexer (remoteName)

def anyAddress : UInt64 := 0xFFFFFFFF

def anyPort : Int32 := -1

/-! ## Socket addresses -/

/-- `htonl` takes the low 32 bits and `htons` the low 16. -/
def sockaddrFromIpEndpointName (endpoint : IpEndpointName) : SockaddrIn :=
  ⟨if endpoint.address = anyAddress then 0 else endpoint.address.toUInt32,
    if endpoint.port = anyPort then 0 else endpoint.port.toUInt32.toUInt16⟩

/-- `sendToAddr_` in `SendTo(remoteEndpoint, data, size)`. -/
def sendToAddr (remoteEndpoint : IpEndpointName) : SockaddrIn :=
  ⟨remoteEndpoint.address.toUInt32, remoteEndpoint.port.toUInt32.toUInt16⟩

theorem address_fits {a : UInt64} : a.toUInt32.toUInt64 = a ↔ a ≤ anyAddress := by
  have h := a.toNat_lt
  rw [← UInt64.toNat_inj, UInt64.le_iff_toNat_le, UInt32.toNat_toUInt64, UInt64.toNat_toUInt32,
    show anyAddress.toNat = 4294967295 from rfl]
  omega

theorem int32_toInt (p : Int32) :
    p.toInt = if p.toUInt32.toNat < 2147483648 then (p.toUInt32.toNat : Int) else p.toUInt32.toNat - 4294967296 := by
  rw [← Int32.toInt_toBitVec, BitVec.toInt_eq_toNat_cond, show p.toUInt32.toNat = p.toBitVec.toNat from rfl]
  split <;> split <;> omega

theorem int32_inj {p q : Int32} : p = q ↔ p.toUInt32.toNat = q.toUInt32.toNat := by
  rw [UInt32.toNat_inj]
  exact ⟨congrArg _, fun h => by simpa using congrArg UInt32.toInt32 h⟩

/-- The low 16 bits of a port, taken for a port. -/
theorem port_fits {p : Int32} : p.toUInt32.toUInt16.toUInt32.toInt32 = p ↔ 0 ≤ p.toInt ∧ p.toInt < 65536 := by
  have h := p.toUInt32.toNat_lt
  rw [int32_inj, UInt32.toUInt32_toInt32, UInt16.toNat_toUInt32, UInt32.toNat_toUInt16, int32_toInt]
  split <;> omega

theorem port_low_eq_zero {p : Int32} (h : 0 ≤ p.toInt ∧ p.toInt < 65536) : p.toUInt32.toUInt16 = 0 ↔ p.toInt = 0 := by
  rw [int32_toInt] at h ⊢
  rw [← UInt16.toNat_inj, UInt32.toNat_toUInt16, UInt16.toNat_zero]
  split at h <;> split <;> omega

theorem address_comes_back (a : UInt64) :
    (let s : UInt32 := if a = anyAddress then 0 else a.toUInt32
     (if s = 0 then 0xFFFFFFFF else s.toUInt64) = a) ↔ 0 < a ∧ a ≤ anyAddress := by
  dsimp only
  by_cases hany : a = anyAddress
  · subst hany
    decide
  rw [if_neg hany]
  by_cases hzero : a.toUInt32 = 0
  · rw [if_pos hzero]
    refine ⟨fun h => absurd h.symm hany, fun ⟨hpos, hle⟩ => ?_⟩
    have hfits := address_fits.mpr hle
    rw [hzero] at hfits
    exact absurd (hfits ▸ hpos) (by decide)
  · rw [if_neg hzero, address_fits]
    refine ⟨fun h => ⟨UInt64.pos_iff_ne_zero.mpr fun h0 => hzero (by rw [h0]; rfl), h⟩, And.right⟩

theorem port_comes_back (p : Int32) :
    (let s : UInt16 := if p = anyPort then 0 else p.toUInt32.toUInt16
     (if s = 0 then -1 else s.toUInt32.toInt32) = p) ↔ p = anyPort ∨ 0 < p.toInt ∧ p.toInt < 65536 := by
  dsimp only
  by_cases hany : p = anyPort
  · subst hany
    decide
  rw [if_neg hany]
  by_cases hzero : p.toUInt32.toUInt16 = 0
  · rw [if_pos hzero]
    refine ⟨fun h => .inl h.symm, fun h => ?_⟩
    rcases h with h | ⟨hpos, hlt⟩
    · exact absurd h hany
    · have h0 := (port_low_eq_zero ⟨hpos.le, hlt⟩).mp hzero
      omega
  · rw [if_neg hzero, port_fits]
    refine ⟨fun h => .inr ⟨lt_of_le_of_ne h.1 fun h0 => hzero ((port_low_eq_zero h).mpr h0.symm), h.2⟩, fun h => ?_⟩
    rcases h with h | ⟨hpos, hlt⟩
    · exact absurd h hany
    · exact ⟨hpos.le, hlt⟩

theorem toUInt64_eq_any {b : UInt32} : b.toUInt64 = anyAddress ↔ b = 0xFFFFFFFF := by
  rw [← UInt64.toNat_inj, ← UInt32.toNat_inj, UInt32.toNat_toUInt64]
  exact Iff.rfl

/-- The 32 bits of an address, taken for an address, are taken for any address when they are the broadcast address. -/
theorem sockaddr_address (b : UInt32) : (if b.toUInt64 = anyAddress then 0 else b.toUInt64.toUInt32) = b ↔
    b ≠ 0xFFFFFFFF := by
  by_cases hany : b = 0xFFFFFFFF
  · subst hany
    decide
  · simp [toUInt64_eq_any, hany]

theorem port_ne_any (p : UInt16) : p.toUInt32.toInt32 ≠ anyPort := by
  rw [Ne, int32_inj, UInt32.toUInt32_toInt32, UInt16.toNat_toUInt32, show anyPort.toUInt32.toNat = 4294967295 from rfl]
  have h := p.toNat_lt
  omega

/-- A name comes back from its socket address when its address and its port are there in full, and
    are not the 0 that stands for any; a socket address comes back from its name unless it is the
    broadcast address. -/
theorem name_round_trips :
    (∀ e, ipEndpointNameFromSockaddr (sockaddrFromIpEndpointName e) = e ↔
      (0 < e.address ∧ e.address ≤ anyAddress) ∧ (e.port = anyPort ∨ 0 < e.port.toInt ∧ e.port.toInt < 65536)) ∧
    (∀ a, sockaddrFromIpEndpointName (ipEndpointNameFromSockaddr a) = a ↔ a.addr ≠ 0xFFFFFFFF) ∧
    (∀ a, sockaddrFromIpEndpointName (remoteName a) = a ↔ a.addr ≠ 0xFFFFFFFF) ∧
      ∀ a, sendToAddr (remoteName a) = a := by
  have hport : ∀ p : UInt16, (if p.toUInt32.toInt32 = anyPort then 0 else p.toUInt32.toInt32.toUInt32.toUInt16) = p := by
    intro p
    simp [port_ne_any]
  refine ⟨fun e => ?_, fun a => ?_, fun a => ?_, fun a => ?_⟩
  · rw [← address_comes_back, ← port_comes_back]
    exact IpEndpointName.mk.injEq .. ▸ Iff.rfl
  · obtain ⟨addr, port⟩ := a
    have hname : (if (if port = 0 then -1 else port.toUInt32.toInt32) = anyPort then 0
        else (if port = 0 then -1 else port.toUInt32.toInt32).toUInt32.toUInt16) = port := by
      by_cases h0 : port = 0
      · simp [h0, anyPort]
      · rw [if_neg h0, hport]
    rw [sockaddrFromIpEndpointName, ipEndpointNameFromSockaddr, SockaddrIn.mk.injEq]
    dsimp only
    rw [hname, and_iff_left rfl]
    by_cases h0 : addr = 0
    · simp [h0, anyAddress]
    · rw [if_neg h0, sockaddr_address]
  · obtain ⟨addr, port⟩ := a
    rw [sockaddrFromIpEndpointName, remoteName, SockaddrIn.mk.injEq]
    dsimp only
    rw [hport, and_iff_left rfl, sockaddr_address]
  · simp [sendToAddr, remoteName]

/-! ## Text -/

def octet (address shift : UInt64) : Nat := ((address >>> shift) &&& 0xFF).toNat

def dottedQuad (address : UInt64) : Bytes :=
  decimal (octet address 24) ++ bytesOf "." ++ decimal (octet address 16) ++ bytesOf "." ++
    decimal (octet address 8) ++ bytesOf "." ++
    decimal (octet address 0)

/-- The C string that `snprintf(s, n, ...)` leaves of a text. -/
def snprintf (n : Nat) (text : Bytes) : Bytes := text.take (n - 1)

def addressAndPortStringLength : Nat := 23

def addressAndPortAsString (e : IpEndpointName) : Bytes :=
  snprintf addressAndPortStringLength
    (if e.port = anyPort then
      if e.address = anyAddress then bytesOf "<any>:<any>" else dottedQuad e.address ++ bytesOf ":<any>"
    else if e.address = anyAddress then bytesOf "<any>:" ++ decimal e.port.toInt
    else dottedQuad e.address ++ bytesOf ":" ++ decimal e.port.toInt)

/-- `GetHostByName`: an error, or no address, is 0. `getaddrinfo` gives an address in host order. -/
def getHostByName (getaddrinfo : Bytes → Option (Option UInt32)) (name : Bytes) : UInt64 :=
  match getaddrinfo name with
  | some (some addr) => addr.toUInt64
  | some none | none => 0

def numericAddress (s : Bytes) : Option UInt32 :=
  (readDotted s).map fun x => UInt32.ofNat (x.1 * 2 ^ 24 + x.2.1 * 2 ^ 16 + x.2.2.1 * 2 ^ 8 + x.2.2.2)

/-- `getaddrinfo` takes an address in numbers for what it is. -/
def NumericNames (getaddrinfo : Bytes → Option (Option UInt32)) : Prop :=
  ∀ s addr, numericAddress s = some addr → getaddrinfo s = some (some addr)

theorem octet_eq (address : UInt64) {shift : UInt64} (h : shift.toNat < 64) :
    octet address shift = address.toNat / 2 ^ shift.toNat % 256 := by
  rw [octet, UInt64.toNat_and, UInt64.toNat_shiftRight, Nat.mod_eq_of_lt h, Nat.shiftRight_eq_div_pow,
    show (0xFF : UInt64).toNat = 2 ^ 8 - 1 from rfl, Nat.and_two_pow_sub_one_eq_mod]

theorem octet_le (address shift : UInt64) : octet address shift ≤ 255 := by
  rw [octet, UInt64.toNat_and]
  exact Nat.and_le_right

theorem decimal_natCast (n : Nat) : decimal (n : Int) = digits 10 n := by simp [decimal]

theorem dottedQuad_eq (address : UInt64) :
    dottedQuad address = dotted (octet address 24) (octet address 16) (octet address 8) (octet address 0) := by
  simp only [dottedQuad, dotted, decimal_natCast,
    show bytesOf "." = [dot] by decide, List.append_assoc, List.cons_append, List.nil_append]

theorem length_dottedQuad_le (address : UInt64) : (dottedQuad address).length ≤ 15 := by
  rw [dottedQuad_eq]
  exact length_dotted_le (octet_le ..) (octet_le ..) (octet_le ..) (octet_le ..)

theorem numericAddress_dottedQuad {address : UInt64} (h : address ≤ anyAddress) :
    numericAddress (dottedQuad address) = some address.toUInt32 := by
  rw [numericAddress, dottedQuad_eq, readDotted_dotted (octet_le ..) (octet_le ..) (octet_le ..) (octet_le ..),
    Option.map_some]
  have hle : address.toNat ≤ 4294967295 := UInt64.le_iff_toNat_le.mp h
  congr 1
  rw [← UInt32.toNat_inj, UInt32.toNat_ofNat', UInt64.toNat_toUInt32, octet_eq _ (by decide), octet_eq _ (by decide),
    octet_eq _ (by decide), octet_eq _ (by decide)]
  simp only [UInt64.reduceToNat]
  omega

/-- The address that a name prints is the address of the name. -/
theorem getHostByName_dottedQuad {getaddrinfo : Bytes → Option (Option UInt32)} (hn : NumericNames getaddrinfo)
    {address : UInt64} (h : address ≤ anyAddress) : getHostByName getaddrinfo (dottedQuad address) = address := by
  rw [getHostByName, hn _ _ (numericAddress_dottedQuad h)]
  exact address_fits.mpr h

end OscTap.Ip
