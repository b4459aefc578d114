/-
  OscTap.Demos.Endpoint — endpoints on the command line (`ParseEndpoint` in `demos/pi5_hub.cpp`).

  An endpoint is a host and a port with a colon between them; without a port, or with the port 0, it
  has the port of the caller's. `atoi` of a number outside `int` is a fault.

  Proved: `endpoint_round_trips`: what a name prints is parsed as that name.
-/
import OscTap.Ip.EndpointName
import OscTap.Lib.Checked

namespace OscTap.Demos

open OscTap.Lib OscTap.Lib.Out OscTap.Lib.Ostream OscTap.Ip
open OscTap.Tcp (IpEndpointName SockaddrIn)
open OscTap.Ip.Multiplexer (remoteName)

variable {ε : Type}

def atoi (s : Bytes) : Out ε Int32 :=
  if -2 ^ 31 ≤ readInt s ∧ readInt s < 2 ^ 31 then ok (Int32.ofInt (readInt s)) else fault .wrap

def strrchr (c : UInt8) : Bytes → Option Nat
  | [] => none
  | x :: xs =>
    match strrchr c xs with
    | some i => some (i + 1)
    | none => if x = c then some 0 else none

def colon : UInt8 := 58

def parseEndpoint (getaddrinfo : Bytes → Option (Option UInt32)) (s : Bytes) (fallbackPort : Int32) :
    Out ε IpEndpointName :=
  match strrchr colon s with
  | none => ok ⟨getHostByName getaddrinfo s, fallbackPort⟩
  | some i => do
    let port ← atoi (s.drop (i + 1))
    ok ⟨getHostByName getaddrinfo (s.take i), if port ≠ 0 then port else fallbackPort⟩

theorem strrchr_none {c : UInt8} {s : Bytes} (h : c ∉ s) : strrchr c s = none := by
  induction s with
  | nil => rfl
  | cons x xs ih =>
    obtain ⟨hx, hxs⟩ := not_or.mp (mt List.mem_cons.mpr h)
    simp [strrchr, ih hxs, Ne.symm hx]

theorem strrchr_append {c : UInt8} (host : Bytes) {port : Bytes} (h : c ∉ port) :
    strrchr c (host ++ c :: port) = some host.length := by
  induction host with
  | nil => simp [strrchr, strrchr_none h]
  | cons x xs ih => simp [strrchr, ih]

theorem atoi_eq {s : Bytes} {v : Int32} : (atoi s : Out ε Int32) = ok v ↔ readInt s = v.toInt := by
  rw [atoi]
  constructor
  · intro h
    split at h
    · obtain rfl := Out.ok.inj h
      rename_i hrange
      exact (Int32.toInt_ofInt_of_le hrange.1 hrange.2).symm
    · cases h
  · intro h
    rw [h, if_pos ⟨v.le_toInt, v.toInt_lt⟩, Int32.ofInt_toInt]

theorem atoi_decimal (p : Int32) : (atoi (decimal p.toInt) : Out ε Int32) = ok p := atoi_eq.mpr (readInt_decimal _)

/-- A host and a port, with a colon between them. -/
theorem parseEndpoint_colon (getaddrinfo : Bytes → Option (Option UInt32)) (host : Bytes) {port : Int32}
    (h0 : port ≠ 0) (fallbackPort : Int32) :
    (parseEndpoint getaddrinfo (host ++ colon :: decimal port.toInt) fallbackPort : Out ε IpEndpointName) =
      ok ⟨getHostByName getaddrinfo host, port⟩ := by
  have hcolon : colon ∉ decimal port.toInt := fun h => by
    rcases mem_decimal h with h | h
    · exact absurd h (by decide)
    · exact absurd h (by decide)
  have hdrop : (host ++ colon :: decimal port.toInt).drop (host.length + 1) = decimal port.toInt := by
    simp
  simp [parseEndpoint, strrchr_append host hcolon, hdrop, atoi_decimal, h0]

/-- A name that has an address and a port of its own prints as an endpoint that is parsed as that
    name, whatever port the caller falls back to. Ports of up to six characters fit the buffer. -/
theorem endpoint_round_trips {getaddrinfo : Bytes → Option (Option UInt32)} (hn : NumericNames getaddrinfo)
    {e : IpEndpointName} (ha : e.address < anyAddress) (h0 : e.port ≠ 0) (hany : e.port ≠ anyPort)
    (hlow : -100000 < e.port.toInt) (hhigh : e.port.toInt < 1000000)
    (fallbackPort : Int32) :
    (parseEndpoint getaddrinfo (addressAndPortAsString e) fallbackPort : Out ε IpEndpointName) = ok e := by
  have htext : addressAndPortAsString e = dottedQuad e.address ++ colon :: decimal e.port.toInt := by
    have hquad := length_dottedQuad_le e.address
    have hport : (decimal e.port.toInt).length ≤ 6 := length_decimal_le (by decide) hlow hhigh
    rw [addressAndPortAsString, if_neg hany, if_neg (UInt64.ne_of_lt ha), snprintf, List.take_of_length_le,
      show bytesOf ":" = [colon] by decide]
    · simp
    · simp only [List.length_append, show (bytesOf ":").length = 1 by decide, addressAndPortStringLength]
      omega
  rw [htext, parseEndpoint_colon getaddrinfo _ h0, getHostByName_dottedQuad hn (UInt64.le_of_lt ha)]

def numericOnly (name : Bytes) : Option (Option UInt32) := (numericAddress name).map some

theorem endpoint_round_trips_loopback : addressAndPortAsString ⟨0x7F000001, 9000⟩ = bytesOf "127.0.0.1:9000" ∧
    (parseEndpoint numericOnly (addressAndPortAsString ⟨0x7F000001, 9000⟩) 7000 : Out Empty IpEndpointName) =
      ok ⟨0x7F000001, 9000⟩ :=
  ⟨by decide, endpoint_round_trips (fun s addr h =>
    by simp [numericOnly, h]) (by decide) (by decide) (by decide) (by decide) (by decide) 7000⟩

end OscTap.Demos
