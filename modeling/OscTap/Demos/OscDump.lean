/-
  OscTap.Demos.OscDump — the printer of what arrives (`examples/OscDump.cpp`).

  The listener constructs the packet of a datagram and prints it to `std::cout`. Nothing catches what
  that throws: it leaves `ProcessPacket`, `Run` and `main`, and the program is at its end.

  Proved: `dumps_to_first_bad`: over every run of the program the datagrams are printed in order, each
  as if it were the only one, up to the first that cannot be printed, which is the last one.
-/
import OscTap.Ip.Datagrams
import OscTap.Received.Meaning
import OscTap.Received.PacketSize
import OscTap.Received.PrintHistory

namespace OscTap.Demos.OscDump

open OscTap.Lib OscTap.Lib.Out OscTap.Lib.Ostream OscTap.Osc OscTap.Received
open OscTap.Tcp (IpEndpointName fdSetSize)

variable (fmt : Formats)

def processPacket (data : Bytes) (size : Int) (s : Thread) : Out (Received.Exn × Thread) Thread := do
  let _ ← throwing s (ReceivedPacket.mk' 0 size)
  if h : ReceivedPacket.validateSizeNoThrow data.length = none then printPacket fmt ⟨data, h⟩ s else fault .wrap

def processPackets : List (Bytes × Int × IpEndpointName) → Thread → Out (Received.Exn × Thread) Thread
  | [], s => ok s
  | call :: calls, s => do
    let s ← processPacket fmt call.1 call.2.1 s
    processPackets calls s

/-! ## One packet -/

/-- The whole of a packet can be printed. -/
def Sound (data : Bytes) : Prop := SizeOk data.length ∧ Printable data 64 0 data.length

variable {fmt} {data : Bytes}

theorem processPacket_valid (h : ReceivedPacket.validateSizeNoThrow data.length = none) (s : Thread) :
    processPacket fmt data data.length s = printPacket fmt ⟨data, h⟩ s := by
  have hmk : ReceivedPacket.mk' 0 data.length = ok ⟨0, data.length⟩ := by rw [ReceivedPacket.mk', h]
  rw [processPacket, hmk, dif_pos h]
  rfl

/-- Printed without an indentation, the packet leaves this text. -/
def Dumps (fmt : Formats) (data text : Bytes) : Prop := Ends (processPacket fmt data data.length) 0 (.done text)

/-- A sound packet is printed whole; any other throws. -/
theorem processPacket_spec (fmt : Formats) (data : Bytes) :
    (Sound data ∧ ∃ text, Dumps fmt data text) ∨
      (¬ Sound data ∧ ∃ e k text, Ends (processPacket fmt data data.length) 0 (.thrown e k text)) := by
  by_cases hs : SizeOk (data.length : Int)
  · have hvalid := validateSizeNoThrow_none.mpr hs
    obtain ⟨y, hy, hdone⟩ := printPacket_done fmt ⟨data, hvalid⟩
    have hends := hy.congr fun os => processPacket_valid hvalid ⟨0, os⟩
    cases y with
    | done text => exact .inl ⟨⟨hs, hdone.mp trivial⟩, text, hends⟩
    | thrown e k text => exact .inr ⟨fun h => hdone.mpr h.2, e, k, text, hends⟩
  · refine .inr ⟨fun h => hs h.1, ?_⟩
    rcases ReceivedPacket.mk'_eq 0 data.length with ⟨hok, -⟩ | ⟨-, what, hmk⟩
    · exact absurd hok hs
    · exact ⟨_, 0, [], ends_thrown fun os => by rw [processPacket, hmk]; rfl⟩

/-- There is one text. -/
theorem Dumps.unique {text text' : Bytes} (h : Dumps fmt data text) (h' : Dumps fmt data text') : text = text' := by
  obtain ⟨os, he, hw⟩ := h .fresh
  obtain ⟨os', he', hw'⟩ := h' .fresh
  obtain rfl : os = os' := congrArg Thread.os (Out.ok.inj (he.symm.trans he'))
  have htext := (hw fresh_plain).2.symm.trans (hw' fresh_plain).2
  exact List.append_cancel_left htext

/-- What the gate accepts is sound, and is printed as its full read. -/
theorem accepted_dumps (fmt : Formats) (hg : tryValidatePacket data 0 data.length 64 = ok ()) :
    Sound data ∧ ∃ t, readPacket data data.length = ok t ∧ ∀ text, Dumps fmt data text →
      text = t.text data fmt 0 ++ bytesOf "\n" := by
  have hl : 0 + (data.length : Int).toNat ≤ data.length := by simp
  obtain ⟨t, ht, -⟩ := ((tryValidatePacket_decides 64 0 _ hl).iff.mp hg).means hl
  have hvalid := validateSizeNoThrow_none.mpr ht.sizeOk
  obtain ⟨t, hread, hends⟩ := @printPacket_full fmt ⟨data, hvalid⟩ hg
  have hdumps : Dumps fmt data (t.text data fmt 0 ++ bytesOf "\n") :=
    hends.congr fun os => processPacket_valid hvalid ⟨0, os⟩
  refine ⟨?_, t, hread, fun text h => h.unique hdumps⟩
  rcases processPacket_spec fmt data with ⟨hsound, -⟩ | ⟨-, e, k, text, hthrown⟩
  · exact hsound
  · obtain ⟨os, he, -⟩ := hdumps .fresh
    obtain ⟨os', he', -⟩ := hthrown .fresh
    cases he.symm.trans he'

/-! ## The datagrams -/

theorem processPackets_append (fmt : Formats) : ∀ (calls behind : List (Bytes × Int × IpEndpointName)) (s : Thread),
    processPackets fmt (calls ++ behind) s = (processPackets fmt calls s >>= processPackets fmt behind)
  | [], _, _ => rfl
  | call :: calls, behind, s => by
    rw [List.cons_append, processPackets, processPackets]
    cases processPacket fmt call.1 call.2.1 s with
    | ok s => exact processPackets_append fmt calls behind s
    | err e => rfl
    | fault f => rfl

/-! ## The program -/

open Ip.Multiplexer (Event World Moves Possible Inv callsOn delivered)

/-- A step of this program, whose one socket this is: the listener returns from a call whose packet was
    printed, and throws in one that was not, which is the end. -/
def Runs (fmt : Formats) (os : Ostream) (socket : Nat) (e : Event) (w : World) : Prop :=
  Possible e w ∧ w.pc ≠ .leaving (some .listener) ∧
    (e = .returned → ∃ s, processPackets fmt (callsOn w.log socket) ⟨0, os⟩ = ok s) ∧
    (e = .threw → ∀ s, processPackets fmt (callsOn w.log socket) ⟨0, os⟩ ≠ ok s)

def Whole (fmt : Formats) (os : Ostream) (calls : List (Bytes × Int × IpEndpointName)) : Prop :=
  ∃ texts os', List.Forall₂ (fun call text => Dumps fmt call.1 text) calls texts ∧ Wrote os texts.flatten os' ∧
    processPackets fmt calls ⟨0, os⟩ = ok ⟨0, os'⟩

/-- All are, but for one that the listener is in or has thrown in. -/
def Printed (fmt : Formats) (os : Ostream) (calls : List (Bytes × Int × IpEndpointName))
    (pc : Ip.Multiplexer.Pc) : Prop :=
  Whole fmt os calls ∨ ∃ good last, calls = good ++ [last] ∧ Whole fmt os good ∧
    (pc.inCallback = true ∨ (pc = .leaving (some .listener) ∧ ¬ Sound last.1))

variable {os : Ostream} {calls : List (Bytes × Int × IpEndpointName)} {pc : Ip.Multiplexer.Pc}

theorem Printed.whole (h : Printed fmt os calls pc) (hc : pc.inCallback = false)
    (hl : pc ≠ .leaving (some .listener)) : Whole fmt os calls := by
  rcases h with h | ⟨good, last, -, -, h | ⟨h, -⟩⟩
  · exact h
  · rw [hc] at h
    cases h
  · exact absurd h hl

/-- Where no call throws, all are. -/
theorem whole_of_ok : ∀ {calls : List (Bytes × Int × IpEndpointName)} {os : Ostream},
    (∀ call ∈ calls, call.2.1 = call.1.length) →
    (∃ s, processPackets fmt calls ⟨0, os⟩ = ok s) → Whole fmt os calls
  | [], os, _, _ => ⟨[], os, .nil, Wrote.refl os, rfl⟩
  | call :: calls, os, hsize, h => by
    obtain ⟨s, hs⟩ := h
    obtain ⟨hone, hrest⟩ := List.forall_mem_cons.mp hsize
    rw [processPackets, hone] at hs
    rcases processPacket_spec fmt call.1 with ⟨-, text, hdumps⟩ | ⟨-, e, k, part, hends⟩
    · obtain ⟨os₁, he, hw⟩ := hdumps os
      rw [he, ok_bind] at hs
      obtain ⟨texts, os', hall, hw', hok⟩ := whole_of_ok hrest ⟨s, hs⟩
      exact ⟨text :: texts, os', .cons hdumps hall, hw.trans hw', by rw [processPackets, hone, he, ok_bind, hok]⟩
    · obtain ⟨os', he, -⟩ := hends os
      rw [he] at hs
      cases hs

/-- The last call has thrown: its packet is not sound. -/
theorem not_sound {good : List (Bytes × Int × IpEndpointName)} {last : Bytes × Int × IpEndpointName}
    (hgood : Whole fmt os good) (hsize : last.2.1 = last.1.length)
    (h : ∀ s, processPackets fmt (good ++ [last]) ⟨0, os⟩ ≠ ok s) : ¬ Sound last.1 := by
  intro hsound
  obtain ⟨texts, os', -, -, hok⟩ := hgood
  rcases processPacket_spec fmt last.1 with ⟨-, text, hdumps⟩ | ⟨hno, -⟩
  · obtain ⟨os₁, he, -⟩ := hdumps os'
    refine h ⟨0, os₁⟩ ?_
    rw [processPackets_append, hok, ok_bind, processPackets, hsize, he]
    rfl
  · exact hno hsound

theorem delivered_size (taken : List Ip.Multiplexer.Datagram) : ∀ call ∈ delivered taken, call.2.1 = call.1.length := by
  intro call hcall
  obtain ⟨d, -, rfl⟩ := List.mem_map.mp hcall
  rfl

/-- No step leaves a call behind that was not printed. -/
theorem moves_printed {sort : Ip.Timers.StdSort} {socket : Nat} {e : Event} {w w' : World} (hi : Inv w)
    (hr : Runs fmt os socket e w) (hm : Moves sort w e w') (h : Printed fmt os (callsOn w.log socket) w.pc) :
    Printed fmt os (callsOn w'.log socket) w'.pc := by
  obtain ⟨-, hl, hreturned, hthrew⟩ := hr
  obtain ⟨taken, -, hcalls⟩ := hi.served socket
  have hsize := delivered_size taken
  rw [← hcalls] at hsize
  have hquiet : w.pc.inCallback = false → Whole fmt os (callsOn w.log socket) := fun hc => h.whole hc hl
  cases hm with
  | listeners | arrived | failed | broke | asked | wrote => exact h
  | run hpc | setUp hpc | outOfMemory hpc | stopped hpc | tested hpc | selected hpc | retried hpc
  | selectLeft _ hpc | drained hpc | checked hpc | checkLeft hpc | skipped hpc | lookFailed hpc | lookEmpty hpc
  | clock hpc | fired hpc | timersEnded hpc | cleared hpc =>
    exact .inl (hquiet (by rw [hpc]; rfl))
  | packetReturned | timerReturned | timerBroke => exact .inl (whole_of_ok hsize (hreturned rfl))
  | @called _ listener socket' rest d queue hpc =>
    have hwhole := hquiet (by rw [hpc]; rfl)
    let data := d.bytes.take Ip.Multiplexer.maxBufferSize
    let remote := Ip.Multiplexer.remoteName d.fromAddr
    by_cases hs : socket' = socket
    · have happend : callsOn (w.log ++ [⟨listener, socket', data, data.length, remote⟩]) socket =
          callsOn w.log socket ++ [(data, (data.length : Int), remote)] := by simp [callsOn, hs]
      exact .inr ⟨_, _, happend, hwhole, .inl rfl⟩
    · have hsame : callsOn (w.log ++ [⟨listener, socket', data, data.length, remote⟩]) socket =
        callsOn w.log socket := by simp [callsOn, hs]
      exact .inl (hsame ▸ hwhole)
  | threw hc =>
    rcases h with hwhole | ⟨good, last, heq, hgood, -⟩
    · obtain ⟨texts, os', -, -, hok⟩ := hwhole
      exact absurd hok (hthrew rfl _)
    · refine .inr ⟨good, last, heq, hgood, .inr ⟨rfl, not_sound hgood ?_ ?_⟩⟩
      · exact hsize last (by rw [heq]; simp)
      · rw [← heq]
        exact hthrew rfl

/-- In any run of the program: of the datagrams taken from its socket, in order, each has been printed
    whole and as a fresh thread prints it, but for one that is being printed, or that has thrown; and
    that one is not sound. What the gate accepts is sound, and its text is the one of its full read. -/
theorem dumps_to_first_bad (fmt : Formats) (os : Ostream) (sort : Ip.Timers.StdSort) {breakPipe : Nat}
    (hb : breakPipe < fdSetSize) {events : List Event} (hf : ∀ e ∈ events, e.Fits) (socket : Nat)
    (hp : Throughout (World.step sort) (Runs fmt os socket) events (.start breakPipe)) :
    ∃ w taken, runCaught (World.step sort) events (.start breakPipe) = ok w ∧
      w.arrived socket = taken ++ (w.inboxes socket).queue ∧
      Printed fmt os (delivered taken) w.pc ∧
      ∀ call ∈ delivered taken, tryValidatePacket call.1 0 call.1.length 64 = ok () → Sound call.1 ∧
        ∃ t, readPacket call.1 call.1.length = ok t ∧ ∀ text, Dumps fmt call.1 text →
          text = t.text call.1 fmt 0 ++ bytesOf "\n" := by
  have hstart : Printed fmt os (callsOn (World.start breakPipe).log socket) (World.start breakPipe).pc :=
    .inl ⟨[], os, .nil, Wrote.refl os, rfl⟩
  obtain ⟨w, he, hi, hprinted⟩ := hp.caught (I := fun w => Inv w ∧ Printed fmt os (callsOn w.log socket) w.pc)
    (fun e he w hr hw => by
      obtain ⟨w', hstep, hm, hi'⟩ := Ip.Multiplexer.step_inv sort (hf e he) hr.1 hw.1
      exact ⟨w', hstep, hi', moves_printed hw.1 hr hm hw.2⟩) ⟨Ip.Multiplexer.start_inv hb, hstart⟩
  obtain ⟨taken, harrived, hcalls⟩ := hi.served socket
  exact ⟨w, taken, he, harrived, hcalls ▸ hprinted, fun call _ hg => accepted_dumps fmt hg⟩

def oneByte : List Event :=
  [.attachSocketListener 5 0, .arrive 5 ⟨[1], ⟨7, 9001⟩⟩, .run, .setUp 0, .test 0, .select (.ready [5]), .drain,
    .check, .look true, .threw]

def noFormats : Formats := ⟨fun _ => [], fun _ => [], fun _ => none⟩

theorem dumps_to_first_bad_oneByte : ∃ w, runCaught (World.step default) oneByte (.start 3) = ok w ∧
    w.pc = .leaving (some .listener) ∧
    Printed noFormats .fresh [([1], 1, Ip.Multiplexer.remoteName ⟨7, 9001⟩)] w.pc := by
  have hquiet : ∀ {e : Event} {w : World}, Possible e w → w.pc ≠ .leaving (some .listener) →
    e ≠ .returned → e ≠ .threw →
      Runs noFormats .fresh 5 e w := fun hp hl h1 h2 => ⟨hp, hl, fun h => absurd h h1, fun h => absurd h h2⟩
  have hp : Throughout (World.step default) (Runs noFormats .fresh 5) oneByte (.start 3) := by
    refine ⟨hquiet ⟨rfl, by decide⟩ nofun nofun nofun, hquiet trivial nofun nofun nofun, hquiet rfl nofun nofun nofun,
      hquiet rfl nofun nofun nofun, hquiet rfl nofun nofun nofun,
      hquiet ⟨rfl, fun fd => ⟨fun h => ?_, fun h => ?_⟩, nofun⟩ nofun nofun nofun, hquiet rfl nofun nofun nofun,
      hquiet rfl nofun nofun nofun, hquiet ⟨_, _, _, rfl, fun _ => by decide⟩ nofun nofun nofun,
      ⟨rfl, nofun, nofun, fun _ s hs => ?_⟩, trivial⟩
    · obtain rfl := List.mem_singleton.mp h
      decide
    · have hm : fd ∈ [5, 3] := h.1
      simp only [List.mem_cons, List.not_mem_nil, or_false] at hm
      rcases hm with rfl | rfl
      · decide
      · exact absurd h.2.2 (by decide)
    · cases hs
  obtain ⟨w, taken, he, harrived, hprinted, -⟩ := dumps_to_first_bad noFormats .fresh default (by decide)
    (by simp [oneByte, Event.Fits, fdSetSize]) 5 hp
  have hd : (fun w : World => ((w.inboxes 5).queue, w.arrived 5, w.pc)) <$>
    runCaught (World.step default) oneByte (.start 3) =
      ok ([], [⟨[1], ⟨7, 9001⟩⟩], .leaving (some .listener)) := by decide +kernel
  rw [he, map_ok] at hd
  obtain ⟨hqueue, hd⟩ := Prod.mk.inj (Out.ok.inj hd)
  obtain ⟨htaken, hpc⟩ := Prod.mk.inj hd
  rw [hqueue, List.append_nil] at harrived
  obtain rfl := htaken.symm.trans harrived
  exact ⟨w, he, hpc, hprinted⟩

end OscTap.Demos.OscDump
