/-
  OscTap.Received.Printing — what the printer writes (see `OscTap.Received.Print`).

  The printer and the full read walk a packet by the same steps. `Prints f t` says that an
  output ends and writes `t`; where the read returns a value, the printer prints its text.
-/
import OscTap.Received.Print
import OscTap.Received.ReadSafety

namespace OscTap.Received

open OscTap.Lib OscTap.Lib.Out OscTap.Osc OscTap.Lib.Ostream

/-- The output ends, and on a plain stream writes `t`. -/
def Prints (f : Ostream → Out Exn Ostream) (t : Bytes) : Prop := ∀ os, ∃ os', f os = ok os' ∧ Wrote os t os'

variable {m : Bytes} {fmt : Formats}

/-! ## Words and blobs -/

theorem byteAt_lt (v : UInt32) (shift : Nat) : byteAt v shift < 2 ^ 32 := by
  have : byteAt v shift < 256 := Nat.mod_lt _ (by decide)
  omega

/-- A plain stream that is set to hexadecimal. -/
theorem hexadecimal_of_plain {os : Ostream} (h : os.Plain) (s : Bytes) :
    (((os.write s).setBase .hex).setFill (ch '0')).Hexadecimal := ⟨rfl, rfl, h.width⟩

theorem printRgbaColor_wrote (v : UInt32) (os : Ostream) :
    Wrote os (bytesOf "RGBA:0x" ++ rgbaText v) (printRgbaColor v os) := by
  refine wrote_of_hexadecimal (fun h => ?_) _
  have hx := hexadecimal_of_plain h (bytesOf "RGBA:0x")
  rw [put_of_width h.width, putHexByte_eq hx (byteAt_lt v 24), putHexByte_eq (hx.write _) (byteAt_lt v 16),
    putHexByte_eq ((hx.write _).write _) (byteAt_lt v 8),
    putHexByte_eq (((hx.write _).write _).write _) (byteAt_lt v 0)]
  exact ⟨(((hx.write _).write _).write _).write _, by simp [rgbaText]⟩

/-- A text and two digits. -/
theorem put_putHexByte {os : Ostream} (h : os.Hexadecimal) (s : Bytes) {n : Nat} (hn : n < 2 ^ 32) :
    (os.put s).putHexByte n = os.write (s ++ hexByte n) := by
  rw [put_of_width h.width, putHexByte_eq (h.write s) hn, write_write]

theorem printMidiMessage_wrote (v : UInt32) (os : Ostream) :
    Wrote os (bytesOf "midi (port, status, data1, data2):<<" ++ midiText v ++ bytesOf ">>")
      (printMidiMessage v os) := by
  intro h
  have hx := hexadecimal_of_plain h (bytesOf "midi (port, status, data1, data2):<<")
  rw [printMidiMessage, put_of_width h.width, put_putHexByte hx _ (byteAt_lt v 24),
    put_putHexByte (hx.write _) _ (byteAt_lt v 16), put_putHexByte ((hx.write _).write _) _ (byteAt_lt v 8),
    put_putHexByte (((hx.write _).write _).write _) _ (byteAt_lt v 0)]
  exact ⟨⟨by simp [put], rfl⟩, by simp [h.width, midiText]⟩

theorem printTimeTag_wrote (v : UInt64) (os : Ostream) :
    Wrote os (bytesOf "OSC-timetag:" ++ decimal v.toNat ++ bytesOf " " ++ timeText fmt v) (printTimeTag fmt v os) := by
  have hhead := ((wrote_put os (bytesOf "OSC-timetag:")).putInt 64 v.toNat).put (bytesOf " ")
  rw [printTimeTag, timeText]
  cases fmt.ctime (v >>> 32) with
  | none => simpa using hhead
  | some s =>
    by_cases hs : 1 < s.length
    · simpa [hs] using hhead.trans (wrote_write _ _)
    · have hnone : s.take (s.length - 1) = [] := by
        rw [show s.length - 1 = 0 by omega, List.take_zero]
      simpa [hs, hnone] using hhead

/-- The loop over a blob: what is left of it is printed. -/
theorem printBlobBytes_eq {data size : Nat} (hd : size = 0 ∨ data + size ≤ m.length) :
    ∀ (n i : Nat) {os : Ostream}, size - i = n →
    os.Hexadecimal → printBlobBytes m data size i os = ok (os.write (blobText (slice m (data + i) (data + size)))) := by
  intro n
  induction n with
  | zero =>
    intro i os hn hx
    have hempty : slice m (data + i) (data + size) = [] := by
      have : data + size - (data + i) = 0 := by omega
      simp [slice, this]
    rw [printBlobBytes, if_neg (by omega), hempty]
    simp [blobText, Ostream.write]
  | succ n ih =>
    intro i os hn hx
    have hlt : data + i < m.length := by omega
    have hbyte : (m[data + i] : UInt8).toNat < 2 ^ 32 := Nat.lt_of_lt_of_le (UInt8.toNat_lt _) (by decide)
    have hsplit : slice m (data + i) (data + size) = m[data + i] :: slice m (data + (i + 1)) (data + size) := by
      have h1 : slice m (data + i) (data + (i + 1)) = [m[data + i]] := by
        rw [slice, show data + (i + 1) - (data + i) = 1 by omega, List.drop_eq_getElem_cons hlt]
        rfl
      rw [slice_split m (show data + i ≤ data + (i + 1) by omega) (by omega), h1]
      rfl
    rw [printBlobBytes, if_pos (by omega), rd_of_lt hlt, ok_bind]
    dsimp only
    rw [put_putHexByte hx _ hbyte, hsplit]
    by_cases hlast : i = size - 1
    · have hempty : slice m (data + (i + 1)) (data + size) = [] := by
        have : data + size - (data + (i + 1)) = 0 := by omega
        simp [slice, this]
      rw [if_neg (by simpa using hlast), ih (i + 1) (by omega) (hx.write _), hempty]
      simp [blobText]
    · obtain ⟨b, bs, hbs⟩ : ∃ b bs, slice m (data + (i + 1)) (data + size) = b :: bs := by
        refine List.exists_cons_of_length_pos ?_
        rw [length_slice (by omega)]
        omega
      rw [if_pos hlast, put_of_width (hx.write _).width, ih (i + 1) (by omega) ((hx.write _).write _), hbs]
      simp [blobText]

theorem printBlob_prints {blob : Nat × Int} (hd : blob.2.toNat = 0 ∨ blob.1 + blob.2.toNat ≤ m.length) :
    Prints (printBlob m blob) (bytesOf "OSC-blob:<<" ++
      blobText (slice m blob.1 (blob.1 + blob.2.toNat)) ++ bytesOf ">>") := by
  intro os
  have hx : (((os.put (bytesOf "OSC-blob:<<")).setBase .hex).setFill (ch '0')).Hexadecimal := ⟨rfl, rfl, rfl⟩
  have hloop := printBlobBytes_eq hd (blob.2.toNat - 0) 0 rfl hx
  rw [printBlob, hloop, ok_bind]
  exact ⟨_, rfl, fun h => ⟨⟨by simp [put], rfl⟩, by simp [put, h.width, Ostream.write]⟩⟩

/-! ## Arguments -/

theorem asBlobUnchecked_range {a : ReceivedMessageArgument} {blob : Nat × Int} (h : a.asBlobUnchecked m = ok blob) :
    -2 ^ 31 ≤ blob.2 ∧ blob.2 < 2 ^ 31 := by
  rw [ReceivedMessageArgument.asBlobUnchecked] at h
  obtain ⟨size, -, h⟩ := bind_eq_ok.mp h
  obtain ⟨p, -, h⟩ := bind_eq_ok.mp h
  obtain rfl := Out.ok.inj h
  have hlt : size.toNat < 2 ^ 32 := size.toNat_lt
  simp only [int32OfBits]
  split <;> omega

/-- A blob that can be read over its size has no negative one. -/
theorem readBlob_eq {blob : Nat × Int} {data : Bytes} (hm : m.length < 2 ^ 31) (hr : -2 ^ 31 ≤ blob.2 ∧ blob.2 < 2 ^ 31)
    (h : readBlob m blob = ok data) :
    (blob.2.toNat = 0 ∨ blob.1 + blob.2.toNat ≤ m.length) ∧ data = slice m blob.1 (blob.1 + blob.2.toNat) := by
  rw [readBlob, rdBytes] at h
  split at h
  · rename_i hin
    have hn : (blob.2 % 2 ^ 64).toNat = blob.2.toNat := by omega
    rw [hn] at hin h
    exact ⟨hin, (Out.ok.inj h).symm⟩
  · cases h

variable (fmt) in
/-- Where the read of an argument returns a value, the printer prints its text. -/
theorem printArgument_prints {a : ReceivedMessageArgument} {v : ArgValue} (hm : m.length < 2 ^ 31)
    (h : readUnchecked m a = ok v) : Prints (printArgument m fmt a) (valueText fmt v) := by
  rw [readUnchecked] at h
  obtain ⟨c, hc, h⟩ := bind_eq_ok.mp h
  intro os
  rw [printArgument, hc, ok_bind]
  cases ht : TypeTag.ofByte c with
  | none => simp [ht] at h
  | some t =>
    rw [ht] at h
    cases t
    case trueTag | falseTag =>
      obtain ⟨b, hb, rfl⟩ := map_eq_ok.mp h
      rw [ReceivedMessageArgument.asBoolUnchecked, hc] at hb
      obtain rfl := Out.ok.inj hb
      rw [TypeTag.ofByte_eq_some.mp ht]
      exact ⟨_, rfl, wrote_put os _⟩
    case nilTag | infinitumTag | arrayBeginTag | arrayEndTag =>
      obtain rfl := Out.ok.inj h
      exact ⟨_, rfl, wrote_put os _⟩
    case int32Tag =>
      obtain ⟨w, hw, rfl⟩ := map_eq_ok.mp h
      exact ⟨_, by simp [hw], (wrote_put os _).putInt 32 _⟩
    case int64Tag =>
      obtain ⟨w, hw, rfl⟩ := map_eq_ok.mp h
      exact ⟨_, by simp [hw], (wrote_put os _).putInt 64 _⟩
    case floatTag | doubleTag =>
      obtain ⟨w, hw, rfl⟩ := map_eq_ok.mp h
      exact ⟨_, by simp [hw], (wrote_put os _).put _⟩
    case charTag =>
      obtain ⟨w, hw, rfl⟩ := map_eq_ok.mp h
      exact ⟨_, by simp [hw], ((wrote_put os _).put _).put _⟩
    case rgbaColorTag =>
      obtain ⟨w, hw, rfl⟩ := map_eq_ok.mp h
      exact ⟨_, by simp [hw], printRgbaColor_wrote w os⟩
    case midiMessageTag =>
      obtain ⟨w, hw, rfl⟩ := map_eq_ok.mp h
      exact ⟨_, by simp [hw], printMidiMessage_wrote w os⟩
    case timeTagTag =>
      obtain ⟨w, hw, rfl⟩ := map_eq_ok.mp h
      exact ⟨_, by simp [hw], printTimeTag_wrote w os⟩
    case stringTag | symbolTag =>
      obtain ⟨s, hs, rfl⟩ := map_eq_ok.mp h
      exact ⟨_, by simp [printString, hs], ((wrote_put os _).put _).put _⟩
    case blobTag =>
      obtain ⟨blob, hb, h⟩ := bind_eq_ok.mp h
      obtain ⟨data, hdata, rfl⟩ := map_eq_ok.mp h
      obtain ⟨hd, rfl⟩ := readBlob_eq hm (asBlobUnchecked_range hb) hdata
      obtain ⟨os', hp, hw⟩ := printBlob_prints hd os
      exact ⟨os', by simp [hb, hp], hw⟩

/-! ## Messages -/

variable (fmt) in
/-- The loop over the arguments prints what a walk reads. -/
theorem printArguments_prints (hm : m.length < 2 ^ 31) {end_ : ReceivedMessageArgument} : ∀ (n : Nat) (first : Bool)
    {it last : ReceivedMessageArgument} {visits : List (ReceivedMessageArgument × ArgValue)},
    walkArguments m (readUnchecked m) end_ n it = ok (visits, last) →
    Prints (printArguments m fmt end_ n first it) (argumentsText fmt first (visits.map Prod.snd)) := by
  intro n
  induction n with
  | zero =>
    intro first it last visits h os
    rw [walkArguments] at h
    by_cases he : it.typeTagPtr = end_.typeTagPtr
    · rw [if_pos he] at h
      obtain ⟨rfl, -⟩ := Prod.mk.inj (Out.ok.inj h)
      exact ⟨os, by rw [printArguments, if_pos he], Wrote.refl os⟩
    · rw [if_neg he] at h
      cases h
  | succ n ih =>
    intro first it last visits h os
    rw [walkArguments] at h
    by_cases he : it.typeTagPtr = end_.typeTagPtr
    · rw [if_pos he] at h
      obtain ⟨rfl, -⟩ := Prod.mk.inj (Out.ok.inj h)
      exact ⟨os, by rw [printArguments, if_pos he], Wrote.refl os⟩
    · rw [if_neg he] at h
      obtain ⟨v, hv, h⟩ := bind_eq_ok.mp h
      obtain ⟨next, hnext, h⟩ := bind_eq_ok.mp h
      obtain ⟨⟨rest, last'⟩, hrest, h⟩ := bind_eq_ok.mp h
      obtain ⟨rfl, -⟩ := Prod.mk.inj (Out.ok.inj h)
      obtain ⟨os₁, h1, hw1⟩ := printArgument_prints fmt hm hv (os.put (bytesOf (if first then " " else ", ")))
      obtain ⟨os₂, h2, hw2⟩ := ih false hrest os₁
      refine ⟨os₂, ?_, ((wrote_put os _).trans hw1).trans hw2⟩
      rw [printArguments, if_neg he]
      dsimp only
      rw [h1, ok_bind, hnext, ok_bind, h2]

theorem CStrAt.takeWhile_eq {p : Nat} {s : Bytes} (h : CStrAt m p s) : (m.drop p).takeWhile (· ≠ 0) = s := by
  induction h with
  | nil h0 =>
    obtain ⟨hl, hv⟩ := List.getElem?_eq_some_iff.mp h0
    simp [List.drop_eq_getElem_cons hl, hv]
  | cons hc hne _ ih =>
    obtain ⟨hl, hv⟩ := List.getElem?_eq_some_iff.mp hc
    simpa [List.drop_eq_getElem_cons hl, hv, hne] using ih

theorem printAddress_prints {p q : Nat} (hq : q ≤ m.length) (h : IsStr4 m p q) :
    Prints (printAddress m p) (addressText m p) := by
  intro os
  obtain ⟨s, hs, -⟩ := IsStr4.exists_cstr h
  have hal := h.aligned
  have hlt := h.lt
  have hp : m[p]? = some m[p] := List.getElem?_eq_getElem (by omega)
  rw [printAddress, addressText, rd_of_some hp, ok_bind]
  by_cases h0 : m[p] = 0
  · rw [if_pos h0, if_pos (by rw [hp, h0]), rd32_of_le (by omega), ok_bind]
    exact ⟨_, rfl, wrote_putInt os 32 _⟩
  · have hne : ¬ m[p]? = some 0 := fun he => h0 (Option.some.inj (hp.symm.trans he))
    rw [if_neg h0, if_neg hne, hs.rdCString_eq, ok_bind, CStrAt.takeWhile_eq hs]
    exact ⟨_, rfl, wrote_put os s⟩

variable (fmt) in
/-- Every message that is parsed can be walked, and is printed as it is read. -/
theorem printMessage_prints {p : Nat} {size : Int} {r : ReceivedMessage} (hm : m.length < 2 ^ 31)
    (hl : p + size.toNat ≤ m.length) (h : ReceivedMessage.tryInit m p size = ok r) :
    ∃ visits last, walkArguments m (readUnchecked m) r.argumentsEnd m.length r.argumentsBegin = ok (visits, last) ∧
      Prints (printMessage m fmt r) (messageText m fmt r (visits.map Prod.snd)) := by
  obtain ⟨hs, hsize, hmsg⟩ := (ReceivedMessage.tryInit_decides hl).iff.mp h
  obtain ⟨visits, last, hwalk, -⟩ := readMessage_in_step hl hs hsize hmsg
  obtain ⟨a, ha, hstr, hp, -⟩ := hmsg
  refine ⟨visits, last, hwalk, fun os => ?_⟩
  obtain ⟨os₁, h1, hw1⟩ := printAddress_prints (by omega) hstr (os.put (bytesOf "["))
  obtain ⟨os₂, h2, hw2⟩ := printArguments_prints fmt hm m.length true hwalk os₁
  refine ⟨os₂.put (bytesOf "]"), ?_, ?_⟩
  · rw [printMessage, hp, h1, ok_bind, h2, ok_bind]
  · rw [messageText, hp]
    exact (((wrote_put os _).trans hw1).trans hw2).put _

end OscTap.Received
