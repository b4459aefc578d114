/-
  OscTap.Lib.Ostream — an output stream of bytes with formatting flags.

  A formatted insertion (`put`, `putInt`) is padded on the left to the width that was set
  last, and takes that width back; an unformatted one (`write`) is not. Integers are written
  in the base that is set, in hexadecimal over the width of their type, and in decimal where
  no base is set.

  `Wrote os t os'` says of an output from `os` to `os'` that on a plain stream (no width, not
  hexadecimal) it appends `t`, whatever the stream holds, and leaves a plain stream.
-/
import OscTap.Lib.Bytes

namespace OscTap.Lib

def bytesOf (s : String) : Bytes := s.toList.map fun c => c.toNat.toUInt8

/-- `std::ios::basefield`; `unset` is no flag. -/
inductive Base where
  | dec
  | hex
  | unset
  deriving DecidableEq, Repr

structure Ostream where
  text : Bytes
  base : Base
  fill : UInt8
  width : Nat
  deriving DecidableEq, Repr

namespace Ostream

def fresh : Ostream := ⟨[], .dec, 32, 0⟩

def setBase (os : Ostream) (b : Base) : Ostream := { os with base := b }

def setFill (os : Ostream) (c : UInt8) : Ostream := { os with fill := c }

def setW (os : Ostream) (n : Nat) : Ostream := { os with width := n }

def write (os : Ostream) (s : Bytes) : Ostream := { os with text := os.text ++ s }

def put (os : Ostream) (s : Bytes) : Ostream :=
  { os with text := os.text ++ (List.replicate (os.width - s.length) os.fill ++ s), width := 0 }

def digits (radix n : Nat) : Bytes := (Nat.toDigits radix n).map fun c => c.toNat.toUInt8

def decimal (n : Int) : Bytes := if n < 0 then 45 :: digits 10 n.natAbs else digits 10 n.natAbs

/-- An integer of a type of `bits` bits. -/
def putInt (os : Ostream) (bits : Nat) (n : Int) : Ostream :=
  match os.base with
  | .hex => os.put (digits 16 (n % 2 ^ bits).toNat)
  | .dec | .unset => os.put (decimal n)

structure Plain (os : Ostream) : Prop where
  base : os.base ≠ .hex
  width : os.width = 0

theorem fresh_plain : fresh.Plain := ⟨fun h => Base.noConfusion h, rfl⟩

@[simp] theorem setBase_base (os : Ostream) (b : Base) : (os.setBase b).base = b := rfl
@[simp] theorem setBase_width (os : Ostream) (b : Base) : (os.setBase b).width = os.width := rfl
@[simp] theorem setBase_text (os : Ostream) (b : Base) : (os.setBase b).text = os.text := rfl
@[simp] theorem setFill_base (os : Ostream) (c : UInt8) : (os.setFill c).base = os.base := rfl
@[simp] theorem setFill_width (os : Ostream) (c : UInt8) : (os.setFill c).width = os.width := rfl
@[simp] theorem setFill_text (os : Ostream) (c : UInt8) : (os.setFill c).text = os.text := rfl
@[simp] theorem write_width (os : Ostream) (s : Bytes) : (os.write s).width = os.width := rfl
@[simp] theorem write_text (os : Ostream) (s : Bytes) : (os.write s).text = os.text ++ s := rfl

@[simp] theorem write_write (os : Ostream) (s t : Bytes) : (os.write s).write t = os.write (s ++ t) := by
  simp [write]

@[simp] theorem put_of_width {os : Ostream} (h : os.width = 0) (s : Bytes) : os.put s = os.write s := by
  simp [put, write, h]

theorem putInt_of_plain {os : Ostream} (h : os.Plain) (bits : Nat) (n : Int) :
    os.putInt bits n = os.write (decimal n) := by
  unfold putInt
  split
  · rename_i hb
    exact absurd hb h.base
  all_goals exact put_of_width h.width _

/-! ## Two hexadecimal digits -/

def hexByte (n : Nat) : Bytes := List.replicate (2 - (digits 16 n).length) 48 ++ digits 16 n

/-- `std::hex` and `std::setfill('0')` are set, and no width. -/
structure Hexadecimal (os : Ostream) : Prop where
  base : os.base = .hex
  fill : os.fill = 48
  width : os.width = 0

theorem Hexadecimal.write {os : Ostream} (h : os.Hexadecimal) (s : Bytes) : (os.write s).Hexadecimal :=
  ⟨h.base, h.fill, h.width⟩

/-- `std::setw(2)` and an `int` that is a byte. -/
def putHexByte (os : Ostream) (n : Nat) : Ostream := (os.setW 2).putInt 32 n

theorem putHexByte_eq {os : Ostream} (h : os.Hexadecimal) {n : Nat} (hn : n < 2 ^ 32) :
    os.putHexByte n = os.write (hexByte n) := by
  obtain ⟨text, base, fill, width⟩ := os
  obtain ⟨rfl, rfl, rfl⟩ := h
  have hmod : ((n : Int) % 2 ^ 32).toNat = n := by omega
  simp only [putHexByte, setW, putInt, put, hexByte, Ostream.write, hmod]

/-! ## What is written -/

def Wrote (os : Ostream) (t : Bytes) (os' : Ostream) : Prop := os.Plain → os'.Plain ∧ os'.text = os.text ++ t

theorem Wrote.refl (os : Ostream) : Wrote os [] os := fun h => ⟨h, (List.append_nil _).symm⟩

theorem Wrote.trans {a b c : Ostream} {t u : Bytes} (h : Wrote a t b) (h' : Wrote b u c) : Wrote a (t ++ u) c := by
  intro ha
  obtain ⟨hb, htext⟩ := h ha
  obtain ⟨hc, htext'⟩ := h' hb
  exact ⟨hc, by rw [htext', htext, List.append_assoc]⟩

theorem wrote_write (os : Ostream) (s : Bytes) : Wrote os s (os.write s) := fun h => ⟨⟨h.base, h.width⟩, rfl⟩

theorem wrote_put (os : Ostream) (s : Bytes) : Wrote os s (os.put s) := by
  intro h
  rw [put_of_width h.width]
  exact wrote_write os s h

theorem wrote_putInt (os : Ostream) (bits : Nat) (n : Int) : Wrote os (decimal n) (os.putInt bits n) := by
  intro h
  rw [putInt_of_plain h]
  exact wrote_write os _ h

theorem Wrote.put {os os' : Ostream} {t : Bytes} (h : Wrote os t os') (s : Bytes) : Wrote os (t ++ s) (os'.put s) :=
  h.trans (wrote_put os' s)

theorem Wrote.putInt {os os' : Ostream} {t : Bytes} (h : Wrote os t os') (bits : Nat) (n : Int) :
    Wrote os (t ++ decimal n) (os'.putInt bits n) := h.trans (wrote_putInt os' bits n)

/-- Back from hexadecimal. -/
theorem wrote_of_hexadecimal {os os' : Ostream} {t : Bytes} (h : os.Plain → os'.Hexadecimal ∧ os'.text = os.text ++ t)
    (c : UInt8) : Wrote os t ((os'.setFill c).setBase .unset) := by
  intro hp
  obtain ⟨hx, htext⟩ := h hp
  exact ⟨⟨by simp, hx.width⟩, htext⟩

end Ostream
end OscTap.Lib
