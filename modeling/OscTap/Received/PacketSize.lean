/-
  OscTap.Received.PacketSize — the size given to a packet (`ReceivedPacket`'s constructors).

  There are three constructors: of `osc_bundle_element_size_t` (`mk'`), of `std::size_t` and
  of `int64_t`. The two wide ones narrow their argument to 32 bits and validate what is
  left, so a size outside the range of a packet is judged by its low 32 bits: it is refused
  where these happen to be no size of a packet, and taken for that size where they are.

  Proved: `narrowing_exact`, the sizes on which the wide constructors do what the comment of
  the class says (an exception for every larger value); `mk'_exact`, the narrow one always
  does.
-/
import OscTap.Received.Validate

namespace OscTap.Received

open OscTap.Lib OscTap.Lib.Out OscTap.Osc

/-- `(osc_bundle_element_size_t)size`. -/
def toElementSize (size : Int) : Int := int32OfBits (bitsOfInt32 size)

namespace ReceivedPacket

def ofSizeT (contents : Nat) (size : UInt64) : Out Exn ReceivedPacket := mk' contents (toElementSize size.toNat)

def ofInt64 (contents : Nat) (size : Int64) : Out Exn ReceivedPacket := mk' contents (toElementSize size.toInt)

def Refused (x : Out Exn ReceivedPacket) : Prop := ∃ what, x = err (.malformedPacket what)

/-- The construction for a size is refused or has that size, and no size outside the range of
    a packet is taken. -/
def Exact (x : Out Exn ReceivedPacket) (size : Int) : Prop :=
  (Refused x ∨ ∃ p, x = ok p ∧ p.size = size) ∧ (size < 0 ∨ oscBundleElementSizeMax < size → Refused x)

theorem mk'_eq (contents : Nat) (size : Int) :
    (SizeOk size ∧ mk' contents size = ok ⟨contents, size⟩) ∨ (¬ SizeOk size ∧ Refused (mk' contents size)) := by
  rw [mk']
  cases h : validateSizeNoThrow size with
  | none => exact .inl ⟨validateSizeNoThrow_none.mp h, rfl⟩
  | some what => exact .inr ⟨fun hs => by simp [validateSizeNoThrow_none.mpr hs] at h, what, rfl⟩

/-! ## The narrow constructor -/

theorem mk'_exact (contents : Nat) (size : Int) : Exact (mk' contents size) size := by
  rcases mk'_eq contents size with ⟨hs, h⟩ | ⟨-, h⟩
  · refine ⟨.inr ⟨_, h, rfl⟩, fun hr => ?_⟩
    have hmax : (oscBundleElementSizeMax : Int) = 0x7FFFFFFC := rfl
    have := hs.1
    have := hs.2.1
    omega
  · exact ⟨.inl h, fun _ => h⟩

/-! ## The wide constructors -/

theorem toElementSize_eq (size : Int) :
    toElementSize size = if size % 2 ^ 32 < 2 ^ 31 then size % 2 ^ 32 else size % 2 ^ 32 - 2 ^ 32 := by
  have h : ((bitsOfInt32 size : Nat) : Int) = size % 2 ^ 32 := Int.toNat_of_nonneg (by omega)
  rw [toElementSize, int32OfBits]
  split <;> split <;> omega

/-- What is left of a size is no size of a packet. -/
theorem not_sizeOk_toElementSize {size : Int} :
    ¬ SizeOk (toElementSize size) ↔ size % 2 ^ 32 = 0 ∨ size % 4 ≠ 0 ∨ 0x7FFFFFFC < size % 2 ^ 32 := by
  rw [toElementSize_eq, SizeOk]
  split <;> omega

theorem toElementSize_of_range {size : Int} (h : 0 ≤ size ∧ size ≤ oscBundleElementSizeMax) :
    toElementSize size = size := by
  have hmax : (oscBundleElementSizeMax : Int) = 0x7FFFFFFC := rfl
  rw [toElementSize_eq]
  split <;> omega

/-- A size behind the narrowing: in the range of a packet it is judged as it is, outside it
    is refused only where its low 32 bits are. -/
theorem exact_iff (contents : Nat) (size : Int) :
    Exact (mk' contents (toElementSize size)) size ↔
      (0 ≤ size ∧ size ≤ oscBundleElementSizeMax) ∨ size % 2 ^ 32 = 0 ∨ size % 4 ≠ 0 ∨ 0x7FFFFFFC < size % 2 ^ 32 := by
  rw [← not_sizeOk_toElementSize]
  by_cases hr : 0 ≤ size ∧ size ≤ oscBundleElementSizeMax
  · simp only [hr, toElementSize_of_range hr, mk'_exact, and_self, true_or]
  · have hout : size < 0 ∨ oscBundleElementSizeMax < size := by omega
    rcases mk'_eq contents (toElementSize size) with ⟨hs, h⟩ | ⟨hs, h⟩
    · have hnot : ¬ Refused (mk' contents (toElementSize size)) := fun ⟨what, he⟩ => by simp [h] at he
      simp only [hr, hs, not_true, or_self, iff_false]
      exact fun he => hnot (he.2 hout)
    · simp only [hs, not_false_eq_true, or_true, iff_true]
      exact ⟨.inl h, fun _ => h⟩

/-- The comment of the class promises an exception for every size above the largest. The wide
    constructors keep it exactly where the size is in the range of a packet, or its low 32
    bits are zero, not a multiple of four, or above the largest size. -/
theorem narrowing_exact (contents : Nat) :
    (∀ size : UInt64, Exact (ofSizeT contents size) size.toNat ↔
      (size.toNat : Int) ≤ oscBundleElementSizeMax ∨ (size.toNat : Int) % 2 ^ 32 = 0 ∨ (size.toNat : Int) % 4 ≠ 0 ∨
        0x7FFFFFFC < (size.toNat : Int) % 2 ^ 32) ∧
      ∀ size : Int64, Exact (ofInt64 contents size) size.toInt ↔
        (0 ≤ size.toInt ∧ size.toInt ≤ oscBundleElementSizeMax) ∨ size.toInt % 2 ^ 32 = 0 ∨ size.toInt % 4 ≠ 0 ∨
          0x7FFFFFFC < size.toInt % 2 ^ 32 := by
  refine ⟨fun size => ?_, fun size => exact_iff contents size.toInt⟩
  rw [ofSizeT, exact_iff]
  have hpos : (0 : Int) ≤ size.toNat := Int.natCast_nonneg _
  simp only [hpos, true_and]

/-- A size of 2³² + 4 bytes is taken for four, and so is one of 4 − 2³². -/
theorem oversized_is_truncated :
    (ofSizeT 0 0x100000004 = ok ⟨0, 4⟩ ∧ ¬ Exact (ofSizeT 0 0x100000004) 0x100000004) ∧
      ofInt64 0 (-0xFFFFFFFC) = ok ⟨0, 4⟩ ∧ ¬ Exact (ofInt64 0 (-0xFFFFFFFC)) (-0xFFFFFFFC) := by
  have h1 : ofSizeT 0 0x100000004 = ok ⟨0, 4⟩ := by decide
  have h2 : ofInt64 0 (-0xFFFFFFFC) = ok ⟨0, 4⟩ := by decide
  refine ⟨⟨h1, fun h => ?_⟩, h2, fun h => ?_⟩
  · obtain ⟨what, he⟩ := h.2 (.inr (by decide))
    simp [h1] at he
  · obtain ⟨what, he⟩ := h.2 (.inl (by decide))
    simp [h2] at he

end ReceivedPacket
end OscTap.Received
