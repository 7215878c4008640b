/-!
# UTF-8 bytes of a text

Texts are compared and joined as bytes; the bytes determine the text (`utf8_inj`). The byte zero comes from the
character zero only (`zero_mem_utf8_iff`).
-/

namespace LockReplica

/-- The UTF-8 bytes of a text. -/
def utf8 (s : String) : List UInt8 := s.toByteArray.data.toList

theorem utf8_inj {s t : String} : utf8 s = utf8 t ↔ s = t := by
  refine ⟨fun h => String.toByteArray_inj.1 (ByteArray.ext (Array.toList_inj.1 h)), fun h => h ▸ rfl⟩

theorem utf8_eq_flatMap (s : String) : utf8 s = s.toList.flatMap String.utf8EncodeChar := by
  have h : s.toByteArray = s.toList.utf8Encode := by rw [← String.toByteArray_ofList, String.ofList_toList]
  rw [utf8, h, List.utf8Encode, List.data_toByteArray]

theorem eq_nul_of_zero_mem_utf8EncodeChar {c : Char} (h : 0 ∈ String.utf8EncodeChar c) : c = '\x00' := by
  have hofNat : ∀ n, 0 = UInt8.ofNat n ↔ n % 256 = 0 := fun n => by
    rw [eq_comm, ← UInt8.toNat_inj]
    rfl
  have hc : c.val.toNat = 0 := by
    simp only [String.utf8EncodeChar] at h
    split at h
    · simp only [List.mem_singleton, hofNat] at h
      omega
    · -- with more than one byte, the first is above 191 and the others are above 127
      split at h
      · simp only [List.mem_cons, List.not_mem_nil, or_false, hofNat] at h
        omega
      · split at h <;> simp only [List.mem_cons, List.not_mem_nil, or_false, hofNat] at h <;> omega
  exact Char.ext (UInt32.toNat_inj.1 hc)

/-- The byte zero stands for the character zero, and is no part of another one. -/
theorem zero_mem_utf8_iff {s : String} : 0 ∈ utf8 s ↔ '\x00' ∈ s.toList := by
  rw [utf8_eq_flatMap, List.mem_flatMap]
  constructor
  · rintro ⟨c, hc, h⟩
    rwa [← eq_nul_of_zero_mem_utf8EncodeChar h]
  · intro h
    exact ⟨_, h, by decide⟩

end LockReplica
