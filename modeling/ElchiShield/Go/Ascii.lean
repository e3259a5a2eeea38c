import ElchiShield.Go.Strings

/-! # Case on ASCII strings

On ASCII the functions that fold case are byte maps, whatever the Unicode tables say
elsewhere. -/
namespace ElchiShield.Go

theorem isASCII_iff {s : Bytes} : isASCII s = true ↔ ∀ b ∈ s, b < 128 := by
  simp [isASCII, List.all_eq_true]

theorem isASCII_of_subset {s t : Bytes} (h : s ⊆ t) (ht : isASCII t = true) : isASCII s = true :=
  isASCII_iff.mpr fun b hb => isASCII_iff.mp ht b (h hb)

theorem runesFrom_ascii {s : Bytes} (h : isASCII s = true) : runes s = s.map UInt8.toNat := by
  induction s with
  | nil => rfl
  | cons b s ih =>
    have hb : b < 128 := isASCII_iff.mp h b List.mem_cons_self
    have hdec : decodeRune b s = (b.toNat, 0) := by simp [decodeRune, hb]
    have hs : runes s = s.map UInt8.toNat := ih (isASCII_of_subset (List.subset_cons_self b s) h)
    simp only [runes, runesFrom, hdec, List.map_cons, List.cons.injEq, true_and]
    exact hs

/-- A property of bytes is decided by trying all of them. -/
theorem forall_byte {P : UInt8 → Prop} (h : ∀ n : Fin 256, P (UInt8.ofNat n.val)) (b : UInt8) :
    P b := by
  simpa using h ⟨b.toNat, b.toNat_lt⟩

theorem lowerByte_toNat : ∀ b : UInt8, b < 128 → (lowerByte b).toNat = lowerRune b.toNat :=
  forall_byte (by decide +kernel)

theorem lowerByte_lowerByte : ∀ b : UInt8, lowerByte (lowerByte b) = lowerByte b :=
  forall_byte (by decide +kernel)

theorem lowerByte_lt : ∀ b : UInt8, b < 128 → lowerByte b < 128 :=
  forall_byte (by decide +kernel)

/-- The lower-case form of an ASCII string. -/
def lowerASCII (s : Bytes) : Bytes := s.map lowerByte

@[simp] theorem lowerASCII_append (s t : Bytes) :
    lowerASCII (s ++ t) = lowerASCII s ++ lowerASCII t := List.map_append

@[simp] theorem lowerASCII_length (s : Bytes) : (lowerASCII s).length = s.length := List.length_map _

@[simp] theorem lowerASCII_lowerASCII (s : Bytes) : lowerASCII (lowerASCII s) = lowerASCII s := by
  simp [lowerASCII, Function.comp_def, lowerByte_lowerByte]

theorem isASCII_lowerASCII {s : Bytes} (h : isASCII s = true) : isASCII (lowerASCII s) = true := by
  refine isASCII_iff.mpr fun b hb => ?_
  obtain ⟨c, hc, rfl⟩ := List.mem_map.mp hb
  exact lowerByte_lt c (isASCII_iff.mp h c hc)

section
variable [Unicode]

theorem toLower_eq_lowerASCII {s : Bytes} (h : isASCII s = true) : toLower s = lowerASCII s := by
  simp [toLower, h, lowerASCII]

theorem foldRunes_ascii {s : Bytes} (h : isASCII s = true) :
    (runes s).map Unicode.fold = (lowerASCII s).map UInt8.toNat := by
  rw [runesFrom_ascii h, lowerASCII, List.map_map, List.map_map]
  refine List.map_congr_left fun b hb => ?_
  have hlt : b < 128 := isASCII_iff.mp h b hb
  have hfold : Unicode.fold b.toNat = lowerRune b.toNat :=
    Unicode.fold_ascii _ (by simpa using UInt8.lt_iff_toNat_lt.mp hlt)
  simp [hfold, lowerByte_toNat b hlt]

theorem equalFold_iff_lowerASCII {s t : Bytes} (hs : isASCII s = true) (ht : isASCII t = true) :
    equalFold s t = true ↔ lowerASCII s = lowerASCII t := by
  rw [equalFold, foldRunes_ascii hs, foldRunes_ascii ht, beq_iff_eq]
  exact (List.map_injective_iff.mpr fun a b hab => UInt8.toNat_inj.mp hab).eq_iff

end

/-- On ASCII the bytes of blanks are blanks themselves. -/
theorem blank_of_not_solid : ∀ b : UInt8, b < 128 → solid b = false → [b] ∈ spaces :=
  forall_byte (by decide +kernel)

end ElchiShield.Go
