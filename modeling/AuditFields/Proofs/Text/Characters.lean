import AuditFields.Text.Blank

/-!
# Classes of characters

The characters of names, digits and blanks and the control characters by their numbers, and from that which
classes have nothing in common.
-/

namespace AuditFields.Text

theorem toNat_of_isNameStart {c : Char} (h : isNameStart c = true) :
    (65 ≤ c.toNat ∧ c.toNat ≤ 90) ∨ (97 ≤ c.toNat ∧ c.toNat ≤ 122) ∨ c = '_' := by
  have hcases : (c.isUpper || c.isLower || c == '_') = true := h
  simp only [Bool.or_eq_true, beq_iff_eq] at hcases
  rcases hcases with (hupper | hlower) | hunderscore
  · have hbounds : 'A'.val ≤ c.val ∧ c.val ≤ 'Z'.val := of_decide_eq_true hupper
    exact .inl ⟨UInt32.le_iff_toNat_le.mp hbounds.1, UInt32.le_iff_toNat_le.mp hbounds.2⟩
  · have hbounds : (decide ('a'.val ≤ c.val) && decide (c.val ≤ 'z'.val)) = true := hlower
    rw [Bool.and_eq_true, decide_eq_true_eq, decide_eq_true_eq] at hbounds
    exact .inr (.inl
      ⟨UInt32.le_iff_toNat_le.mp hbounds.1, UInt32.le_iff_toNat_le.mp hbounds.2⟩)
  · exact .inr (.inr hunderscore)

theorem toNat_of_isDigit {c : Char} (h : c.isDigit = true) : 48 ≤ c.toNat ∧ c.toNat ≤ 57 := by
  have hbounds : (decide ('0'.val ≤ c.val) && decide (c.val ≤ '9'.val)) = true := h
  rw [Bool.and_eq_true, decide_eq_true_eq, decide_eq_true_eq] at hbounds
  exact ⟨UInt32.le_iff_toNat_le.mp hbounds.1, UInt32.le_iff_toNat_le.mp hbounds.2⟩

theorem toNat_of_isBlank {c : Char} (h : isBlank c = true) : c.toNat ≤ 0x20 ∨ 0x85 ≤ c.toNat := by
  simp only [isBlank, Bool.or_eq_true, Bool.and_eq_true, decide_eq_true_eq, beq_iff_eq] at h
  omega

theorem toNat_of_isControl {c : Char} (h : isControl c = true) : c.toNat ≤ 0x9F := by
  simp only [isControl, Bool.or_eq_true, Bool.and_eq_true, decide_eq_true_eq] at h
  omega

theorem toNat_of_not_isControl {c : Char} (h : isControl c = false) : 0x20 ≤ c.toNat := by
  simp only [isControl, Bool.or_eq_false_iff, decide_eq_false_iff_not] at h
  omega

theorem isNameStart_eq_false_of_isDigit {c : Char} (h : c.isDigit = true) :
    isNameStart c = false := by
  refine Bool.eq_false_iff.mpr fun hstart => ?_
  have hdigit := toNat_of_isDigit h
  rcases toNat_of_isNameStart hstart with hupper | hlower | rfl
  · omega
  · omega
  · exact absurd hdigit (by decide)

/-! ## Names -/

theorem isNameChar_of_isDigit {c : Char} (h : c.isDigit = true) : isNameChar c = true := by
  simp [isNameChar, Char.isAlphanum, h]

theorem toNat_of_isNameChar {c : Char} (h : isNameChar c = true) :
    0x30 ≤ c.toNat ∧ c.toNat ≤ 0x7A := by
  have hcases : isNameStart c = true ∨ c.isDigit = true := by
    simp only [isNameChar, isNameStart, Char.isAlphanum, Bool.or_eq_true] at h ⊢
    rcases h with (hletter | hdigit) | hunderscore
    · exact .inl (.inl hletter)
    · exact .inr hdigit
    · exact .inl (.inr hunderscore)
  rcases hcases with hstart | hdigit
  · rcases toNat_of_isNameStart hstart with hupper | hlower | rfl
    · omega
    · omega
    · exact ⟨by decide, by decide⟩
  · have := toNat_of_isDigit hdigit
    omega

theorem isBlank_eq_false_of_isNameChar {c : Char} (h : isNameChar c = true) : isBlank c = false := by
  refine Bool.eq_false_iff.mpr fun hblank => ?_
  have := toNat_of_isNameChar h
  have := toNat_of_isBlank hblank
  omega

theorem isNameChar_of_isName {cs : List Char} (h : isName cs = true) :
    ∀ c ∈ cs, isNameChar c = true := by
  cases cs with
  | nil => cases h
  | cons c cs =>
    rw [isName, Bool.and_eq_true, List.all_eq_true] at h
    exact List.forall_mem_cons.mpr ⟨isNameChar_of_isNameStart h.1, h.2⟩

/-! ## Trimming -/

theorem trim_eq_self {cs : List Char} (h : ∀ c ∈ cs, isBlank c = false) : trim cs = cs := by
  have hfront : ∀ ds : List Char, (∀ c ∈ ds, isBlank c = false) → ds.dropWhile isBlank = ds := by
    intro ds hds
    cases ds with
    | nil => rfl
    | cons d ds => rw [List.dropWhile_cons_of_neg (by simp [hds d])]
  have hback : ∀ c ∈ cs.reverse, isBlank c = false := fun c hmem => h c (List.mem_reverse.mp hmem)
  rw [trim, hfront cs h, hfront cs.reverse hback, List.reverse_reverse]

end AuditFields.Text
