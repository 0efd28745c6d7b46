import LessonScript.Number.System
import LessonScript.Proofs.Canonical

/-! # What numerals are written with

Without the blanks around it, a numeral that says anything is a run of letters, digits and
underscores, points and signs (`isNumeralChar`): so no text with a blank inside is a numeral, and
no numeral begins with a quote. -/

namespace LessonScript

/-- A character that can stand in a numeral: one of a word, a point or a sign. -/
def isNumeralChar (c : Char) : Bool := isWordChar c || c == '.' || c == '+' || c == '-'

theorem isNumeralChar_of_isWordChar {c : Char} (h : isWordChar c = true) :
    isNumeralChar c = true := by
  simp [isNumeralChar, h]

theorem isNumeralChar_of_isDigit {c : Char} (h : c.isDigit = true) : isNumeralChar c = true := by
  refine isNumeralChar_of_isWordChar ?_
  simp [isWordChar, Char.isAlphanum, h]

theorem isBlank_of_isNumeralChar {c : Char} (h : isNumeralChar c = true) : isBlank c = false := by
  simp only [isNumeralChar, Bool.or_eq_true, beq_iff_eq] at h
  rcases h with ((h | rfl) | rfl) | rfl
  · exact isBlank_of_isWordChar h
  · decide
  · decide
  · decide

theorem ne_of_isNumeralChar {c d : Char} (h : isNumeralChar c = true)
    (hd : isNumeralChar d = false) : c ≠ d := by
  rintro rfl
  rw [h] at hd
  cases hd

namespace Numeral

/-- All characters of the text can stand in a numeral. -/
def Spelled (t : Text) : Prop := ∀ c ∈ t, isNumeralChar c = true

theorem Spelled.cons {c : Char} {t : Text} (hc : isNumeralChar c = true) (ht : Spelled t) :
    Spelled (c :: t) := List.forall_mem_cons.mpr ⟨hc, ht⟩

theorem spelled_of_all_isDigit {t : Text} (h : t.all Char.isDigit = true) : Spelled t :=
  fun c hc => isNumeralChar_of_isDigit (List.all_eq_true.mp h c hc)

/-- Digits at the front and a rest that is spelled. -/
theorem spelled_of_digitRun {t : Text} (h : Spelled (digitRun t).2) : Spelled t := by
  have hdigits : Spelled (digitRun t).1 :=
    fun c hc => isNumeralChar_of_isDigit (List.mem_takeWhile_imp hc)
  intro c hc
  rw [← List.takeWhile_append_dropWhile (p := Char.isDigit) (l := t)] at hc
  rcases List.mem_append.mp hc with hc | hc
  · exact hdigits c hc
  · exact h c hc

theorem spelled_of_fraction {t : Text} (h : Spelled (fraction t).2) : Spelled t := by
  unfold fraction at h
  split at h
  · exact (spelled_of_digitRun h).cons (by decide)
  · exact h

theorem spelled_of_powerDigits? {t : Text} {n : Int} (h : powerDigits? t = some n) : Spelled t := by
  unfold powerDigits? at h
  split_ifs at h with ht
  exact spelled_of_all_isDigit ht.2

theorem spelled_of_power? {t : Text} {n : Int} (h : power? t = some n) : Spelled t := by
  unfold power? at h
  split at h
  · exact (spelled_of_powerDigits? h).cons (by decide)
  · obtain ⟨k, hk, -⟩ := Option.map_eq_some_iff.mp h
    exact (spelled_of_powerDigits? hk).cons (by decide)
  · exact spelled_of_powerDigits? h

theorem spelled_of_exponent? {t : Text} {n : Int} (h : exponent? t = some n) : Spelled t := by
  rcases t with _ | ⟨c, t⟩
  · exact fun c hc => absurd hc List.not_mem_nil
  · simp only [exponent?] at h
    split_ifs at h with hc
    have hword : isNumeralChar c = true := by
      rcases hc with rfl | rfl
      · decide
      · decide
    exact (spelled_of_power? h).cons hword

theorem spelled_of_decimal? {negative : Bool} {t : Text} {n : Numeral}
    (h : decimal? negative t = some n) : Spelled t := by
  simp only [decimal?] at h
  split_ifs at h with hne
  obtain ⟨e, he, -⟩ := Option.map_eq_some_iff.mp h
  exact spelled_of_digitRun (spelled_of_fraction (spelled_of_exponent? he))

theorem spelled_of_unsigned? {negative : Bool} {t : Text} {n : Numeral}
    (h : unsigned? negative t = some n) : Spelled t := by
  unfold unsigned? at h
  split_ifs at h with ht
  · have hinf : infinityText.all isNumeralChar = true := by decide
    rw [ht]
    exact List.all_eq_true.mp hinf
  · exact spelled_of_decimal? h

theorem spelled_of_signed? {t : Text} {n : Numeral} (h : signed? t = some n) : Spelled t := by
  unfold signed? at h
  split at h
  · exact (spelled_of_unsigned? h).cons (by decide)
  · exact (spelled_of_unsigned? h).cons (by decide)
  · exact spelled_of_unsigned? h

theorem isNumeralChar_of_isAlpha {c : Char} (h : c.isAlpha = true) : isNumeralChar c = true := by
  refine isNumeralChar_of_isWordChar ?_
  simp only [isWordChar, Char.isAlphanum, h, Bool.true_or]

/-- A digit of any base is a digit or a letter. -/
theorem isNumeralChar_of_digit? {r : Radix} {c : Char} {d : Nat} (h : r.digit? c = some d) :
    isNumeralChar c = true := by
  have hrange : ('0' ≤ c ∧ c ≤ '9') ∨ ('a' ≤ c ∧ c ≤ 'f') ∨ ('A' ≤ c ∧ c ≤ 'F') := by
    simp only [Radix.digit?, Option.filter_eq_some_iff] at h
    obtain ⟨h, -⟩ := h
    split_ifs at h with h₁ h₂ h₃
    · exact .inl h₁
    · exact .inr (.inl h₂)
    · exact .inr (.inr h₃)
  have hf : ('f' : Char) ≤ 'z' := by decide
  have hF : ('F' : Char) ≤ 'Z' := by decide
  rcases hrange with ⟨h₀, h₁⟩ | ⟨h₀, h₁⟩ | ⟨h₀, h₁⟩
  · have hdigit : c.isDigit = true :=
      Bool.and_eq_true_iff.mpr ⟨decide_eq_true h₀, decide_eq_true h₁⟩
    exact isNumeralChar_of_isDigit hdigit
  · have hlower : c.isLower = true :=
      Bool.and_eq_true_iff.mpr ⟨decide_eq_true h₀, decide_eq_true (UInt32.le_trans h₁ hf)⟩
    exact isNumeralChar_of_isAlpha (Bool.or_eq_true_iff.mpr (.inr hlower))
  · have hupper : c.isUpper = true := decide_eq_true ⟨h₀, UInt32.le_trans h₁ hF⟩
    exact isNumeralChar_of_isAlpha (Bool.or_eq_true_iff.mpr (.inl hupper))

theorem spelled_of_mapM_digit? {r : Radix} {t : Text} {ds : List Nat}
    (h : t.mapM r.digit? = some ds) : Spelled t := by
  induction t generalizing ds with
  | nil => exact fun c hc => absurd hc List.not_mem_nil
  | cons c t ih =>
    rw [List.mapM_cons] at h
    obtain ⟨d, hd, h⟩ := Option.bind_eq_some_iff.mp h
    obtain ⟨ds', hds, -⟩ := Option.bind_eq_some_iff.mp h
    exact (ih hds).cons (isNumeralChar_of_digit? hd)

theorem spelled_of_radix? {r : Radix} {t : Text} {n : Numeral} (h : radix? r t = some n) :
    Spelled t := by
  unfold radix? at h
  split_ifs at h with ht
  obtain ⟨ds, hds, -⟩ := Option.map_eq_some_iff.mp h
  exact spelled_of_mapM_digit? hds

theorem isWordChar_of_mark {c : Char} {r : Radix} (h : Radix.ofMark? c = some r) :
    isWordChar c = true := by
  unfold Radix.ofMark? at h
  split_ifs at h with hx ho hb
  · rcases hx with rfl | rfl <;> decide
  · rcases ho with rfl | rfl <;> decide
  · rcases hb with rfl | rfl <;> decide

/-- **A numeral holds nothing but characters of numerals.** -/
theorem spelled_of_ofTrimmed? {t : Text} {n : Numeral} (h : ofTrimmed? t = some n) :
    Spelled t := by
  unfold ofTrimmed? at h
  split at h
  · exact fun c hc => absurd hc List.not_mem_nil
  · split at h
    · next r hr =>
      have hmark := isNumeralChar_of_isWordChar (isWordChar_of_mark hr)
      exact ((spelled_of_radix? h).cons hmark).cons (by decide)
    · exact spelled_of_signed? h
  · exact spelled_of_signed? h

/-- A trimmed text with a blank inside is no numeral. -/
theorem ofText?_of_blank {t : Text} {c : Char} (ht : t.trim = t) (hc : c ∈ t)
    (hb : isBlank c = true) : ofText? t = none := by
  rcases h : ofText? t with _ | n
  · rfl
  · rw [ofText?, ht] at h
    have hn := isBlank_of_isNumeralChar (spelled_of_ofTrimmed? h c hc)
    rw [hb] at hn
    cases hn

end Numeral

/-! ### Number systems that read numerals -/

/-- A text that is no numeral says no number. -/
def ReadsNumerals (ν : Type) [NumberSystem ν] : Prop :=
  ∀ t, Numeral.ofText? t = none → NumberSystem.isFinite (NumberSystem.read t : ν) = false

theorem readsNumerals_float : ReadsNumerals Float := by
  intro t ht
  show Float.isFinite (Binary64.read t) = false
  rw [Binary64.read, ht]
  rfl

end LessonScript
