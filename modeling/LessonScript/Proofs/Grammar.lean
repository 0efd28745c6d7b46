import LessonScript.Expression
import LessonScript.Proofs.Patterns

/-! # The grammar of numerals

What a numeral is, said without a word on how it is read: `IsNumeral` puts it together from digits,
mantissas (`Mantissa`), powers of ten (`Power`) and signs, and `Says` gives a decimal its exact
value. A text is read as a number exactly if it is a numeral (`isSome_ofTrimmed?`), since no numeral
has a value that is not a number (`isNaN_toFloat`).

Main statement: `read_accepts_grammar`. -/

namespace LessonScript

theorem ne_of_isDigit {c d : Char} (h : c.isDigit = true) (hd : d.isDigit = false) : c ≠ d := by
  rintro rfl
  rw [h] at hd
  cases hd

namespace Numeral

/-! ### Decimals -/

/-- Every character is an ASCII digit. -/
def Digits (t : Text) : Prop := ∀ c ∈ t, c.isDigit = true

theorem Digits.append {s t : Text} (hs : Digits s) (ht : Digits t) : Digits (s ++ t) :=
  List.forall_mem_append.mpr ⟨hs, ht⟩

/-- **A mantissa** with its digits before and after the point: digits and perhaps a point at their
end or among them, or a point and digits. -/
inductive Mantissa : Text → Text → Text → Prop
  | plain {whole : Text} (hw : Digits whole) (hne : whole ≠ []) : Mantissa whole [] whole
  | pointed {whole frac : Text} (hw : Digits whole) (hne : whole ≠ []) (hf : Digits frac) :
    Mantissa whole frac (whole ++ '.' :: frac)
  | fraction {frac : Text} (hf : Digits frac) (hne : frac ≠ []) : Mantissa [] frac ('.' :: frac)

/-- **A power of ten** with its exponent: nothing, or a mark, a sign or none, and digits. -/
inductive Power : Int → Text → Prop
  | none : Power 0 []
  | plain {c : Char} {t : Text} (hc : c = 'e' ∨ c = 'E') (ht : Digits t) (hne : t ≠ []) :
    Power (Nat.ofDigitChars 10 t 0) (c :: t)
  | positive {c : Char} {t : Text} (hc : c = 'e' ∨ c = 'E') (ht : Digits t) (hne : t ≠ []) :
    Power (Nat.ofDigitChars 10 t 0) (c :: '+' :: t)
  | negative {c : Char} {t : Text} (hc : c = 'e' ∨ c = 'E') (ht : Digits t) (hne : t ≠ []) :
    Power (-(Nat.ofDigitChars 10 t 0 : Nat)) (c :: '-' :: t)

/-- **The exact value of a decimal**: a mantissa and a power of ten. -/
inductive Says : Text → ℚ → Prop
  | intro {whole frac m p : Text} {n : Int} (hm : Mantissa whole frac m) (hp : Power n p) :
    Says (m ++ p) (Nat.ofDigitChars 10 (whole ++ frac) 0 * (10 : ℚ) ^ (n - frac.length))

/-- The text is a decimal without a sign. -/
def IsDecimal (t : Text) : Prop := ∃ q, Says t q

theorem digitRun_append {w t : Text} (hw : Digits w) (ht : ∀ c ∈ t.head?, c.isDigit = false) :
    digitRun (w ++ t) = (w, t) := by
  have hstart : t.takeWhile Char.isDigit = [] ∧ t.dropWhile Char.isDigit = t := by
    rcases t with _ | ⟨c, t⟩
    · exact ⟨rfl, rfl⟩
    · have hc : ¬ c.isDigit = true := by simp [ht c rfl]
      exact ⟨List.takeWhile_cons_of_neg hc, List.dropWhile_cons_of_neg hc⟩
  rw [digitRun, List.takeWhile_append_of_pos hw, List.dropWhile_append_of_pos hw, hstart.1, hstart.2,
    List.append_nil]

theorem digitRun_spec (t : Text) : Digits (digitRun t).1 ∧ (digitRun t).1 ++ (digitRun t).2 = t :=
  ⟨fun _ hc => List.mem_takeWhile_imp hc, List.takeWhile_append_dropWhile⟩

/-! ### Powers of ten -/

section Exponents

variable {t p : Text} {n : Int}

theorem Power.head? (hp : Power n p) : ∀ c ∈ p.head?, c = 'e' ∨ c = 'E' := by
  intro c h
  cases hp with
  | none => cases h
  | plain hc | positive hc | negative hc =>
    obtain rfl := Option.some.inj h
    exact hc

theorem Power.head?_isDigit (hp : Power n p) : ∀ c ∈ p.head?, c.isDigit = false := by
  intro c h
  rcases hp.head? c h with rfl | rfl <;> rfl

/-- No prefix of a number below the cap comes up to the cap. -/
theorem foldl_capped_of_lt {n : Nat} (h : Nat.ofDigitChars 10 t n < exponentCap) :
    t.foldl (fun n c => if n < exponentCap then 10 * n + (c.toNat - '0'.toNat) else n) n =
      Nat.ofDigitChars 10 t n := by
  induction t generalizing n with
  | nil => exact Nat.ofDigitChars_nil.symm
  | cons c t ih =>
    rw [Nat.ofDigitChars_cons] at h ⊢
    have hn : n < exponentCap := by
      rw [Nat.ofDigitChars_eq_ofDigitChars_zero] at h
      have hpow : 1 ≤ 10 ^ t.length := Nat.one_le_pow _ _ (by decide)
      have hle := Nat.mul_le_mul_right (10 * n + (c.toNat - '0'.toNat)) hpow
      omega
    rw [List.foldl_cons, if_pos hn]
    exact ih h

/-- An exponent below the cap is read as it is. -/
theorem cappedValue_of_lt (h : Nat.ofDigitChars 10 t 0 < exponentCap) :
    cappedValue t = Nat.ofDigitChars 10 t 0 := foldl_capped_of_lt h

theorem powerDigits?_of_digits (ht : Digits t) (hne : t ≠ []) :
    powerDigits? t = some (cappedValue t : Int) := by
  rw [powerDigits?, if_pos ⟨hne, List.all_eq_true.mpr ht⟩]

theorem digits_of_powerDigits? (h : powerDigits? t = some n) : Digits t ∧ t ≠ [] := by
  unfold powerDigits? at h
  split_ifs at h with ht
  exact ⟨List.all_eq_true.mp ht.2, ht.1⟩

/-- Digits are no sign. -/
theorem power?_of_digits (ht : Digits t) (hne : t ≠ []) : power? t = some (cappedValue t : Int) := by
  unfold power?
  split
  · exact absurd (ht '+' List.mem_cons_self) (by decide)
  · exact absurd (ht '-' List.mem_cons_self) (by decide)
  · exact powerDigits?_of_digits ht hne

/-- A power of ten is read, and its exponent is what it says unless that is very large. -/
theorem Power.exponent? (hp : Power n p) :
    ∃ e, Numeral.exponent? p = some e ∧ (n.natAbs < exponentCap → e = n) := by
  have hcap : ∀ {t : Text}, Nat.ofDigitChars 10 t 0 < exponentCap →
      (cappedValue t : Int) = Nat.ofDigitChars 10 t 0 := fun h => by rw [cappedValue_of_lt h]
  cases hp with
  | none => exact ⟨0, rfl, fun _ => rfl⟩
  | plain hc ht hne =>
    refine ⟨_, (if_pos hc).trans (power?_of_digits ht hne), fun h => hcap ?_⟩
    simpa using h
  | positive hc ht hne =>
    refine ⟨_, (if_pos hc).trans (powerDigits?_of_digits ht hne), fun h => hcap ?_⟩
    simpa using h
  | negative hc ht hne =>
    have hneg := congrArg (Option.map fun n : Int => -n) (powerDigits?_of_digits ht hne)
    refine ⟨_, (if_pos hc).trans hneg, fun h => ?_⟩
    rw [hcap (by simpa using h)]

theorem power_of_exponent? (h : Numeral.exponent? p = some n) : ∃ n', Power n' p := by
  rcases p with _ | ⟨c, p⟩
  · exact ⟨0, .none⟩
  simp only [Numeral.exponent?] at h
  split_ifs at h with hc
  unfold power? at h
  split at h
  · obtain ⟨ht, hne⟩ := digits_of_powerDigits? h
    exact ⟨_, .positive hc ht hne⟩
  · obtain ⟨k, hk, -⟩ := Option.map_eq_some_iff.mp h
    obtain ⟨ht, hne⟩ := digits_of_powerDigits? hk
    exact ⟨_, .negative hc ht hne⟩
  · obtain ⟨ht, hne⟩ := digits_of_powerDigits? h
    exact ⟨_, .plain hc ht hne⟩

theorem Power.unique {n' : Int} (h : Power n p) (h' : Power n' p) : n = n' := by
  have hsign : ∀ {c : Char} {u : Text}, Digits (c :: u) → c.isDigit = true :=
    fun hd => hd _ List.mem_cons_self
  cases h with
  | none => cases h'; rfl
  | plain _ ht =>
    cases h' with
    | plain => rfl
    | positive | negative => cases hsign ht
  | positive =>
    cases h' with
    | plain _ ht => cases hsign ht
    | positive => rfl
  | negative =>
    cases h' with
    | plain _ ht => cases hsign ht
    | negative => rfl

end Exponents

/-! ### Decimals are read -/

section Decimals

variable {whole frac m p t : Text} {n : Int} (negative : Bool)

theorem decimal?_of_runs {rest rest' : Text} (hrun : digitRun t = (whole, rest))
    (hfrac : Numeral.fraction rest = (frac, rest')) (hne : whole ++ frac ≠ []) :
    decimal? negative t = (Numeral.exponent? rest').map fun e =>
      .decimal negative (Text.digitsValue (whole ++ frac)) (e - frac.length) := by
  simp only [decimal?, hrun, hfrac, if_neg hne]

/-- The runs of digits that are cut off a decimal are those of its mantissa. -/
theorem runs_append (hm : Mantissa whole frac m) (hp : Power n p) :
    ∃ rest, digitRun (m ++ p) = (whole, rest) ∧ Numeral.fraction rest = (frac, p) ∧
      whole ++ frac ≠ [] := by
  have hpoint : ∀ {f : Text}, Digits f → Numeral.fraction ('.' :: (f ++ p)) = (f, p) :=
    fun hf => digitRun_append hf hp.head?_isDigit
  have hstop : ∀ {u : Text}, ∀ c ∈ ('.' :: u).head?, c.isDigit = false := by
    rintro u c h
    obtain rfl := Option.some.inj h
    rfl
  cases hm with
  | plain hw hne =>
    refine ⟨p, digitRun_append hw hp.head?_isDigit, ?_, by simpa using hne⟩
    unfold Numeral.fraction
    split
    · rcases hp.head? '.' rfl with h | h <;> cases h
    · rfl
  | pointed hw hne hf =>
    rw [List.append_assoc, List.cons_append]
    exact ⟨_, digitRun_append hw hstop, hpoint hf, by simp [hne]⟩
  | fraction hf hne =>
    exact ⟨_, digitRun_append (List.forall_mem_nil _) hstop, hpoint hf, by simpa using hne⟩

theorem decimal?_append (hm : Mantissa whole frac m) (hp : Power n p) :
    decimal? negative (m ++ p) = (Numeral.exponent? p).map fun e =>
      .decimal negative (Nat.ofDigitChars 10 (whole ++ frac) 0) (e - frac.length) := by
  obtain ⟨rest, hrun, hfrac, hne⟩ := runs_append hm hp
  rw [decimal?_of_runs negative hrun hfrac hne, Text.digitsValue_eq]

/-- **A decimal has one value.** -/
theorem Says.unique {q q' : ℚ} (h : Says t q) (h' : Says t q') : q = q' := by
  obtain @⟨_, _, m, p, _, hm, hp⟩ := h
  generalize ht : m ++ p = t at h'
  obtain ⟨hm', hp'⟩ := h'
  obtain ⟨rest, hrun, hfrac, -⟩ := runs_append hm hp
  obtain ⟨rest', hrun', hfrac', -⟩ := runs_append hm' hp'
  rw [ht, hrun'] at hrun
  obtain ⟨rfl, rfl⟩ := Prod.mk.inj hrun
  rw [hfrac'] at hfrac
  obtain ⟨rfl, rfl⟩ := Prod.mk.inj hfrac
  rw [hp.unique hp']

theorem mantissa_of_runs {rest : Text} (hw : Digits whole)
    (hne : whole ++ (Numeral.fraction rest).1 ≠ []) :
    ∃ m, Mantissa whole (Numeral.fraction rest).1 m ∧
      whole ++ rest = m ++ (Numeral.fraction rest).2 := by
  unfold Numeral.fraction at hne ⊢
  split at hne
  · next u =>
    obtain ⟨hf, hu⟩ := digitRun_spec u
    rcases whole with _ | ⟨c, whole⟩
    · exact ⟨_, .fraction hf hne, congrArg (List.cons '.') hu.symm⟩
    · refine ⟨_, .pointed hw (List.cons_ne_nil c whole) hf, ?_⟩
      show _ = (c :: whole ++ '.' :: (digitRun u).1) ++ (digitRun u).2
      rw [List.append_assoc, List.cons_append (a := '.'), hu]
  · exact ⟨whole, .plain hw (by simpa using hne), rfl⟩

/-- **The decimals are the texts that are read as such.** -/
theorem isDecimal_iff : IsDecimal t ↔ ∃ n, decimal? negative t = some n := by
  constructor
  · rintro ⟨_, hm, hp⟩
    obtain ⟨e, he, -⟩ := hp.exponent?
    exact ⟨_, by rw [decimal?_append negative hm hp, he, Option.map_some]⟩
  · rintro ⟨n, h⟩
    unfold decimal? at h
    dsimp only at h
    split_ifs at h with hne
    obtain ⟨e, he, -⟩ := Option.map_eq_some_iff.mp h
    obtain ⟨hw, happ⟩ := digitRun_spec t
    obtain ⟨m, hm, ht⟩ := mantissa_of_runs hw hne
    obtain ⟨k, hk⟩ := power_of_exponent? he
    rw [← happ, ht]
    exact ⟨_, .intro hm hk⟩

end Decimals

end Numeral

/-! ### Bases other than ten -/

namespace Radix

/-- The letter after `0` that announces digits of a base. -/
def IsMark : Radix → Char → Prop
  | hexadecimal, c => c = 'x' ∨ c = 'X'
  | octal, c => c = 'o' ∨ c = 'O'
  | binary, c => c = 'b' ∨ c = 'B'

/-- A digit of a base. -/
def IsDigit : Radix → Char → Prop
  | hexadecimal, c => ('0' ≤ c ∧ c ≤ '9') ∨ ('a' ≤ c ∧ c ≤ 'f') ∨ ('A' ≤ c ∧ c ≤ 'F')
  | octal, c => '0' ≤ c ∧ c ≤ '7'
  | binary, c => c = '0' ∨ c = '1'

variable {r : Radix} {c : Char}

theorem ofMark?_eq_some_iff : ofMark? c = some r ↔ r.IsMark c := by
  constructor
  · intro h
    unfold ofMark? at h
    split_ifs at h with hx ho hb <;> obtain rfl := Option.some.inj h
    · exact hx
    · exact ho
    · exact hb
  · intro h
    cases r with
    | hexadecimal => rcases h with rfl | rfl <;> rfl
    | octal => rcases h with rfl | rfl <;> rfl
    | binary => rcases h with rfl | rfl <;> rfl

theorem toNat_of_le {c d : Char} : c ≤ d ↔ c.toNat ≤ d.toNat := Iff.rfl

theorem digit?_eq_some_iff : (∃ d, r.digit? c = some d) ↔ r.IsDigit c := by
  have hdigit : (∃ d, r.digit? c = some d) ↔
      (48 ≤ c.toNat ∧ c.toNat ≤ 57 ∧ c.toNat - 48 < r.base) ∨
        (97 ≤ c.toNat ∧ c.toNat ≤ 102 ∧ c.toNat - 87 < r.base) ∨
        (65 ≤ c.toNat ∧ c.toNat ≤ 70 ∧ c.toNat - 55 < r.base) := by
    simp only [digit?, Option.filter_eq_some_iff, toNat_of_le, Char.reduceToNat, decide_eq_true_eq]
    split_ifs <;> simp <;> omega
  rw [hdigit]
  cases r with
  | hexadecimal =>
    simp only [IsDigit, base, toNat_of_le, Char.reduceToNat]
    omega
  | octal =>
    simp only [IsDigit, base, toNat_of_le, Char.reduceToNat]
    omega
  | binary =>
    simp only [IsDigit, base, ← Char.toNat_inj, Char.reduceToNat]
    omega

theorem mapM_eq_some_iff {t : Text} :
    (∃ ds, t.mapM r.digit? = some ds) ↔ ∀ c ∈ t, r.IsDigit c := by
  induction t with
  | nil => exact ⟨fun _ => List.forall_mem_nil _, fun _ => ⟨[], rfl⟩⟩
  | cons c t ih =>
    rw [List.forall_mem_cons, ← ih, ← digit?_eq_some_iff]
    simp only [List.mapM_cons, Option.bind_eq_bind, Option.bind_eq_some_iff]
    constructor
    · rintro ⟨_, d, hd, ds, hds, -⟩
      exact ⟨⟨d, hd⟩, ds, hds⟩
    · rintro ⟨⟨d, hd⟩, ds, hds⟩
      exact ⟨_, d, hd, ds, hds, rfl⟩

end Radix

namespace Numeral

/-- **The grammar of numerals**: nothing, digits of another base, or a decimal or infinity with a
sign or none. -/
inductive IsNumeral : Text → Prop
  | blank : IsNumeral []
  | radix {r : Radix} {c : Char} {t : Text} (hc : r.IsMark c) (ht : ∀ d ∈ t, r.IsDigit d)
    (hne : t ≠ []) : IsNumeral ('0' :: c :: t)
  | signed {sign t : Text} (hs : sign = [] ∨ sign = ['+'] ∨ sign = ['-'])
    (ht : t = "Infinity".toList ∨ IsDecimal t) : IsNumeral (sign ++ t)

section Signs

variable {t : Text}

theorem exists_unsigned?_iff (negative : Bool) :
    (∃ n, unsigned? negative t = some n) ↔ t = "Infinity".toList ∨ IsDecimal t := by
  unfold unsigned?
  split_ifs with hinf
  · exact ⟨fun _ => .inl hinf, fun _ => ⟨_, rfl⟩⟩
  · rw [isDecimal_iff negative]
    exact ⟨.inr, fun h => h.resolve_left hinf⟩

/-- A decimal begins with a digit or a point. -/
theorem IsDecimal.exists_cons (h : IsDecimal t) : ∃ c u, t = c :: u ∧ (c.isDigit = true ∨ c = '.') := by
  obtain ⟨_, hm, hp⟩ := h
  cases hm with
  | plain hw hne | pointed hw hne _ =>
    obtain ⟨c, u, rfl⟩ := List.exists_cons_of_ne_nil hne
    exact ⟨c, _, rfl, .inl (hw c List.mem_cons_self)⟩
  | fraction => exact ⟨'.', _, rfl, .inr rfl⟩

/-- The letter of another base makes a text no decimal. -/
theorem signed?_of_mark {r : Radix} {c : Char} (h : r.IsMark c) (t : Text) :
    signed? ('0' :: c :: t) = none := by
  have hc : c.isDigit = false ∧ c ≠ '.' ∧ ¬ (c = 'e' ∨ c = 'E') := by
    cases r <;> rcases h with rfl | rfl <;> decide
  have hrun : digitRun ('0' :: c :: t) = (['0'], c :: t) := by
    refine digitRun_append (w := ['0']) (by simp [Digits]) fun d hd => ?_
    obtain rfl := Option.some.inj hd
    exact hc.1
  have hfrac : fraction (c :: t) = ([], c :: t) := by
    unfold fraction
    split
    · next heq => exact absurd (List.cons.inj heq).1 hc.2.1
    · rfl
  have hdec : decimal? false ('0' :: c :: t) = none := by
    rw [decimal?_of_runs false hrun hfrac (by simp), Numeral.exponent?, if_neg hc.2.2]
    rfl
  show unsigned? false ('0' :: c :: t) = none
  rw [unsigned?, if_neg (fun h => by cases h), hdec]

/-- Decimals and infinity do not begin with a sign. -/
theorem signed?_of_unsigned (h : t = "Infinity".toList ∨ IsDecimal t) :
    signed? t = unsigned? false t := by
  have hhead : ∃ c u, t = c :: u ∧ c ≠ '+' ∧ c ≠ '-' := by
    rcases h with rfl | h
    · exact ⟨_, _, rfl, by decide, by decide⟩
    · obtain ⟨c, u, rfl, hc⟩ := h.exists_cons
      rcases hc with hc | rfl
      · exact ⟨c, u, rfl, ne_of_isDigit hc rfl, ne_of_isDigit hc rfl⟩
      · exact ⟨_, u, rfl, by decide, by decide⟩
  obtain ⟨c, u, rfl, hplus, hminus⟩ := hhead
  unfold signed?
  split
  · next heq => exact absurd (List.cons.inj heq).1 hplus
  · next heq => exact absurd (List.cons.inj heq).1 hminus
  · rfl

theorem exists_signed?_iff :
    (∃ n, signed? t = some n) ↔ ∃ sign u, t = sign ++ u ∧
      (sign = [] ∨ sign = ['+'] ∨ sign = ['-']) ∧ (u = "Infinity".toList ∨ IsDecimal u) := by
  constructor
  · rintro ⟨n, h⟩
    unfold signed? at h
    split at h
    · exact ⟨['+'], _, rfl, .inr (.inl rfl), (exists_unsigned?_iff false).mp ⟨n, h⟩⟩
    · exact ⟨['-'], _, rfl, .inr (.inr rfl), (exists_unsigned?_iff true).mp ⟨n, h⟩⟩
    · exact ⟨[], t, rfl, .inl rfl, (exists_unsigned?_iff false).mp ⟨n, h⟩⟩
  · rintro ⟨sign, u, rfl, rfl | rfl | rfl, hu⟩
    · rw [List.nil_append, signed?_of_unsigned hu]
      exact (exists_unsigned?_iff false).mpr hu
    · exact (exists_unsigned?_iff false).mpr hu
    · exact (exists_unsigned?_iff true).mpr hu

theorem ofTrimmed?_of_mark {r : Radix} {c : Char} (h : r.IsMark c) (t : Text) :
    ofTrimmed? ('0' :: c :: t) = radix? r t := by
  simp only [ofTrimmed?, Radix.ofMark?_eq_some_iff.mpr h]

/-- What is read with a sign or none is read as a numeral. -/
theorem ofTrimmed?_of_signed? {n : Numeral} (h : signed? t = some n) : ofTrimmed? t = some n := by
  unfold ofTrimmed?
  split
  · cases h
  · split
    · next hr =>
      rw [signed?_of_mark (Radix.ofMark?_eq_some_iff.mp hr)] at h
      cases h
    · exact h
  · exact h

/-- A decimal with a minus or nothing before it is read as it is. -/
theorem ofTrimmed?_of_decimal {negative : Bool} {n : Numeral} (h : decimal? negative t = some n) :
    ofTrimmed? (if negative then '-' :: t else t) = some n := by
  have hdec : IsDecimal t := (isDecimal_iff negative).mpr ⟨n, h⟩
  have hunsigned : unsigned? negative t = some n := by
    have hinf : t ≠ infinityText := by
      rintro rfl
      obtain ⟨c, u, heq, hc⟩ := hdec.exists_cons
      obtain ⟨rfl, -⟩ := List.cons.inj heq
      rcases hc with hc | hc <;> cases hc
    rw [unsigned?, if_neg hinf, h]
  refine ofTrimmed?_of_signed? ?_
  cases negative with
  | false => exact (signed?_of_unsigned (.inr hdec)).trans hunsigned
  | true => exact hunsigned

/-- **The numerals are the texts that are read as such.** -/
theorem isNumeral_iff : IsNumeral t ↔ ∃ n, ofTrimmed? t = some n := by
  constructor
  · rintro (_ | ⟨hc, ht, hne⟩ | ⟨hs, ht⟩)
    · exact ⟨.blank, rfl⟩
    · obtain ⟨ds, hds⟩ := Radix.mapM_eq_some_iff.mpr ht
      rw [ofTrimmed?_of_mark hc, radix?, if_neg hne, hds]
      exact ⟨_, rfl⟩
    · obtain ⟨n, hn⟩ := exists_signed?_iff.mpr ⟨_, _, rfl, hs, ht⟩
      exact ⟨n, ofTrimmed?_of_signed? hn⟩
  · rintro ⟨n, h⟩
    have hsigned : (∃ n, signed? t = some n) → IsNumeral t := by
      rw [exists_signed?_iff]
      rintro ⟨sign, u, rfl, hs, hu⟩
      exact .signed hs hu
    unfold ofTrimmed? at h
    split at h
    · exact .blank
    · next c u =>
      split at h
      · next r hr =>
        unfold radix? at h
        split_ifs at h with hne
        obtain ⟨ds, hds, -⟩ := Option.map_eq_some_iff.mp h
        exact .radix (Radix.ofMark?_eq_some_iff.mp hr) (Radix.mapM_eq_some_iff.mp ⟨ds, hds⟩) hne
      · exact hsigned ⟨n, h⟩
    · exact hsigned ⟨n, h⟩

end Signs

/-! ### Numerals are numbers -/

open Binary64 in
theorem unsigned_foldl {base : Float} {m : Nat} {e : Int} {hm : 0 < m}
    (hbase : base.toModel.unpack = .finite .positive m e hm) (digits : List Nat) {x : Float}
    (hx : Unsigned x.toModel.unpack) :
    Unsigned (digits.foldl (fun x (d : Nat) => x * base + ofInt d) x).toModel.unpack := by
  induction digits generalizing x with
  | nil => exact hx
  | cons d digits ih => exact ih (unsigned_mul_add hx hbase (unsigned_ofInt d))

theorem exists_unpack_base (r : Radix) :
    ∃ m e h, (Binary64.ofInt r.base).toModel.unpack = .finite .positive m e h := by
  cases r <;> exact ⟨_, _, _, rfl⟩

/-- **A numeral says a number**, in binary64 too. -/
theorem isNaN_toFloat (n : Numeral) : n.toFloat.isNaN = false := by
  cases n with
  | blank => exact Binary64.isNaN_signed _ (Binary64.nearest_le _ _)
  | radix r digits =>
    obtain ⟨m, e, h, hbase⟩ := exists_unpack_base r
    exact (unsigned_foldl hbase digits (Binary64.unsigned_ofInt 0)).isNaN
  | infinity negative => exact Binary64.isNaN_signed _ le_rfl
  | decimal negative coeff exp => exact Binary64.isNaN_signed _ (Binary64.nearestDecimal_le _ _)

theorem isNaN_read_iff {t : Text} :
    (Binary64.read t).isNaN = false ↔ IsNumeral t.trim := by
  rw [isNumeral_iff, Binary64.read]
  show _ ↔ ∃ n, ofText? t = some n
  rcases ofText? t with _ | n
  · exact ⟨fun h => (by cases h), fun ⟨_, h⟩ => (by cases h)⟩
  · exact ⟨fun _ => ⟨n, rfl⟩, fun _ => isNaN_toFloat n⟩

theorem numeral?_eq_some_iff {t : Text} {x : Float} :
    Expression.numeral? t = some x ↔ Binary64.read t = x ∧ x.isFinite = true := by
  show (if (Binary64.read t).isFinite = true then some (Binary64.read t) else none) = some x ↔ _
  split_ifs with h
  · rw [Option.some.injEq]
    exact ⟨fun hx => ⟨hx, hx ▸ h⟩, fun hx => hx.1⟩
  · exact ⟨fun hx => (by cases hx), fun ⟨hx, hf⟩ => absurd (hx ▸ hf) h⟩

/-- **Reading accepts the grammar of numerals and nothing else.** A text is read as a number exactly
if it is a numeral without the blanks around it. The decimals of the grammar are the texts taken for
decimals, and none of them, as no other numeral, comes out as something that is not a number. A
literal is a numeral whose number is finite. -/
theorem read_accepts_grammar :
    (∀ t : Text, (Binary64.read t).isNaN = false ↔ IsNumeral t.trim) ∧
    (∀ (negative : Bool) (t : Text), IsDecimal t ↔
      ∃ n, decimal? negative t = some n ∧ n.toFloat.isNaN = false) ∧
    ∀ (t : Text) (x : Float), Expression.numeral? t = some x ↔
      IsNumeral t.trim ∧ Binary64.read t = x ∧ x.isFinite = true := by
  refine ⟨fun _ => isNaN_read_iff, fun negative t => ?_, fun t x => ?_⟩
  · rw [isDecimal_iff negative]
    exact ⟨fun ⟨n, h⟩ => ⟨n, h, isNaN_toFloat n⟩, fun ⟨n, h, _⟩ => ⟨n, h⟩⟩
  · rw [numeral?_eq_some_iff, ← isNaN_read_iff]
    constructor
    · rintro ⟨rfl, h⟩
      exact ⟨Binary64.isNaN_of_isFinite h, rfl, h⟩
    · rintro ⟨-, rfl, h⟩
      exact ⟨rfl, h⟩

end Numeral

end LessonScript
