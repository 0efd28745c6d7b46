import LessonScript.Proofs.Grammar
import LessonScript.Proofs.Lookup

/-! # The bounds of a range

What the arguments of a counting loop say, put without a word on how they are read: an integer *leads*
a text if the text is a sign or none, digits, and something that does not go on with a digit
(`Range.Leads`). The arguments are the pieces between commas (`Range.parts`), and each has to be led by
an integer that fits a signed 64-bit word.

Main statement: `arguments_exact`. -/

namespace LessonScript

namespace Range

open Numeral (Digits digitRun digitRun_append digitRun_spec)

/-! ### One bound -/

/-- **The integer that leads a text**: a sign or none, and the longest run of digits after it, of which
there is one at least. The text goes on in any way. -/
inductive Leads : Int → Text → Prop
  | plain {digits rest : Text} (hd : Digits digits) (hne : digits ≠ [])
    (hrest : ∀ c ∈ rest.head?, c.isDigit = false) :
    Leads (Nat.ofDigitChars 10 digits 0) (digits ++ rest)
  | positive {digits rest : Text} (hd : Digits digits) (hne : digits ≠ [])
    (hrest : ∀ c ∈ rest.head?, c.isDigit = false) :
    Leads (Nat.ofDigitChars 10 digits 0) ('+' :: (digits ++ rest))
  | negative {digits rest : Text} (hd : Digits digits) (hne : digits ≠ [])
    (hrest : ∀ c ∈ rest.head?, c.isDigit = false) :
    Leads (-(Nat.ofDigitChars 10 digits 0 : Nat)) ('-' :: (digits ++ rest))

section Bound

variable {t digits rest : Text} {n : Int}

theorem leadingNat?_append (hd : Digits digits) (hne : digits ≠ [])
    (hrest : ∀ c ∈ rest.head?, c.isDigit = false) :
    leadingNat? (digits ++ rest) = some (Nat.ofDigitChars 10 digits 0) := by
  have hrun : (digits ++ rest).takeWhile Char.isDigit = digits :=
    congrArg Prod.fst (digitRun_append hd hrest)
  rw [leadingNat?, hrun, ← Text.digitsValue_eq]
  rcases digits with _ | ⟨c, u⟩
  · exact absurd rfl hne
  · rfl

/-- A text that begins with a number is its longest run of digits and the rest. -/
theorem digits_of_leadingNat? {k : Nat} (h : leadingNat? t = some k) :
    ∃ digits rest, t = digits ++ rest ∧ Digits digits ∧ digits ≠ [] ∧
      (∀ c ∈ rest.head?, c.isDigit = false) ∧ k = Nat.ofDigitChars 10 digits 0 := by
  obtain ⟨hdigits, hsplit⟩ := digitRun_spec t
  have hstop : ∀ c ∈ (digitRun t).2.head?, c.isDigit = false := by
    intro c hc
    have hnot := List.head?_dropWhile_not Char.isDigit t
    rw [show (t.dropWhile Char.isDigit).head? = some c from hc] at hnot
    simpa using hnot
  unfold leadingNat? at h
  split at h
  · cases h
  · next hne =>
    obtain rfl := Option.some.inj h
    exact ⟨_, _, hsplit.symm, hdigits, hne, hstop, Text.digitsValue_eq _⟩

/-- **A bound is read as the integer that leads it**, and one that no integer leads is not read. -/
theorem leadingInt?_eq_some_iff : leadingInt? t = some n ↔ Leads n t := by
  constructor
  · intro h
    unfold leadingInt? at h
    split at h
    all_goals
      obtain ⟨k, hk, rfl⟩ := Option.map_eq_some_iff.mp h
      obtain ⟨digits, rest, rfl, hd, hne, hrest, rfl⟩ := digits_of_leadingNat? hk
    · exact .positive hd hne hrest
    · exact .negative hd hne hrest
    · exact .plain hd hne hrest
  · intro h
    cases h with
    | plain hd hne hrest =>
      have hread := leadingNat?_append hd hne hrest
      obtain ⟨c, u, rfl⟩ := List.exists_cons_of_ne_nil hne
      rw [List.cons_append] at hread ⊢
      rw [leadingInt?_of_isDigit (hd c List.mem_cons_self), hread]
      rfl
    | positive hd hne hrest | negative hd hne hrest =>
      rw [leadingInt?, leadingNat?_append hd hne hrest]
      rfl

theorem bound?_eq_some_iff : bound? t = some n ↔ Leads n t ∧ Fits n := by
  rw [bound?, Option.filter_eq_some_iff, leadingInt?_eq_some_iff, decide_eq_true_eq]

theorem bound?_eq_none_iff : bound? t = none ↔ ∀ n, Leads n t → ¬ Fits n := by
  simp only [Option.eq_none_iff_forall_ne_some, ne_eq, bound?_eq_some_iff, not_and]

end Bound

/-! ### The arguments -/

/-- The pieces of an argument text between its commas, each without the blanks around it. -/
def parts (t : Text) : List Text := (t.splitOn ',').map Text.trim

theorem ofParts?_eq_none_iff {ps : List Text} (hne : ps ≠ []) :
    ofParts? ps = none ↔ 2 < ps.length := by
  rcases ps with _ | ⟨p, _ | ⟨q, _ | ⟨r, ps⟩⟩⟩
  · exact absurd rfl hne
  · simp [ofParts?]
  · simp [ofParts?]
  · simp [ofParts?]

/-- One argument that cannot be read makes the range count nothing. -/
theorem ofParts?_of_unreadable {ps : List Text} {p : Text} {r : Range} (hp : p ∈ ps)
    (hb : bound? p = none) (h : ofParts? ps = some r) : r = nothing := by
  unfold ofParts? at h
  split at h
  · next stop =>
    obtain rfl := List.mem_singleton.mp hp
    rw [hb] at h
    exact (Option.some.inj h).symm
  · next start stop =>
    rcases List.mem_pair.mp hp with rfl | rfl
    · rw [hb] at h
      exact (Option.some.inj h).symm
    · simp only [hb, Option.map_none, Option.bind_fun_none] at h
      exact (Option.some.inj h).symm
  · cases h

section Arguments

variable {t u v left right : Text}

theorem parts_ne_nil (t : Text) : parts t ≠ [] := by
  rw [parts, Ne, List.map_eq_nil_iff]
  exact List.splitOn_ne_nil ',' t

theorem parts_of_not_mem (h : ',' ∉ t) : parts t = [t.trim] := by
  rw [parts, List.splitOn_eq_singleton h, List.map_singleton]

theorem parts_append (hu : ',' ∉ u) (hv : ',' ∉ v) : parts (u ++ ',' :: v) = [u.trim, v.trim] := by
  rw [parts, List.splitOn_append_cons_self_of_not_mem hu, List.splitOn_eq_singleton hv,
    List.map_cons, List.map_singleton]

theorem comma_not_mem_of_blank (h : ∀ c ∈ t, isBlank c = true) : ',' ∉ t := by
  intro hmem
  have hblank := h _ hmem
  cases hblank

/-- A blank argument text has one argument, and that is empty. -/
theorem parts_of_blank (h : t.trim = []) : parts t = [[]] := by
  rw [parts_of_not_mem (comma_not_mem_of_blank (Text.trim_eq_nil_iff.mp h)), h]

theorem Leads.ne_nil {n : Int} (h : Leads n t) : t ≠ [] := by
  cases h with
  | plain _ hne _ => exact List.append_ne_nil_of_left_ne_nil hne _
  | positive _ _ _ | negative _ _ _ => exact List.cons_ne_nil _ _

/-- Where an integer leads one of the arguments, the text is not blank. -/
theorem ofText?_of_leads {p : Text} {n : Int} (hp : p ∈ parts t) (h : Leads n p) :
    ofText? t = ofParts? (parts t) := by
  refine if_neg fun ht => ?_
  rw [parts_of_blank ht, List.mem_singleton] at hp
  exact h.ne_nil hp

theorem ofText?_eq_none_iff :
    ofText? t = none ↔ (∀ c ∈ t, isBlank c = true) ∨ 2 < (parts t).length := by
  rw [← Text.trim_eq_nil_iff, ← ofParts?_eq_none_iff (parts_ne_nil t)]
  by_cases h : t.trim = []
  · exact iff_of_true (if_pos h) (.inl h)
  · rw [or_iff_right h, ofText?, if_neg h]
    rfl

theorem ofText?_of_one {p : Text} {n : Int} (ht : parts t = [p]) (hp : Leads n p) (hn : Fits n) :
    ofText? t = some ⟨0, n⟩ := by
  rw [ofText?_of_leads (ht ▸ List.mem_singleton_self p) hp, ht, ofParts?,
    bound?_eq_some_iff.mpr ⟨hp, hn⟩]
  rfl

theorem ofText?_of_two {p q : Text} {a b : Int} (ht : parts t = [p, q]) (hp : Leads a p)
    (ha : Fits a) (hq : Leads b q) (hb : Fits b) : ofText? t = some ⟨a, b⟩ := by
  rw [ofText?_of_leads (ht ▸ List.mem_cons_self) hp, ht, ofParts?,
    bound?_eq_some_iff.mpr ⟨hp, ha⟩, bound?_eq_some_iff.mpr ⟨hq, hb⟩]
  rfl

theorem eq_nothing_of_unreadable {p : Text} {r : Range} (hp : p ∈ parts t)
    (hbad : ∀ n, Leads n p → ¬ Fits n) (h : ofText? t = some r) : r = nothing := by
  unfold ofText? at h
  split_ifs at h
  exact ofParts?_of_unreadable hp (bound?_eq_none_iff.mpr hbad) h

/-! ### Bounds in decimal -/

theorem leads_integerText (n : Int) : Leads n (integerText n) :=
  leadingInt?_eq_some_iff.mp (leadingInt?_integerText n)

theorem trim_integerText (n : Int) (hl : ∀ c ∈ left, isBlank c = true)
    (hr : ∀ c ∈ right, isBlank c = true) :
    (left ++ (integerText n ++ right)).trim = integerText n :=
  Text.trim_margins hl hr (integerText_ne_nil n) (Text.trim_of_no_blank isBlank_of_mem_integerText)

theorem comma_not_mem_margins (n : Int) (hl : ∀ c ∈ left, isBlank c = true)
    (hr : ∀ c ∈ right, isBlank c = true) : ',' ∉ left ++ (integerText n ++ right) := by
  simp only [List.mem_append, not_or]
  exact ⟨comma_not_mem_of_blank hl, comma_not_mem_integerText n, comma_not_mem_of_blank hr⟩

end Arguments

/-- **What the arguments of a range say.** They are at fault if they are blank or more than two, and in
no other case. Otherwise, if each is led by an integer that fits a signed 64-bit word, the range has
these bounds, the first being zero where there is one argument; what the arguments go on with does not
matter. If one of them is not, the range counts nothing. So the decimal texts of two bounds that fit,
with any blanks around them, are read back. -/
theorem arguments_exact :
    (∀ t : Text, ofText? t = none ↔ (∀ c ∈ t, isBlank c = true) ∨ 2 < (parts t).length) ∧
    (∀ (t p : Text) (n : Int), parts t = [p] → Leads n p → Fits n → ofText? t = some ⟨0, n⟩) ∧
    (∀ (t p q : Text) (a b : Int), parts t = [p, q] → Leads a p → Fits a → Leads b q → Fits b →
      ofText? t = some ⟨a, b⟩) ∧
    (∀ (t p : Text) (r : Range), p ∈ parts t → (∀ n, Leads n p → ¬ Fits n) → ofText? t = some r →
      r = nothing) ∧
    ∀ (r : Range) (m₁ m₂ m₃ m₄ : Text), (∀ c ∈ m₁ ++ m₂ ++ m₃ ++ m₄, isBlank c = true) →
      Fits r.start → Fits r.stop →
      ofText? (m₁ ++ (integerText r.start ++ m₂) ++ ',' :: (m₃ ++ (integerText r.stop ++ m₄))) =
        some r := by
  refine ⟨fun _ => ofText?_eq_none_iff, fun _ _ _ => ofText?_of_one, fun _ _ _ _ _ => ofText?_of_two,
    fun _ _ _ => eq_nothing_of_unreadable, fun r m₁ m₂ m₃ m₄ hm hstart hstop => ?_⟩
  simp only [List.forall_mem_append] at hm
  obtain ⟨⟨⟨h₁, h₂⟩, h₃⟩, h₄⟩ := hm
  have hparts := parts_append (comma_not_mem_margins r.start h₁ h₂)
    (comma_not_mem_margins r.stop h₃ h₄)
  rw [trim_integerText r.start h₁ h₂, trim_integerText r.stop h₃ h₄] at hparts
  exact ofText?_of_two hparts (leads_integerText _) hstart (leads_integerText _) hstop

example : ofText? "-9223372036854775808.5,\t+0009223372036854775807x ".toList =
    some ⟨-9223372036854775808, 9223372036854775807⟩ := by decide +kernel

end Range

end LessonScript
